import OrangeSQL.LogManager
import OrangeSQL.TransactionManager
import OrangeSQL.Library.AssocList

/-! Recovery by the transaction manager: the analysis of the log from its last checkpoint on, the
redo pass and the list of transactions to undo. The log is the map of the log manager in an
order of iteration, the same for all passes. -/
namespace OrangeSQL

open AssocList

/-- The log in the order in which its map is walked through. -/
abbrev Log := AList fun _ : LogSequenceNumber => LogRecord

abbrev LogEntry := Sigma fun _ : LogSequenceNumber => LogRecord

namespace Recovery

/-- What the analysis pass collects. -/
structure Analysis where
  txStates : AList fun _ : TransactionId => TransactionState
  txLastLsn : AList fun _ : TransactionId => LogSequenceNumber
  pageLsns : AList fun _ : PageId => LogSequenceNumber

/-- The greatest number of a CHECKPOINT record, zero if there is none. -/
def checkpointLsn (logs : Log) : LogSequenceNumber :=
  logs.entries.foldl (fun ckpt e => if e.2.type = .checkpoint ∧ ckpt < e.1 then e.1 else ckpt) 0

def analyse (ckpt : LogSequenceNumber) (a : Analysis) (e : LogEntry) : Analysis :=
  let tx := e.2.transactionId
  if e.1 < ckpt then a
  else match e.2.type with
  | .begin =>
    { a with
      txStates := a.txStates.insert tx .active
      txLastLsn := a.txLastLsn.insert tx e.1 }
  | .commit => { a with txStates := a.txStates.insert tx .committed }
  | .abort => { a with txStates := a.txStates.insert tx .aborted }
  | .insert | .update | .delete =>
    { a with
      txLastLsn := a.txLastLsn.insert tx e.1
      pageLsns := if e.2.pageId ≠ invalidPageId then a.pageLsns.insert e.2.pageId e.1
        else a.pageLsns }
  | _ => a

def analysis (logs : Log) : Analysis :=
  logs.entries.foldl (analyse (checkpointLsn logs)) ⟨∅,∅,∅⟩

/-- The test of the redo pass. -/
def redoes (ckpt : LogSequenceNumber) (a : Analysis) (e : LogEntry) : Bool :=
  !decide (e.1 < ckpt) &&
  decide (a.txStates.lookup e.2.transactionId = some .committed) &&
  ((a.pageLsns.lookup e.2.pageId).all fun lsn => decide (lsn < e.1))

/-- The calls that a recovery makes. -/
structure Calls where
  redoTransaction : List LogEntry
  undoTransaction : List TransactionId

/-- The transactions to undo are sorted, the latest first, so the order of `txStates` does not
show. Neither of the two calls changes anything. -/
def recover (logs : Log) : Calls :=
  let a := analysis logs
  let lastLsn (tx : TransactionId) : LogSequenceNumber := (a.txLastLsn.lookup tx).getD 0
  let activeTxs := (a.txStates.entries.filter fun s => s.2 = .active).map Sigma.fst
  { redoTransaction := logs.entries.filter (redoes (checkpointLsn logs) a)
    undoTransaction := activeTxs.mergeSort fun x y => decide (lastLsn y ≤ lastLsn x) }

end Recovery
end OrangeSQL
