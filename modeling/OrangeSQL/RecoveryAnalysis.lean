import OrangeSQL.Recovery

/-! What recovery undoes and redoes. The passes read the log in the order of a hash map, so the
state of a transaction is that of the record visited last and the LSN of a page is that of the
data record visited last. -/
namespace OrangeSQL
namespace Recovery

open AssocList

/-- BEGIN, COMMIT and ABORT set the state of their transaction. -/
def stateOf : LogRecordType → Option TransactionState
  | .begin => some .active
  | .commit => some .committed
  | .abort => some .aborted
  | _ => none

def isData : LogRecordType → Bool
  | .insert | .update | .delete => true
  | _ => false

/-- What a record from the checkpoint on enters into `txStates`. -/
def stateWrite (ckpt : LogSequenceNumber) (e : LogEntry) :
    Option (TransactionId × TransactionState) :=
  if e.1 < ckpt then none else (stateOf e.2.type).map fun s => (e.2.transactionId,s)

/-- What a record from the checkpoint on enters into `pageLsns`. -/
def pageWrite (ckpt : LogSequenceNumber) (e : LogEntry) : Option (PageId × LogSequenceNumber) :=
  if e.1 < ckpt then none
  else if isData e.2.type ∧ e.2.pageId ≠ invalidPageId then some (e.2.pageId,e.1) else none

theorem foldl_analyse (ckpt : LogSequenceNumber) (l : List LogEntry) :
    (l.foldl (analyse ckpt) ⟨∅,∅,∅⟩).txStates = writeAll (stateWrite ckpt) l ∧
    (l.foldl (analyse ckpt) ⟨∅,∅,∅⟩).pageLsns = writeAll (pageWrite ckpt) l := by
  induction l using List.reverseRecOn with
  | nil => exact ⟨rfl,rfl⟩
  | append_singleton l e ih =>
    rw [writeAll_append_singleton,writeAll_append_singleton,List.foldl_append,List.foldl_cons,
      List.foldl_nil,← ih.1,← ih.2]
    by_cases hold : e.1 < ckpt
    · simp [analyse,stateWrite,pageWrite,hold]
    · cases htype : e.2.type <;> by_cases hpage : e.2.pageId = invalidPageId <;>
        simp [analyse,stateWrite,pageWrite,hold,htype,stateOf,isData,hpage]

theorem mem_undo_iff (logs : Log) (tx : TransactionId) :
    tx ∈ (recover logs).undoTransaction ↔
      (analysis logs).txStates.lookup tx = some .active := by
  rw [recover,List.mem_mergeSort,List.mem_map]
  constructor
  · rintro ⟨s,hs,rfl⟩
    obtain ⟨hmem,hactive⟩ := List.mem_filter.mp hs
    rw [← of_decide_eq_true hactive]
    exact AList.mem_lookup_iff.mpr hmem
  · intro hlook
    exact ⟨⟨tx,.active⟩,List.mem_filter.mpr ⟨AList.mem_lookup_iff.mp hlook,by simp⟩,rfl⟩

section Undo

/-- A BEGIN record of the transaction from the checkpoint on. -/
def Begins (ckpt : LogSequenceNumber) (tx : TransactionId) (e : LogEntry) : Prop :=
  e.2.transactionId = tx ∧ e.2.type = .begin ∧ ckpt ≤ e.1

def Ends (tx : TransactionId) (e : LogEntry) : Prop :=
  e.2.transactionId = tx ∧ (e.2.type = .commit ∨ e.2.type = .abort)

def Works (tx : TransactionId) (e : LogEntry) : Prop :=
  e.2.transactionId = tx ∧ (e.2.type = .begin ∨ isData e.2.type)

def Finished (logs : Log) (tx : TransactionId) : Prop := ∃ e ∈ logs.entries, Ends tx e

/-- The log has a BEGIN or data record of the transaction, and neither COMMIT nor ABORT. -/
def Unfinished (logs : Log) (tx : TransactionId) : Prop :=
  (∃ e ∈ logs.entries, Works tx e) ∧ ¬ Finished logs tx

/-- Recovery undoes the unfinished transactions. -/
def UndoExact (logs : Log) : Prop :=
  ∀ tx, tx ∈ (recover logs).undoTransaction ↔ Unfinished logs tx

variable {ckpt : LogSequenceNumber} {tx : TransactionId} {e : LogEntry}

theorem stateWrite_active : stateWrite ckpt e = some (tx,.active) ↔ Begins ckpt tx e := by
  by_cases hold : e.1 < ckpt
  · simp [stateWrite,hold,Begins]
  · have hckpt : ckpt ≤ e.1 := Nat.le_of_not_lt hold
    cases htype : e.2.type <;> simp [stateWrite,hold,Begins,htype,stateOf,hckpt]

theorem stateWrite_of_ends (h : Ends tx e) (hckpt : ckpt ≤ e.1) :
    ∃ s, stateWrite ckpt e = some (tx,s) := by
  have hold : ¬ e.1 < ckpt := Nat.not_lt.mpr hckpt
  obtain ⟨htx,htype | htype⟩ := h
  · exact ⟨.committed,by simp [stateWrite,hold,htype,stateOf,htx]⟩
  · exact ⟨.aborted,by simp [stateWrite,hold,htype,stateOf,htx]⟩

theorem begins_or_ends {s : TransactionState} (h : stateWrite ckpt e = some (tx,s)) :
    Begins ckpt tx e ∨ Ends tx e ∧ ckpt ≤ e.1 := by
  by_cases hold : e.1 < ckpt
  · simp [stateWrite,hold] at h
  · have hckpt : ckpt ≤ e.1 := Nat.le_of_not_lt hold
    cases htype : e.2.type <;>
      simp [stateWrite,hold,htype,stateOf] at h <;>
      simp [Begins,Ends,htype,hckpt,h.1]

/-- A transaction is undone if the last record visited that sets its state is a BEGIN. -/
theorem mem_undo_iff_last (logs : Log) (tx : TransactionId) :
    tx ∈ (recover logs).undoTransaction ↔
      ∃ e, LastTo (stateWrite (checkpointLsn logs)) logs.entries tx e ∧
        Begins (checkpointLsn logs) tx e := by
  rw [mem_undo_iff,analysis,(foldl_analyse _ _).1]
  constructor
  · intro hlook
    obtain ⟨e,hlast,he⟩ := exists_lastTo_of_lookup hlook
    exact ⟨e,hlast,stateWrite_active.mp he⟩
  · rintro ⟨e,hlast,he⟩
    exact lookup_writeAll_of_lastTo hlast (stateWrite_active.mpr he)

/-- From the checkpoint on there is a BEGIN record of every unfinished transaction. -/
def BeginsSeen (logs : Log) : Prop :=
  ∀ tx, Unfinished logs tx → ∃ e ∈ logs.entries, Begins (checkpointLsn logs) tx e

/-- Every BEGIN record of a finished transaction is visited before a COMMIT or ABORT record of it,
both from the checkpoint on. -/
def EndsVisitedLater (logs : Log) : Prop :=
  ∀ tx, Finished logs tx → ∀ pre e post, logs.entries = pre++e::post →
    Begins (checkpointLsn logs) tx e → ∃ e' ∈ post, Ends tx e' ∧ checkpointLsn logs ≤ e'.1

/-- A BEGIN record with no end record behind it gets its transaction undone. -/
theorem mem_undo_of_no_end {logs : Log} {tx : TransactionId} {pre post : List LogEntry}
    {e : LogEntry} (hsplit : logs.entries = pre++e::post) (he : Begins (checkpointLsn logs) tx e)
    (hnone : ∀ e' ∈ post, Ends tx e' → ¬ checkpointLsn logs ≤ e'.1) :
    tx ∈ (recover logs).undoTransaction := by
  rw [mem_undo_iff_last]
  obtain ⟨x,s,hlast,hx⟩ := exists_lastTo (l := e::post) List.mem_cons_self (stateWrite_active.mpr he)
  have hwhole := hlast.prepend pre
  rw [← hsplit] at hwhole
  refine ⟨x,hwhole,?_⟩
  rcases List.mem_cons.mp hlast.mem with rfl | hpost
  · exact he
  · rcases begins_or_ends hx with hbegin | ⟨hend,hckpt⟩
    · exact hbegin
    · exact absurd hckpt (hnone x hpost hend)

theorem undoExact_iff_order (logs : Log) :
    UndoExact logs ↔ BeginsSeen logs ∧ EndsVisitedLater logs := by
  constructor
  · intro hexact
    constructor
    · intro tx hun
      obtain ⟨e,hlast,he⟩ := (mem_undo_iff_last logs tx).mp ((hexact tx).mpr hun)
      exact ⟨e,hlast.mem,he⟩
    · intro tx hfin pre e post hsplit he
      by_contra hnone
      have hundo := mem_undo_of_no_end hsplit he
        fun e' he' hend hckpt => hnone ⟨e',he',hend,hckpt⟩
      exact ((hexact tx).mp hundo).2 hfin
  · rintro ⟨hseen,hlater⟩ tx
    rw [mem_undo_iff_last]
    constructor
    · rintro ⟨e,hlast,he⟩
      refine ⟨⟨e,hlast.mem,he.1,Or.inl he.2.1⟩,?_⟩
      intro hfin
      obtain ⟨pre,post,hsplit,hpost⟩ := hlast
      obtain ⟨e',he',hend,hckpt⟩ := hlater tx hfin pre e post hsplit he
      obtain ⟨s,hs⟩ := stateWrite_of_ends hend hckpt
      exact hpost e' he' s hs
    · intro hun
      obtain ⟨e,hmem,he⟩ := hseen tx hun
      obtain ⟨x,s,hlast,hx⟩ := exists_lastTo hmem (stateWrite_active.mpr he)
      refine ⟨x,hlast,?_⟩
      rcases begins_or_ends hx with hbegin | ⟨hend,_⟩
      · exact hbegin
      · exact absurd ⟨x,hlast.mem,hend⟩ hun.2

end Undo

section Orders

variable {logs logs' : Log}

theorem checkpointLsn_perm (h : logs'.entries.Perm logs.entries) :
    checkpointLsn logs' = checkpointLsn logs := by
  have hswap : ∀ (p q : Prop) [Decidable p] [Decidable q] (a b c : ℕ),
      (let d := if p ∧ c < a then a else c; if q ∧ d < b then b else d) =
        let d := if q ∧ c < b then b else c; if p ∧ d < a then a else d := by
    intro p q _ _ a b c
    by_cases hp : p <;> by_cases hq : q <;> simp only [hp,hq,true_and,false_and,if_false]
    split_ifs <;> omega
  apply h.foldl_eq'
  intro x _ y _ ckpt
  exact hswap _ _ _ _ _

theorem finished_perm (h : logs'.entries.Perm logs.entries) (tx : TransactionId) :
    Finished logs' tx ↔ Finished logs tx := by
  simp only [Finished,h.mem_iff]

theorem unfinished_perm (h : logs'.entries.Perm logs.entries) (tx : TransactionId) :
    Unfinished logs' tx ↔ Unfinished logs tx := by
  simp only [Unfinished,Finished,h.mem_iff]

end Orders

/-- For one order of the log, recovery undoes exactly the unfinished transactions if it sees a
BEGIN of each of them and visits no BEGIN of a finished one after its end; it does so for all
orders of the log if there is no BEGIN of a finished one from the checkpoint on at all. -/
theorem undoExact_iff (logs : Log) :
    (UndoExact logs ↔ BeginsSeen logs ∧ EndsVisitedLater logs) ∧
    ((∀ logs' : Log, logs'.entries.Perm logs.entries → UndoExact logs') ↔
      BeginsSeen logs ∧
      ∀ tx, Finished logs tx → ∀ e ∈ logs.entries, ¬ Begins (checkpointLsn logs) tx e) := by
  refine ⟨undoExact_iff_order logs,?_⟩
  constructor
  · intro hall
    refine ⟨((undoExact_iff_order logs).mp (hall logs (List.Perm.refl _))).1,?_⟩
    intro tx hfin e he hbegin
    obtain ⟨logs',front,hperm,hlast⟩ := exists_perm_last he
    have hlater := ((undoExact_iff_order logs').mp (hall logs' hperm)).2
    rw [← checkpointLsn_perm hperm] at hbegin
    obtain ⟨e',he',_⟩ := hlater tx ((finished_perm hperm tx).mpr hfin) front e [] hlast hbegin
    cases he'
  · rintro ⟨hseen,hnone⟩ logs' hperm
    rw [undoExact_iff_order,BeginsSeen,EndsVisitedLater,checkpointLsn_perm hperm]
    constructor
    · intro tx hun
      obtain ⟨e,he,hbegin⟩ := hseen tx ((unfinished_perm hperm tx).mp hun)
      exact ⟨e,hperm.mem_iff.mpr he,hbegin⟩
    · intro tx hfin pre e post hsplit hbegin
      have hmem : e ∈ logs.entries := by
        rw [← hperm.mem_iff,hsplit]
        exact List.mem_append_right _ List.mem_cons_self
      exact absurd hbegin (hnone tx ((finished_perm hperm tx).mp hfin) e hmem)

/-- A log given by its entries in the order in which they are visited. -/
def visited (es : List LogEntry) (h : (es.map Sigma.fst).Nodup) : Log := ⟨es,h⟩

/-- An entry without payload. -/
def entry (lsn : LogSequenceNumber) (type : LogRecordType) (tx : TransactionId) (pid : PageId) :
    LogEntry := ⟨lsn,{ LogManager.makeRecord type tx pid none with lsn := lsn }⟩

/-- A transaction that began before the checkpoint and did not end is not undone; one that was
committed is undone if its COMMIT is visited before its BEGIN. -/
theorem undo_misses_and_overshoots :
    ¬ UndoExact (visited [entry 1 .begin 1 invalidPageId,entry 2 .checkpoint 0 invalidPageId]
      (by decide)) ∧
    ¬ UndoExact (visited [entry 2 .commit 1 invalidPageId,entry 1 .begin 1 invalidPageId]
      (by decide)) := by
  constructor
  · intro hexact
    have hends : ∀ e ∈ [entry 1 .begin 1 invalidPageId,entry 2 .checkpoint 0 invalidPageId],
        ¬ Ends 1 e := by
      simp [Ends,entry,LogManager.makeRecord]
    have hundo := (hexact 1).mpr
      ⟨⟨_,List.mem_cons_self,rfl,Or.inl rfl⟩,fun ⟨e,he,hend⟩ => hends e he hend⟩
    rw [mem_undo_iff] at hundo
    cases hundo
  · intro hexact
    have hun := (hexact 1).mp ((mem_undo_iff _ 1).mpr rfl)
    exact hun.2 ⟨_,List.mem_cons_self,rfl,Or.inl rfl⟩

section Redo

/-- A COMMIT record of the transaction. -/
def Commits (tx : TransactionId) (e : LogEntry) : Prop :=
  e.2.transactionId = tx ∧ e.2.type = .commit

/-- A data record from the checkpoint on whose transaction has a COMMIT record from there on. -/
def ToRedo (logs : Log) (e : LogEntry) : Prop :=
  (e ∈ logs.entries ∧ isData e.2.type ∧ checkpointLsn logs ≤ e.1) ∧
  ∃ c ∈ logs.entries, Commits e.2.transactionId c ∧ checkpointLsn logs ≤ c.1

/-- Recovery redoes all of these, and no data record of a transaction without COMMIT. -/
def RedoComplete (logs : Log) : Prop :=
  (∀ e, ToRedo logs e → e ∈ (recover logs).redoTransaction) ∧
  ∀ e ∈ (recover logs).redoTransaction, isData e.2.type →
    ∃ c ∈ logs.entries, Commits e.2.transactionId c

/-- From the checkpoint on, a COMMIT record of the transaction is visited after all its BEGIN and
ABORT records. -/
def CommitVisitedLast (logs : Log) (tx : TransactionId) : Prop :=
  ∃ pre c post, logs.entries = pre++c::post ∧ Commits tx c ∧ checkpointLsn logs ≤ c.1 ∧
    ∀ e ∈ post, e.2.transactionId = tx → checkpointLsn logs ≤ e.1 →
      e.2.type ≠ .begin ∧ e.2.type ≠ .abort

/-- The record names no page, or the data record of its page that is visited last, from the
checkpoint on, has a smaller number. -/
def PageVisitedBehind (logs : Log) (e : LogEntry) : Prop :=
  e.2.pageId = invalidPageId ∨
  ∃ pre d post, logs.entries = pre++d::post ∧ isData d.2.type ∧ checkpointLsn logs ≤ d.1 ∧
    d.2.pageId = e.2.pageId ∧ d.1 < e.1 ∧
    ∀ d' ∈ post, isData d'.2.type → checkpointLsn logs ≤ d'.1 → d'.2.pageId ≠ e.2.pageId

variable {ckpt : LogSequenceNumber}

theorem stateWrite_committed {tx : TransactionId} {e : LogEntry} :
    stateWrite ckpt e = some (tx,.committed) ↔ Commits tx e ∧ ckpt ≤ e.1 := by
  by_cases hold : e.1 < ckpt
  · simp [stateWrite,hold,Commits]
  · have hckpt : ckpt ≤ e.1 := Nat.le_of_not_lt hold
    cases htype : e.2.type <;> simp [stateWrite,hold,Commits,htype,stateOf,hckpt]

theorem stateWrite_ne_none {tx : TransactionId} {e : LogEntry} {s : TransactionState}
    (h : stateWrite ckpt e = some (tx,s)) : e.2.transactionId = tx ∧ ckpt ≤ e.1 ∧
      (e.2.type = .commit ∨ e.2.type = .begin ∨ e.2.type = .abort) := by
  rcases begins_or_ends h with hbegin | ⟨⟨htx,hend⟩,hckpt⟩
  · exact ⟨hbegin.1,hbegin.2.2,Or.inr (Or.inl hbegin.2.1)⟩
  · exact ⟨htx,hckpt,hend.imp_right Or.inr⟩

theorem pageWrite_eq_some {e : LogEntry} {p : PageId} {lsn : LogSequenceNumber} :
    pageWrite ckpt e = some (p,lsn) ↔
      isData e.2.type ∧ ckpt ≤ e.1 ∧ p ≠ invalidPageId ∧ e.2.pageId = p ∧ e.1 = lsn := by
  by_cases hold : e.1 < ckpt
  · simp [pageWrite,hold]
  · have hckpt : ckpt ≤ e.1 := Nat.le_of_not_lt hold
    simp only [pageWrite,hold,if_false]
    split_ifs with hdata
    · simp only [Option.some.injEq,Prod.mk.injEq,hckpt,true_and]
      constructor
      · rintro ⟨rfl,rfl⟩
        exact ⟨hdata.1,hdata.2,rfl,rfl⟩
      · rintro ⟨_,_,rfl,rfl⟩
        exact ⟨rfl,rfl⟩
    · refine iff_of_false (by simp) ?_
      rintro ⟨hd,_,hp,rfl,_⟩
      exact hdata ⟨hd,hp⟩

theorem committed_iff (logs : Log) (tx : TransactionId) :
    (analysis logs).txStates.lookup tx = some .committed ↔ CommitVisitedLast logs tx := by
  rw [analysis,(foldl_analyse _ _).1]
  constructor
  · intro hlook
    obtain ⟨c,⟨pre,post,hsplit,hpost⟩,hc⟩ := exists_lastTo_of_lookup hlook
    obtain ⟨hcommit,hckpt⟩ := stateWrite_committed.mp hc
    refine ⟨pre,c,post,hsplit,hcommit,hckpt,?_⟩
    intro e he htx hge
    constructor
    · intro htype
      exact hpost e he _ (stateWrite_active.mpr ⟨htx,htype,hge⟩)
    · intro htype
      obtain ⟨s,hs⟩ := stateWrite_of_ends ⟨htx,Or.inr htype⟩ hge
      exact hpost e he s hs
  · rintro ⟨pre,c,post,hsplit,hcommit,hckpt,hpost⟩
    have hc := stateWrite_committed.mpr ⟨hcommit,hckpt⟩
    obtain ⟨x,s,hlast,hx⟩ := exists_lastTo (l := c::post) List.mem_cons_self hc
    have hwhole := hlast.prepend pre
    rw [← hsplit] at hwhole
    apply lookup_writeAll_of_lastTo hwhole
    rcases List.mem_cons.mp hlast.mem with rfl | hin
    · exact hc
    · obtain ⟨htx,hge,htype⟩ := stateWrite_ne_none hx
      obtain ⟨hnbegin,hnabort⟩ := hpost x hin htx hge
      have hcommitted : x.2.type = .commit :=
        htype.resolve_right fun h => h.elim hnbegin hnabort
      exact stateWrite_committed.mpr ⟨⟨htx,hcommitted⟩,hge⟩

/-- For a data record from the checkpoint on, this is what the page test of the redo pass says. -/
theorem page_test_iff {logs : Log} {e : LogEntry} (hmem : e ∈ logs.entries)
    (hdata : isData e.2.type) (hckpt : checkpointLsn logs ≤ e.1) :
    ((analysis logs).pageLsns.lookup e.2.pageId).all (fun lsn => decide (lsn < e.1)) = true ↔
      PageVisitedBehind logs e := by
  rw [analysis,(foldl_analyse _ _).2]
  by_cases hpage : e.2.pageId = invalidPageId
  · refine iff_of_true ?_ (Or.inl hpage)
    cases hlook : (writeAll (pageWrite (checkpointLsn logs)) logs.entries).lookup e.2.pageId with
    | none => rfl
    | some lsn =>
      obtain ⟨d,_,hd⟩ := exists_lastTo_of_lookup hlook
      exact absurd hpage (pageWrite_eq_some.mp hd).2.2.1
  · have hwrite := pageWrite_eq_some.mpr ⟨hdata,hckpt,hpage,rfl,rfl⟩
    obtain ⟨d,lsn,hlast,hd⟩ := exists_lastTo hmem hwrite
    rw [lookup_writeAll_of_lastTo hlast hd]
    obtain ⟨hddata,hdckpt,_,hdpage,rfl⟩ := pageWrite_eq_some.mp hd
    simp only [Option.all_some,decide_eq_true_eq]
    constructor
    · intro hlt
      obtain ⟨pre,post,hsplit,hpost⟩ := hlast
      refine Or.inr ⟨pre,d,post,hsplit,hddata,hdckpt,hdpage,hlt,?_⟩
      intro d' hd' hdata' hckpt' hpage'
      exact hpost d' hd' _ (pageWrite_eq_some.mpr ⟨hdata',hckpt',hpage,hpage',rfl⟩)
    · rintro (hinvalid | ⟨pre,x,post,hsplit,hxdata,hxckpt,hxpage,hlt,hpost⟩)
      · exact absurd hinvalid hpage
      · have hx := pageWrite_eq_some.mpr ⟨hxdata,hxckpt,hpage,hxpage,rfl⟩
        have hxlast : LastTo (pageWrite (checkpointLsn logs)) logs.entries e.2.pageId x := by
          refine ⟨pre,post,hsplit,?_⟩
          intro d' hd' lsn' hwrite'
          obtain ⟨hdata',hckpt',_,hpage',_⟩ := pageWrite_eq_some.mp hwrite'
          exact hpost d' hd' hdata' hckpt' hpage'
        have hsame := (lookup_writeAll_of_lastTo hlast hd).symm.trans
          (lookup_writeAll_of_lastTo hxlast hx)
        rw [Option.some.inj hsame]
        exact hlt

theorem mem_redo_iff {logs : Log} {e : LogEntry} (hmem : e ∈ logs.entries)
    (hdata : isData e.2.type) (hckpt : checkpointLsn logs ≤ e.1) :
    e ∈ (recover logs).redoTransaction ↔
      CommitVisitedLast logs e.2.transactionId ∧ PageVisitedBehind logs e := by
  rw [recover,List.mem_filter,redoes,Bool.and_eq_true,Bool.and_eq_true,page_test_iff hmem hdata hckpt,
    decide_eq_true_eq,committed_iff]
  have hnew : (!decide (e.1 < checkpointLsn logs)) = true := by
    simpa using hckpt
  simp only [hmem,hnew,true_and]

/-- Whatever is redone belongs to a transaction with a COMMIT record. -/
theorem commits_of_mem_redo {logs : Log} {e : LogEntry}
    (h : e ∈ (recover logs).redoTransaction) :
    ∃ c ∈ logs.entries, Commits e.2.transactionId c := by
  rw [recover,List.mem_filter,redoes,Bool.and_eq_true,Bool.and_eq_true,decide_eq_true_eq,
    committed_iff] at h
  obtain ⟨_,⟨_,pre,c,post,hsplit,hcommit,_⟩,_⟩ := h
  refine ⟨c,?_,hcommit⟩
  rw [hsplit]
  exact List.mem_append_right _ List.mem_cons_self

theorem redoComplete_iff_order (logs : Log) :
    RedoComplete logs ↔
      ∀ e, ToRedo logs e →
        CommitVisitedLast logs e.2.transactionId ∧ PageVisitedBehind logs e := by
  constructor
  · rintro ⟨hredo,_⟩ e he
    exact (mem_redo_iff he.1.1 he.1.2.1 he.1.2.2).mp (hredo e he)
  · intro hvisited
    refine ⟨?_,fun e he _ => commits_of_mem_redo he⟩
    intro e he
    exact (mem_redo_iff he.1.1 he.1.2.1 he.1.2.2).mpr (hvisited e he)

theorem toRedo_perm {logs logs' : Log} (h : logs'.entries.Perm logs.entries) (e : LogEntry) :
    ToRedo logs' e ↔ ToRedo logs e := by
  simp only [ToRedo,h.mem_iff,checkpointLsn_perm h]

/-- If the record is visited last, no data record of its page comes behind it. -/
theorem no_page_of_all_orders {logs : Log} {e : LogEntry} (he : ToRedo logs e)
    (hall : ∀ logs' : Log, logs'.entries.Perm logs.entries → PageVisitedBehind logs' e) :
    e.2.pageId = invalidPageId := by
  by_contra hpage
  obtain ⟨logs',front,hperm,hend⟩ := exists_perm_last he.1.1
  rcases hall logs' hperm with hinvalid | ⟨pre,d,post,hsplit,_,_,_,hlt,hpost⟩
  · exact hpage hinvalid
  · rcases eq_or_mem_of_append_singleton (hend.symm.trans hsplit) with rfl | hin
    · exact lt_irrefl _ hlt
    · refine hpost e hin he.1.2.1 ?_ rfl
      rw [checkpointLsn_perm hperm]
      exact he.1.2.2

/-- If a BEGIN or ABORT record is visited last, no COMMIT record comes behind it. -/
theorem no_begin_or_abort_of_all_orders {logs : Log} {tx : TransactionId}
    (hall : ∀ logs' : Log, logs'.entries.Perm logs.entries → CommitVisitedLast logs' tx)
    {b : LogEntry} (hb : b ∈ logs.entries) (htx : b.2.transactionId = tx)
    (hckpt : checkpointLsn logs ≤ b.1) : b.2.type ≠ .begin ∧ b.2.type ≠ .abort := by
  obtain ⟨logs',front,hperm,hend⟩ := exists_perm_last hb
  obtain ⟨pre,c,post,hsplit,hcommit,_,hpost⟩ := hall logs' hperm
  rcases eq_or_mem_of_append_singleton (hend.symm.trans hsplit) with rfl | hin
  · rw [hcommit.2]
    decide
  · refine hpost b hin htx ?_
    rw [checkpointLsn_perm hperm]
    exact hckpt

theorem commitVisitedLast_of_no_begin_or_abort {logs : Log} {tx : TransactionId}
    (hcommit : ∃ c ∈ logs.entries, Commits tx c ∧ checkpointLsn logs ≤ c.1)
    (hnone : ∀ b ∈ logs.entries, b.2.transactionId = tx → checkpointLsn logs ≤ b.1 →
      b.2.type ≠ .begin ∧ b.2.type ≠ .abort) : CommitVisitedLast logs tx := by
  obtain ⟨c,hc,hcommits,hckpt⟩ := hcommit
  obtain ⟨pre,post,hsplit⟩ := List.append_of_mem hc
  refine ⟨pre,c,post,hsplit,hcommits,hckpt,?_⟩
  intro b hb
  apply hnone
  rw [hsplit]
  exact List.mem_append_right _ (List.mem_cons_of_mem _ hb)

/-- For one order of the log, the redo pass is complete if for each record to be redone a COMMIT is
visited after every BEGIN and ABORT of the transaction and the last visited data record of its
page has a smaller number; it is complete for all orders only if the records to be redone name
no page and their transactions have no BEGIN or ABORT from the checkpoint on. -/
theorem redoComplete_iff (logs : Log) :
    (RedoComplete logs ↔
      ∀ e, ToRedo logs e →
        CommitVisitedLast logs e.2.transactionId ∧ PageVisitedBehind logs e) ∧
    ((∀ logs' : Log, logs'.entries.Perm logs.entries → RedoComplete logs') ↔
      ∀ e, ToRedo logs e → e.2.pageId = invalidPageId ∧
        ∀ b ∈ logs.entries, b.2.transactionId = e.2.transactionId → checkpointLsn logs ≤ b.1 →
          b.2.type ≠ .begin ∧ b.2.type ≠ .abort) := by
  refine ⟨redoComplete_iff_order logs,?_⟩
  constructor
  · intro hall e he
    have hvisited : ∀ logs' : Log, logs'.entries.Perm logs.entries →
        CommitVisitedLast logs' e.2.transactionId ∧ PageVisitedBehind logs' e := by
      intro logs' hperm
      exact (redoComplete_iff_order logs').mp (hall logs' hperm) e ((toRedo_perm hperm e).mpr he)
    constructor
    · exact no_page_of_all_orders he fun logs' hperm => (hvisited logs' hperm).2
    · intro b hb htx hckpt
      exact no_begin_or_abort_of_all_orders (fun logs' hperm => (hvisited logs' hperm).1) hb htx
        hckpt
  · intro hnone logs' hperm
    rw [redoComplete_iff_order]
    intro e he
    obtain ⟨hpage,hstates⟩ := hnone e ((toRedo_perm hperm e).mp he)
    refine ⟨commitVisitedLast_of_no_begin_or_abort he.2 ?_,Or.inl hpage⟩
    intro b hb htx hge
    rw [checkpointLsn_perm hperm] at hge
    exact hstates b (hperm.mem_iff.mp hb) htx hge

/-- No transaction has two COMMIT records. -/
def OneCommit (logs : Log) : Prop :=
  ∀ tx, ∀ c ∈ logs.entries, ∀ c' ∈ logs.entries, Commits tx c → Commits tx c' → c = c'

def oneInsert : Log :=
  visited [entry 1 .begin 1 invalidPageId,entry 2 .insert 1 7,entry 3 .commit 1 invalidPageId]
    (by decide)

/-- The insertion of a committed transaction is not redone, the log being visited in its order. -/
theorem committed_insert_not_redone : OneCommit oneInsert ∧ ¬ RedoComplete oneInsert := by
  constructor
  · intro tx
    simp [oneInsert,visited,Commits,entry,LogManager.makeRecord]
  rintro ⟨hredo,-⟩
  have hin := hredo (entry 2 .insert 1 7)
    ⟨⟨List.mem_cons_of_mem _ List.mem_cons_self,rfl,by decide⟩,entry 3 .commit 1 invalidPageId,
      List.mem_cons_of_mem _ (List.mem_cons_of_mem _ List.mem_cons_self),⟨rfl,rfl⟩,by decide⟩
  have htest := (List.mem_filter.mp hin).2
  cases htest

end Redo

end Recovery
end OrangeSQL
