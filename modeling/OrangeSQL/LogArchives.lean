import OrangeSQL.LogBuffering

/-! Archives of the log and their deletion. An archive is a file named after the range of numbers
that was copied into it; what is deleted is the file that the log manager looks a number up in, and
that is the log file for all numbers. -/
namespace OrangeSQL

open Bytes

namespace LogManager

def logDir : String := "data/wal"

/-- `log_filename_` -/
def logFilename : String := logDir++"/orangesql.log"

/-- All numbers are in one file. -/
def getLogFileName (_lsn : LogSequenceNumber) : String := logFilename

def archiveName (start finish : LogSequenceNumber) : String :=
  logDir++"/archive_"++toString start++"_"++toString finish++".log"

/-- The records of the range that are in the map, in the order of their numbers. -/
def archiveBytes (m : LogManager) (start finish : LogSequenceNumber) : List UInt8 :=
  (List.range' start (finish+1-start)).flatMap fun lsn =>
    (m.logBuffer.lookup lsn).elim [] serializeRecord

end LogManager

/-- The log manager and the files by their names. The manager has the log file open, and goes on
writing to it when its name is gone; `archived` is the history of the archives that were made. -/
structure LogDirectory where
  manager : LogManager
  files : Finmap (fun _ : String => List UInt8)
  archived : List (LogSequenceNumber × LogSequenceNumber)

namespace LogDirectory

open LogManager

/-- `init` on a directory: it creates the log file or opens the one that is there. -/
def init (mode : LogMode) (unset : Fin 8 → UInt8) (creatable : Bool)
    (files : Finmap (fun _ : String => List UInt8)) : Except InitError LogDirectory := do
  let m ← (LogManager.new mode).init unset (files.lookup logFilename) creatable
  return ⟨m,files.insert logFilename m.logFile.content,[]⟩

/-- What the manager wrote is in the log file, if the file still has its name. -/
def withManager (d : LogDirectory) (m : LogManager) : LogDirectory :=
  { d with
    manager := m
    files := if logFilename ∈ d.files then d.files.insert logFilename m.logFile.content
      else d.files }

/-- `opens` says whether the file for the archive can be written; what it held is lost. -/
def archiveLog (d : LogDirectory) (start finish : LogSequenceNumber) (opens : Bool) :
    Bool × LogDirectory :=
  if opens then
    (true,{ d with
      files := d.files.insert (archiveName start finish) (d.manager.archiveBytes start finish)
      archived := (start,finish)::d.archived })
  else (false,d)

/-- `std::remove` -/
def remove (d : LogDirectory) (name : String) : LogDirectory :=
  { d with files := d.files.erase name }

/-- The loop of `deleteArchivedLogs` from a number on. -/
def deleteFrom (d : LogDirectory) (before lsn : ℕ) : LogDirectory :=
  if lsn < before then deleteFrom (d.remove (getLogFileName lsn)) before (lsn+1000) else d
termination_by before-lsn
decreasing_by omega

def deleteArchivedLogs (d : LogDirectory) (before : LogSequenceNumber) : Bool × LogDirectory :=
  (true,d.deleteFrom before 1)

/-- The calls of a run before archives are deleted. -/
inductive Op
  | append (r : LogRecord) (now : ℤ)
  | appendFields (type : LogRecordType) (tx : TransactionId) (pid : PageId)
      (data : Option (List UInt8)) (now : ℤ)
  | flush (lsn : LogSequenceNumber)
  | flushAll
  | archiveLog (start finish : LogSequenceNumber) (opens : Bool)

def Op.run (d : LogDirectory) : Op → LogDirectory
  | .append r now => d.withManager (d.manager.appendLogRecord r now).2
  | .appendFields type tx pid data now =>
    d.withManager (d.manager.appendFields type tx pid data now).2
  | .flush lsn => d.withManager (d.manager.flush lsn)
  | .flushAll => d.withManager d.manager.flushAll
  | .archiveLog start finish opens => (d.archiveLog start finish opens).2

def run (d : LogDirectory) (ops : List Op) : LogDirectory := ops.foldl Op.run d

/-- Every file that a deletion removes is an archive of numbers below the bound, and not the log
file. -/
def DeletesArchivesOnly (d : LogDirectory) (before : LogSequenceNumber) : Prop :=
  ∀ name ∈ d.files, name ∉ (d.deleteArchivedLogs before).2.files → name ≠ logFilename ∧
    ∃ start finish, (start,finish) ∈ d.archived ∧ finish < before ∧ name = archiveName start finish

section Runs

/-- The log file has its name. -/
def Linked (d : LogDirectory) : Prop := logFilename ∈ d.files

theorem Linked.withManager {d : LogDirectory} (h : d.Linked) (m : LogManager) :
    (d.withManager m).Linked := by
  rw [Linked,LogDirectory.withManager]
  dsimp only
  rw [if_pos (by exact h)]
  exact Finmap.mem_insert.mpr (Or.inl rfl)

theorem Linked.run_op {d : LogDirectory} (h : d.Linked) (op : Op) : (op.run d).Linked := by
  cases op with
  | append r now => exact h.withManager _
  | appendFields type tx pid data now => exact h.withManager _
  | flush lsn => exact h.withManager _
  | flushAll => exact h.withManager _
  | archiveLog start finish opens =>
    cases opens with
    | false => exact h
    | true => exact Finmap.mem_insert.mpr (Or.inr h)

theorem Linked.run {d : LogDirectory} (h : d.Linked) (ops : List Op) : (d.run ops).Linked := by
  induction ops generalizing d with
  | nil => exact h
  | cons op ops ih => exact ih (h.run_op op)

theorem linked_init {mode : LogMode} {unset : Fin 8 → UInt8} {creatable : Bool}
    {files : Finmap (fun _ : String => List UInt8)} {d : LogDirectory}
    (h : init mode unset creatable files = .ok d) : d.Linked := by
  rw [init] at h
  cases hm : (LogManager.new mode).init unset (files.lookup logFilename) creatable with
  | error e =>
    rw [hm] at h
    cases h
  | ok m =>
    rw [hm] at h
    rw [← Except.ok.inj h]
    exact Finmap.mem_insert.mpr (Or.inl rfl)

end Runs

section Deletion

/-- The loop removes the log file in its first round; the other rounds remove nothing. -/
theorem deleteFrom_files (d : LogDirectory) (before lsn : ℕ) :
    (d.deleteFrom before lsn).files =
      if lsn < before then d.files.erase logFilename else d.files := by
  induction d, lsn using deleteFrom.induct before with
  | case1 d lsn hlt ih =>
    have herase : (d.files.erase logFilename).erase logFilename = d.files.erase logFilename := by
      apply Finmap.ext_lookup
      intro name
      by_cases hname : name = logFilename
      · rw [hname,Finmap.lookup_erase,Finmap.lookup_erase]
      · rw [Finmap.lookup_erase_ne hname]
    rw [deleteFrom,if_pos hlt,if_pos hlt,ih]
    split
    · exact herase
    · rfl
  | case2 d lsn hlt => rw [deleteFrom,if_neg hlt,if_neg hlt]

/-- Archives stay, whatever the bound is. -/
theorem archive_stays (d : LogDirectory) (before : LogSequenceNumber) {name : String}
    (hname : name ≠ logFilename) (h : name ∈ d.files) :
    name ∈ (d.deleteArchivedLogs before).2.files := by
  rw [deleteArchivedLogs,deleteFrom_files]
  split
  · exact Finmap.mem_erase.mpr ⟨hname,h⟩
  · exact h

theorem Linked.not_deletesArchivesOnly {d : LogDirectory} (h : d.Linked)
    {before : LogSequenceNumber} (hbefore : 1 < before) : ¬d.DeletesArchivesOnly before := by
  intro honly
  have hgone : logFilename ∉ (d.deleteArchivedLogs before).2.files := by
    rw [deleteArchivedLogs,deleteFrom_files,if_pos hbefore]
    exact Finmap.notMem_erase_self
  exact (honly logFilename h hgone).1 rfl

/-- The log file goes with every bound that lets the loop begin. -/
theorem deletesArchivesOnly_iff (mode : LogMode) (unset : Fin 8 → UInt8) (creatable : Bool)
    (files : Finmap (fun _ : String => List UInt8)) (d : LogDirectory)
    (hinit : init mode unset creatable files = .ok d) (ops : List Op)
    (before : LogSequenceNumber) : (d.run ops).DeletesArchivesOnly before ↔ before ≤ 1 := by
  constructor
  · intro honly
    by_contra hbefore
    exact ((linked_init hinit).run ops).not_deletesArchivesOnly (Nat.not_le.mp hbefore) honly
  · intro hbefore name hname hgone
    rw [deleteArchivedLogs,deleteFrom_files,if_neg (Nat.not_lt.mpr hbefore)] at hgone
    exact absurd hname hgone

/-- An archive was made, and nothing is below the first number. -/
theorem deletesArchivesOnly_iff_one : ∃ d, init .normal (fun _ => 0) true ∅ = .ok d ∧
    (d.run [.appendFields .begin 1 0 none 0,.flushAll,.archiveLog 1 1 true]).DeletesArchivesOnly 1 :=
  ⟨_,rfl,(deletesArchivesOnly_iff .normal (fun _ => 0) true ∅ _ rfl
    [.appendFields .begin 1 0 none 0,.flushAll,.archiveLog 1 1 true] 1).mpr le_rfl⟩

/-- The log holds the records 1 and 2; what is below 2 is to be deleted. -/
theorem not_deletesArchivesOnly_two : ∃ d, init .normal (fun _ => 0) true ∅ = .ok d ∧
    ¬(d.run [.appendFields .begin 1 0 none 0,.appendFields .commit 1 0 none 0,.flushAll,
      .archiveLog 1 1 true]).DeletesArchivesOnly 2 := by
  have hinit : init .normal (fun _ => 0) true ∅ = .ok _ := rfl
  exact ⟨_,hinit,((linked_init hinit).run _).not_deletesArchivesOnly (Nat.lt_succ_self 1)⟩

end Deletion

end LogDirectory
end OrangeSQL
