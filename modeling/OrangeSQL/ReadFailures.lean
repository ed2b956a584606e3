import OrangeSQL.FilePages
import OrangeSQL.Library.ByteReader

/-! Reads of one file after reads that failed. The stream of a file is opened once and kept; a read
past the end puts it into its error state, and nothing takes it out again. -/
namespace OrangeSQL
namespace FileManager

open Bytes

/-- Calls of `readPage` on one file, each with the path that the hash map begins with. -/
def readPages (m : FileManager) (filename : String) (calls : List (String × PageId)) :
    FileManager :=
  calls.foldl (fun m c => (m.readPage c.1 filename c.2).2) m

/-- The block that a page id stands for in 64 bits lies inside the file. -/
def BlockInside (file : DiskFile) (pid : PageId) : Prop :=
  pageOffset pid+pageSize ≤ file.content.length

instance (file : DiskFile) (pid : PageId) : Decidable (BlockInside file pid) :=
  inferInstanceAs (Decidable (_ ≤ _))

/-- The handle that the next read of the file uses: the one in the cache, or a new one. -/
def Serves (m : FileManager) (filename : String) (handle : FileHandle) : Prop :=
  m.openFiles.lookup (m.pathOf filename) = some handle ∨
    m.openFiles.lookup (m.pathOf filename) = none ∧ handle = ⟨m.pathOf filename,.read,false⟩

section Handle

variable {handle : FileHandle} {fs : FileSystem} {file : DiskFile}

/-- A read fails past the end, and fails on a stream that has failed. -/
theorem read_failed_iff (hin : handle.mode.isIn = true) (hfile : fs handle.filename = some file)
    (hsize : file.content.length < FileHandle.seekLimit) (offset : ℕ) {size : ℕ} (h : 0 < size) :
    (handle.read fs offset size).2.failed = true ↔
      handle.failed = true ∨ ¬offset+size ≤ file.content.length := by
  rw [FileHandle.read]
  split
  · next hfailed => simp [hfailed]
  · next hfailed =>
    split
    · next hseek =>
      rw [hin] at hseek
      simp only [Bool.true_eq_false,or_false] at hseek
      simp only [true_iff]
      omega
    · simp only [hfile,Option.elim_some,ne_eq,decide_eq_true_eq,hfailed,false_or,Bool.false_eq_true,
        slice_length_iff file.content offset h]

theorem read_fails (hfailed : handle.failed = true) (offset size : ℕ) :
    (handle.read fs offset size).1 = (false,[]) := by
  rw [FileHandle.read,if_pos hfailed]

end Handle

section Calls

variable {m : FileManager} {filename : String} {file : DiskFile}

/-- A read through the handle that serves the file. -/
theorem readPage_serves {handle : FileHandle} (hfile : m.files (m.pathOf filename) = some file)
    (hr : file.readable = true) (hs : m.Serves filename handle) (first : String) (pid : PageId) :
    (m.readPage first filename pid).1 = (handle.read m.files (pageOffset pid) pageSize).1 ∧
      (m.readPage first filename pid).2.workDir = m.workDir ∧
      (m.readPage first filename pid).2.files = m.files ∧
      (m.readPage first filename pid).2.openFiles.lookup (m.pathOf filename) =
        some (handle.read m.files (pageOffset pid) pageSize).2 := by
  rcases hs with hcached | ⟨hnone,rfl⟩
  · simp only [readPage,openFile_cached hcached,FileManager.store,pathOf,AList.lookup_insert]
    trivial
  · have hnew : FileHandle.new m.files (m.pathOf filename) .read =
        (some ⟨m.pathOf filename,.read,false⟩,m.files) := by
      simp [FileHandle.new,hfile,hr]
    simp only [readPage,openFile_new hnone hnew,FileManager.store,pathOf,AList.lookup_insert]
    trivial

/-- What serves the file after a run of reads: a stream for reading that has failed if one of the
blocks was not inside. -/
theorem readPages_serves (hfile : m.files (m.pathOf filename) = some file)
    (hr : file.readable = true) (hsize : file.content.length < FileHandle.seekLimit)
    {handle : FileHandle} (hs : m.Serves filename handle)
    (hname : handle.filename = m.pathOf filename) (hmode : handle.mode = .read)
    (calls : List (String × PageId)) :
    (m.readPages filename calls).workDir = m.workDir ∧
      (m.readPages filename calls).files = m.files ∧
      ∃ handle', (m.readPages filename calls).Serves filename handle' ∧
        handle'.filename = m.pathOf filename ∧ handle'.mode = .read ∧
        (handle'.failed = true ↔
          handle.failed = true ∨ ∃ c ∈ calls, ¬BlockInside file c.2) := by
  induction calls generalizing m handle with
  | nil => exact ⟨rfl,rfl,handle,hs,hname,hmode,by simp⟩
  | cons c calls ih =>
    obtain ⟨-,hdir,hfiles,hlook⟩ := readPage_serves hfile hr hs c.1 c.2
    have hpath : (m.readPage c.1 filename c.2).2.pathOf filename = m.pathOf filename := by
      rw [pathOf,pathOf,hdir]
    have hstep := read_failed_iff (by rw [hmode]; rfl) (hname ▸ hfile) hsize (pageOffset c.2)
      (show 0 < pageSize by decide)
    obtain ⟨hdir',hfiles',handle',hs',hname',hmode',hfailed⟩ :=
      ih (by rw [hpath,hfiles,hfile]) (Or.inl (by rw [hpath,hlook]))
        (by rw [read_filename,hpath,hname]) (by rw [read_mode,hmode])
    refine ⟨hdir'.trans hdir,hfiles'.trans hfiles,handle',hs',hname'.trans hpath,hmode',?_⟩
    rw [hfailed,hstep,or_assoc,List.exists_mem_cons_iff]
    rfl

/-- A file that may not be read has no handle, however often it is tried. -/
theorem readPages_unreadable (hfile : m.files (m.pathOf filename) = some file)
    (hr : file.readable = false) (hclosed : m.openFiles.lookup (m.pathOf filename) = none)
    (calls : List (String × PageId)) (first : String) (pid : PageId) :
    ((m.readPages filename calls).readPage first filename pid).1 = (false,[]) := by
  have hnew : FileHandle.new m.files (m.pathOf filename) .read = (none,m.files) := by
    simp [FileHandle.new,hfile,hr]
  induction calls generalizing m with
  | nil =>
    rw [readPages,List.foldl_nil,readPage,openFile_none hclosed hnew]
  | cons c calls ih =>
    have hstep : (m.readPage c.1 filename c.2).2 = { m with openFiles := m.makeRoom c.1 } := by
      rw [readPage,openFile_none hclosed hnew]
    have hclosed' : (m.makeRoom c.1).lookup (m.pathOf filename) = none := by
      rcases m.lookup_makeRoom c.1 (m.pathOf filename) with hsame | hnone
      · exact hsame.trans hclosed
      · exact hnone
    rw [readPages,List.foldl_cons,hstep]
    exact ih (m := { m with openFiles := m.makeRoom c.1 }) hfile hclosed' hnew

/-- Once a block was not inside, no page is read any more. -/
theorem readPage_after_outside (hfile : m.files (m.pathOf filename) = some file)
    (hr : file.readable = true) (hsize : file.content.length < FileHandle.seekLimit)
    (hclosed : m.openFiles.lookup (m.pathOf filename) = none) {calls : List (String × PageId)}
    (hout : ∃ c ∈ calls, ¬BlockInside file c.2) (first : String) (pid : PageId) :
    ((m.readPages filename calls).readPage first filename pid).1 = (false,[]) := by
  obtain ⟨hdir,hfiles,handle,hs,-,-,hfailed⟩ :=
    readPages_serves hfile hr hsize (Or.inr ⟨hclosed,rfl⟩) rfl rfl calls
  have hpath : (m.readPages filename calls).pathOf filename = m.pathOf filename := by
    rw [pathOf,pathOf,hdir]
  rw [(readPage_serves (by rw [hpath,hfiles,hfile]) hr hs first pid).1]
  exact read_fails (hfailed.mpr (Or.inr hout)) _ _

end Calls

/-- The calls of `readPage` on a file since its stream was opened: a page of the file is read exactly
if the file may be read and no earlier call asked for a block that is not inside. -/
theorem readPage_after_iff (m : FileManager) (filename : String) (file : DiskFile)
    (hfile : m.files (m.pathOf filename) = some file)
    (hsize : file.content.length < FileHandle.seekLimit)
    (hclosed : m.openFiles.lookup (m.pathOf filename) = none)
    (calls : List (String × PageId)) (first : String) (pid : ℕ)
    (hpage : (pid+1)*pageSize ≤ file.content.length) :
    ((m.readPages filename calls).readPage first filename pid).1 =
        (true,slice file.content (pid*pageSize) pageSize) ↔
      file.readable = true ∧ ∀ c ∈ calls, BlockInside file c.2 := by
  cases hr : file.readable with
  | false =>
    rw [readPages_unreadable hfile hr hclosed]
    simp
  | true =>
    rw [Nat.succ_mul] at hpage
    have hoffset : pageOffset pid = pid*pageSize := by
      rw [FileHandle.seekLimit] at hsize
      rw [pageOffset]
      apply Nat.mod_eq_of_lt
      omega
    simp only [true_and]
    constructor
    · intro hok c hc
      by_contra hout
      rw [readPage_after_outside hfile hr hsize hclosed ⟨c,hc,hout⟩] at hok
      cases hok
    · intro hinside
      obtain ⟨hdir,hfiles,handle,hs,hname,hmode,hfailed⟩ :=
        readPages_serves hfile hr hsize (Or.inr ⟨hclosed,rfl⟩) rfl rfl calls
      have hpath : (m.readPages filename calls).pathOf filename = m.pathOf filename := by
        rw [pathOf,pathOf,hdir]
      have hfile' : (m.readPages filename calls).files handle.filename = some file := by
        rw [hfiles,hname,hfile]
      have hfine : handle.failed = false := by
        rw [← Bool.not_eq_true,hfailed]
        rintro (hfailed' | ⟨c,hc,hout⟩)
        · cases hfailed'
        · exact hout (hinside c hc)
      rw [(readPage_serves (by rw [hpath,hfiles,hfile]) hr hs first pid).1,hoffset]
      exact read_ok hfine (by rw [hmode]; rfl) (by omega) hfile' rfl (slice_length _ _ _ hpage)

theorem readPage_after_iff_again :
    (((new "/data" onePage).readPages "table_1.dat" [("",0)]).readPage "" "table_1.dat" 0).1 =
      (true,slice (List.replicate pageSize 0) (0*pageSize) pageSize) :=
  (readPage_after_iff (new "/data" onePage) "table_1.dat" ⟨List.replicate pageSize 0,true,true⟩
    rfl (by rw [List.length_replicate]; decide) rfl [("",0)] "" 0
    (by rw [List.length_replicate]; decide)).mpr
    ⟨rfl,by simp [BlockInside,pageOffset]⟩

/-- The page behind the last one is asked for as `getPageCount` does it; then the page that the file
has cannot be read. -/
theorem readPage_fails_after_invalid :
    (((new "/data" onePage).readPages "table_1.dat" [("",invalidPageId)]).readPage
      "" "table_1.dat" 0).1 = (false,[]) := by
  have hfile : (new "/data" onePage).files ((new "/data" onePage).pathOf "table_1.dat") =
      some ⟨List.replicate pageSize 0,true,true⟩ := rfl
  have hsize : (List.replicate pageSize (0 : UInt8)).length < FileHandle.seekLimit := by
    rw [List.length_replicate]
    decide
  refine readPage_after_outside hfile rfl hsize rfl ⟨("",invalidPageId),List.mem_cons_self,?_⟩ "" 0
  rw [BlockInside,List.length_replicate]
  decide

end FileManager
end OrangeSQL
