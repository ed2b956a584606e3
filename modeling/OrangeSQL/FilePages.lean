import OrangeSQL.FileManager

/-! What the calls for pages do to the files and to the handle cache, and when a page that is
written can be read back. The cache hands a handle out whatever mode it was opened in, and an error
state stays. -/
namespace OrangeSQL
namespace FileManager

open Bytes

section Calls

/-- The path of a file, the key of its handle. -/
def pathOf (m : FileManager) (filename : String) : String := normalizePath m.workDir filename

/-- The cache after the eviction that makes room, if there is one. -/
def makeRoom (m : FileManager) (first : String) : AList fun _ : String => FileHandle :=
  if m.maxOpenFiles ≤ m.openFiles.keys.length then m.openFiles.erase first else m.openFiles

theorem lookup_makeRoom (m : FileManager) (first q : String) :
    (m.makeRoom first).lookup q = m.openFiles.lookup q ∨ (m.makeRoom first).lookup q = none := by
  rw [makeRoom]
  split
  · by_cases hq : q = first
    · subst hq
      exact Or.inr (AList.lookup_erase q m.openFiles)
    · exact Or.inl (AList.lookup_erase_ne hq)
  · exact Or.inl rfl

/-- The modes in which pages are read and written. -/
def PageMode (mode : FileMode) : Prop := mode = .read ∨ mode = .readWrite

theorem FileHandle.new_pageMode (fs : FileSystem) (path : String) {mode : FileMode}
    (hmode : PageMode mode) : FileHandle.new fs path mode = (none,fs) ∨
      FileHandle.new fs path mode = (some ⟨path,mode,false⟩,fs) := by
  cases hfile : fs path with
  | none => rcases hmode with rfl | rfl <;> simp [FileHandle.new,hfile]
  | some file =>
    rcases hmode with rfl | rfl
    · cases hr : file.readable <;> simp [FileHandle.new,hfile,hr]
    · cases hr : file.readable && file.writable <;> simp [FileHandle.new,hfile,hr]

theorem FileHandle.new_permitted {fs : FileSystem} {path : String} {file : DiskFile}
    (hfile : fs path = some file) (hr : file.readable = true) (hw : file.writable = true)
    {mode : FileMode} (hmode : PageMode mode) :
    FileHandle.new fs path mode = (some ⟨path,mode,false⟩,fs) := by
  rcases hmode with rfl | rfl
  · simp [FileHandle.new,hfile,hr]
  · simp [FileHandle.new,hfile,hr,hw]

theorem openFile_cached {m : FileManager} {first filename : String} {mode : FileMode}
    {handle : FileHandle} (h : m.openFiles.lookup (m.pathOf filename) = some handle) :
    m.openFile first filename mode = (some handle,m) := by
  rw [pathOf] at h
  simp [openFile,h]

theorem openFile_none {m : FileManager} {first filename : String} {mode : FileMode}
    (h : m.openFiles.lookup (m.pathOf filename) = none)
    (hnew : FileHandle.new m.files (m.pathOf filename) mode = (none,m.files)) :
    m.openFile first filename mode = (none,{ m with openFiles := m.makeRoom first }) := by
  rw [pathOf] at h hnew
  by_cases hfull : m.maxOpenFiles ≤ m.openFiles.keys.length <;>
    simp [openFile,h,makeRoom,hfull,evictFile,hnew]

theorem openFile_new {m : FileManager} {first filename : String} {mode : FileMode}
    (h : m.openFiles.lookup (m.pathOf filename) = none)
    (hnew : FileHandle.new m.files (m.pathOf filename) mode =
      (some ⟨m.pathOf filename,mode,false⟩,m.files)) :
    m.openFile first filename mode = (some ⟨m.pathOf filename,mode,false⟩,{ m with
      openFiles := (m.makeRoom first).insert (m.pathOf filename)
        ⟨m.pathOf filename,mode,false⟩ }) := by
  rw [pathOf] at h hnew ⊢
  by_cases hfull : m.maxOpenFiles ≤ m.openFiles.keys.length <;>
    simp [openFile,h,makeRoom,hfull,evictFile,hnew]

/-- Handles are stored under the path of their file. -/
def HandlesKeyed (m : FileManager) : Prop :=
  ∀ q handle, m.openFiles.lookup q = some handle → handle.filename = q

/-- What a call on the file at `path` leaves alone: the content of all other files and the rights
of this one, the handles of all other files, as far as they stay open, and the working directory. -/
structure Touches (path : String) (m m' : FileManager) : Prop where
  workDir : m'.workDir = m.workDir
  files : ∀ q, q ≠ path → m'.files q = m.files q
  rights : ∀ file, m.files path = some file →
    ∃ content, m'.files path = some { file with content := content }
  handles : ∀ q, q ≠ path →
    m'.openFiles.lookup q = m.openFiles.lookup q ∨ m'.openFiles.lookup q = none
  keyed : ∀ handle, m'.openFiles.lookup path = some handle → handle.filename = path

theorem Touches.handlesKeyed {path : String} {m m' : FileManager} (h : Touches path m m')
    (hm : m.HandlesKeyed) : m'.HandlesKeyed := by
  intro q handle hq
  by_cases hpath : q = path
  · subst hpath
    exact h.keyed handle hq
  · rcases h.handles q hpath with hsame | hnone
    · exact hm q handle (hsame ▸ hq)
    · rw [hnone] at hq
      cases hq

/-- Opening a file changes no file, and the handle it gives is the one in the cache. -/
theorem openFile_touches {m : FileManager} (hm : m.HandlesKeyed) (first filename : String)
    {mode : FileMode} (hmode : PageMode mode) :
    Touches (m.pathOf filename) m (m.openFile first filename mode).2 ∧
      (m.openFile first filename mode).2.files = m.files ∧
      ∀ handle, (m.openFile first filename mode).1 = some handle →
        handle.filename = m.pathOf filename := by
  cases hlook : m.openFiles.lookup (m.pathOf filename) with
  | some handle =>
    rw [openFile_cached hlook]
    refine ⟨⟨rfl,fun _ _ => rfl,fun file hfile => ⟨file.content,hfile⟩,fun _ _ => Or.inl rfl,hm _⟩,
      rfl,?_⟩
    intro handle' hhandle'
    exact hm _ _ (hlook.trans hhandle')
  | none =>
    rcases FileHandle.new_pageMode m.files (m.pathOf filename) hmode with hnew | hnew
    · rw [openFile_none hlook hnew]
      refine ⟨⟨rfl,fun _ _ => rfl,fun file hfile => ⟨file.content,hfile⟩,
        fun q _ => m.lookup_makeRoom first q,?_⟩,rfl,by simp⟩
      intro handle hhandle
      rcases m.lookup_makeRoom first (m.pathOf filename) with hsame | hnone
      · exact hm _ handle (hsame ▸ hhandle)
      · rw [hnone] at hhandle
        cases hhandle
    · rw [openFile_new hlook hnew]
      refine ⟨⟨rfl,fun _ _ => rfl,fun file hfile => ⟨file.content,hfile⟩,?_,?_⟩,rfl,?_⟩
      · intro q hq
        rw [AList.lookup_insert_ne hq]
        exact m.lookup_makeRoom first q
      · intro handle hhandle
        rw [AList.lookup_insert] at hhandle
        exact (Option.some.inj hhandle) ▸ rfl
      · intro handle hhandle
        exact (Option.some.inj hhandle) ▸ rfl

theorem read_filename (handle : FileHandle) (fs : FileSystem) (offset size : ℕ) :
    (handle.read fs offset size).2.filename = handle.filename := by
  rw [FileHandle.read]
  split
  · rfl
  · split <;> rfl

theorem read_mode (handle : FileHandle) (fs : FileSystem) (offset size : ℕ) :
    (handle.read fs offset size).2.mode = handle.mode := by
  rw [FileHandle.read]
  split
  · rfl
  · split <;> rfl

theorem write_filename (handle : FileHandle) (fs : FileSystem) (offset : ℕ) (bs : List UInt8) :
    (handle.write fs offset bs).2.1.filename = handle.filename := by
  rw [FileHandle.write]
  split
  · rfl
  · split <;> rfl

theorem write_files (handle : FileHandle) (fs : FileSystem) (offset : ℕ) (bs : List UInt8) :
    (∀ q, q ≠ handle.filename → (handle.write fs offset bs).2.2 q = fs q) ∧
      ∀ file, fs handle.filename = some file →
        ∃ content, (handle.write fs offset bs).2.2 handle.filename =
          some { file with content := content } := by
  rw [FileHandle.write]
  split
  · exact ⟨fun _ _ => rfl,fun file hfile => ⟨file.content,hfile⟩⟩
  · split
    · exact ⟨fun _ _ => rfl,fun file hfile => ⟨file.content,hfile⟩⟩
    · refine ⟨fun q hq => Function.update_of_ne hq _ _,?_⟩
      intro file hfile
      refine ⟨writeAt file.content offset bs,?_⟩
      simp [hfile]

theorem Touches.store {m m' : FileManager} {filename : String}
    (h : Touches (m.pathOf filename) m m') {handle : FileHandle}
    (hhandle : handle.filename = m.pathOf filename) :
    Touches (m.pathOf filename) m (m'.store filename handle) := by
  have hpath : normalizePath m'.workDir filename = m.pathOf filename := by rw [h.workDir,pathOf]
  refine ⟨h.workDir,h.files,h.rights,?_,?_⟩
  · intro q hq
    rw [FileManager.store,hpath,AList.lookup_insert_ne hq]
    exact h.handles q hq
  · intro handle' hhandle'
    rw [FileManager.store,hpath,AList.lookup_insert] at hhandle'
    rw [← Option.some.inj hhandle',hhandle]

theorem readPage_touches {m : FileManager} (hm : m.HandlesKeyed) (first filename : String)
    (pid : PageId) : Touches (m.pathOf filename) m (m.readPage first filename pid).2 := by
  obtain ⟨hopen,_,hname⟩ := openFile_touches hm first filename (Or.inl rfl : PageMode .read)
  rw [readPage]
  generalize m.openFile first filename .read = opened at hopen hname
  match opened with
  | (none,_) => exact hopen
  | (some handle,_) => exact hopen.store ((read_filename _ _ _ _).trans (hname handle rfl))

theorem writePage_touches {m : FileManager} (hm : m.HandlesKeyed) (first filename : String)
    (pid : PageId) (buffer : PageBuffer) :
    Touches (m.pathOf filename) m (m.writePage first filename pid buffer).2 := by
  obtain ⟨hopen,_,hname⟩ := openFile_touches hm first filename (Or.inr rfl : PageMode .readWrite)
  rw [writePage]
  generalize m.openFile first filename .readWrite = opened at hopen hname
  match opened with
  | (none,_) => exact hopen
  | (some handle,m') =>
    have hfile : handle.filename = m.pathOf filename := hname handle rfl
    obtain ⟨hother,hsame⟩ := write_files handle m'.files (pageOffset pid) buffer.val
    rw [hfile] at hother hsame
    have hwrite : Touches (m.pathOf filename) m
        { m' with files := (handle.write m'.files (pageOffset pid) buffer.val).2.2 } := by
      refine ⟨hopen.workDir,?_,?_,hopen.handles,hopen.keyed⟩
      · intro q hq
        exact (hother q hq).trans (hopen.files q hq)
      · intro file hin
        obtain ⟨content,hcontent⟩ := hopen.rights file hin
        obtain ⟨content',hcontent'⟩ := hsame _ hcontent
        exact ⟨content',hcontent'⟩
    exact hwrite.store ((write_filename _ _ _ _).trans hfile)

theorem exec_touches {m m' : FileManager} (hm : m.HandlesKeyed) {op : FileOp}
    (h : m.exec op = some m') : Touches (m.pathOf op.filename) m m' := by
  unfold exec at h
  split_ifs at h
  cases op with
  | readPage first filename pid =>
    rw [← Option.some.inj h]
    exact readPage_touches hm first filename pid
  | writePage first filename pid buffer =>
    rw [← Option.some.inj h]
    exact writePage_touches hm first filename pid buffer

theorem exec_rights {m m' : FileManager} (hm : m.HandlesKeyed) {op : FileOp}
    (h : m.exec op = some m') {q : String} {file : DiskFile} (hfile : m.files q = some file) :
    ∃ content, m'.files q = some { file with content := content } := by
  have htouch := exec_touches hm h
  by_cases hq : q = m.pathOf op.filename
  · subst hq
    exact htouch.rights file hfile
  · exact ⟨file.content,by rw [htouch.files q hq,hfile]⟩

/-- Along a run, handles stay under the path of their file, and files stay with their rights. -/
theorem run_rights {m m' : FileManager} {ops : List FileOp} (h : m.run ops = some m')
    (hm : m.HandlesKeyed) {q : String} {file : DiskFile} (hfile : m.files q = some file) :
    m'.HandlesKeyed ∧ m'.workDir = m.workDir ∧
      ∃ content, m'.files q = some { file with content := content } := by
  induction ops generalizing m file with
  | nil =>
    rw [← Option.some.inj h]
    exact ⟨hm,rfl,file.content,hfile⟩
  | cons op ops ih =>
    obtain ⟨m₁,hexec,hrest⟩ := Option.bind_eq_some_iff.mp h
    have htouch := exec_touches hm hexec
    obtain ⟨content,hcontent⟩ := exec_rights hm hexec hfile
    obtain ⟨hkeyed,hdir,hrights⟩ := ih hrest (htouch.handlesKeyed hm) hcontent
    exact ⟨hkeyed,hdir.trans htouch.workDir,hrights⟩

/-- A run on other files leaves a file alone, and its handle unless it closes it. -/
theorem run_others {m m' : FileManager} {ops : List FileOp} (h : m.run ops = some m')
    (hm : m.HandlesKeyed) {path : String} (hops : ∀ op ∈ ops, m.pathOf op.filename ≠ path) :
    m'.workDir = m.workDir ∧ m'.files path = m.files path ∧
      (m'.openFiles.lookup path = m.openFiles.lookup path ∨
        m'.openFiles.lookup path = none) := by
  induction ops generalizing m with
  | nil =>
    rw [← Option.some.inj h]
    exact ⟨rfl,rfl,Or.inl rfl⟩
  | cons op ops ih =>
    obtain ⟨m₁,hexec,hrest⟩ := Option.bind_eq_some_iff.mp h
    have htouch := exec_touches hm hexec
    have hne : path ≠ m.pathOf op.filename := (hops op List.mem_cons_self).symm
    have hops₁ : ∀ x ∈ ops, m₁.pathOf x.filename ≠ path := by
      intro x hx
      rw [pathOf,htouch.workDir]
      exact hops x (List.mem_cons_of_mem op hx)
    obtain ⟨hdir,hfiles,hhandle⟩ := ih hrest (htouch.handlesKeyed hm) hops₁
    refine ⟨hdir.trans htouch.workDir,hfiles.trans (htouch.files path hne),?_⟩
    rcases hhandle with hsame | hnone
    · rw [hsame]
      exact htouch.handles path hne
    · exact Or.inr hnone

end Calls

section Pages

theorem read_ok {handle : FileHandle} {fs : FileSystem} {offset size : ℕ} {bs : List UInt8}
    {file : DiskFile} (hfailed : handle.failed = false) (hin : handle.mode.isIn = true)
    (hoffset : offset < FileHandle.seekLimit) (hfile : fs handle.filename = some file)
    (hbytes : slice file.content offset size = bs) (hsize : bs.length = size) :
    (handle.read fs offset size).1 = (true,bs) := by
  have hseek : ¬(FileHandle.seekLimit ≤ offset ∨ handle.mode.isIn = false) := by
    rw [hin]
    simpa using hoffset
  simp only [FileHandle.read,hfailed,Bool.false_eq_true,if_false,if_neg hseek,hfile,
    Option.elim_some,hbytes,hsize,decide_true]

theorem of_read {handle : FileHandle} {fs : FileSystem} {offset size : ℕ}
    (h : (handle.read fs offset size).1.1 = true) :
    handle.mode.isIn = true := by
  rw [FileHandle.read] at h
  split at h
  · cases h
  · split at h
    · cases h
    · next hseek =>
      rw [not_or,Bool.not_eq_false] at hseek
      exact hseek.2

/-- A successful write leaves the handle as it was. -/
theorem of_write {handle : FileHandle} {fs : FileSystem} {offset : ℕ} {bs : List UInt8}
    (h : (handle.write fs offset bs).1 = true) :
    handle.failed = false ∧ handle.mode.isOut = true ∧ offset < FileHandle.seekLimit ∧
      (handle.write fs offset bs).2.1 = handle := by
  rw [FileHandle.write] at h ⊢
  split at h
  · cases h
  · next hfailed =>
    split at h
    · cases h
    · next hseek =>
      rw [not_or,Bool.not_eq_false,not_le] at hseek
      refine ⟨by simpa using hfailed,hseek.2,hseek.1,?_⟩
      rw [if_neg hfailed,if_neg (by rw [not_or,Bool.not_eq_false,not_le]; exact hseek)]

theorem write_ok {handle : FileHandle} {fs : FileSystem} {offset : ℕ} {file : DiskFile}
    (bs : List UInt8) (hfailed : handle.failed = false) (hout : handle.mode.isOut = true)
    (hoffset : offset < FileHandle.seekLimit) (hfile : fs handle.filename = some file) :
    handle.write fs offset bs = (true,handle,Function.update fs handle.filename
      (some { file with content := writeAt file.content offset bs })) := by
  have hseek : ¬(FileHandle.seekLimit ≤ offset ∨ handle.mode.isOut = false) := by
    rw [hout]
    simpa using hoffset
  simp only [FileHandle.write,hfailed,Bool.false_eq_true,if_false,if_neg hseek,hfile,
    Option.map_some]

/-- A file that may be read and written always gives a handle: the cached one or a new one. -/
theorem openFile_permitted {m : FileManager} (hm : m.HandlesKeyed) (first : String)
    {filename : String} {file : DiskFile} (hfile : m.files (m.pathOf filename) = some file)
    (hr : file.readable = true) (hw : file.writable = true) {mode : FileMode}
    (hmode : PageMode mode) :
    ∃ handle m', m.openFile first filename mode = (some handle,m') ∧
      handle.filename = m.pathOf filename ∧ m'.files = m.files ∧ m'.workDir = m.workDir ∧
      (m.openFiles.lookup (m.pathOf filename) = some handle ∨
        m.openFiles.lookup (m.pathOf filename) = none ∧
          handle = ⟨m.pathOf filename,mode,false⟩) := by
  cases hlook : m.openFiles.lookup (m.pathOf filename) with
  | some handle =>
    exact ⟨handle,m,openFile_cached hlook,hm _ _ hlook,rfl,rfl,Or.inl rfl⟩
  | none =>
    have hnew := FileHandle.new_permitted hfile hr hw hmode
    exact ⟨_,_,openFile_new hlook hnew,rfl,rfl,rfl,Or.inr ⟨rfl,rfl⟩⟩

/-- The page can be positioned on, and an open handle of the file was opened by a write and has
not failed since. -/
def Accepts (m : FileManager) (filename : String) (pid : PageId) : Prop :=
  pageOffset pid < FileHandle.seekLimit ∧
    ∀ handle, m.openFiles.lookup (m.pathOf filename) = some handle →
      handle.mode = .readWrite ∧ handle.failed = false

/-- The page is written, and the next call for the file, a read of the page, gives it back. -/
def StoresPage (m : FileManager) (filename : String) (pid : PageId) (buffer : PageBuffer) : Prop :=
  ∀ first, m.Begins first → (m.writePage first filename pid buffer).1 = true ∧
    ∀ others m', (m.writePage first filename pid buffer).2.run others = some m' →
      (∀ op ∈ others, m.pathOf op.filename ≠ m.pathOf filename) →
      ∀ first', m'.Begins first' → (m'.readPage first' filename pid).1 = (true,buffer.val)

theorem exists_begins (m : FileManager) : ∃ first, m.Begins first := by
  cases hkeys : m.openFiles.keys with
  | nil => exact ⟨"",Or.inl hkeys⟩
  | cons first rest =>
    refine ⟨first,Or.inr ?_⟩
    rw [AList.mem_keys,hkeys]
    exact List.mem_cons_self

/-- The file can be read and written by pages. -/
def Permitted (m : FileManager) (filename : String) (file : DiskFile) : Prop :=
  m.files (m.pathOf filename) = some file ∧ file.readable = true ∧ file.writable = true

/-- A read of what the page holds, through any handle that a write or a read opened. -/
theorem readPage_returns {m : FileManager} (hm : m.HandlesKeyed) {filename : String} {pid : PageId}
    {file : DiskFile} (hfile : m.Permitted filename file) (haccepts : m.Accepts filename pid)
    {bs : List UInt8} (hbytes : slice file.content (pageOffset pid) pageSize = bs)
    (hsize : bs.length = pageSize) (first : String) :
    (m.readPage first filename pid).1 = (true,bs) := by
  obtain ⟨handle,m',hopen,hname,hfiles,_,hcached⟩ :=
    openFile_permitted hm first hfile.1 hfile.2.1 hfile.2.2 (Or.inl rfl : PageMode .read)
  have hin : m'.files handle.filename = some file := by rw [hfiles,hname,hfile.1]
  have hready : handle.failed = false ∧ handle.mode.isIn = true := by
    rcases hcached with hlook | ⟨_,rfl⟩
    · obtain ⟨hmode,hfailed⟩ := haccepts.2 handle hlook
      exact ⟨hfailed,by rw [hmode]; rfl⟩
    · exact ⟨rfl,rfl⟩
  simp only [readPage,hopen]
  exact read_ok hready.1 hready.2 haccepts.1 hin hbytes hsize

theorem writePage_stores {m : FileManager} (hm : m.HandlesKeyed) {filename : String} {pid : PageId}
    {file : DiskFile} (hfile : m.Permitted filename file) (haccepts : m.Accepts filename pid)
    (first : String) (buffer : PageBuffer) :
    (m.writePage first filename pid buffer).1 = true ∧
      (m.writePage first filename pid buffer).2.workDir = m.workDir ∧
      (m.writePage first filename pid buffer).2.files (m.pathOf filename) =
        some { file with content := writeAt file.content (pageOffset pid) buffer.val } ∧
      (m.writePage first filename pid buffer).2.openFiles.lookup (m.pathOf filename) =
        some ⟨m.pathOf filename,.readWrite,false⟩ := by
  obtain ⟨handle,m',hopen,hname,hfiles,hdir,hcached⟩ :=
    openFile_permitted hm first hfile.1 hfile.2.1 hfile.2.2 (Or.inr rfl : PageMode .readWrite)
  have hin : m'.files handle.filename = some file := by rw [hfiles,hname,hfile.1]
  have hhandle : handle = ⟨m.pathOf filename,.readWrite,false⟩ := by
    rcases hcached with hlook | ⟨_,hnew⟩
    · obtain ⟨hmode,hfailed⟩ := haccepts.2 handle hlook
      rw [← hname,← hmode,← hfailed]
    · exact hnew
  have hready : handle.failed = false ∧ handle.mode.isOut = true := by
    rw [hhandle]
    exact ⟨rfl,rfl⟩
  have hwrite := write_ok buffer.val hready.1 hready.2 haccepts.1 hin
  have hpath : normalizePath m'.workDir filename = m.pathOf filename := by rw [hdir,pathOf]
  simp only [writePage,hopen,hwrite,FileManager.store,hpath,AList.lookup_insert]
  refine ⟨trivial,hdir,?_,by rw [hhandle]⟩
  rw [hname,Function.update_self]

theorem Accepts.storesPage {m : FileManager} (hm : m.HandlesKeyed) {filename : String}
    {pid : PageId} {file : DiskFile} (hfile : m.Permitted filename file)
    (haccepts : m.Accepts filename pid) (buffer : PageBuffer) :
    m.StoresPage filename pid buffer := by
  intro first _
  obtain ⟨hok,hdir,hcontent,hlook⟩ := writePage_stores hm hfile haccepts first buffer
  refine ⟨hok,?_⟩
  intro others m' hrun hothers first' _
  have hkeyed := (writePage_touches hm first filename pid buffer).handlesKeyed hm
  have hpaths : ∀ op ∈ others,
      (m.writePage first filename pid buffer).2.pathOf op.filename ≠ m.pathOf filename := by
    intro op hop
    rw [pathOf,hdir]
    exact hothers op hop
  obtain ⟨hdir',hfiles',hlook'⟩ := run_others hrun hkeyed hpaths
  have hkeyed' := (run_rights hrun hkeyed hcontent).1
  have hpath : m'.pathOf filename = m.pathOf filename := by rw [pathOf,hdir',hdir,pathOf]
  have hfile' : m'.Permitted filename
      { file with content := writeAt file.content (pageOffset pid) buffer.val } :=
    ⟨by rw [hpath,hfiles',hcontent],hfile.2⟩
  have haccepts' : m'.Accepts filename pid := by
    refine ⟨haccepts.1,?_⟩
    intro handle hhandle
    rw [hpath] at hhandle
    rcases hlook' with hsame | hnone
    · rw [hsame,hlook] at hhandle
      rw [← Option.some.inj hhandle]
      exact ⟨rfl,rfl⟩
    · rw [hnone] at hhandle
      cases hhandle
  have hbytes : slice (writeAt file.content (pageOffset pid) buffer.val) (pageOffset pid) pageSize =
      buffer.val := by
    have hslice := slice_writeAt file.content (pageOffset pid) buffer.val
    rwa [buffer.property] at hslice
  exact readPage_returns hkeyed' hfile' haccepts' hbytes buffer.property first'

theorem Accepts.of_storesPage {m : FileManager} (hm : m.HandlesKeyed) {filename : String}
    {pid : PageId} {file : DiskFile} (hfile : m.Permitted filename file) {buffer : PageBuffer}
    (h : m.StoresPage filename pid buffer) : m.Accepts filename pid := by
  obtain ⟨first,hfirst⟩ := m.exists_begins
  obtain ⟨hok,hread⟩ := h first hfirst
  obtain ⟨handle,m',hopen,hname,hfiles,hdir,hcached⟩ :=
    openFile_permitted hm first hfile.1 hfile.2.1 hfile.2.2 (Or.inr rfl : PageMode .readWrite)
  have hpath : normalizePath m'.workDir filename = m.pathOf filename := by rw [hdir,pathOf]
  have hwrite : (handle.write m'.files (pageOffset pid) buffer.val).1 = true := by
    simpa only [writePage,hopen] using hok
  obtain ⟨hfailed,hout,hoffset,hkept⟩ := of_write hwrite
  refine ⟨hoffset,?_⟩
  intro handle' hlook
  rcases hcached with hsame | ⟨hnone,_⟩
  · obtain rfl : handle' = handle := Option.some.inj (hlook.symm.trans hsame)
    obtain ⟨first',hfirst'⟩ := (m.writePage first filename pid buffer).2.exists_begins
    have hback := hread [] _ rfl (by simp) first' hfirst'
    have hcached' : (m.writePage first filename pid buffer).2.openFiles.lookup
        ((m.writePage first filename pid buffer).2.pathOf filename) = some handle' := by
      rw [pathOf,(writePage_touches hm first filename pid buffer).workDir]
      simp only [writePage,hopen,FileManager.store,hpath,hkept]
      exact AList.lookup_insert _
    have hin : handle'.mode.isIn = true := by
      apply of_read
      rw [readPage,openFile_cached hcached'] at hback
      exact congrArg Prod.fst hback
    cases hmode : handle'.mode with
    | readWrite => exact ⟨rfl,hfailed⟩
    | read => simp [hmode,FileMode.isOut] at hout
    | write => simp [hmode,FileMode.isIn] at hin
    | create => simp [hmode,FileMode.isIn] at hin
  · rw [hnone] at hlook
    cases hlook

theorem run_handlesKeyed (workDir : String) (files : FileSystem) {ops : List FileOp}
    {m : FileManager} (h : (new workDir files).run ops = some m) {filename : String}
    {file : DiskFile} (hfile : (new workDir files).Permitted filename file) :
    m.HandlesKeyed ∧ ∃ content, m.Permitted filename { file with content := content } := by
  have hstart : (new workDir files).HandlesKeyed := by
    intro q handle hq
    cases hq
  obtain ⟨hkeyed,hdir,content,hcontent⟩ := run_rights h hstart hfile.1
  refine ⟨hkeyed,content,?_,hfile.2⟩
  rw [pathOf,hdir]
  exact hcontent

/-- After any run, a page of a file that exists and can be read and written is stored exactly if
its position is in range and the file has no open handle, or one that was opened by a write and has
not failed since. -/
theorem storesPage_iff (workDir : String) (files : FileSystem) (ops : List FileOp)
    (m : FileManager) (hrun : (new workDir files).run ops = some m) (filename : String)
    (file : DiskFile) (hfile : (new workDir files).Permitted filename file) (pid : PageId)
    (buffer : PageBuffer) : m.StoresPage filename pid buffer ↔ m.Accepts filename pid := by
  obtain ⟨hm,content,hpermitted⟩ := run_handlesKeyed workDir files hrun hfile
  exact ⟨Accepts.of_storesPage hm hpermitted,fun h => h.storesPage hm hpermitted buffer⟩

/-- One file, with a page of zeros. -/
def onePage : FileSystem := fun path =>
  if path = "/data/table_1.dat" then some ⟨List.replicate pageSize 0,true,true⟩ else none

def sevens : PageBuffer := ⟨List.replicate pageSize 7,List.length_replicate⟩

/-- A page was written, and a file read that there is not. -/
def writeThenRead : List FileOp :=
  [.writePage "" "table_1.dat" 0 sevens,.readPage "/data/table_1.dat" "table_2.dat" 0]

theorem storesPage_iff_second_write :
    ∃ m, (new "/data" onePage).run writeThenRead = some m ∧ m.StoresPage "table_1.dat" 1 sevens := by
  have hfile : (new "/data" onePage).Permitted "table_1.dat" ⟨List.replicate pageSize 0,true,true⟩ :=
    ⟨rfl,rfl,rfl⟩
  obtain ⟨m,hrun,hlook⟩ : ∃ m, (new "/data" onePage).run writeThenRead = some m ∧
      m.openFiles.lookup (m.pathOf "table_1.dat") = some ⟨"/data/table_1.dat",.readWrite,false⟩ :=
    ⟨_,rfl,rfl⟩
  refine ⟨m,hrun,(storesPage_iff _ _ _ m hrun _ _ hfile 1 sevens).mpr ⟨by decide,?_⟩⟩
  intro handle hhandle
  obtain rfl := Option.some.inj (hlook.symm.trans hhandle)
  exact ⟨rfl,rfl⟩

/-- A page is read, and from then on the file cannot be written. -/
theorem storesPage_fails_after_read :
    ∃ m, (new "/data" onePage).run [.readPage "" "table_1.dat" 0] = some m ∧
      ¬m.StoresPage "table_1.dat" 0 sevens := by
  have hfile : (new "/data" onePage).Permitted "table_1.dat" ⟨List.replicate pageSize 0,true,true⟩ :=
    ⟨rfl,rfl,rfl⟩
  have hrun : (new "/data" onePage).run [.readPage "" "table_1.dat" 0] =
      some ((new "/data" onePage).readPage "" "table_1.dat" 0).2 := rfl
  refine ⟨_,hrun,?_⟩
  intro h
  obtain ⟨hm,content,hpermitted⟩ := run_handlesKeyed "/data" onePage hrun hfile
  have hopen := @openFile_new (new "/data" onePage) "" "table_1.dat" .read rfl
    (FileHandle.new_permitted hfile.1 hfile.2.1 hfile.2.2 (Or.inl rfl))
  have hlook : ∃ handle, ((new "/data" onePage).readPage "" "table_1.dat" 0).2.openFiles.lookup
      "/data/table_1.dat" = some handle ∧ handle.mode = .read := by
    simp only [readPage,hopen]
    exact ⟨_,AList.lookup_insert _,read_mode _ _ _ _⟩
  obtain ⟨handle,hhandle,hmode⟩ := hlook
  have hwritten := (Accepts.of_storesPage hm hpermitted h).2 handle hhandle
  rw [hmode] at hwritten
  cases hwritten.1

end Pages

end FileManager
end OrangeSQL
