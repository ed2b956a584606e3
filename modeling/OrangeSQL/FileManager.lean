import Mathlib.Data.List.AList
import OrangeSQL.Types

/-! The file manager: a cache of open file streams that is keyed by path, and pages as blocks of
the files. A stream has one error state for reading and writing; the bytes that it buffers count as
written, since a path has one stream at a time and closing it flushes. Different paths are taken
to name different files. -/
namespace OrangeSQL

open Bytes

/-- A file as the operating system keeps it. -/
structure DiskFile where
  content : List UInt8
  readable : Bool
  writable : Bool
  deriving DecidableEq, Repr

abbrev FileSystem := String → Option DiskFile

inductive FileMode
  | read | write | readWrite | create
  deriving DecidableEq, Repr

namespace FileMode

/-- The open mode has `in`. -/
def isIn : FileMode → Bool
  | .read | .readWrite => true
  | .write | .create => false

/-- The open mode has `out`. -/
def isOut : FileMode → Bool
  | .read => false
  | .write | .readWrite | .create => true

end FileMode

/-- An open stream. `failed` is what `fail()` returns; nothing clears it. -/
structure FileHandle where
  filename : String
  mode : FileMode
  failed : Bool
  deriving DecidableEq, Repr

namespace FileHandle

/-- The constructor, with the handle only if the stream opens. A mode with `out` alone truncates
the file or creates it. -/
def new (fs : FileSystem) (filename : String) (mode : FileMode) : Option FileHandle × FileSystem :=
  match mode, fs filename with
  | .read, some file => (if file.readable then some ⟨filename,mode,false⟩ else none,fs)
  | .readWrite, some file =>
    (if file.readable && file.writable then some ⟨filename,mode,false⟩ else none,fs)
  | .read, none | .readWrite, none => (none,fs)
  | .write, some file | .create, some file =>
    if file.writable then
      (some ⟨filename,mode,false⟩,Function.update fs filename (some { file with content := [] }))
    else (none,fs)
  | .write, none | .create, none =>
    (some ⟨filename,mode,false⟩,Function.update fs filename (some ⟨[],true,true⟩))

/-- A position is a signed 64-bit number: from here on a seek fails. -/
def seekLimit : ℕ := 2^63

/-- The bytes are those that reach the buffer; fewer than asked for is a failure. -/
def read (h : FileHandle) (fs : FileSystem) (offset size : ℕ) : (Bool × List UInt8) × FileHandle :=
  if h.failed then ((false,[]),h)
  else if seekLimit ≤ offset ∨ h.mode.isIn = false then ((false,[]),{ h with failed := true })
  else
    let bytes := slice ((fs h.filename).elim [] DiskFile.content) offset size
    ((decide (bytes.length = size),bytes),{ h with failed := decide (bytes.length ≠ size) })

/-- A stream without `out` rejects the bytes, and stays in its error state. -/
def write (h : FileHandle) (fs : FileSystem) (offset : ℕ) (buffer : List UInt8) :
    Bool × FileHandle × FileSystem :=
  if h.failed then (false,h,fs)
  else if seekLimit ≤ offset ∨ h.mode.isOut = false then (false,{ h with failed := true },fs)
  else
    let store (file : DiskFile) : DiskFile :=
      { file with content := writeAt file.content offset buffer }
    (true,h,Function.update fs h.filename ((fs h.filename).map store))

end FileHandle

structure FileManager where
  openFiles : AList fun _ : String => FileHandle
  maxOpenFiles : ℕ
  workDir : String
  files : FileSystem

/-- A buffer holds one page. -/
abbrev PageBuffer := { b : List UInt8 // b.length = pageSize }

namespace FileManager

def new (workDir : String) (files : FileSystem) : FileManager := ⟨∅,100,workDir,files⟩

/-- `fs::absolute` -/
def normalizePath (workDir path : String) : String :=
  if path.toList.head? = some '/' then path else workDir++"/"++path

/-- The handle at the beginning of the hash map goes, which is any of them. -/
def evictFile (m : FileManager) (first : String) : FileManager :=
  { m with openFiles := m.openFiles.erase first }

/-- A handle that is found is returned whatever mode it was opened in. -/
def openFile (m : FileManager) (first filename : String) (mode : FileMode) :
    Option FileHandle × FileManager :=
  let path := normalizePath m.workDir filename
  match m.openFiles.lookup path with
  | some handle => (some handle,m)
  | none =>
    let m := if m.maxOpenFiles ≤ m.openFiles.keys.length then m.evictFile first else m
    match FileHandle.new m.files path mode with
    | (none,files) => (none,{ m with files := files })
    | (some handle,files) =>
      (some handle,{ m with files := files, openFiles := m.openFiles.insert path handle })

/-- The state of a handle after it was used. -/
def store (m : FileManager) (filename : String) (handle : FileHandle) : FileManager :=
  { m with openFiles := m.openFiles.insert (normalizePath m.workDir filename) handle }

/-- `page_id * PAGE_SIZE` in 64 bits. -/
def pageOffset (pid : PageId) : ℕ := pid*pageSize%2^64

def readPage (m : FileManager) (first filename : String) (pid : PageId) :
    (Bool × List UInt8) × FileManager :=
  match m.openFile first filename .read with
  | (none,m) => ((false,[]),m)
  | (some handle,m) =>
    let (result,handle) := handle.read m.files (pageOffset pid) pageSize
    (result,m.store filename handle)

def writePage (m : FileManager) (first filename : String) (pid : PageId) (buffer : PageBuffer) :
    Bool × FileManager :=
  match m.openFile first filename .readWrite with
  | (none,m) => (false,m)
  | (some handle,m) =>
    let (success,handle,files) := handle.write m.files (pageOffset pid) buffer.val
    (success,{ m with files := files }.store filename handle)

inductive FileOp
  | readPage (first filename : String) (pid : PageId)
  | writePage (first filename : String) (pid : PageId) (buffer : PageBuffer)

def FileOp.filename : FileOp → String
  | .readPage _ filename _ => filename
  | .writePage _ filename _ _ => filename

def FileOp.first : FileOp → String
  | .readPage first _ _ => first
  | .writePage first _ _ _ => first

/-- A path that the hash map can begin with. -/
def Begins (m : FileManager) (first : String) : Prop := m.openFiles.keys = [] ∨ first ∈ m.openFiles

instance (m : FileManager) (first : String) : Decidable (m.Begins first) :=
  inferInstanceAs (Decidable (_ ∨ _))

/-- There is no call in which the hash map begins with what is not in it. -/
def exec (m : FileManager) (op : FileOp) : Option FileManager :=
  if m.Begins op.first then
    match op with
    | .readPage first filename pid => some (m.readPage first filename pid).2
    | .writePage first filename pid buffer => some (m.writePage first filename pid buffer).2
  else none

def run (m : FileManager) : List FileOp → Option FileManager
  | [] => some m
  | op::ops => (m.exec op).bind fun m => run m ops

end FileManager
end OrangeSQL
