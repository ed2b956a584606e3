import OrangeSQL.Library.FixedWidth
import OrangeSQL.BTreeNode

/-! The bytes of a B-tree node on its page, for the key types that the tree is instantiated with.
Behind a header of 40 bytes come all 127 cells of the key array, and then 127 values or 128
children; whether that fits into a page depends on the key type alone. -/
namespace OrangeSQL

open Bytes

def BTreeNodeType.code : BTreeNodeType → ℕ
  | .leaf => 0 | .internal => 1 | .root => 2

/-- Only the codes of the enumerators are ever written. -/
def BTreeNodeType.ofCode : ℕ → BTreeNodeType
  | 0 => .leaf | 1 => .internal | _ => .root

theorem BTreeNodeType.ofCode_code (type : BTreeNodeType) : ofCode type.code = type := by
  cases type <;> rfl

/-- The fields in the order of their declaration, with the padding behind the last one. -/
def BTreeNodeHeader.width : FixedWidth BTreeNodeHeader :=
  (((((((FixedWidth.nat 4).pair FixedWidth.uint16).pair FixedWidth.uint16).pair
    (FixedWidth.nat 8)).pair (FixedWidth.nat 8)).pair (FixedWidth.nat 8)).pair
    (FixedWidth.uint32.pair (FixedWidth.padding 4))).via
    (fun h => ((((((h.type.code,h.keyCount),h.childCount),h.parentId),h.nextId),h.prevId),
      (h.level,())))
    (fun f => ⟨.ofCode f.1.1.1.1.1.1,f.1.1.1.1.1.2,f.1.1.1.1.2,f.1.1.1.2,f.1.1.2,f.1.2,f.2.1⟩)
    fun h => by simp [BTreeNodeType.ofCode_code]

/-- The key types of the explicit instantiations. -/
inductive KeyType
  | int32 | int64 | string
  deriving DecidableEq, Repr

/-- A string is the bytes of the object: a pointer, a length and the local buffer. -/
def KeyType.Key : KeyType → Type
  | .int32 => Int32
  | .int64 => Int64
  | .string => Vector UInt8 32

def KeyType.width : (kt : KeyType) → FixedWidth kt.Key
  | .int32 => FixedWidth.int32
  | .int64 => FixedWidth.int64
  | .string => FixedWidth.raw 32

theorem KeyType.valid (kt : KeyType) (key : kt.Key) : kt.width.Valid key := by
  cases kt with
  | int32 => exact FixedWidth.valid_int32 key
  | int64 => exact FixedWidth.valid_int64 key
  | string => trivial

instance (kt : KeyType) : Inhabited kt.Key :=
  match kt with
  | .int32 => inferInstanceAs (Inhabited Int32)
  | .int64 => inferInstanceAs (Inhabited Int64)
  | .string => inferInstanceAs (Inhabited (Vector UInt8 32))

namespace BTreeNode

section Bytes

variable {kt : KeyType} {n : BTreeNode kt.Key UInt64}

/-- The values of a leaf or the children of any other node. -/
def restBytes (n : BTreeNode kt.Key UInt64) : List UInt8 :=
  if n.isLeaf then FixedWidth.uint64.encodeArray n.values maxKeys
  else (FixedWidth.nat 8).encodeArray n.children order

/-- What is written behind the address that `serialize` is given. -/
def serializeBytes (n : BTreeNode kt.Key UInt64) : List UInt8 :=
  BTreeNodeHeader.width.encode n.header++(kt.width.encodeArray n.keys maxKeys++n.restBytes)

/-- What `deserialize` makes of a fresh node; which array comes last is read off the header. -/
def deserializeBytes (pid : PageId) (buffer : List UInt8) : BTreeNode kt.Key UInt64 :=
  let fresh : BTreeNode kt.Key UInt64 := BTreeNode.new pid .leaf
  let header := BTreeNodeHeader.width.decode (buffer.take BTreeNodeHeader.width.size)
  let keys := buffer.drop BTreeNodeHeader.width.size
  let rest := keys.drop (maxKeys*kt.width.size)
  { fresh with
    header := header
    keys := fun i => if i < maxKeys then kt.width.decodeArray keys i else fresh.keys i
    values := fun i => if header.type = .leaf ∧ i < maxKeys then FixedWidth.uint64.decodeArray rest i
      else fresh.values i
    children := fun i => if header.type ≠ .leaf ∧ i < order then (FixedWidth.nat 8).decodeArray rest i
      else fresh.children i }

/-- The page ids of a node are 64-bit words. -/
structure HasWords (n : BTreeNode kt.Key UInt64) : Prop where
  parentId : n.header.parentId < 2^64
  nextId : n.header.nextId < 2^64
  prevId : n.header.prevId < 2^64
  children : ∀ i < order, n.children i < 2^64

/-- Two nodes that differ at most in cells that their kind has no use for. -/
structure SameCells (m n : BTreeNode kt.Key UInt64) : Prop where
  header : m.header = n.header
  keys : ∀ i < maxKeys, m.keys i = n.keys i
  values : n.isLeaf → ∀ i < maxKeys, m.values i = n.values i
  children : ¬ n.isLeaf → ∀ i < order, m.children i = n.children i

/-- The node fits on a page, and what is read from there is the node. -/
def PageRoundTrip (n : BTreeNode kt.Key UInt64) : Prop :=
  n.serializeBytes.length ≤ pageSize ∧ ∀ pid, SameCells (deserializeBytes pid n.serializeBytes) n

theorem HasWords.header_valid (h : n.HasWords) : BTreeNodeHeader.width.Valid n.header := by
  have htype : n.header.type.code < 256^4 := by
    cases n.header.type <;> decide
  exact ⟨⟨⟨⟨⟨⟨htype,FixedWidth.valid_uint16 _⟩,FixedWidth.valid_uint16 _⟩,h.parentId⟩,h.nextId⟩,
    h.prevId⟩,FixedWidth.valid_uint32 _,trivial⟩

theorem length_serializeBytes (n : BTreeNode kt.Key UInt64) :
    n.serializeBytes.length = 40+(127*kt.width.size+if n.isLeaf then 1016 else 1024) := by
  have hrest : n.restBytes.length = if n.isLeaf then 1016 else 1024 := by
    unfold restBytes
    split_ifs <;> rw [FixedWidth.length_encodeArray] <;> rfl
  rw [serializeBytes,List.length_append,List.length_append,BTreeNodeHeader.width.length_encode,
    FixedWidth.length_encodeArray,hrest]
  rfl

/-- The node comes back whatever its size. -/
theorem sameCells_deserializeBytes (h : n.HasWords) (pid : PageId) :
    SameCells (deserializeBytes pid n.serializeBytes) n := by
  have hheader : BTreeNodeHeader.width.decode
      (n.serializeBytes.take BTreeNodeHeader.width.size) = n.header := by
    rw [serializeBytes,List.take_left' (BTreeNodeHeader.width.length_encode _),
      BTreeNodeHeader.width.decode_encode _ h.header_valid]
  have hkeys : n.serializeBytes.drop BTreeNodeHeader.width.size =
      kt.width.encodeArray n.keys maxKeys++n.restBytes := by
    rw [serializeBytes,List.drop_left' (BTreeNodeHeader.width.length_encode _)]
  have hrest : (n.serializeBytes.drop BTreeNodeHeader.width.size).drop (maxKeys*kt.width.size) =
      n.restBytes++[] := by
    rw [hkeys,List.drop_left' (FixedWidth.length_encodeArray _ _ _),List.append_nil]
  constructor
  case header => exact hheader
  case keys =>
    intro i hi
    simp only [deserializeBytes,hkeys]
    rw [if_pos hi,FixedWidth.decodeArray_encodeArray _ _ _ hi (kt.valid _)]
  case values =>
    intro hleaf i hi
    have htype : n.header.type = .leaf := by simpa [isLeaf] using hleaf
    simp only [deserializeBytes,hheader,hrest]
    rw [if_pos ⟨htype,hi⟩,restBytes,if_pos hleaf,
      FixedWidth.decodeArray_encodeArray _ _ _ hi (FixedWidth.valid_uint64 _)]
  case children =>
    intro hinner i hi
    have htype : n.header.type ≠ .leaf := by simpa [isLeaf] using hinner
    simp only [deserializeBytes,hheader,hrest]
    rw [if_pos ⟨htype,hi⟩,restBytes,if_neg hinner,
      FixedWidth.decodeArray_encodeArray _ _ _ hi (h.children i hi)]

/-- In the model of the tree a page holds the node's image as a whole; the bytes agree with it. -/
theorem sameCells_deserialize (n : BTreeNode kt.Key UInt64) (pid : PageId) :
    SameCells (deserialize pid n.serialize) n := by
  constructor
  case header => cases h : n.isLeaf <;> simp [deserialize,serialize,h]
  case keys => intro i _; cases h : n.isLeaf <;> simp [deserialize,serialize,h]
  case values => intro hleaf i _; simp [deserialize,serialize,hleaf]
  case children => intro hinner i _; simp [deserialize,serialize,hinner]

/-- Neither the counts nor the contents of a node matter: the arrays are written as a whole, and 127
strings of 32 bytes are already more than the rest of a page. -/
theorem pageRoundTrip_iff (kt : KeyType) (n : BTreeNode kt.Key UInt64) (h : n.HasWords)
    (_hkeys : n.keyCount ≤ maxKeys) (_hchildren : n.childCount ≤ order) :
    n.PageRoundTrip ↔ kt ≠ .string := by
  have hfits : n.serializeBytes.length ≤ pageSize ↔ kt ≠ .string := by
    rw [length_serializeBytes]
    cases kt with
    | int32 => exact ⟨fun _ => by decide,fun _ => by split_ifs <;> decide⟩
    | int64 => exact ⟨fun _ => by decide,fun _ => by split_ifs <;> decide⟩
    | string =>
      constructor
      · intro hle
        split_ifs at hle <;> exact absurd hle (by decide)
      · intro hne
        exact absurd rfl hne
  exact ⟨fun hround => hfits.mp hround.1,
    fun hne => ⟨hfits.mpr hne,sameCells_deserializeBytes h⟩⟩

theorem pageRoundTrip_iff_fresh :
    (BTreeNode.new 0 .leaf : BTreeNode (KeyType.Key .int32) UInt64).PageRoundTrip ↔
      KeyType.int32 ≠ .string :=
  pageRoundTrip_iff .int32 _ ⟨by decide,by decide,by decide,fun _ _ => by
    change invalidPageId < 2^64
    decide⟩ (by decide) (by decide)

/-- A fresh leaf with string keys takes 5120 bytes. -/
theorem stringLeaf_not_pageRoundTrip :
    ¬ (BTreeNode.new 0 .leaf : BTreeNode (KeyType.Key .string) UInt64).PageRoundTrip := by
  rintro ⟨hfits,_⟩
  rw [length_serializeBytes] at hfits
  exact absurd hfits (by decide)

end Bytes

end BTreeNode
end OrangeSQL
