import OrangeSQL.Types

/-! Nodes of the B-tree: a header and three arrays, of which a leaf uses keys and values and any
other node keys and children. The arrays are functions from indices; an index that the source
computes as `int` and passes as `uint16_t` is cut to 16 bits. -/
namespace OrangeSQL

inductive BTreeNodeType
  | leaf | internal | root
  deriving DecidableEq, Repr

structure BTreeNodeHeader where
  type : BTreeNodeType
  keyCount : UInt16
  childCount : UInt16
  parentId : PageId
  nextId : PageId
  prevId : PageId
  level : UInt32
  deriving DecidableEq, Repr

structure BTreeNode (K V : Type) where
  pageId : PageId
  header : BTreeNodeHeader
  keys : ℕ → K
  values : ℕ → V
  children : ℕ → PageId
  dirty : Bool

/-- What `serialize` puts on a page: behind header and keys come the values of a leaf or the
children of any other node. -/
structure NodeImage (K V : Type) where
  header : BTreeNodeHeader
  keys : ℕ → K
  rest : (ℕ → V) ⊕ (ℕ → PageId)

namespace BTreeNode

variable {K V : Type} [LinearOrder K] [Inhabited K] [Inhabited V]

def order : ℕ := 128
def maxKeys : ℕ := order-1
def minKeys : ℕ := order/2-1

/-- The conversion of an `int` to `uint16_t`. -/
def toIndex (i : ℤ) : ℕ := (i%65536).toNat

def new (pid : PageId) (type : BTreeNodeType) : BTreeNode K V :=
  ⟨pid,⟨type,0,0,invalidPageId,invalidPageId,invalidPageId,0⟩,fun _ => default,fun _ => default,
    fun _ => invalidPageId,false⟩

def keyCount (n : BTreeNode K V) : ℕ := n.header.keyCount.toNat
def childCount (n : BTreeNode K V) : ℕ := n.header.childCount.toNat
def isLeaf (n : BTreeNode K V) : Bool := n.header.type = .leaf
def isFull (n : BTreeNode K V) : Bool := maxKeys ≤ n.keyCount
def isUnderflow (n : BTreeNode K V) : Bool := n.keyCount < minKeys
def markDirty (n : BTreeNode K V) : BTreeNode K V := { n with dirty := true }

def setType (n : BTreeNode K V) (type : BTreeNodeType) : BTreeNode K V :=
  markDirty { n with header.type := type }
def setParentId (n : BTreeNode K V) (pid : PageId) : BTreeNode K V :=
  markDirty { n with header.parentId := pid }
def setNextId (n : BTreeNode K V) (pid : PageId) : BTreeNode K V :=
  markDirty { n with header.nextId := pid }
def setPrevId (n : BTreeNode K V) (pid : PageId) : BTreeNode K V :=
  markDirty { n with header.prevId := pid }
def setLevel (n : BTreeNode K V) (level : UInt32) : BTreeNode K V :=
  markDirty { n with header.level := level }

/-- Nothing is returned where `std::out_of_range` is thrown. -/
def getKey (n : BTreeNode K V) (i : ℕ) : Option K := if i < n.keyCount then some (n.keys i) else none

def setKey (n : BTreeNode K V) (i : ℕ) (key : K) : BTreeNode K V :=
  if maxKeys ≤ i then n
  else markDirty { n with
    keys := Function.update n.keys i key
    header.keyCount := if n.keyCount ≤ i then UInt16.ofNat (i+1) else n.header.keyCount }

def getValue (n : BTreeNode K V) (i : ℕ) : Option V :=
  if n.isLeaf ∧ i < n.keyCount then some (n.values i) else none

def setValue (n : BTreeNode K V) (i : ℕ) (value : V) : BTreeNode K V :=
  if !n.isLeaf ∨ maxKeys ≤ i then n
  else markDirty { n with values := Function.update n.values i value }

def getChild (n : BTreeNode K V) (i : ℕ) : PageId :=
  if n.isLeaf ∨ n.childCount ≤ i then invalidPageId else n.children i

def setChild (n : BTreeNode K V) (i : ℕ) (child : PageId) : BTreeNode K V :=
  if n.isLeaf ∨ order ≤ i then n
  else markDirty { n with
    children := Function.update n.children i child
    header.childCount := if n.childCount ≤ i then UInt16.ofNat (i+1) else n.header.childCount }

/-- The loop of the binary search. -/
def searchKeys (keys : ℕ → K) (key : K) (left right : ℤ) : ℤ :=
  if left ≤ right then
    let mid := (left+right)/2
    if keys mid.toNat = key then mid
    else if keys mid.toNat < key then searchKeys keys key (mid+1) right
    else searchKeys keys key left (mid-1)
  else right
termination_by (right+1-left).toNat
decreasing_by all_goals omega

/-- The index of the key, or else of the last key below it, minus one if there is none. -/
def findKeyIndex (n : BTreeNode K V) (key : K) : ℤ :=
  searchKeys n.keys key 0 ((n.keyCount : ℤ)-1)

def findChildIndex (n : BTreeNode K V) (key : K) : ℤ :=
  if n.isLeaf then -1
  else
    let pos := n.findKeyIndex key
    if pos < 0 then 0
    else if pos < n.keyCount ∧ n.keys pos.toNat ≤ key then pos+1
    else pos

/-- `pos >= 0 && pos < key_count && keys[pos] == key`. -/
def hasKeyAt (n : BTreeNode K V) (pos : ℤ) (key : K) : Bool :=
  decide (0 ≤ pos) && decide (pos < n.keyCount) && decide (n.keys pos.toNat = key)

/-- An array after its cells from `start` to `stop` were moved up by one, from the top down. -/
def movedUp {α : Type} (a : ℕ → α) (start stop : ℕ) : ℕ → α :=
  fun i => if start < i ∧ i ≤ stop then a (i-1) else a i

/-- An array after its cells above `start` and below `stop` were moved down by one. -/
def movedDown {α : Type} (a : ℕ → α) (start stop : ℕ) : ℕ → α :=
  fun i => if start ≤ i ∧ i+1 < stop then a (i+1) else a i

def shiftRight (n : BTreeNode K V) (start : ℕ) : BTreeNode K V :=
  { n with
    keys := movedUp n.keys start n.keyCount
    values := if n.isLeaf then movedUp n.values start n.keyCount else n.values
    children := if n.isLeaf then n.children else movedUp n.children start n.childCount }

def shiftLeft (n : BTreeNode K V) (start : ℕ) : BTreeNode K V :=
  { n with
    keys := movedDown n.keys start n.keyCount
    values := if n.isLeaf then movedDown n.values start n.keyCount else n.values
    children := if n.isLeaf then n.children else movedDown n.children start n.childCount }

def insertAt (n : BTreeNode K V) (i : ℕ) (key : K) (value : V) (child : PageId) :
    Bool × BTreeNode K V :=
  if n.isFull then (false,n)
  else
    let n := n.shiftRight i
    let n := { n with keys := Function.update n.keys i key }
    let n := if n.isLeaf then { n with values := Function.update n.values i value }
      else { n with
        children := Function.update n.children i child
        header.childCount := n.header.childCount+1 }
    (true,markDirty { n with header.keyCount := n.header.keyCount+1 })

/-- A key that is there is given the new value in a leaf and refused elsewhere. -/
def insert (n : BTreeNode K V) (key : K) (value : V) (child : PageId) : Bool × BTreeNode K V :=
  let pos := n.findKeyIndex key
  if n.hasKeyAt pos key then
    if n.isLeaf then (true,markDirty { n with values := Function.update n.values pos.toNat value })
    else (false,n)
  else
    let pos := if pos < 0 then 0 else if n.keys pos.toNat < key then pos+1 else pos
    n.insertAt (toIndex pos) key value child

def removeAt (n : BTreeNode K V) (i : ℕ) : Bool × BTreeNode K V :=
  if n.keyCount ≤ i then (false,n)
  else
    let n := { n with
      keys := Function.update n.keys i default
      values := if n.isLeaf then Function.update n.values i default else n.values }
    let n := n.shiftLeft i
    (true,markDirty { n with
      header.keyCount := n.header.keyCount-1
      header.childCount := if n.isLeaf then n.header.childCount else n.header.childCount-1 })

def remove (n : BTreeNode K V) (key : K) : Bool × BTreeNode K V :=
  let pos := n.findKeyIndex key
  if n.hasKeyAt pos key then n.removeAt (toIndex pos) else (false,n)

def getSplitKey (n : BTreeNode K V) : K := n.keys (n.keyCount/2)

/-- The node is left with what is below the middle key, the new one gets what is above it. -/
def split (n : BTreeNode K V) : BTreeNode K V × BTreeNode K V :=
  let new : BTreeNode K V := (BTreeNode.new invalidPageId n.header.type).setLevel n.header.level
  let mid := n.keyCount/2
  let above {α : Type} (a b : ℕ → α) (stop : ℕ) : ℕ → α :=
    fun i => if i+mid+1 < stop then a (i+mid+1) else b i
  let new := { new with
    keys := above n.keys new.keys n.keyCount
    values := if n.isLeaf then above n.values new.values n.keyCount else new.values
    children := if n.isLeaf then new.children
      else above n.children new.children (n.childCount+1)
    header.keyCount := UInt16.ofNat (toIndex ((n.keyCount : ℤ)-mid-1))
    header.childCount := if n.isLeaf then 0
      else UInt16.ofNat (toIndex ((n.childCount : ℤ)-mid-1)) }
  let old := { n with
    header.keyCount := UInt16.ofNat mid
    header.childCount := if n.isLeaf then n.header.childCount else UInt16.ofNat (mid+1) }
  if n.isLeaf then
    (markDirty { old with header.nextId := invalidPageId },
      (new.setNextId n.header.nextId).setPrevId n.pageId)
  else (markDirty old,new)

/-- Append what the right node has; nodes of different type or level are not merged. -/
def merge (n right : BTreeNode K V) : Bool × BTreeNode K V :=
  if n.header.type ≠ right.header.type ∨ n.header.level ≠ right.header.level then (false,n)
  else
    let joined {α : Type} (a b : ℕ → α) (start count : ℕ) : ℕ → α :=
      fun i => if start ≤ i ∧ i < start+count then b (i-start) else a i
    (true,markDirty { n with
      keys := joined n.keys right.keys n.keyCount right.keyCount
      values := if n.isLeaf then joined n.values right.values n.keyCount right.keyCount
        else n.values
      children := if n.isLeaf then n.children
        else joined n.children right.children n.childCount (right.childCount+1)
      header.keyCount := n.header.keyCount+right.header.keyCount
      header.childCount := if n.isLeaf then n.header.childCount
        else n.header.childCount+right.header.childCount
      header.nextId := if n.isLeaf then right.header.nextId else n.header.nextId })

/-- Take one key over from the neighbour; the result is the node and the neighbour. From the left
the count of the node is not raised. -/
def redistribute (n neighbor : BTreeNode K V) (fromLeft : Bool) : BTreeNode K V × BTreeNode K V :=
  if fromLeft then
    let last := neighbor.keyCount-1
    let n := n.shiftRight 0
    let n := { n with
      keys := Function.update n.keys 0 (neighbor.keys last)
      values := if n.isLeaf then Function.update n.values 0 (neighbor.values last) else n.values
      children := if n.isLeaf then n.children
        else Function.update n.children 0 (neighbor.children (neighbor.childCount-1)) }
    (n.markDirty,(neighbor.removeAt (toIndex ((neighbor.keyCount : ℤ)-1))).2)
  else
    let n := { n with
      keys := Function.update n.keys n.keyCount (neighbor.keys 0)
      values := if n.isLeaf then Function.update n.values n.keyCount (neighbor.values 0)
        else n.values
      children := if n.isLeaf then n.children
        else Function.update n.children n.childCount (neighbor.children 0)
      header.keyCount := n.header.keyCount+1
      header.childCount := if n.isLeaf then n.header.childCount else n.header.childCount+1 }
    (n.markDirty,(neighbor.removeAt 0).2)

def serialize (n : BTreeNode K V) : NodeImage K V :=
  ⟨n.header,n.keys,if n.isLeaf then .inl n.values else .inr n.children⟩

/-- What `deserialize` makes of a fresh node with this page id. -/
def deserialize (pid : PageId) (image : NodeImage K V) : BTreeNode K V :=
  let fresh : BTreeNode K V := BTreeNode.new pid .leaf
  let n := { fresh with header := image.header, keys := image.keys }
  match image.rest with
  | .inl values => { n with values := values }
  | .inr children => { n with children := children }

end BTreeNode
end OrangeSQL
