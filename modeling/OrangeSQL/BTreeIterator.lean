import OrangeSQL.BTreeShape

/-! The walks through a B-tree: iterators along the chain of the leaves with the range queries on
top of them, and `traverse` with its stack of pages. A node has at most 127 keys, so the slots of
an iterator do not wrap around. -/
namespace OrangeSQL
namespace BTree

structure Iterator (K V : Type) where
  currentPage : PageId
  currentSlot : ℕ
  isEnd : Bool
  currentNode : Option (BTreeNode K V)

namespace Iterator

variable {K V : Type}

/-- The iterator that `end()` makes. -/
def done : Iterator K V := ⟨invalidPageId,0,true,none⟩

/-- `operator!=`, which does not look at the nodes. -/
def differs (a b : Iterator K V) : Bool :=
  a.isEnd != b.isEnd || a.currentPage != b.currentPage || a.currentSlot != b.currentSlot

/-- `operator*` -/
def deref (it : Iterator K V) : TreeM K V (K × V) := do
  if it.isEnd then throw .outOfRange
  match it.currentNode with
  | none => throw .outOfRange
  | some node => return (← orThrow (node.getKey it.currentSlot),← orThrow (node.getValue it.currentSlot))

variable [Inhabited K] [Inhabited V]

def loadCurrentNode (it : Iterator K V) : TreeM K V (Iterator K V) := do
  if it.currentPage = invalidPageId then return it
  return { it with currentNode := ← getNode it.currentPage }

/-- What `advance` does with its node in hand. -/
def advanceFrom (it : Iterator K V) (node : BTreeNode K V) : TreeM K V (Iterator K V) :=
  if node.keyCount ≤ it.currentSlot+1 then
    if node.header.nextId = invalidPageId then return done
    else loadCurrentNode ⟨node.header.nextId,0,it.isEnd,none⟩
  else return { it with currentSlot := it.currentSlot+1 }

def advance (it : Iterator K V) : TreeM K V (Iterator K V) := do
  let it ← if it.currentNode.isSome then pure it else it.loadCurrentNode
  match it.currentNode with
  | none => return { it with isEnd := true }
  | some node => it.advanceFrom node

end Iterator

variable {K V : Type} [LinearOrder K] [Inhabited K] [Inhabited V]

def leftmostLeaf : ℕ → Option (BTreeNode K V) → TreeM K V (Option (BTreeNode K V))
  | 0, _ => throw .outOfFuel
  | _+1, none => return none
  | fuel+1, some node => do
    if node.isLeaf then return some node
    leftmostLeaf fuel (← getNode (node.getChild 0))

/-- `begin()`: the iterator stands on the first leaf, or behind it if that is empty. -/
def begin (fuel : ℕ) : TreeM K V (Iterator K V) := do
  match ← getNode (← get).rootPageId with
  | none => return ⟨invalidPageId,0,false,none⟩
  | some root =>
    match ← leftmostLeaf fuel (some root) with
    | none => return ⟨invalidPageId,0,true,none⟩
    | some node =>
      if node.keyCount ≤ 0 then Iterator.advance ⟨node.pageId,0,false,some node⟩
      else return ⟨node.pageId,0,false,some node⟩

/-- The loop that passes the keys below the one looked for. -/
def skipBelow (node : BTreeNode K V) (key : K) (pos : ℕ) : ℕ :=
  if pos < node.keyCount ∧ node.keys pos < key then skipBelow node key (pos+1) else pos
termination_by node.keyCount-pos

def findFirst (fuel : ℕ) (key : K) : TreeM K V (Iterator K V) := do
  match ← findLeaf fuel key with
  | none => return .done
  | some node =>
    let pos := skipBelow node key (max 0 (node.findKeyIndex key)).toNat
    let it ← begin fuel
    let it ← { it with currentPage := node.pageId, currentSlot := pos }.loadCurrentNode
    match it.currentNode with
    | none => throw .nullPointer
    | some node => if node.keyCount ≤ it.currentSlot then it.advance else return it

def collectPairs (stop : K) : ℕ → Iterator K V → List (K × V) → TreeM K V (List (K × V))
  | 0, _, _ => throw .outOfFuel
  | fuel+1, it, results => do
    if it.differs .done then
      let (key,value) ← it.deref
      if stop < key then return results
      collectPairs stop fuel (← it.advance) (results++[(key,value)])
    else return results

def rangeQueryWithKeys (fuel : ℕ) (start stop : K) : TreeM K V (List (K × V)) := do
  collectPairs stop fuel (← findFirst fuel start) []

def collectValues (stop : K) : ℕ → Iterator K V → List V → TreeM K V (List V)
  | 0, _, _ => throw .outOfFuel
  | fuel+1, it, results => do
    if it.differs .done then
      let entry ← it.deref
      if entry.1 ≤ stop then
        let entry ← it.deref
        collectValues stop fuel (← it.advance) (results++[entry.2])
      else return results
    else return results

def rangeQuery (fuel : ℕ) (start stop : K) : TreeM K V (List V) := do
  collectValues stop fuel (← findFirst fuel start) []

/-- A loop of a client from an iterator to `end()`; `scan` starts it at `begin()`. -/
def iterate : ℕ → Iterator K V → List (K × V) → TreeM K V (List (K × V))
  | 0, _, _ => throw .outOfFuel
  | fuel+1, it, results => do
    if it.differs .done then
      let entry ← it.deref
      iterate fuel (← it.advance) (results++[entry])
    else return results

def scan (fuel : ℕ) : TreeM K V (List (K × V)) := do
  iterate fuel (← begin fuel) []

/-- The calls of the callback for one leaf. -/
def visitLeaf (node : BTreeNode K V) : TreeM K V (List (K × V)) :=
  (List.range node.keyCount).mapM fun i => do
    return (← orThrow (node.getKey i),← orThrow (node.getValue i))

/-- The children are pushed from the last to the first. -/
def pushChildren (node : BTreeNode K V) (stack : List PageId) : List PageId :=
  (List.range (node.keyCount+1)).reverse.foldl (fun stack i =>
    if node.getChild i ≠ invalidPageId then node.getChild i::stack else stack) stack

/-- The loop with the stack; what the callback was called with is collected. -/
def traverseLoop : ℕ → List PageId → List (K × V) → TreeM K V (List (K × V))
  | _, [], out => return out
  | 0, _::_, _ => throw .outOfFuel
  | fuel+1, current::stack, out => do
    match ← getNode current with
    | none => traverseLoop fuel stack out
    | some node =>
      if node.isLeaf then
        let entries ← visitLeaf node
        traverseLoop fuel stack (out++entries)
      else traverseLoop fuel (pushChildren node stack) out

def traverse (fuel : ℕ) : TreeM K V (List (K × V)) := do
  match ← getNode (← get).rootPageId with
  | none => return []
  | some _ => traverseLoop fuel [(← get).rootPageId] []

end BTree
end OrangeSQL
