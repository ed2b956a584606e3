import OrangeSQL.BTreeNode

/-! The B-tree over a store of node pages. A node in hand is a copy of its page, made by `getNode`
and written back by `releaseNode` if it was changed. Recursion and loops take fuel; a call
fails where the source throws or touches memory it must not. -/
namespace OrangeSQL

structure IndexConfig where
  unique : Bool
  deriving DecidableEq, Repr

inductive BTreeFault
  | outOfFuel | outOfRange | nullPointer | useAfterFree
  deriving DecidableEq, Repr

/-- A buffer pool that gives back what was written, with the counter for new pages. -/
structure PageStore (K V : Type) where
  pages : Finmap (fun _ : PageId => NodeImage K V)
  next : PageId

structure BTree (K V : Type) where
  config : IndexConfig
  rootPageId : PageId
  store : PageStore K V

namespace BTree

variable {K V : Type} [LinearOrder K] [Inhabited K] [Inhabited V]

abbrev TreeM (K V : Type) := StateT (BTree K V) (Except BTreeFault)

open BTreeNode (minKeys toIndex)

def getNode (pid : PageId) : TreeM K V (Option (BTreeNode K V)) := do
  if pid = invalidPageId then return none
  return ((← get).store.pages.lookup pid).map (BTreeNode.deserialize pid)

def releaseNode (n : BTreeNode K V) : TreeM K V Unit :=
  if n.dirty then
    modify fun t => { t with
      store.pages := if n.pageId ∈ t.store.pages then t.store.pages.insert n.pageId n.serialize
        else t.store.pages }
  else pure ()

def createNode (type : BTreeNodeType) : TreeM K V PageId := do
  let pid := (← get).store.next
  modify fun t => { t with
    store := ⟨t.store.pages.insert pid (BTreeNode.new pid type).serialize,pid+1⟩ }
  return pid

/-- A getter that may throw. -/
def orThrow {α : Type} : Option α → TreeM K V α
  | some a => pure a
  | none => throw .outOfRange

/-- The constructor: page 0 is taken for the root if there is one. -/
def construct : TreeM K V Unit := do
  match ← getNode 0 with
  | some _ => modify fun t => { t with rootPageId := 0 }
  | none =>
    let pid ← createNode .leaf
    modify fun t => { t with rootPageId := pid }
    match ← getNode pid with
    | some root => releaseNode (root.setType .root)
    | none => pure ()

/-- The child is split in two if it is full; the result is the parent with the new separator. -/
def splitChild (parent : BTreeNode K V) (i : ℕ) : TreeM K V (BTreeNode K V) := do
  match ← getNode (parent.getChild i) with
  | none => return parent
  | some child =>
    if !child.isFull then return parent
    let newPage ← createNode child.header.type
    match ← getNode newPage with
    | none => return parent
    | some new =>
      let midKey := child.getSplitKey
      let (child,split) := child.split
      let count := split.keyCount
      let new := (List.range count).foldl (fun n j =>
        let n := n.setKey j (split.keys j)
        if child.isLeaf then n.setValue j (split.values j) else n) new
      let new := if child.isLeaf then new
        else (List.range (count+1)).foldl (fun n j => n.setChild j (split.getChild j)) new
      let parent := (parent.insertAt i midKey default newPage).2
      let new := if child.isLeaf then (new.setNextId child.header.nextId).setPrevId child.pageId
        else new
      let child := if child.isLeaf then child.setNextId newPage else child
      releaseNode (child.setParentId parent.pageId)
      releaseNode (new.setParentId parent.pageId)
      return parent

def insertInternal : ℕ → K → V → PageId → TreeM K V Status
  | 0, _, _, _ => throw .outOfFuel
  | fuel+1, key, value, nodePage => do
    match ← getNode nodePage with
    | none => return .error
    | some node =>
      if node.isLeaf then
        if (← get).config.unique && node.hasKeyAt (node.findKeyIndex key) key then
          return .alreadyExists
        let (done,node) := node.insert key value invalidPageId
        releaseNode node
        return if done then .ok else .error
      else
        let i := toIndex (node.findChildIndex key)
        let childPage := node.getChild i
        match ← getNode childPage with
        | none => return .error
        | some child =>
          if child.isFull then
            let node ← splitChild node i
            let separator ← orThrow (node.getKey i)
            let childPage := if separator < key then node.getChild (i+1) else node.getChild i
            let status ← insertInternal fuel key value childPage
            releaseNode node
            return status
          else
            insertInternal fuel key value childPage

/-- A new root above the full one. The new root is not written back before the descent. -/
def growRoot (root : BTreeNode K V) : TreeM K V (Option (BTreeNode K V)) := do
  let newRootId ← createNode .internal
  match ← getNode newRootId with
  | none => return none
  | some newRoot =>
    let newRoot := (newRoot.setType .root).setChild 0 (← get).rootPageId
    releaseNode ((root.setParentId newRootId).setType .internal)
    let newRoot ← splitChild newRoot 0
    modify fun t => { t with rootPageId := newRootId }
    return some newRoot

def insert (fuel : ℕ) (key : K) (value : V) : TreeM K V Status := do
  match ← getNode (← get).rootPageId with
  | none => return .error
  | some root =>
    let held ← if root.isFull then growRoot root else pure (some root)
    match held with
    | none => return .error
    | some held =>
      let status ← insertInternal fuel key value (← get).rootPageId
      releaseNode held
      return status

/-- The parent is handed on, with the separator removed if the two children were merged. -/
def mergeNodes (parent : BTreeNode K V) (i : ℕ) : TreeM K V (BTreeNode K V) := do
  let left ← getNode (parent.getChild i)
  let right ← getNode (parent.getChild (i+1))
  match left, right with
  | some left, some right =>
    let left ← if left.isLeaf then pure left
      else do
        let separator ← orThrow (parent.getKey i)
        let left := left.setKey left.keyCount separator
        pure (left.setChild left.childCount (right.getChild 0))
    let left := (left.merge right).2
    let left := if left.isLeaf then left.setNextId right.header.nextId else left
    releaseNode left
    return (parent.removeAt i).2
  | _, _ => return parent

def redistribute (parent : BTreeNode K V) (i : ℕ) (fromLeft : Bool) :
    TreeM K V (BTreeNode K V) := do
  let l := if fromLeft then i-1 else i
  let left ← getNode (parent.getChild l)
  let right ← getNode (parent.getChild (l+1))
  match left, right with
  | some left, some right =>
    if fromLeft then
      let (right,left) := right.redistribute left true
      let parent ← if right.isLeaf then pure parent
        else do
          let key ← orThrow (left.getKey (toIndex ((left.keyCount : ℤ)-1)))
          pure (parent.setKey l key)
      releaseNode left
      releaseNode right
      return parent
    else
      let (left,right) := left.redistribute right false
      let parent ← if left.isLeaf then pure parent
        else do
          let key ← orThrow (right.getKey 0)
          pure (parent.setKey l key)
      releaseNode left
      releaseNode right
      return parent
  | _, _ => return parent

/-- A sibling that can lend a key. -/
def lends (pid : PageId) : TreeM K V Bool := do
  match ← getNode pid with
  | some sibling => return minKeys < sibling.keyCount
  | none => return false

def handleUnderflow (parentPage : PageId) (i : ℕ) : TreeM K V Unit := do
  match ← getNode parentPage with
  | none => return
  | some parent =>
    let fromLeft ← if 0 < i then lends (parent.getChild (i-1)) else pure false
    if fromLeft then
      releaseNode (← redistribute parent i true)
    else
      let fromRight ← if i+1 < parent.childCount then lends (parent.getChild (i+1)) else pure false
      if fromRight then
        releaseNode (← redistribute parent i false)
      else
        releaseNode (← mergeNodes parent (if 0 < i then i-1 else i))

/-- Go down from a node, which is given up, to a leaf. -/
def descend (step : BTreeNode K V → PageId) : ℕ → BTreeNode K V → TreeM K V (BTreeNode K V)
  | 0, _ => throw .outOfFuel
  | fuel+1, node => do
    if node.isLeaf then return node
    match ← getNode (step node) with
    | none => throw .nullPointer
    | some child => descend step fuel child

/-- The removal of a key of an inner node. A child from which the neighbouring key was taken has
been given up when it is released a second time. -/
def removeSeparator (removeBelow : K → PageId → TreeM K V Status) (fuel : ℕ)
    (node : BTreeNode K V) (key : K) (pos : ℕ) : TreeM K V Status := do
  let left ← getNode (node.getChild pos)
  let right ← getNode (node.getChild (pos+1))
  match left, right with
  | some left, some right =>
    if minKeys+1 ≤ left.keyCount then
      let pred ← descend (fun n => n.getChild n.keyCount) fuel left
      let last := toIndex ((pred.keyCount : ℤ)-1)
      let predKey ← orThrow (pred.getKey last)
      let _ ← orThrow (pred.getValue last)
      let node := node.setKey pos predKey
      let _ ← removeBelow predKey (node.getChild pos)
      throw .useAfterFree
    else if minKeys+1 ≤ right.keyCount then
      let succ ← descend (fun n => n.getChild 0) fuel right
      let succKey ← orThrow (succ.getKey 0)
      let _ ← orThrow (succ.getValue 0)
      let node := node.setKey pos succKey
      let _ ← removeBelow succKey (node.getChild (pos+1))
      throw .useAfterFree
    else
      let node ← mergeNodes node pos
      let _ ← removeBelow key (node.getChild pos)
      releaseNode node
      return .ok
  | _, _ => return .error

def removeInternal : ℕ → K → PageId → TreeM K V Status
  | 0, _, _ => throw .outOfFuel
  | fuel+1, key, nodePage => do
    match ← getNode nodePage with
    | none => return .error
    | some node =>
      let pos := node.findKeyIndex key
      if node.isLeaf then
        if node.hasKeyAt pos key then
          releaseNode (node.removeAt (toIndex pos)).2
          return .ok
        return .notFound
      else if node.hasKeyAt pos key then
        removeSeparator (removeInternal fuel) fuel node key (toIndex pos)
      else
        let i := toIndex (node.findChildIndex key)
        let childPage := node.getChild i
        match ← getNode childPage with
        | none => return .error
        | some child =>
          if child.isUnderflow then
            handleUnderflow nodePage i
            match ← getNode childPage with
            | none => return .error
            | some _ => removeInternal fuel key childPage
          else
            removeInternal fuel key childPage

def remove (fuel : ℕ) (key : K) : TreeM K V Status := do
  let status ← removeInternal fuel key (← get).rootPageId
  if status = .ok then
    match ← getNode (← get).rootPageId with
    | some root =>
      if root.keyCount = 0 ∧ !root.isLeaf then
        let newRootId := root.getChild 0
        modify fun t => { t with rootPageId := newRootId }
        match ← getNode newRootId with
        | some newRoot => releaseNode ((newRoot.setType .root).setParentId invalidPageId)
        | none => pure ()
    | none => pure ()
  return status

/-- The leaf that the search ends in. -/
def findLeafFrom (key : K) : ℕ → Option (BTreeNode K V) → TreeM K V (Option (BTreeNode K V))
  | 0, _ => throw .outOfFuel
  | _+1, none => return none
  | fuel+1, some node => do
    if node.isLeaf then return some node
    let child ← getNode (node.getChild (toIndex (node.findChildIndex key)))
    findLeafFrom key fuel child

def findLeaf (fuel : ℕ) (key : K) : TreeM K V (Option (BTreeNode K V)) := do
  findLeafFrom key fuel (← getNode (← get).rootPageId)

/-- The status, and the value that was found. -/
def find (fuel : ℕ) (key : K) : TreeM K V (Status × Option V) := do
  match ← findLeaf fuel key with
  | none => return (.notFound,none)
  | some node =>
    let pos := node.findKeyIndex key
    if node.hasKeyAt pos key then
      let value ← orThrow (node.getValue pos.toNat)
      return (.ok,some value)
    return (.notFound,none)

end BTree
end OrangeSQL
