import OrangeSQL.BTreeInsertion
import OrangeSQL.Library.WeakOrders

/-! The calls on a whole index. `rebuild` and `vacuum` clear nothing before they put the entries in
again: where no node on the way to an entry is full they leave the tree as it is, elsewhere they make
new pages. -/
namespace OrangeSQL
namespace BTree

variable {K V : Type} [LinearOrder K] [Inhabited K] [Inhabited V]

section Definitions

end Definitions

section Sorting

end Sorting

section Unchanged

variable {t : BTree K V} {leaves : List (BTreeNode K V)}

end Unchanged

section NewPages

variable {t t' : BTree K V} {α β : Type} {least : ℕ}

/-- A computation that returns has made at least so many pages, and every page is still there. -/
def Creates (least : ℕ) (x : TreeM K V α) : Prop :=
  ∀ t a t', x.run t = .ok (a,t') →
    t.store.next+least ≤ t'.store.next ∧ ∀ pid ∈ t.store.pages, pid ∈ t'.store.pages

omit [LinearOrder K] [Inhabited K] [Inhabited V] in
theorem Creates.bind {x : TreeM K V α} {f : α → TreeM K V β} (hx : Creates least x)
    (hf : ∀ a, Creates 0 (f a)) : Creates least (x >>= f) := by
  intro t b t' hrun
  obtain ⟨a,t₁,hfirst,hrest⟩ := ok_of_bind hrun
  obtain ⟨hnext,hkept⟩ := hx t a t₁ hfirst
  obtain ⟨hnext',hkept'⟩ := hf a t₁ b t' hrest
  exact ⟨hnext.trans hnext',fun pid hpid => hkept' pid (hkept pid hpid)⟩

omit [LinearOrder K] [Inhabited K] [Inhabited V] in
theorem Creates.weaken {x : TreeM K V α} (h : Creates least x) : Creates 0 x := fun t a t' hrun =>
  ⟨(Nat.le_add_right _ _).trans (h t a t' hrun).1,(h t a t' hrun).2⟩

/-- The first node of a path. -/
theorem SearchPath.head {s : PageStore K V} {key : K} {pid : PageId} {nodes : List (BTreeNode K V)}
    {leaf : BTreeNode K V} (h : SearchPath s key pid nodes leaf) :
    ∃ n, nodeAt s pid = some n ∧ nodes++[leaf] = n::(nodes++[leaf]).tail := by
  cases h with
  | leaf page => exact ⟨_,page,rfl⟩
  | inner page => exact ⟨_,page,rfl⟩

end NewPages

section Rebuilding

variable {t : BTree K V} {leaves : List (BTreeNode K V)}
  {stdSort : (K × V → K × V → Bool) → List (K × V) → List (K × V)}

end Rebuilding

section Bulk

variable {t : BTree K V} {d : Dictionary K V}
  {stdSort : (K × V → K × V → Bool) → List (K × V) → List (K × V)}

end Bulk

section Sample

end Sample

end BTree
end OrangeSQL
