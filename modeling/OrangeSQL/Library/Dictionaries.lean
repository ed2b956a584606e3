import Mathlib.Data.List.Nodup
import Mathlib.Tactic

/-! Dictionaries: lists of pairs whose keys increase. Two of them with the same pairs are equal, so
each operation is known by the pairs it leaves. -/

structure Dictionary (K V : Type*) [LinearOrder K] where
  entries : List (K × V)
  increasing : entries.Pairwise fun a b => a.1 < b.1

namespace Dictionary

variable {K V : Type*} [LinearOrder K]

section Definitions

def get (d : Dictionary K V) (key : K) : Option V :=
  (d.entries.find? fun e => decide (e.1 = key)).map Prod.snd

def has (d : Dictionary K V) (key : K) : Bool := (d.get key).isSome

/-- The pairs with the key taken out. -/
def drop (d : Dictionary K V) (key : K) : Dictionary K V where
  entries := d.entries.filter fun e => decide (e.1 ≠ key)
  increasing := d.increasing.filter _

/-- The key with this value, whatever it had before. -/
def put (d : Dictionary K V) (key : K) (value : V) : Dictionary K V where
  entries := (d.entries.filter fun e => decide (e.1 < key))++(key,value)::
    d.entries.filter fun e => decide (key < e.1)
  increasing := by
    refine List.pairwise_append.mpr ⟨d.increasing.filter _,List.pairwise_cons.mpr
      ⟨fun e he => of_decide_eq_true (List.mem_filter.mp he).2,d.increasing.filter _⟩,?_⟩
    intro a ha b hb
    have hlow : a.1 < key := of_decide_eq_true (List.mem_filter.mp ha).2
    rcases List.mem_cons.mp hb with rfl | hb
    · exact hlow
    · exact hlow.trans (of_decide_eq_true (List.mem_filter.mp hb).2)

/-- The pairs with keys from the first to the second one. -/
def between (d : Dictionary K V) (start stop : K) : List (K × V) :=
  d.entries.filter fun e => decide (start ≤ e.1 ∧ e.1 ≤ stop)

end Definitions

variable {d d' : Dictionary K V} {key : K} {v : V}

theorem value_unique {w : V} (hv : (key,v) ∈ d.entries) (hw : (key,w) ∈ d.entries) : v = w := by
  obtain ⟨i,hi,hiv⟩ := List.getElem_of_mem hv
  obtain ⟨j,hj,hjw⟩ := List.getElem_of_mem hw
  have hapart := List.pairwise_iff_getElem.mp d.increasing
  rcases Nat.lt_trichotomy i j with hlt | rfl | hlt
  · have hkey := hapart i j hi hj hlt
    rw [hiv,hjw] at hkey
    exact absurd hkey (lt_irrefl key)
  · exact congrArg Prod.snd (hiv.symm.trans hjw)
  · have hkey := hapart j i hj hi hlt
    rw [hiv,hjw] at hkey
    exact absurd hkey (lt_irrefl key)

theorem get_eq_some_iff : d.get key = some v ↔ (key,v) ∈ d.entries := by
  constructor
  · intro h
    obtain ⟨e,hfind,rfl⟩ := Option.map_eq_some_iff.mp h
    have hkey : e.1 = key := by simpa using List.find?_some hfind
    rw [← hkey]
    exact List.mem_of_find?_eq_some hfind
  · intro h
    have hsome : (d.entries.find? fun e => decide (e.1 = key)).isSome :=
      List.find?_isSome.mpr ⟨_,h,decide_eq_true rfl⟩
    obtain ⟨⟨k,w⟩,hfind⟩ := Option.isSome_iff_exists.mp hsome
    obtain rfl : k = key := by simpa using List.find?_some hfind
    rw [get,hfind,value_unique h (List.mem_of_find?_eq_some hfind)]
    rfl

theorem has_iff : d.has key = true ↔ ∃ v, (key,v) ∈ d.entries := by
  rw [has,Option.isSome_iff_exists]
  exact exists_congr fun v => get_eq_some_iff

theorem mem_drop {e : K × V} : e ∈ (d.drop key).entries ↔ e ∈ d.entries ∧ e.1 ≠ key := by
  simp [drop]

theorem mem_put {value : V} {e : K × V} :
    e ∈ (d.put key value).entries ↔ e = (key,value) ∨ e.1 ≠ key ∧ e ∈ d.entries := by
  simp only [put,List.mem_append,List.mem_cons,List.mem_filter,decide_eq_true_eq,ne_eq]
  have horder := lt_trichotomy e.1 key
  have hlow : e.1 < key → e.1 ≠ key := ne_of_lt
  have hhigh : key < e.1 → e.1 ≠ key := ne_of_gt
  tauto

theorem nodup (d : Dictionary K V) : d.entries.Nodup :=
  d.increasing.imp fun hlt he => absurd (congrArg Prod.fst he) hlt.ne

theorem eq_of_mem_iff (h : ∀ e, e ∈ d.entries ↔ e ∈ d'.entries) : d = d' := by
  have hperm := (List.perm_ext_iff_of_nodup d.nodup d'.nodup).mpr h
  have hentries : d.entries = d'.entries := List.Perm.eq_of_pairwise
    (fun a b _ _ hab hba => absurd hba hab.not_gt) d.increasing d'.increasing hperm
  cases d
  cases d'
  obtain rfl := hentries
  rfl

theorem drop_absent (h : ∀ v, (key,v) ∉ d.entries) : d.drop key = d := by
  refine eq_of_mem_iff fun e => ?_
  rw [mem_drop]
  constructor
  · exact And.left
  · rintro he
    refine ⟨he,?_⟩
    rintro rfl
    exact h e.2 he

end Dictionary
