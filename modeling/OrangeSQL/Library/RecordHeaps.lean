import Mathlib.Data.Set.Insert
import Mathlib.Tactic

/-! Heaps of records. Each record that is put in gets an id that was never in use; an update moves the
record to another id, and where a record has gone there is none ever after. -/

structure RecordHeap (Id Row : Type*) where
  used : Set Id
  row : Id → Option Row
  used_of_row : ∀ {id}, row id ≠ none → id ∈ used

namespace RecordHeap

variable {Id Id' Record Row : Type*}

section Definitions

inductive Call (Id Record : Type*)
  | insert (record : Record)
  | update (id : Id) (record : Record)
  | delete (id : Id)
  | get (id : Id)

inductive Reply (Id Row : Type*)
  | stored (id : Id)
  | done
  | missing
  | refused
  | found (row : Option Row)

/-- The same call under other ids. -/
def Call.map (f : Id → Id') : Call Id Record → Call Id' Record
  | .insert record => .insert record
  | .update id record => .update (f id) record
  | .delete id => .delete (f id)
  | .get id => .get (f id)

def Reply.map (f : Id → Id') : Reply Id Row → Reply Id' Row
  | .stored id => .stored (f id)
  | .done => .done
  | .missing => .missing
  | .refused => .refused
  | .found row => .found row

/-- The calls that take away what is under an id. -/
inductive Call.Removes : Call Id Record → Id → Prop
  | update (id : Id) (record : Record) : Removes (.update id record) id
  | delete (id : Id) : Removes (.delete id) id

def Reply.storedId : Reply Id Row → Option Id
  | .stored id => some id
  | _ => none

variable [DecidableEq Id]

def drop (h : RecordHeap Id Row) (id : Id) : RecordHeap Id Row where
  used := h.used
  row := Function.update h.row id none
  used_of_row := by
    intro id' hrow
    by_cases heq : id' = id
    · subst heq
      exact absurd (Function.update_self id' none h.row) hrow
    · rw [Function.update_of_ne heq] at hrow
      exact h.used_of_row hrow

def put (h : RecordHeap Id Row) (id : Id) (r : Option Row) : RecordHeap Id Row where
  used := insert id h.used
  row := Function.update h.row id r
  used_of_row := by
    intro id' hrow
    by_cases heq : id' = id
    · exact Or.inl heq
    · rw [Function.update_of_ne heq] at hrow
      exact Or.inr (h.used_of_row hrow)

/-- The calls with what they may answer; `Reads` says what a stored record is read as. An update that
finds no room has taken the old record away. -/
inductive Step (Reads : Record → Option Row → Prop) (h : RecordHeap Id Row) :
    Call Id Record → Reply Id Row → RecordHeap Id Row → Prop
  | insert {record : Record} {id : Id} {r : Option Row} : id ∉ h.used → Reads record r →
      Step Reads h (.insert record) (.stored id) (h.put id r)
  | insertRefused {record : Record} : Step Reads h (.insert record) .refused h
  | update {id id' : Id} {record : Record} {r : Option Row} : h.row id ≠ none → id' ∉ h.used →
      Reads record r → Step Reads h (.update id record) .done ((h.drop id).put id' r)
  | updateLost {id : Id} {record : Record} : Step Reads h (.update id record) .missing (h.drop id)
  | updateRefused {id : Id} {record : Record} : Step Reads h (.update id record) .refused h
  | delete {id : Id} : id ∈ h.used → Step Reads h (.delete id) .done (h.drop id)
  | deleteMissing {id : Id} : id ∉ h.used → Step Reads h (.delete id) .missing h
  | get {id : Id} : Step Reads h (.get id) (.found (h.row id)) h

inductive Run (Reads : Record → Option Row → Prop) :
    RecordHeap Id Row → List (Call Id Record × Reply Id Row) → RecordHeap Id Row → Prop
  | nil {h : RecordHeap Id Row} : Run Reads h [] h
  | cons {h h₁ h' : RecordHeap Id Row} {call : Call Id Record} {reply : Reply Id Row}
      {events : List (Call Id Record × Reply Id Row)} : Step Reads h call reply h₁ →
      Run Reads h₁ events h' → Run Reads h ((call,reply)::events) h'

/-- The ids that were given out, in order. -/
def storedIds (events : List (Call Id Record × Reply Id Row)) : List Id :=
  events.filterMap fun e => e.2.storedId

end Definitions

section Small

variable {h : RecordHeap Id Row} {id id' : Id} {r : Option Row}

theorem row_eq_none (hid : id ∉ h.used) : h.row id = none := by
  by_contra hrow
  exact hid (h.used_of_row hrow)

/-- Heaps with the same ids in use and the same rows are equal. -/
theorem eq_of_same {h' : RecordHeap Id Row} (hused : ∀ id, id ∈ h'.used ↔ id ∈ h.used)
    (hrow : ∀ id, h'.row id = h.row id) : h' = h := by
  obtain ⟨used,row,_⟩ := h
  obtain ⟨used',row',_⟩ := h'
  obtain rfl : used' = used := Set.ext hused
  obtain rfl : row' = row := funext hrow
  rfl

variable [DecidableEq Id]

@[simp] theorem drop_used : (h.drop id).used = h.used := rfl
@[simp] theorem put_used : (h.put id r).used = insert id h.used := rfl

theorem drop_row : (h.drop id).row id' = if id' = id then none else h.row id' :=
  Function.update_apply h.row id none id'

theorem put_row : (h.put id r).row id' = if id' = id then r else h.row id' :=
  Function.update_apply h.row id r id'

theorem drop_eq_self (hrow : h.row id = none) : h.drop id = h := by
  refine eq_of_same (fun _ => Iff.rfl) fun id' => ?_
  rw [drop_row]
  split_ifs with heq
  · rw [heq,hrow]
  · rfl

end Small

section Steps

variable [DecidableEq Id] {Reads : Record → Option Row → Prop} {h h' : RecordHeap Id Row}
  {call : Call Id Record} {reply : Reply Id Row} {id : Id}

theorem Step.used_subset (hstep : Step Reads h call reply h') : h.used ⊆ h'.used := by
  cases hstep with
  | insert => exact Set.subset_insert _ _
  | update => exact Set.subset_insert _ _
  | _ => exact subset_rfl

end Steps

section Runs

variable [DecidableEq Id] {Reads : Record → Option Row → Prop} {h h' : RecordHeap Id Row}
  {call : Call Id Record} {reply : Reply Id Row} {id : Id} {record : Record}
  {events before after : List (Call Id Record × Reply Id Row)}

theorem Run.used_subset (hrun : Run Reads h events h') : h.used ⊆ h'.used := by
  induction hrun with
  | nil => exact subset_rfl
  | cons hstep _ ih => exact hstep.used_subset.trans ih

theorem Run.split (hrun : Run Reads h (before++after) h') :
    ∃ h₁, Run Reads h before h₁ ∧ Run Reads h₁ after h' := by
  induction before generalizing h with
  | nil => exact ⟨h,.nil,hrun⟩
  | cons e before ih =>
    cases hrun with
    | cons hstep hrest =>
      obtain ⟨h₁,hbefore,hafter⟩ := ih hrest
      exact ⟨h₁,.cons hstep hbefore,hafter⟩

/-- The ids that are given out in a run are new at first and in use at last. -/
theorem Run.stored (hrun : Run Reads h events h') (hid : id ∈ storedIds events) :
    id ∉ h.used ∧ id ∈ h'.used := by
  induction hrun with
  | nil => cases hid
  | @cons h h₁ h' call reply events hstep hrest ih =>
    rw [storedIds,List.filterMap_cons] at hid
    cases hreply : reply.storedId with
    | none =>
      rw [hreply] at hid
      obtain ⟨hnew,hused⟩ := ih hid
      exact ⟨fun hold => hnew (hstep.used_subset hold),hused⟩
    | some id' =>
      rw [hreply] at hid
      rcases List.mem_cons.mp hid with rfl | hid
      · cases hstep with
        | insert hnew =>
          obtain rfl := Option.some.inj hreply
          exact ⟨hnew,hrest.used_subset (Set.mem_insert _ _)⟩
        | _ => cases hreply
      · obtain ⟨hnew,hused⟩ := ih hid
        exact ⟨fun hold => hnew (hstep.used_subset hold),hused⟩

end Runs

section Frames

variable {Takes Puts : Row → Prop} {h h' h'' : RecordHeap Id Row} {id : Id} {r : Option Row}

/-- From one heap to another only rows with the first property go, and only rows with the second one
come, under ids that were not in use. -/
structure Framed (Takes Puts : Row → Prop) (h h' : RecordHeap Id Row) : Prop where
  used : h.used ⊆ h'.used
  row : ∀ id ∈ h.used, h'.row id = h.row id ∨ h'.row id = none ∧ ∀ r, h.row id = some r → Takes r
  added : ∀ id ∉ h.used, ∀ r, h'.row id = some r → Puts r

theorem Framed.refl (h : RecordHeap Id Row) : Framed Takes Puts h h := by
  refine ⟨subset_rfl,fun _ _ => Or.inl rfl,fun id hid r hrow => ?_⟩
  rw [row_eq_none hid] at hrow
  cases hrow

theorem Framed.trans (hframe : Framed Takes Puts h h') (hframe' : Framed Takes Puts h' h'') :
    Framed Takes Puts h h'' := by
  refine ⟨hframe.used.trans hframe'.used,fun id hid => ?_,fun id hid r hrow => ?_⟩
  · rcases hframe.row id hid with hsame | ⟨hnone,htakes⟩
    · rw [← hsame]
      exact hframe'.row id (hframe.used hid)
    · rcases hframe'.row id (hframe.used hid) with hsame' | ⟨hnone',_⟩
      · exact Or.inr ⟨hsame'.trans hnone,htakes⟩
      · exact Or.inr ⟨hnone',htakes⟩
  · by_cases hid' : id ∈ h'.used
    · rcases hframe'.row id hid' with hsame | ⟨hnone,_⟩
      · exact hframe.added id hid r (hsame.symm.trans hrow)
      · rw [hnone] at hrow
        cases hrow
    · exact hframe'.added id hid' r hrow

theorem Framed.mono {Takes' Puts' : Row → Prop} (hframe : Framed Takes Puts h h')
    (htakes : ∀ r, Takes r → Takes' r) (hputs : ∀ r, Puts r → Puts' r) : Framed Takes' Puts' h h' := by
  refine ⟨hframe.used,fun id hid => ?_,fun id hid r hrow => hputs r (hframe.added id hid r hrow)⟩
  exact (hframe.row id hid).imp_right fun hgone => ⟨hgone.1,fun r hrow => htakes r (hgone.2 r hrow)⟩

variable [DecidableEq Id]

end Frames

end RecordHeap
