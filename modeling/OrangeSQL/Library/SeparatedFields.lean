import Mathlib.Data.List.TakeWhile
import Mathlib.Logic.Function.Iterate
import Mathlib.Tactic

/-! Texts of fields with a separator between them, and a stream from which one line after the other is
read, each up to a separator. -/
namespace SeparatedFields

variable {α : Type*} [DecidableEq α] {sep : α} {f rest token : List α} {fields : List (List α)} {k : ℕ}

/-- The variable that a line is read into, and the stream that it is read from. -/
structure Reader (α : Type*) where
  token : List α
  rest : List α
  good : Bool

/-- Read up to a separator, which is dropped, or else to the end of the stream. From a stream that has
met its end nothing is read. -/
def getline (sep : α) (r : Reader α) : Reader α :=
  if r.good then
    match r.rest.dropWhile (· ≠ sep) with
    | [] => ⟨r.rest,[],false⟩
    | _::rest => ⟨r.rest.takeWhile (· ≠ sep),rest,true⟩
  else r

/-- The line with this number of a text, as it stands in the variable. -/
def tokenAt (sep : α) (text : List α) (k : ℕ) : List α := ((getline sep)^[k+1] ⟨[],text,true⟩).token

theorem getline_token (token text : List α) :
    (getline sep ⟨token,text,true⟩).token = text.takeWhile (· ≠ sep) := by
  have happend := List.takeWhile_append_dropWhile (p := (· ≠ sep)) (l := text)
  rw [getline,if_pos rfl]
  cases h : text.dropWhile (· ≠ sep) with
  | nil =>
    rw [h,List.append_nil] at happend
    exact happend.symm
  | cons => rfl

theorem takeWhile_of_not_mem (h : sep ∉ f) : f.takeWhile (· ≠ sep) = f :=
  List.takeWhile_eq_self_iff.mpr fun _ hc => decide_eq_true (ne_of_mem_of_not_mem hc h)

theorem takeWhile_eq_iff : f.takeWhile (· ≠ sep) = f ↔ sep ∉ f := by
  refine ⟨fun h hmem => ?_,takeWhile_of_not_mem⟩
  exact of_decide_eq_true (List.takeWhile_eq_self_iff.mp h sep hmem) rfl

theorem getline_append (h : sep ∉ f) :
    getline sep ⟨token,f++sep::rest,true⟩ = ⟨f,rest,true⟩ := by
  have hall : ∀ c ∈ f, decide (c ≠ sep) = true := fun c hc => decide_eq_true (ne_of_mem_of_not_mem hc h)
  have hdrop : (f++sep::rest).dropWhile (· ≠ sep) = sep::rest := by
    rw [List.dropWhile_append_of_pos hall,List.dropWhile_cons_of_neg (by simp)]
  have htake : (f++sep::rest).takeWhile (· ≠ sep) = f := by
    rw [List.takeWhile_append_of_pos hall,List.takeWhile_cons_of_neg (by simp),List.append_nil]
  rw [getline,if_pos rfl,hdrop,htake]

/-- The first line of a text is the first field, up to a separator in it. -/
theorem takeWhile_intercalate :
    ([sep].intercalate (f::fields)).takeWhile (· ≠ sep) = f.takeWhile (· ≠ sep) := by
  cases fields with
  | nil => rw [List.intercalate_singleton]
  | cons g fields =>
    rw [List.intercalate_cons_cons,List.append_assoc,List.takeWhile_append]
    split_ifs with hlength
    · rw [List.singleton_append,List.takeWhile_cons_of_neg (by simp),List.append_nil]
      exact ((List.takeWhile_sublist _).eq_of_length hlength).symm
    · rfl

/-- Behind fields without a separator a line is the next field, up to a separator in it. -/
theorem iterate_getline (hk : k < fields.length) (h : ∀ f ∈ fields.take k, sep ∉ f) :
    ((getline sep)^[k+1] ⟨token,[sep].intercalate fields,true⟩).token =
      fields[k].takeWhile (· ≠ sep) := by
  induction fields generalizing token k with
  | nil => cases hk
  | cons f fields ih =>
    cases k with
    | zero => rw [Function.iterate_one,getline_token,takeWhile_intercalate,List.getElem_cons_zero]
    | succ k =>
      rw [List.take_succ_cons] at h
      obtain ⟨hf,hrest⟩ := List.forall_mem_cons.mp h
      have hlt := Nat.lt_of_succ_lt_succ hk
      obtain ⟨g,fields,rfl⟩ :=
        List.exists_cons_of_ne_nil (List.ne_nil_of_length_pos (Nat.zero_lt_of_lt hlt))
      rw [Function.iterate_succ_apply,List.intercalate_cons_cons,List.append_assoc,
        List.singleton_append,getline_append hf,List.getElem_cons_succ]
      exact ih hlt hrest

theorem tokenAt_intercalate (hk : k < fields.length) (h : ∀ f ∈ fields.take k, sep ∉ f) :
    tokenAt sep ([sep].intercalate fields) k = fields[k].takeWhile (· ≠ sep) := iterate_getline hk h

end SeparatedFields
