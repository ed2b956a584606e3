import Mathlib.Data.Finmap
import Mathlib.Tactic

/-! JSON values, as far as a program reads and writes them by keys: typed access to the fields of
an object, with and without a default. A string is the list of its characters. -/

inductive Json
  | null
  | bool (b : Bool)
  | num (n : ℤ)
  | str (s : List Char)
  | arr (items : List Json)
  | obj (fields : List (String × Json))

namespace Json

def field (key : String) : Json → Option Json
  | obj fields => fields.lookup key
  | _ => none

def toBool : Json → Option Bool
  | bool b => some b
  | _ => none

def toNum : Json → Option ℤ
  | num n => some n
  | _ => none

def toStr : Json → Option (List Char)
  | str s => some s
  | _ => none

def toArr : Json → Option (List Json)
  | arr items => some items
  | _ => none

/-- What a loop over a value goes through; a value that is no container is its only element. -/
def elements : Json → List Json
  | null => []
  | arr items => items
  | obj fields => fields.map Prod.snd
  | j => [j]

/-- All items of an array, if each of them can be read. -/
def items {α : Type*} (read : Json → Option α) (j : Json) : Option (List α) :=
  j.toArr.bind fun js => js.mapM read

/-- The field of an object under a key. -/
def get {α : Type*} (read : Json → Option α) (key : String) (j : Json) : Option α :=
  (j.field key).bind read

/-- The same with a value for a missing key; a field of another type is an error. -/
def getD {α : Type*} (read : Json → Option α) (key : String) (default : α) (j : Json) : Option α :=
  match j.field key with
  | some v => read v
  | none => some default

section Read

variable {α : Type*} (read : Json → Option α)

@[simp] theorem get_head (key : String) (v : Json) (fields : List (String × Json)) :
    get read key (obj ((key,v)::fields)) = read v := by
  simp [get,field]

theorem get_tail {key key' : String} (h : key ≠ key') (v : Json) (fields : List (String × Json)) :
    get read key (obj ((key',v)::fields)) = get read key (obj fields) := by
  simp [get,field,List.lookup_cons,beq_false_of_ne h]

@[simp] theorem getD_head (key : String) (v : Json) (fields : List (String × Json)) (default : α) :
    getD read key default (obj ((key,v)::fields)) = read v := by
  simp [getD,field]

theorem getD_tail {key key' : String} (h : key ≠ key') (v : Json) (fields : List (String × Json))
    (default : α) :
    getD read key default (obj ((key',v)::fields)) = getD read key default (obj fields) := by
  simp [getD,field,List.lookup_cons,beq_false_of_ne h]

/-- Items that are read as other values give the list of those. -/
theorem items_map {β : Type*} {write : β → Json} {f : β → α} {xs : List β}
    (h : ∀ x ∈ xs, read (write x) = some (f x)) :
    items read (arr (xs.map write)) = some (xs.map f) := by
  simp only [items,toArr,Option.bind_some]
  induction xs with
  | nil => rfl
  | cons x xs ih =>
    have hx := h x List.mem_cons_self
    have hxs := ih fun y hy => h y (List.mem_cons_of_mem _ hy)
    simp [hx,hxs]

end Read

end Json
