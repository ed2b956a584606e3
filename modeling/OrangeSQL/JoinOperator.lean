import OrangeSQL.Ast

/-! The join operator of the executor over children with a finite output. The operator reads rows
of its right child only in `open`, and there only for one of its three algorithms. -/
namespace OrangeSQL

abbrev Row := List Value

/-- A child operator: the rows of its output and those that `next` has not returned yet. -/
structure RowSource where
  rows : List Row
  rest : List Row
  deriving DecidableEq, Repr

namespace RowSource

def new (rows : List Row) : RowSource := ⟨rows,rows⟩

def rewind (s : RowSource) : RowSource := { s with rest := s.rows }

def «open» (s : RowSource) : RowSource := s.rewind

/-- The next row, or `NOT_FOUND`. -/
def next (s : RowSource) : Option (Row × RowSource) :=
  match s.rest with
  | [] => none
  | row::rest => some (row,{ s with rest := rest })

end RowSource

inductive JoinAlgorithm
  | NESTED_LOOP | HASH | MERGE
  deriving DecidableEq, Repr

/-- `hashTable` lists the entries of the multimap. -/
structure JoinOperator where
  left : RowSource
  right : RowSource
  condition : Option ASTNode
  joinType : JoinType
  algorithm : JoinAlgorithm
  currentLeftRow : Row
  rightRows : List Row
  rightIndex : ℕ
  hashTable : List (UInt64 × Row)

namespace JoinOperator

def new (left right : RowSource) (condition : Option ASTNode) (type : JoinType)
    (algorithm : JoinAlgorithm) : JoinOperator :=
  ⟨left,right,condition,type,algorithm,[],[],0,[]⟩

/-- Both ways out of the source's function return true. -/
def evaluateJoinCondition (j : JoinOperator) (_leftRow _rightRow : Row) : Bool :=
  match j.condition with
  | none => true
  | some _ => true

/-- An `int32_t` is widened with its sign before it is added. -/
def hashRow (row : Row) (_condition : Option ASTNode) : UInt64 :=
  row.foldl (fun hash val => hash*31+val.data.toUInt32.toInt32.toInt64.toUInt64) 0

/-- The loop of `open` over the rows of the right child that are left. -/
def loadRight (j : JoinOperator) : List Row → JoinOperator
  | [] => { j with right := { j.right with rest := [] } }
  | row::rest => loadRight { j with
      rightRows := j.rightRows++[row]
      hashTable := (hashRow row j.condition,row)::j.hashTable } rest

def «open» (j : JoinOperator) : JoinOperator :=
  let j := { j with left := j.left.open, right := j.right.open }
  if j.algorithm = .HASH then
    let j := j.loadRight j.right.rest
    { j with right := j.right.rewind }
  else j

/-- The inner loop of `next`: the first row from `index` on that satisfies the condition. -/
def matchRight (j : JoinOperator) (index : ℕ) : Option (Row × ℕ) :=
  if h : index < j.rightRows.length then
    let rightRow := j.rightRows.get ⟨index,h⟩
    if j.evaluateJoinCondition j.currentLeftRow rightRow then some (rightRow,index+1)
    else matchRight j (index+1)
  else none
termination_by j.rightRows.length-index

/-- An empty current row counts as no row. -/
def fetchLeft (j : JoinOperator) : Option JoinOperator :=
  if j.currentLeftRow = [] then
    match j.left.next with
    | none => none
    | some (row,left) => some { j with left := left, currentLeftRow := row, rightIndex := 0 }
  else some j

/-- The passes of the outer loop that are left, at most. -/
def passes (j : JoinOperator) : ℕ :=
  2*j.left.rest.length+if j.currentLeftRow = [] then 0 else 1

theorem passes_fetchLeft {j j' : JoinOperator} (h : j.fetchLeft = some j') :
    passes { j' with currentLeftRow := [], rightIndex := j'.rightRows.length } < j.passes := by
  unfold fetchLeft at h
  split_ifs at h with hempty
  · cases hrest : j.left.rest with
    | nil => simp [RowSource.next,hrest] at h
    | cons row rest =>
      simp only [RowSource.next,hrest,Option.some.injEq] at h
      subst h
      simp [passes,hrest,hempty]
  · obtain rfl := Option.some.inj h
    simp [passes,hempty]

/-- The next row of the join, or `NOT_FOUND`. -/
def next (j : JoinOperator) : Option Row × JoinOperator :=
  match _h : j.fetchLeft with
  | none => (none,j)
  | some j' =>
    match j'.matchRight j'.rightIndex with
    | some (rightRow,index) => (some (j'.currentLeftRow++rightRow),{ j' with rightIndex := index })
    | none => next { j' with currentLeftRow := [], rightIndex := j'.rightRows.length }
termination_by j.passes
decreasing_by exact passes_fetchLeft _h

/-- Calling `next` until `NOT_FOUND` gives these rows. -/
inductive Yields : JoinOperator → List Row → Prop
  | done {j : JoinOperator} : j.next.1 = none → Yields j []
  | more {j : JoinOperator} {row : Row} {rows : List Row} :
      j.next.1 = some row → Yields j.next.2 rows → Yields j (row::rows)

/-- The operator as `buildPlan` makes it over the outputs of its children, opened. -/
def opened (left right : List Row) (algorithm : JoinAlgorithm) : JoinOperator :=
  (new (.new left) (.new right) none .INNER algorithm).open

theorem loadRight_eq (j : JoinOperator) (rows : List Row) :
    (j.loadRight rows).rightRows = j.rightRows++rows ∧ (j.loadRight rows).left = j.left ∧
    (j.loadRight rows).currentLeftRow = j.currentLeftRow := by
  induction rows generalizing j with
  | nil => exact ⟨(List.append_nil _).symm,rfl,rfl⟩
  | cons row rest ih =>
    obtain ⟨hrows,hleft,hcurrent⟩ := ih { j with
      rightRows := j.rightRows++[row]
      hashTable := (hashRow row j.condition,row)::j.hashTable }
    exact ⟨by rw [loadRight,hrows]; simp,hleft,hcurrent⟩

/-- What `open` leaves for `next`: the rows of the right child under HASH, none otherwise. -/
theorem opened_state (left right : List Row) (algorithm : JoinAlgorithm) :
    (opened left right algorithm).left.rest = left ∧
    (opened left right algorithm).currentLeftRow = [] ∧
    (opened left right algorithm).rightRows = if algorithm = .HASH then right else [] := by
  have hload := loadRight_eq ⟨.new left,.new right,none,.INNER,algorithm,[],[],0,[]⟩ right
  obtain ⟨hrows,hleft,hcurrent⟩ := hload
  by_cases hhash : algorithm = .HASH
  · subst hhash
    refine ⟨?_,hcurrent,hrows⟩
    exact congrArg RowSource.rest hleft
  · simp [opened,JoinOperator.open,new,hhash,RowSource.open,RowSource.rewind,RowSource.new]

theorem matchRight_of_lt (j : JoinOperator) {index : ℕ} (h : index < j.rightRows.length) :
    j.matchRight index = some (j.rightRows.get ⟨index,h⟩,index+1) := by
  have htrue : ∀ l r, j.evaluateJoinCondition l r = true := by
    intro l r
    unfold evaluateJoinCondition
    split <;> rfl
  rw [matchRight,dif_pos h]
  simp only [htrue,if_true]

theorem matchRight_of_ge (j : JoinOperator) {index : ℕ} (h : ¬index < j.rightRows.length) :
    j.matchRight index = none := by
  rw [matchRight,dif_neg h]

section Next

variable {j : JoinOperator}

theorem next_of_fetchLeft {j' : JoinOperator} (h : j.fetchLeft = some j') :
    j.next =
      match j'.matchRight j'.rightIndex with
      | some (rightRow,index) => (some (j'.currentLeftRow++rightRow),{ j' with rightIndex := index })
      | none => next { j' with currentLeftRow := [], rightIndex := j'.rightRows.length } := by
  rw [next]
  split
  · next hnone =>
    rw [hnone] at h
    cases h
  · next k hk =>
    rw [hk] at h
    rw [Option.some.inj h]

theorem fetchLeft_of_row (h : j.currentLeftRow ≠ []) : j.fetchLeft = some j := by
  rw [fetchLeft,if_neg h]

/-- With a current left row, the rows of the right side follow one by one. -/
theorem next_of_lt (h : j.currentLeftRow ≠ []) (hindex : j.rightIndex < j.rightRows.length) :
    j.next = (some (j.currentLeftRow++j.rightRows.get ⟨j.rightIndex,hindex⟩),
      { j with rightIndex := j.rightIndex+1 }) := by
  rw [next_of_fetchLeft (fetchLeft_of_row h),matchRight_of_lt j hindex]

theorem next_of_ge (h : j.currentLeftRow ≠ []) (hindex : ¬j.rightIndex < j.rightRows.length) :
    j.next = next { j with currentLeftRow := [], rightIndex := j.rightRows.length } := by
  rw [next_of_fetchLeft (fetchLeft_of_row h),matchRight_of_ge j hindex]

theorem next_of_nil (h : j.currentLeftRow = []) (hrest : j.left.rest = []) :
    j.next = (none,j) := by
  have hfetch : j.fetchLeft = none := by simp [fetchLeft,h,RowSource.next,hrest]
  rw [next]
  split
  · rfl
  · next k hk =>
    rw [hk] at hfetch
    cases hfetch

/-- Without one, the next row of the left child becomes it. -/
theorem next_of_cons (h : j.currentLeftRow = []) {row : Row} {rest : List Row}
    (hrest : j.left.rest = row::rest) (hrow : row ≠ []) :
    j.next = next { j with
      left := { j.left with rest := rest }
      currentLeftRow := row
      rightIndex := 0 } := by
  have hfetch : j.fetchLeft = some { j with
      left := { j.left with rest := rest }
      currentLeftRow := row
      rightIndex := 0 } := by
    simp [fetchLeft,h,RowSource.next,hrest]
  have hagain := @fetchLeft_of_row { j with
    left := { j.left with rest := rest }
    currentLeftRow := row
    rightIndex := 0 } hrow
  exact (next_of_fetchLeft hfetch).trans (next_of_fetchLeft hagain).symm

end Next

theorem Yields.of_next_eq {j j' : JoinOperator} (h : j.next = j'.next) {rows : List Row}
    (hrows : Yields j' rows) : Yields j rows := by
  cases hrows with
  | done hnone => exact .done (h ▸ hnone)
  | more hrow hrest => exact .more (h ▸ hrow) (h ▸ hrest)

/-- The rows with the current left row come before those that follow it. -/
theorem yields_current {j : JoinOperator} (h : j.currentLeftRow ≠ []) {rows : List Row}
    (hrows : Yields { j with currentLeftRow := [], rightIndex := j.rightRows.length } rows) :
    Yields j ((j.rightRows.drop j.rightIndex).map (j.currentLeftRow++·)++rows) := by
  induction hleft : j.rightRows.length-j.rightIndex generalizing j with
  | zero =>
    have hindex : ¬j.rightIndex < j.rightRows.length := by omega
    rw [List.drop_eq_nil_of_le (by omega)]
    exact .of_next_eq (next_of_ge h hindex) hrows
  | succ n ih =>
    have hindex : j.rightIndex < j.rightRows.length := by omega
    have hnext := next_of_lt h hindex
    rw [List.drop_eq_getElem_cons hindex]
    refine .more (by rw [hnext]; rfl) ?_
    rw [hnext]
    have hlength : j.rightRows.length-(j.rightIndex+1) = n := by omega
    exact @ih { j with rightIndex := j.rightIndex+1 } h hrows hlength

/-- All pairs of a left and a right row, joined. -/
def crossProduct (left right : List Row) : List Row :=
  left.flatMap fun l => right.map (l++·)

theorem yields_crossProduct (left : List Row) {j : JoinOperator} (h : j.currentLeftRow = [])
    (hleft : j.left.rest = left) (hrows : ∀ row ∈ left, row ≠ []) :
    Yields j (crossProduct left j.rightRows) := by
  induction left generalizing j with
  | nil => exact .done (by rw [next_of_nil h hleft])
  | cons row rest ih =>
    have hrow : row ≠ [] := hrows row List.mem_cons_self
    have hrest : ∀ r ∈ rest, r ≠ [] := fun r hr => hrows r (List.mem_cons_of_mem _ hr)
    apply Yields.of_next_eq (next_of_cons h hleft hrow)
    exact yields_current hrow (ih rfl rfl hrest)

theorem Yields.unique {j : JoinOperator} {rows rows' : List Row} (h : Yields j rows)
    (h' : Yields j rows') : rows = rows' := by
  induction h generalizing rows' with
  | done hnone =>
    cases h' with
    | done _ => rfl
    | more hrow _ => simp [hnone] at hrow
  | more hrow _ ih =>
    cases h' with
    | done hnone => simp [hrow] at hnone
    | more hrow' hrest' =>
      rw [hrow] at hrow'
      rw [Option.some.inj hrow',ih hrest']

/-- The rows of the join under one of the algorithms. -/
theorem yields_opened (left right : List Row) (hleft : ∀ row ∈ left, row ≠ [])
    (algorithm : JoinAlgorithm) :
    Yields (opened left right algorithm)
      (crossProduct left (if algorithm = .HASH then right else [])) := by
  obtain ⟨hrest,hcurrent,hrows⟩ := opened_state left right algorithm
  rw [← hrows]
  exact yields_crossProduct left hcurrent hrest hleft

/-- The three algorithms give the same rows, in any order. -/
def AlgorithmsAgree (left right : List Row) : Prop :=
  ∃ nested hash merge,
    Yields (opened left right .NESTED_LOOP) nested ∧
    Yields (opened left right .HASH) hash ∧
    Yields (opened left right .MERGE) merge ∧
    nested.Perm hash ∧ hash.Perm merge

theorem crossProduct_nil_right (left : List Row) : crossProduct left [] = [] := by
  simp [crossProduct]

theorem crossProduct_eq_nil (left right : List Row) :
    crossProduct left right = [] ↔ left = [] ∨ right = [] := by
  cases left <;> cases right <;> simp [crossProduct]

/-- Under NESTED_LOOP and MERGE no row of the right side is ever loaded, so the algorithms agree
just on joins that have no rows at all. -/
theorem algorithmsAgree_iff (left right : List Row) (hleft : ∀ row ∈ left, row ≠ []) :
    AlgorithmsAgree left right ↔ left = [] ∨ right = [] := by
  have hnested := yields_opened left right hleft .NESTED_LOOP
  have hhash := yields_opened left right hleft .HASH
  have hmerge := yields_opened left right hleft .MERGE
  rw [if_neg (by decide),crossProduct_nil_right] at hnested hmerge
  rw [if_pos rfl] at hhash
  rw [← crossProduct_eq_nil]
  constructor
  · rintro ⟨nested,hash,merge,hnested',hhash',-,hperm,-⟩
    obtain rfl := hnested.unique hnested'
    obtain rfl := hhash.unique hhash'
    exact List.nil_perm.mp hperm
  · intro hempty
    rw [hempty] at hhash
    exact ⟨[],[],[],hnested,hhash,hmerge,.nil,.nil⟩

/-- One row on each side. -/
theorem algorithms_disagree_one_row :
    ¬AlgorithmsAgree [[Value.ofInt 1]] [[Value.ofInt 2]] := by
  intro h
  have hleft : ∀ row ∈ [[Value.ofInt 1]], row ≠ [] := by simp
  obtain ⟨nested,hash,merge,hnested,hhash,-,hperm,-⟩ := h
  have hno := yields_opened _ [[Value.ofInt 2]] hleft .NESTED_LOOP
  have hone := yields_opened _ [[Value.ofInt 2]] hleft .HASH
  rw [← hno.unique hnested,← hone.unique hhash] at hperm
  exact absurd hperm.length_eq (by decide)

theorem algorithmsAgree_iff_empty_right :
    AlgorithmsAgree [[Value.ofInt 1]] [] :=
  (algorithmsAgree_iff [[Value.ofInt 1]] [] (by simp)).mpr (Or.inr rfl)

end JoinOperator
end OrangeSQL
