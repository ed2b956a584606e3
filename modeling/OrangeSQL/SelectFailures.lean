import OrangeSQL.QueryPlans

/-! The loop of `executeSelect` over any operators. Why it ended is in a variable that nothing reads
afterwards: a SELECT whose operators were opened is reported as done, whatever came of them. -/
namespace OrangeSQL

open PullStreams

/-- The virtual functions of an operator on its private state, with the row that it fills. -/
structure OperatorCalls (σ : Type) where
  «open» : σ → Status × σ
  next : σ → Status × Row × σ

/-- What `executeSelect` uses of its context. `checkTimeout` is the outcome of each of its calls,
and `buildPlan` gives nothing for a null pointer. -/
structure SelectContext (σ : Type) where
  optimizer : QueryOptimizer
  calls : OperatorCalls σ
  buildPlan : PlanNode → Option σ
  explainPlan : PlanNode → Bool → Row
  maxRows : ℤ
  checkTimeout : ℕ → Bool

namespace QueryExecutor

variable {σ : Type} (context : SelectContext σ)

/-- The cap on the rows, which is none unless it is positive. -/
def AtCap (rows : ℕ) : Prop := 0 < context.maxRows ∧ context.maxRows ≤ rows

instance (rows : ℕ) : Decidable (AtCap context rows) := inferInstanceAs (Decidable (_ ∧ _))

/-- The loop, at its `i`th call, with the status that it ends with. -/
def fetchRows : ℕ → ℕ → σ → List Row → Option (Status × List Row)
  | 0, _, _, _ => none
  | fuel+1, i, root, results =>
    match context.calls.next root with
    | (.ok,row,root) =>
      let results := results++[row]
      if AtCap context results.length then some (.ok,results)
      else if context.checkTimeout i then some (.error,results)
      else fetchRows fuel (i+1) root results
    | (status,_) => some (status,results)

def executeSelect (fuel : ℕ) (select : SelectNode) (results : List Row) :
    Option (Status × List Row) :=
  let plan := context.optimizer.optimize select
  if context.optimizer.mode = .EXPLAIN then
    some (.ok,results++[context.explainPlan plan false])
  else
    match context.buildPlan plan with
    | none => some (.error,results)
    | some root =>
      match context.calls.open root with
      | (.ok,root) => do
        let (_status,results) ← fetchRows context fuel 0 root results
        if context.optimizer.mode = .EXPLAIN_ANALYZE then
          return (.ok,[context.explainPlan plan true])
        else return (.ok,results)
      | (status,_) => some (status,results)

section Streams

/-- The operators after `n` calls. -/
def after (root : σ) : ℕ → σ
  | 0 => root
  | n+1 => (context.calls.next (after root n)).2.2

def statusAt (root : σ) (n : ℕ) : Status := (context.calls.next (after context root n)).1

variable (before : ℕ) (root : σ)

/-- The `n`th call gives a row, `before` of them being there already, and the loop goes on. -/
def GoesOn (n : ℕ) : Prop :=
  statusAt context root n = .ok ∧ ¬ AtCap context (before+n+1) ∧ context.checkTimeout n = false

/-- The stream ends with NOT_FOUND, or the cap is reached. -/
def Complete : Prop :=
  ∃ n, (∀ k < n, GoesOn context before root k) ∧
    (statusAt context root n = .notFound ∨
      statusAt context root n = .ok ∧ AtCap context (before+n+1))

/-- Some call fails, or the time is over after a row. -/
def BrokenOff : Prop :=
  ∃ n, (∀ k < n, GoesOn context before root k) ∧
    (statusAt context root n ≠ .ok ∧ statusAt context root n ≠ .notFound ∨
      statusAt context root n = .ok ∧ ¬ AtCap context (before+n+1) ∧ context.checkTimeout n = true)

variable {context before root}

theorem fetchRows_goesOn {i : ℕ} {results : List Row} (hresults : results.length = before+i)
    (h : GoesOn context before root i) (fuel : ℕ) :
    ∃ row, fetchRows context (fuel+1) i (after context root i) results =
      fetchRows context fuel (i+1) (after context root (i+1)) (results++[row]) := by
  obtain ⟨hok,hcap,htime⟩ := h
  unfold statusAt at hok
  rw [fetchRows,after]
  cases hnext : context.calls.next (after context root i) with
  | mk status rest =>
    obtain ⟨row,root'⟩ := rest
    rw [hnext] at hok
    dsimp only at hok
    subst hok
    refine ⟨row,?_⟩
    have hlength : (results++[row]).length = before+i+1 := by
      rw [List.length_append,hresults,List.length_singleton]
    simp only [hlength,hcap,htime,if_false,Bool.false_eq_true]

theorem fetchRows_stops {i : ℕ} {results : List Row} (hresults : results.length = before+i)
    (h : ¬ GoesOn context before root i) (fuel : ℕ) :
    (fetchRows context (fuel+1) i (after context root i) results).isSome := by
  rw [fetchRows]
  cases hnext : context.calls.next (after context root i) with
  | mk status rest =>
    obtain ⟨row,root'⟩ := rest
    cases status with
    | ok =>
      have hlength : (results++[row]).length = before+i+1 := by
        rw [List.length_append,hresults,List.length_singleton]
      simp only [hlength]
      split_ifs with hcap htime
      · rfl
      · rfl
      · refine absurd ⟨?_,hcap,Bool.eq_false_iff.mpr htime⟩ h
        rw [statusAt,hnext]
    | error => rfl
    | notFound => rfl
    | alreadyExists => rfl

/-- The loop returns just when some call is its last. -/
theorem fetchRows_isSome_iff {results : List Row} (hresults : results.length = before) :
    (∃ fuel, (fetchRows context fuel 0 root results).isSome) ↔
      ∃ n, (∀ k < n, GoesOn context before root k) ∧ ¬ GoesOn context before root n := by
  constructor
  · rintro ⟨fuel,h⟩
    by_contra hnone
    have hall : ∀ n, GoesOn context before root n := by
      intro n
      induction n using Nat.strong_induction_on with
      | _ n ih =>
        by_contra hnot
        exact hnone ⟨n,ih,hnot⟩
    -- a loop that always goes on uses up its fuel
    have hspent : ∀ fuel i results, results.length = before+i →
        fetchRows context fuel i (after context root i) results = none := by
      intro fuel
      induction fuel with
      | zero => exact fun _ _ _ => rfl
      | succ fuel ih =>
        intro i results hlength
        obtain ⟨row,heq⟩ := fetchRows_goesOn hlength (hall i) fuel
        rw [heq]
        apply ih
        rw [List.length_append,hlength,List.length_singleton]
        rfl
    have hzero := hspent fuel 0 results hresults
    rw [after] at hzero
    rw [hzero] at h
    cases h
  · rintro ⟨n,hgoes,hstop⟩
    have hrun : ∀ m i results, i+m = n → results.length = before+i →
        (fetchRows context (m+1) i (after context root i) results).isSome := by
      intro m
      induction m with
      | zero =>
        rintro i results rfl hlength
        exact fetchRows_stops hlength hstop 0
      | succ m ih =>
        intro i results him hlength
        obtain ⟨row,heq⟩ := fetchRows_goesOn hlength (hgoes i (by omega)) (m+1)
        rw [heq]
        refine ih (i+1) _ (by omega) ?_
        rw [List.length_append,hlength,List.length_singleton]
        rfl
    exact ⟨n+1,hrun n 0 results (Nat.zero_add n) hresults⟩

theorem not_goesOn_iff (n : ℕ) : ¬ GoesOn context before root n ↔
    (statusAt context root n = .notFound ∨
      statusAt context root n = .ok ∧ AtCap context (before+n+1)) ∨
    (statusAt context root n ≠ .ok ∧ statusAt context root n ≠ .notFound ∨
      statusAt context root n = .ok ∧ ¬ AtCap context (before+n+1) ∧
        context.checkTimeout n = true) := by
  unfold GoesOn
  cases hstatus : statusAt context root n <;> cases htime : context.checkTimeout n <;>
    by_cases hcap : AtCap context (before+n+1) <;> simp [hcap]

theorem stops_iff : (∃ n, (∀ k < n, GoesOn context before root k) ∧
    ¬ GoesOn context before root n) ↔ Complete context before root ∨ BrokenOff context before root := by
  constructor
  · rintro ⟨n,hgoes,hstop⟩
    exact ((not_goesOn_iff n).mp hstop).imp (fun h => ⟨n,hgoes,h⟩) fun h => ⟨n,hgoes,h⟩
  · rintro (⟨n,hgoes,hend⟩ | ⟨n,hgoes,hend⟩)
    · exact ⟨n,hgoes,(not_goesOn_iff n).mpr (Or.inl hend)⟩
    · exact ⟨n,hgoes,(not_goesOn_iff n).mpr (Or.inr hend)⟩

/-- A stream that is complete is not broken off. -/
theorem Complete.not_brokenOff (h : Complete context before root) :
    ¬ BrokenOff context before root := by
  rintro ⟨m,hm,hbroken⟩
  obtain ⟨n,hn,hend⟩ := h
  have hnstop : ¬ GoesOn context before root n := (not_goesOn_iff n).mpr (Or.inl hend)
  have hmstop : ¬ GoesOn context before root m := (not_goesOn_iff m).mpr (Or.inr hbroken)
  obtain rfl : n = m := by
    rcases Nat.lt_trichotomy n m with hlt | heq | hlt
    · exact absurd (hm n hlt) hnstop
    · exact heq
    · exact absurd (hn m hlt) hmstop
  rcases hend with hnot | ⟨hok,hcap⟩
  · rcases hbroken with ⟨_,hne⟩ | ⟨hok,_⟩
    · exact hne hnot
    · rw [hnot] at hok
      cases hok
  · rcases hbroken with ⟨hne,_⟩ | ⟨_,hnocap,_⟩
    · exact hne hok
    · exact hnocap hcap

end Streams

section Statements

variable (select : SelectNode) (results : List Row)

/-- A SELECT that is reported as done without running, or after all its rows or as many as wanted. -/
def DoneInFull : Prop :=
  context.optimizer.mode = .EXPLAIN ∨
    ∃ root root', context.buildPlan (context.optimizer.optimize select) = some root ∧
      context.calls.open root = (.ok,root') ∧ Complete context results.length root'

variable {context select results}

/-- With operators that were opened, the status of the loop is not looked at. -/
theorem executeSelect_opened {root root' : σ} (hmode : context.optimizer.mode ≠ .EXPLAIN)
    (hroot : context.buildPlan (context.optimizer.optimize select) = some root)
    (hopen : context.calls.open root = (.ok,root')) (fuel : ℕ) :
    executeSelect context fuel select results =
      (fetchRows context fuel 0 root' results).map fun loop => (.ok,
        if context.optimizer.mode = .EXPLAIN_ANALYZE then
          [context.explainPlan (context.optimizer.optimize select) true]
        else loop.2) := by
  simp only [executeSelect,hmode,if_false,hroot,hopen]
  cases fetchRows context fuel 0 root' results with
  | none => rfl
  | some loop =>
    dsimp only [Option.bind_eq_bind,Option.bind_some,Option.map_some]
    split_ifs <;> rfl

theorem executeSelect_not_opened {root : σ} (hmode : context.optimizer.mode ≠ .EXPLAIN)
    (hroot : context.buildPlan (context.optimizer.optimize select) = some root)
    (hopen : (context.calls.open root).1 ≠ .ok) (fuel : ℕ) :
    executeSelect context fuel select results = some ((context.calls.open root).1,results) := by
  simp only [executeSelect,hmode,if_false,hroot]

/-- SELECT tells of its failures just when its operators, once opened, have none to tell of. -/
theorem executeSelect_reports_iff :
    (∀ status rows, Returns (fun fuel => executeSelect context fuel select results) (status,rows) →
      status = .ok → DoneInFull context select results) ↔
    (context.optimizer.mode ≠ .EXPLAIN →
      ∀ root root', context.buildPlan (context.optimizer.optimize select) = some root →
        context.calls.open root = (.ok,root') → ¬ BrokenOff context results.length root') := by
  constructor
  · intro hreports hmode root root' hroot hopen hbroken
    obtain ⟨fuel,hsome⟩ := (fetchRows_isSome_iff rfl).mpr (stops_iff.mpr (Or.inr hbroken))
    obtain ⟨loop,hloop⟩ := Option.isSome_iff_exists.mp hsome
    have hselect := @executeSelect_opened _ context select results _ _ hmode hroot hopen fuel
    rw [hloop,Option.map_some] at hselect
    rcases hreports .ok _ ⟨fuel,hselect⟩ rfl with hexplain | ⟨first,opened,hfirst,hopened,hcomplete⟩
    · exact hmode hexplain
    · obtain rfl := Option.some.inj (hroot.symm.trans hfirst)
      obtain ⟨_,rfl⟩ := Prod.mk.inj (hopen.symm.trans hopened)
      exact hcomplete.not_brokenOff hbroken
  · rintro hwhole status rows ⟨fuel,hselect⟩ rfl
    by_cases hmode : context.optimizer.mode = .EXPLAIN
    · exact Or.inl hmode
    · cases hroot : context.buildPlan (context.optimizer.optimize select) with
      | none =>
        simp only [executeSelect,hmode,if_false,hroot] at hselect
        cases hselect
      | some root =>
        by_cases hok : (context.calls.open root).1 = .ok
        · have hopen : context.calls.open root = (.ok,(context.calls.open root).2) :=
            Prod.ext hok rfl
          dsimp only at hselect
          rw [executeSelect_opened hmode hroot hopen] at hselect
          obtain ⟨loop,hloop,_⟩ := Option.map_eq_some_iff.mp hselect
          have hstops := stops_iff.mp ((fetchRows_isSome_iff rfl).mp
            ⟨fuel,Option.isSome_iff_exists.mpr ⟨loop,hloop⟩⟩)
          exact Or.inr ⟨root,_,hroot,hopen,
            hstops.resolve_right (hwhole hmode root _ hroot hopen)⟩
        · dsimp only at hselect
          rw [executeSelect_not_opened hmode hroot hok] at hselect
          exact absurd (Prod.mk.inj (Option.some.inj hselect)).1 hok

end Statements

/-- Operators that give a row and then fail, and a context without a cap. -/
def failingCalls : OperatorCalls ℕ where
  «open» root := (.ok,root)
  next
    | 0 => (.ok,[Value.ofInt 1],1)
    | root => (.error,[],root)
def failingContext : SelectContext ℕ where
  optimizer := ⟨fun _ _ => [],fun _ _ _ => false,fun _ => 0,fun _ _ => false,.NORMAL,2,fun _ => true⟩
  calls := failingCalls
  buildPlan _ := some 0
  explainPlan _ _ := []
  maxRows := -1
  checkTimeout _ := false

/-- `SELECT` of nothing from nowhere, which the operators do not depend on. -/
def plainSelect : SelectNode := ⟨false,[],[],[],none,none,none,none,none,.NONE,none⟩

/-- The row before the failure is returned as if it were all there is. -/
theorem failure_not_reported : ¬ ∀ (context : SelectContext ℕ) (select : SelectNode)
    (results : List Row) (status : Status) (rows : List Row),
    Returns (fun fuel => executeSelect context fuel select results) (status,rows) →
    status = .ok → DoneInFull context select results := by
  intro h
  rcases h failingContext plainSelect [] .ok [[Value.ofInt 1]] ⟨2,rfl⟩ rfl with hmode | hrest
  · cases hmode
  · obtain ⟨root,root',hroot,hopen,hcomplete⟩ := hrest
    cases hroot
    cases hopen
    refine hcomplete.not_brokenOff ⟨1,fun k hk => ?_,Or.inl ⟨by decide,by decide⟩⟩
    obtain rfl := Nat.lt_one_iff.mp hk
    exact ⟨rfl,by decide,rfl⟩

end QueryExecutor
end OrangeSQL
