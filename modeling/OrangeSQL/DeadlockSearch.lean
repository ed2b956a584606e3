import OrangeSQL.TransactionManager

/-! The two searches for a deadlock walk the same graph: an edge leads from a transaction to one
that waits for a resource on which the first holds a lock. Both end, agree, and find a cycle
exactly where one is reachable. -/
namespace OrangeSQL

open DepthFirst

namespace LockManager

/-- `b` waits for a resource on which `a` holds a lock. -/
def WaitsBehind (m : LockManager) (a b : TransactionId) : Prop :=
  b ≠ a ∧ ∃ resources, m.waitingFor.lookup b = some resources ∧
    ∃ r ∈ resources, ∃ lock ∈ m.locksOn r, lock.holder = a

/-- A cycle of transactions that wait for each other is reachable. -/
def CycleBehind (m : LockManager) (tx : TransactionId) : Prop :=
  ∃ u, Relation.ReflTransGen m.WaitsBehind tx u ∧ Relation.TransGen m.WaitsBehind u u

theorem mem_waitingFor_iff (m : LockManager) (tx : TransactionId) (resources : List String) :
    ⟨tx,resources⟩ ∈ m.waitingFor.entries ↔ m.waitingFor.lookup tx = some resources :=
  (List.mem_dlookup_iff m.waitingFor.nodupKeys).symm

theorem edge_getWaitingTransactions (m : LockManager) :
    Edge m.getWaitingTransactions = m.WaitsBehind := by
  funext a b
  apply propext
  simp only [Edge,getWaitingTransactions,WaitsBehind,List.mem_flatMap]
  constructor
  · rintro ⟨⟨tx,resources⟩,hmem,hb⟩
    split at hb
    · cases hb
    · next hne =>
      obtain ⟨r,hr,rfl⟩ := List.mem_map.mp hb
      obtain ⟨hr,hlock⟩ := List.mem_filter.mp hr
      refine ⟨hne,resources,(m.mem_waitingFor_iff tx resources).mp hmem,r,hr,?_⟩
      simpa using List.any_eq_true.mp hlock
  · rintro ⟨hne,resources,hlook,r,hr,hlock⟩
    refine ⟨⟨b,resources⟩,(m.mem_waitingFor_iff b resources).mpr hlook,?_⟩
    have hany : (m.locksOn r).any (fun lock => decide (lock.holder = a)) = true := by
      simpa using hlock
    rw [if_neg hne]
    exact List.mem_map.mpr ⟨r,List.mem_filter.mpr ⟨hr,hany⟩,rfl⟩

theorem reachesCycle_getWaitingTransactions (m : LockManager) (tx : TransactionId) :
    ReachesCycle m.getWaitingTransactions tx ↔ m.CycleBehind tx := by
  simp only [ReachesCycle,Reaches,CycleBehind,edge_getWaitingTransactions]

/-- The search only ever enters transactions that wait. -/
theorem waiting_of_edge (m : LockManager) (a b : TransactionId)
    (h : b ∈ m.getWaitingTransactions a) : b ∈ m.waitingFor.keys.toFinset := by
  have hedge : m.WaitsBehind a b := by
    rw [← edge_getWaitingTransactions]
    exact h
  obtain ⟨_,resources,hlook,_⟩ := hedge
  rw [List.mem_toFinset,AList.keys,List.mem_keys]
  exact ⟨resources,(m.mem_waitingFor_iff b resources).mpr hlook⟩

theorem search_waiting (m : LockManager) (tx : TransactionId) {fuel : ℕ}
    (hfuel : m.searchDepth ≤ fuel) :
    ∃ b, search m.getWaitingTransactions fuel [] tx = some b ∧ (b = true ↔ m.CycleBehind tx) := by
  have hcard := List.toFinset_card_le m.waitingFor.keys
  have hdepth : m.waitingFor.keys.toFinset.card+1 < fuel := by
    rw [searchDepth] at hfuel
    omega
  rw [← reachesCycle_getWaitingTransactions]
  exact search_exact m.waiting_of_edge hdepth

/-- The marks that are set are those of the path. -/
def Marks (path : List TransactionId) (marks : SearchMarks) : Prop :=
  ∀ tx, marks.isVisited tx = true ↔ tx ∈ path

theorem isVisited_setVisited (marks : SearchMarks) (tx x : TransactionId) (b : Bool) :
    (marks.setVisited tx b).isVisited x = if x = tx then b else marks.isVisited x := by
  by_cases h : x = tx
  · subst h
    simp [SearchMarks.isVisited,SearchMarks.setVisited]
  · simp [h,SearchMarks.isVisited,SearchMarks.setVisited,AList.lookup_insert_ne h]

theorem Marks.enter {path : List TransactionId} {marks : SearchMarks} (h : Marks path marks)
    (start : TransactionId) : Marks (path++[start]) (marks.setVisited start true) := by
  intro tx
  rw [isVisited_setVisited]
  by_cases htx : tx = start
  · simp [htx]
  · simp [htx,h tx]

theorem Marks.leave {path : List TransactionId} {marks : SearchMarks} {start : TransactionId}
    (h : Marks (path++[start]) marks) (hstart : start ∉ path) :
    Marks path (marks.setVisited start false) := by
  intro tx
  rw [isVisited_setVisited]
  by_cases htx : tx = start
  · simp [htx,hstart]
  · simp [htx,h tx]

theorem checkDeadlock_answers (m : LockManager) (fuel : ℕ) (start : TransactionId)
    {path : List TransactionId} {marks : SearchMarks} (h : Marks path marks) :
    Answers (Marks path) (m.checkDeadlock fuel start marks)
      (search m.getWaitingTransactions fuel path start) := by
  induction fuel generalizing start path marks with
  | zero => simp [Answers,checkDeadlock,search]
  | succ fuel ih =>
    by_cases hstart : start ∈ path
    · simp [Answers,checkDeadlock,search,hstart,(h start).mpr hstart]
    · have hmark : marks.isVisited start = false := by
        rw [← Bool.not_eq_true,h start]
        exact hstart
      have hloop := loopUntil_answers (m.getWaitingTransactions start)
        (fun waiter marks hmarks => @ih waiter _ (marks.setParent waiter start) hmarks)
        (h.enter start)
      rw [checkDeadlock,search,if_neg hstart,hmark,← hloop.1]
      generalize hanswer : loopUntil _ _ _ = answer at hloop
      rcases answer with _ | ⟨_ | _,marks'⟩
      · simp [Answers]
      · simpa [Answers] using (hloop.2 marks' rfl).leave hstart
      · simp [Answers]

theorem exists_search (m : LockManager) (tx : TransactionId) {fuel : ℕ}
    (hfuel : m.searchDepth ≤ fuel) :
    ∃ b marks, m.checkDeadlock fuel tx ⟨∅,∅⟩ = some (b,marks) ∧ (b = true ↔ m.CycleBehind tx) := by
  obtain ⟨b,hb,hcycle⟩ := m.search_waiting tx hfuel
  have hnone : Marks [] ⟨∅,∅⟩ := by simp [Marks,SearchMarks.isVisited]
  have hanswer := (m.checkDeadlock_answers fuel tx hnone).1
  obtain ⟨⟨b',marks⟩,hmarks,hfst⟩ := Option.map_eq_some_iff.mp (hanswer.trans hb)
  obtain rfl : b' = b := hfst
  exact ⟨b',marks,hmarks,hcycle⟩

end LockManager

namespace TransactionManager

theorem checkDeadlock_answers (m : TransactionManager) (fuel : ℕ) (start : TransactionId)
    (path : List TransactionId) :
    Answers (fun visited => visited = path) (m.checkDeadlock fuel start path)
      (search m.lockManager.getWaitingTransactions fuel path start) := by
  induction fuel generalizing start path with
  | zero => simp [Answers,checkDeadlock,search]
  | succ fuel ih =>
    by_cases hstart : start ∈ path
    · simp [Answers,checkDeadlock,search,hstart]
    · have hcall : ∀ waiter visited, visited = path++[start] →
          Answers (fun visited => visited = path++[start]) (m.checkDeadlock fuel waiter visited)
            (search m.lockManager.getWaitingTransactions fuel (path++[start]) waiter) := by
        intro waiter visited hvisited
        rw [hvisited]
        exact ih waiter (path++[start])
      have hloop := loopUntil_answers (m.lockManager.getWaitingTransactions start) hcall rfl
      rw [checkDeadlock,search,if_neg hstart,if_neg hstart,← hloop.1]
      generalize hanswer : loopUntil _ _ _ = answer at hloop
      rcases answer with _ | ⟨_ | _,visited⟩
      · simp [Answers]
      · have hvisited : visited = path++[start] := hloop.2 visited rfl
        simp [Answers,hvisited]
      · simp [Answers]

theorem exists_search (m : TransactionManager) (start : TransactionId) {fuel : ℕ}
    (hfuel : m.lockManager.searchDepth ≤ fuel) :
    ∃ b visited, m.checkDeadlock fuel start [] = some (b,visited) ∧
      (b = true ↔ m.lockManager.CycleBehind start) ∧ (b = false → visited = []) := by
  obtain ⟨b,hb,hcycle⟩ := m.lockManager.search_waiting start hfuel
  have hanswer := m.checkDeadlock_answers fuel start []
  obtain ⟨⟨b',visited⟩,hvisited,hfst⟩ := Option.map_eq_some_iff.mp (hanswer.1.trans hb)
  obtain rfl : b' = b := hfst
  refine ⟨b',visited,hvisited,hcycle,?_⟩
  rintro rfl
  exact hanswer.2 visited hvisited

end TransactionManager

/-- Both searches end in every lock state and answer whether a cycle is reachable; the detector's
search leaves its vector empty where there is none. -/
theorem deadlock_search_exact (m : TransactionManager) (tx : TransactionId) :
    ∃ depth b, (b = true ↔ m.lockManager.CycleBehind tx) ∧
      ∀ fuel, depth ≤ fuel → m.lockManager.hasDeadlock fuel tx = some b ∧
        ∃ visited, m.checkDeadlock fuel tx [] = some (b,visited) ∧ (b = false → visited = []) := by
  obtain ⟨b,_,_,hcycle⟩ := m.lockManager.exists_search tx le_rfl
  refine ⟨m.lockManager.searchDepth,b,hcycle,?_⟩
  intro fuel hfuel
  obtain ⟨b₁,marks,hlock,hcycle₁⟩ := m.lockManager.exists_search tx hfuel
  obtain ⟨b₂,visited,hdetector,hcycle₂,hempty⟩ := m.exists_search tx hfuel
  obtain rfl : b₁ = b := by rw [Bool.eq_iff_iff,hcycle₁,hcycle]
  obtain rfl : b₂ = b₁ := by rw [Bool.eq_iff_iff,hcycle₂,hcycle]
  refine ⟨?_,visited,hdetector,hempty⟩
  rw [LockManager.hasDeadlock,hlock]
  rfl

end OrangeSQL
