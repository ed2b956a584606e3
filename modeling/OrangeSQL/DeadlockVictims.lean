import OrangeSQL.DeadlockSearch
import OrangeSQL.Library.FiniteMap

/-! Who pays for a deadlock. A request is refused, and a transaction is aborted by the detector,
because a search from it, or through it, ran into a cycle. The vertex where a search starts need
not lie on the cycle where it ends. -/
namespace OrangeSQL

open DepthFirst

def TransactionPriority.rank : TransactionPriority → ℤ
  | .low => 0 | .normal => 1 | .high => 2 | .critical => 3

namespace LockManager

/-- The transaction waits for itself through others. -/
def OnCycle (m : LockManager) (tx : TransactionId) : Prop := Relation.TransGen m.WaitsBehind tx tx

/-- The call has put its transaction into the tables of those that wait. -/
def Waits (m : LockManager) (c : LockCall) : Prop :=
  c.resource ∈ (m.waitingFor.lookup c.txId).getD []

theorem mem_keys_of_waitsBehind {m : LockManager} {a b : TransactionId} (h : m.WaitsBehind a b) :
    b ∈ m.waitingFor.keys := by
  rw [← edge_getWaitingTransactions] at h
  exact List.mem_toFinset.mp (m.waiting_of_edge a b h)

end LockManager

namespace TransactionManager

/-- What the victims are compared by. -/
def priorityOf (m : TransactionManager) (tx : TransactionId) : ℤ :=
  (m.activeTransactions.lookup tx).elim 0 fun t => t.priority.rank

/-- The transaction that one turn of the loop in `detectDeadlocks` aborts, if it aborts one. There
is no answer when a transaction on the path is not in the map: a null pointer is read then. -/
def deadlockVictim (m : TransactionManager) (start : TransactionId) :
    Option (Option TransactionId) :=
  match m.checkDeadlock m.lockManager.searchDepth start [] with
  | none => none
  | some (false,_) => some none
  | some (true,visited) =>
    if ∀ tx ∈ visited, tx ∈ m.activeTransactions then some (minElement m.priorityOf visited)
    else none

end TransactionManager

/-- In this lock state, whichever transactions are active and whatever their priorities are, only
transactions on a cycle are refused a lock as deadlocked or chosen as victims. -/
def SparesOthers (m : LockManager) : Prop :=
  (∀ c elapsed m', m.Waits c → m.poll c elapsed = (some .deadlock,m') → m.OnCycle c.txId) ∧
  ∀ t : TransactionManager, t.lockManager = m → ∀ start ∈ t.activeTransactions, ∀ victim,
    t.deadlockVictim start = some (some victim) → m.OnCycle victim

namespace TransactionManager

/-- The vector of a search that has found a cycle is a trail behind what it was given. -/
theorem checkDeadlock_trail (m : TransactionManager) {fuel : ℕ} {start : TransactionId}
    {path visited : List TransactionId}
    (hpath : (path++[start]).IsChain (Edge m.lockManager.getWaitingTransactions))
    (h : m.checkDeadlock fuel start path = some (true,visited)) :
    Trail m.lockManager.getWaitingTransactions visited ∧ path <+: visited ∧
      (start ∉ path → path++[start] <+: visited) := by
  induction fuel generalizing start path with
  | zero => simp [checkDeadlock] at h
  | succ fuel ih =>
    by_cases hstart : start ∈ path
    · rw [checkDeadlock,if_pos hstart] at h
      obtain rfl : path = visited := (Prod.mk.inj (Option.some.inj h)).2
      obtain ⟨hchain,_,hedge⟩ := List.isChain_append.mp hpath
      have hne : path ≠ [] := List.ne_nil_of_mem hstart
      refine ⟨⟨hchain,path.dropLast,path.getLast hne,start,?_,hstart,?_⟩,List.prefix_rfl,?_⟩
      · exact (List.dropLast_append_getLast hne).symm
      · exact hedge _ (List.getLast?_eq_some_getLast hne) _ rfl
      · exact fun hnot => absurd hstart hnot
    · rw [checkDeadlock,if_neg hstart] at h
      have hkeep : ∀ waiter visited', m.checkDeadlock fuel waiter (path++[start]) =
          some (false,visited') → visited' = path++[start] := by
        intro waiter visited' hanswer
        exact (m.checkDeadlock_answers fuel waiter (path++[start])).2 visited' hanswer
      have hloop : loopUntil (fun waiter visited => m.checkDeadlock fuel waiter visited)
          (m.lockManager.getWaitingTransactions start) (path++[start]) = some (true,visited) := by
        split at h
        · simp at h
        · exact h
      obtain ⟨waiter,hwaiter,hanswer⟩ := loopUntil_true hkeep hloop
      have hnext : ((path++[start])++[waiter]).IsChain
          (Edge m.lockManager.getWaitingTransactions) := by
        refine List.isChain_append.mpr ⟨hpath,List.isChain_singleton _,?_⟩
        intro a ha b hb
        obtain rfl : start = a := by simpa using ha
        obtain rfl : waiter = b := by simpa using hb
        exact hwaiter
      obtain ⟨htrail,hbegins,_⟩ := ih hnext hanswer
      exact ⟨htrail,(List.prefix_append _ _).trans hbegins,fun _ => hbegins⟩

/-- A search from the start: its vector begins with the start, behind it are transactions that wait,
and all of them have a way to a cycle. -/
theorem checkDeadlock_start (m : TransactionManager) {fuel : ℕ} {start : TransactionId}
    {visited : List TransactionId} (h : m.checkDeadlock fuel start [] = some (true,visited)) :
    (∃ rest, visited = start::rest) ∧
    (∀ tx ∈ visited, tx = start ∨ tx ∈ m.lockManager.waitingFor.keys) ∧
    ∀ tx ∈ visited, m.lockManager.CycleBehind tx := by
  obtain ⟨htrail,_,hbegins⟩ := m.checkDeadlock_trail (List.isChain_singleton start) h
  obtain ⟨rest,hrest⟩ := hbegins List.not_mem_nil
  refine ⟨⟨rest,hrest.symm⟩,?_,?_⟩
  · have hchain := htrail.chain
    rw [LockManager.edge_getWaitingTransactions] at hchain
    apply hchain.induction
    · intro x y hxy _
      exact Or.inr (LockManager.mem_keys_of_waitsBehind hxy)
    · intro hne
      left
      simp [← hrest]
  · intro tx htx
    rw [← LockManager.reachesCycle_getWaitingTransactions]
    exact htrail.reachesCycle htx

theorem minElement_mem {f : TransactionId → ℤ} {xs : List TransactionId} {x : TransactionId}
    (h : minElement f xs = some x) : x ∈ xs := by
  obtain ⟨front,back,rfl,_⟩ := minElement_split h
  exact List.mem_append_right front List.mem_cons_self

/-- The first element stays if nothing is smaller. -/
theorem minElement_first {f : TransactionId → ℤ} {x : TransactionId} {xs : List TransactionId}
    (h : ∀ y ∈ xs, f x ≤ f y) : minElement f (x::xs) = some x := by
  rw [minElement]
  congr 1
  induction xs with
  | nil => rfl
  | cons y xs ih =>
    rw [List.foldl_cons,if_neg (not_lt.mpr (h y List.mem_cons_self))]
    exact ih fun z hz => h z (List.mem_cons_of_mem y hz)

theorem cycleBehind_of_victim {m : TransactionManager} {start victim : TransactionId}
    (h : m.deadlockVictim start = some (some victim)) : m.lockManager.CycleBehind victim := by
  unfold deadlockVictim at h
  split at h
  · cases h
  · cases h
  · next visited hsearch =>
    split_ifs at h
    obtain ⟨_,_,hcycle⟩ := m.checkDeadlock_start hsearch
    exact hcycle victim (minElement_mem (Option.some.inj h))

end TransactionManager

namespace LockManager

theorem hasDeadlock_iff (m : LockManager) (tx : TransactionId) :
    m.hasDeadlock m.searchDepth tx = some true ↔ m.CycleBehind tx := by
  obtain ⟨b,marks,hsearch,hcycle⟩ := m.exists_search tx le_rfl
  rw [hasDeadlock,hsearch,Option.map_some,Option.some.injEq]
  exact hcycle

theorem cycleBehind_of_poll {m m' : LockManager} {c : LockCall} {elapsed : ℕ}
    (h : m.poll c elapsed = (some .deadlock,m')) : m.CycleBehind c.txId := by
  unfold poll at h
  split_ifs at h with htimeout hdeadlock hgrant
  · simp at h
  · exact (m.hasDeadlock_iff c.txId).mp hdeadlock.2
  · simp at h
  · simp at h

/-- Without a tail before a cycle, what reaches one lies on one. -/
theorem CycleBehind.onCycle {m : LockManager}
    (htail : ∀ a b, m.WaitsBehind a b → m.OnCycle b → m.OnCycle a) {tx : TransactionId}
    (h : m.CycleBehind tx) : m.OnCycle tx := by
  obtain ⟨u,hreach,hu⟩ := h
  induction hreach using Relation.ReflTransGen.head_induction_on with
  | refl => exact hu
  | head hedge _ ih => exact htail _ _ hedge ih

end LockManager

/-- Transactions with these ids, all of them active. -/
def activeWith (tx : TransactionId → Transaction) (ids : List TransactionId) :
    Finmap fun _ : TransactionId => Transaction :=
  ids.foldr (fun id txs => txs.insert id (tx id)) ∅

theorem lookup_activeWith (tx : TransactionId → Transaction) {ids : List TransactionId}
    {id : TransactionId} (h : id ∈ ids) : (activeWith tx ids).lookup id = some (tx id) := by
  induction ids with
  | nil => cases h
  | cons a ids ih =>
    have hunfold : activeWith tx (a::ids) = (activeWith tx ids).insert a (tx a) := rfl
    rw [hunfold,FiniteMap.lookup_insert_eq]
    split_ifs with ha
    · rw [ha]
    · exact ih ((List.mem_cons.mp h).resolve_left ha)

/-- After `setPriority(LOW)` on one transaction. -/
def lowestTx (a id : TransactionId) : Transaction :=
  { Transaction.new id .serializable .readWrite 0 with
    priority := if id = a then .low else .normal }

/-- A manager in which the given transaction has the least priority of all that wait. -/
def withLowest (m : LockManager) (a : TransactionId) : TransactionManager :=
  { TransactionManager.new (BufferPool.new 0 Disk.empty 1) (LogManager.new .normal) with
    lockManager := m
    activeTransactions := activeWith (lowestTx a) (a::m.waitingFor.keys) }

theorem withLowest_victim {m : LockManager} {a : TransactionId} (h : m.CycleBehind a) :
    (withLowest m a).deadlockVictim a = some (some a) := by
  obtain ⟨b,visited,hvisited,hcycle,_⟩ := (withLowest m a).exists_search a le_rfl
  obtain rfl : b = true := hcycle.mpr h
  obtain ⟨⟨rest,hrest⟩,hwaiting,_⟩ := (withLowest m a).checkDeadlock_start hvisited
  have hlisted : ∀ tx ∈ visited, tx ∈ a::m.waitingFor.keys := fun tx htx =>
    List.mem_cons.mpr (hwaiting tx htx)
  have hactive : ∀ tx ∈ visited, tx ∈ (withLowest m a).activeTransactions := fun tx htx =>
    Finmap.mem_of_lookup_eq_some (lookup_activeWith _ (hlisted tx htx))
  have hleast : ∀ y ∈ rest, (withLowest m a).priorityOf a ≤ (withLowest m a).priorityOf y := by
    intro y hy
    have hy' : y ∈ visited := hrest ▸ List.mem_cons_of_mem a hy
    have hother := lookup_activeWith (lowestTx a) (hlisted y hy')
    have hfirst := lookup_activeWith (lowestTx a) (List.mem_cons_self : a ∈ a::m.waitingFor.keys)
    simp only [TransactionManager.priorityOf,withLowest,hother,hfirst,lowestTx,if_true,
      Option.elim_some]
    split_ifs <;> decide
  rw [hrest] at hactive hvisited
  rw [TransactionManager.deadlockVictim,hvisited]
  simp only [if_pos hactive]
  rw [TransactionManager.minElement_first hleast]

/-- Exactly in the lock states without a tail: where a transaction on a cycle waits for a lock,
its holder is on a cycle as well. -/
theorem deadlock_victims_on_cycles (m : LockManager) :
    SparesOthers m ↔ ∀ a b, m.WaitsBehind a b → m.OnCycle b → m.OnCycle a := by
  constructor
  · intro h a b hedge hb
    have hbehind : m.CycleBehind a := ⟨b,Relation.ReflTransGen.single hedge,hb⟩
    refine h.2 (withLowest m a) rfl a ?_ a (withLowest_victim hbehind)
    exact Finmap.mem_of_lookup_eq_some (lookup_activeWith _ List.mem_cons_self)
  · intro htail
    constructor
    · intro c elapsed m' _ hpoll
      exact (LockManager.cycleBehind_of_poll hpoll).onCycle htail
    · rintro t rfl start _ victim hvictim
      exact (TransactionManager.cycleBehind_of_victim hvictim).onCycle htail

/-- 1 and 3 share a lock that 2 waits for, 3 waits for 2, and 1 waits for 4. The first turn of the
wait loop of 2 comes a millisecond late, and so it does not look for a deadlock. -/
def tailedState : LockManager :=
  let calls : List (LockManager.LockCall × ℕ) :=
    [(⟨1,"r",.shared,.row,1000⟩,0),(⟨3,"r",.shared,.row,1000⟩,0),(⟨2,"q",.exclusive,.row,1000⟩,0),
      (⟨4,"s",.exclusive,.row,1000⟩,0),(⟨3,"q",.exclusive,.row,1000⟩,0),
      (⟨1,"s",.exclusive,.row,1000⟩,0),(⟨2,"r",.exclusive,.row,1000⟩,1)]
  calls.foldl (fun m c => (m.acquireLock c.1 c.2).2) .new

theorem tailedState_not_onCycle : ¬tailedState.OnCycle 1 := by
  intro h
  obtain ⟨x,hx,_,resources,hlook,r,hr,lock,hlock,rfl⟩ := Relation.TransGen.tail'_iff.mp h
  have hwaits : tailedState.waitingFor.lookup 1 = some ["s"] := by decide
  have hlocks : tailedState.locksOn "s" = [⟨.exclusive,4,.row⟩] := by decide
  obtain rfl : ["s"] = resources := Option.some.inj (hwaits.symm.trans hlook)
  rw [List.mem_singleton.mp hr,hlocks] at hlock
  rw [List.mem_singleton.mp hlock] at hx
  rcases Relation.ReflTransGen.cases_tail hx with heq | ⟨y,_,_,resources,hlook,_⟩
  · exact absurd heq (by decide)
  · have hnone : tailedState.waitingFor.lookup 4 = none := by decide
    rw [hnone] at hlook
    cases hlook

/-- Transaction 1 is refused a lock as deadlocked, and it is on no cycle. -/
theorem tailedState_refuses_other : ¬SparesOthers tailedState := by
  intro h
  have hwaits : tailedState.Waits ⟨1,"s",.exclusive,.row,1000⟩ := by
    unfold LockManager.Waits
    decide
  have hpoll : (tailedState.poll ⟨1,"s",.exclusive,.row,1000⟩ 100).1 = some .deadlock := by decide
  exact tailedState_not_onCycle (h.1 _ 100 _ hwaits (Prod.ext hpoll rfl))

end OrangeSQL
