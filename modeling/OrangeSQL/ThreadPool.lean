import Mathlib.Algebra.BigOperators.Fin
import Mathlib.Algebra.Order.Group.Multiset

/-! The thread pool. Its workers, the threads that enqueue and the destructor interleave in any order;
what each of them does while it holds the mutex is one step. -/
namespace OrangeSQL

/-- Where a worker is in its loop. -/
inductive Worker
  | waiting
  | running (task : ℕ)
  | exited
  deriving DecidableEq, Repr

structure ThreadPool (n : ℕ) where
  workers : Fin n → Worker
  tasks : List ℕ
  stop : Bool
  allocated : ℕ

namespace ThreadPool

variable {n : ℕ}

inductive Event (n : ℕ)
  | accepted (task : ℕ)
  | rejected
  | took (i : Fin n) (task : ℕ)
  | finished (i : Fin n) (task : ℕ)
  | exited (i : Fin n)
  | stopped

section Steps

def new (n : ℕ) : ThreadPool n := ⟨fun _ => .waiting,[],false,0⟩

/-- A task is known by the number of the `packaged_task` that is allocated for it. -/
def enqueue (pool : ThreadPool n) : Event n × ThreadPool n :=
  let task := pool.allocated
  let pool := { pool with allocated := task+1 }
  if pool.stop then (.rejected,pool) else (.accepted task,{ pool with tasks := pool.tasks++[task] })

/-- What a worker does under the mutex; nothing while the condition makes it wait. -/
def wake (pool : ThreadPool n) (i : Fin n) : Option (Event n × ThreadPool n) :=
  if pool.stop || !pool.tasks.isEmpty then
    if pool.stop && pool.tasks.isEmpty then
      some (.exited i,{ pool with workers := Function.update pool.workers i .exited })
    else
      match pool.tasks with
      | [] => none
      | task::tasks => some (.took i task,
          { pool with workers := Function.update pool.workers i (.running task), tasks := tasks })
  else none

/-- The worker has run its task and goes back to the start of its loop. -/
def finish (pool : ThreadPool n) (i : Fin n) : ThreadPool n :=
  { pool with workers := Function.update pool.workers i .waiting }

/-- The destructor, up to where it waits for the workers. -/
def destroy (pool : ThreadPool n) : ThreadPool n := { pool with stop := true }

inductive Step : ThreadPool n → Event n → ThreadPool n → Prop
  | enqueue (pool : ThreadPool n) : Step pool pool.enqueue.1 pool.enqueue.2
  | wake {pool pool' : ThreadPool n} {i : Fin n} {e : Event n} (hworker : pool.workers i = .waiting)
      (hwake : pool.wake i = some (e,pool')) : Step pool e pool'
  | run {pool : ThreadPool n} {i : Fin n} {task : ℕ} (hworker : pool.workers i = .running task) :
      Step pool (.finished i task) (pool.finish i)
  | destroy (pool : ThreadPool n) : Step pool .stopped pool.destroy

/-- A pool after some events, from its constructor on. -/
inductive Run : List (Event n) → ThreadPool n → Prop
  | start : Run [] (new n)
  | step {events : List (Event n)} {pool pool' : ThreadPool n} {e : Event n} (hrun : Run events pool)
      (hstep : Step pool e pool') : Run (events++[e]) pool'

end Steps

section Tasks

def Event.accepted? : Event n → Option ℕ
  | .accepted task => some task
  | _ => none

def Event.took? : Event n → Option ℕ
  | .took _ task => some task
  | _ => none

def Event.finished? : Event n → Option ℕ
  | .finished _ task => some task
  | _ => none

def acceptedTasks (events : List (Event n)) : List ℕ := events.filterMap Event.accepted?
def takenTasks (events : List (Event n)) : List ℕ := events.filterMap Event.took?
def finishedTasks (events : List (Event n)) : List ℕ := events.filterMap Event.finished?

variable {events : List (Event n)} {e : Event n}

theorem filterMap_snoc (f : Event n → Option ℕ) :
    (events++[e]).filterMap f = events.filterMap f++(f e).toList := by
  rw [List.filterMap_append]
  cases h : f e <;> simp [h]

@[simp] theorem acceptedTasks_snoc :
    acceptedTasks (events++[e]) = acceptedTasks events++e.accepted?.toList := filterMap_snoc _

@[simp] theorem takenTasks_snoc : takenTasks (events++[e]) = takenTasks events++e.took?.toList :=
  filterMap_snoc _

@[simp] theorem finishedTasks_snoc :
    finishedTasks (events++[e]) = finishedTasks events++e.finished?.toList := filterMap_snoc _

/-- The tasks in the hand of a worker, none or one. -/
def held : Worker → Multiset ℕ
  | .running task => {task}
  | _ => 0

/-- The tasks in the hands of the workers. -/
def inHands (workers : Fin n → Worker) : Multiset ℕ := ∑ i, held (workers i)

theorem inHands_update (workers : Fin n → Worker) (i : Fin n) (worker : Worker) :
    inHands (Function.update workers i worker)+held (workers i) = inHands workers+held worker := by
  have hupdate : (fun j => held (Function.update workers i worker j)) =
      Function.update (fun j => held (workers j)) i (held worker) := by
    funext j
    exact Function.apply_update (fun _ => held) workers i worker j
  rw [inHands,inHands,hupdate,Finset.sum_update_of_mem (Finset.mem_univ i),
    ← Finset.sum_sdiff (Finset.subset_univ {i}),Finset.sum_singleton,add_assoc,add_comm]

end Tasks

section Inversion

/-- What a step can do. -/
theorem Step.cases {pool pool' : ThreadPool n} {e : Event n} (h : Step pool e pool') :
    (e = .accepted pool.allocated ∧ pool.stop = false ∧
      pool' = { pool with allocated := pool.allocated+1, tasks := pool.tasks++[pool.allocated] }) ∨
    (e = .rejected ∧ pool.stop = true ∧ pool' = { pool with allocated := pool.allocated+1 }) ∨
    (∃ i, e = .exited i ∧ pool.workers i = .waiting ∧ pool.stop = true ∧ pool.tasks = [] ∧
      pool' = { pool with workers := Function.update pool.workers i .exited }) ∨
    (∃ i task tasks, e = .took i task ∧ pool.workers i = .waiting ∧ pool.tasks = task::tasks ∧
      pool' =
        { pool with workers := Function.update pool.workers i (.running task), tasks := tasks }) ∨
    (∃ i task, e = .finished i task ∧ pool.workers i = .running task ∧
      pool' = { pool with workers := Function.update pool.workers i .waiting }) ∨
    (e = .stopped ∧ pool' = { pool with stop := true }) := by
  cases h with
  | enqueue =>
    rw [ThreadPool.enqueue]
    dsimp only
    split_ifs with hstop
    · exact Or.inr (Or.inl ⟨rfl,hstop,rfl⟩)
    · exact Or.inl ⟨rfl,Bool.of_not_eq_true hstop,rfl⟩
  | @wake _ i _ hworker hwake =>
    rw [ThreadPool.wake] at hwake
    split_ifs at hwake with hready hexit
    · obtain ⟨rfl,rfl⟩ := Prod.mk.inj (Option.some.inj hwake)
      obtain ⟨hstop,hempty⟩ := Bool.and_eq_true_iff.mp hexit
      exact Or.inr (Or.inr (Or.inl ⟨i,rfl,hworker,hstop,List.isEmpty_iff.mp hempty,rfl⟩))
    · cases htasks : pool.tasks with
      | nil =>
        rw [htasks] at hwake
        cases hwake
      | cons task tasks =>
        rw [htasks] at hwake
        obtain ⟨rfl,rfl⟩ := Prod.mk.inj (Option.some.inj hwake)
        exact Or.inr (Or.inr (Or.inr (Or.inl ⟨i,task,tasks,rfl,hworker,rfl,rfl⟩)))
  | @run i task hworker =>
    exact Or.inr (Or.inr (Or.inr (Or.inr (Or.inl ⟨i,task,rfl,hworker,rfl⟩))))
  | destroy => exact Or.inr (Or.inr (Or.inr (Or.inr (Or.inr ⟨rfl,rfl⟩))))

theorem Step.stopped_of_exited {pool pool' : ThreadPool n} {i : Fin n}
    (h : Step pool (.exited i) pool') : pool.stop = true ∧ pool.tasks = [] := by
  obtain ⟨he,_⟩ | ⟨he,_⟩ | ⟨_,_,_,hstop,hempty,_⟩ | ⟨_,_,_,he,_⟩ | ⟨_,_,he,_⟩ | ⟨he,_⟩ := h.cases
  · cases he
  · cases he
  · exact ⟨hstop,hempty⟩
  · cases he
  · cases he
  · cases he

end Inversion

section Invariant

/-- What holds of a pool and of the events that led to it. -/
structure Inv (events : List (Event n)) (pool : ThreadPool n) : Prop where
  inOrder : acceptedTasks events = takenTasks events++pool.tasks
  hands : (takenTasks events : Multiset ℕ) = inHands pool.workers+(finishedTasks events : Multiset ℕ)
  nodup : (acceptedTasks events).Nodup
  allocated : ∀ task ∈ acceptedTasks events, task < pool.allocated
  exited : ∀ i, pool.workers i = .exited → pool.stop = true ∧ pool.tasks = []

variable {events : List (Event n)} {pool pool' : ThreadPool n} {e : Event n}

theorem exited_of_update {workers : Fin n → Worker} {i j : Fin n} {worker : Worker}
    (h : Function.update workers i worker j = .exited) (hne : worker ≠ .exited) :
    workers j = .exited := by
  rcases eq_or_ne j i with rfl | hij
  · rw [Function.update_self] at h
    exact absurd h hne
  · rwa [Function.update_of_ne hij] at h

theorem inv_new : Inv [] (new n) where
  inOrder := rfl
  hands := by simp [inHands,new,held,takenTasks,finishedTasks]
  nodup := List.nodup_nil
  allocated := nofun
  exited := nofun

theorem Inv.accept (h : Inv events pool) (hstop : pool.stop = false) :
    Inv (events++[.accepted pool.allocated])
      { pool with allocated := pool.allocated+1, tasks := pool.tasks++[pool.allocated] } where
  inOrder := by simp [Event.accepted?,Event.took?,h.inOrder]
  hands := by simpa [Event.took?,Event.finished?] using h.hands
  nodup := by
    have hnew : pool.allocated ∉ acceptedTasks events := fun hmem => (h.allocated _ hmem).ne rfl
    rw [acceptedTasks_snoc]
    exact (List.nodup_middle.mpr (by simpa using ⟨hnew,h.nodup⟩) :
      (acceptedTasks events++pool.allocated::[]).Nodup)
  allocated task htask := by
    rw [acceptedTasks_snoc,List.mem_append] at htask
    rcases htask with hold | hnew
    · exact (h.allocated task hold).trans (Nat.lt_succ_self _)
    · rw [List.mem_singleton.mp hnew]
      exact Nat.lt_succ_self _
  exited i hi := by
    rw [(h.exited i hi).1] at hstop
    cases hstop

theorem Inv.reject (h : Inv events pool) :
    Inv (events++[.rejected]) { pool with allocated := pool.allocated+1 } where
  inOrder := by simpa [Event.accepted?,Event.took?] using h.inOrder
  hands := by simpa [Event.took?,Event.finished?] using h.hands
  nodup := by simpa [Event.accepted?] using h.nodup
  allocated task htask := by
    have hold : task ∈ acceptedTasks events := by simpa [Event.accepted?] using htask
    exact (h.allocated task hold).trans (Nat.lt_succ_self _)
  exited := h.exited

theorem Inv.exit (h : Inv events pool) {i : Fin n} (hworker : pool.workers i = .waiting)
    (hstop : pool.stop = true) (hempty : pool.tasks = []) :
    Inv (events++[.exited i])
      { pool with workers := Function.update pool.workers i .exited } where
  inOrder := by simpa [Event.accepted?,Event.took?] using h.inOrder
  hands := by
    have hsum := inHands_update pool.workers i .exited
    rw [hworker] at hsum
    simpa [Event.took?,Event.finished?,add_right_cancel hsum] using h.hands
  nodup := by simpa [Event.accepted?] using h.nodup
  allocated := by simpa [Event.accepted?] using h.allocated
  exited _ _ := ⟨hstop,hempty⟩

/-- No worker has exited where one takes a task. -/
theorem Inv.take (h : Inv events pool) {i : Fin n} {task : ℕ} {tasks : List ℕ}
    (hworker : pool.workers i = .waiting) (htasks : pool.tasks = task::tasks) :
    Inv (events++[.took i task])
      { pool with workers := Function.update pool.workers i (.running task), tasks := tasks } where
  inOrder := by simp [Event.accepted?,Event.took?,h.inOrder,htasks]
  hands := by
    have hsum := inHands_update pool.workers i (.running task)
    rw [hworker] at hsum
    have hmore : inHands (Function.update pool.workers i (.running task)) =
        inHands pool.workers+{task} := by simpa [held] using hsum
    have htaken : (takenTasks (events++[.took i task]) : Multiset ℕ) =
        (takenTasks events : Multiset ℕ)+{task} := by
      rw [takenTasks_snoc,← Multiset.coe_add]
      rfl
    have hfinished : finishedTasks (events++[.took i task]) = finishedTasks events := by
      simp [Event.finished?]
    rw [hmore,htaken,hfinished,h.hands,add_right_comm]
  nodup := by simpa [Event.accepted?] using h.nodup
  allocated := by simpa [Event.accepted?] using h.allocated
  exited j hj := by
    rw [(h.exited j (exited_of_update hj (by simp))).2] at htasks
    cases htasks

theorem Inv.finish (h : Inv events pool) {i : Fin n} {task : ℕ}
    (hworker : pool.workers i = .running task) :
    Inv (events++[.finished i task])
      { pool with workers := Function.update pool.workers i .waiting } where
  inOrder := by simpa [Event.accepted?,Event.took?] using h.inOrder
  hands := by
    have hsum := inHands_update pool.workers i .waiting
    rw [hworker] at hsum
    have hless : inHands (Function.update pool.workers i .waiting)+{task} =
        inHands pool.workers := by simpa [held] using hsum
    have hfinished : (finishedTasks (events++[.finished i task]) : Multiset ℕ) =
        (finishedTasks events : Multiset ℕ)+{task} := by
      rw [finishedTasks_snoc,← Multiset.coe_add]
      rfl
    have htaken : takenTasks (events++[.finished i task]) = takenTasks events := by
      simp [Event.took?]
    rw [hfinished,htaken,h.hands,← hless,add_right_comm,add_assoc]
  nodup := by simpa [Event.accepted?] using h.nodup
  allocated := by simpa [Event.accepted?] using h.allocated
  exited j hj := h.exited j (exited_of_update hj (by simp))

theorem Inv.stop (h : Inv events pool) : Inv (events++[.stopped]) { pool with stop := true } where
  inOrder := by simpa [Event.accepted?,Event.took?] using h.inOrder
  hands := by simpa [Event.took?,Event.finished?] using h.hands
  nodup := by simpa [Event.accepted?] using h.nodup
  allocated := by simpa [Event.accepted?] using h.allocated
  exited i hi := ⟨rfl,(h.exited i hi).2⟩

theorem Inv.step (h : Inv events pool) (hstep : Step pool e pool') : Inv (events++[e]) pool' := by
  obtain ⟨rfl,hstop,rfl⟩ | ⟨rfl,_,rfl⟩ | ⟨i,rfl,hworker,hstop,hempty,rfl⟩ |
    ⟨i,task,tasks,rfl,hworker,htasks,rfl⟩ | ⟨i,task,rfl,hworker,rfl⟩ | ⟨rfl,rfl⟩ := hstep.cases
  · exact h.accept hstop
  · exact h.reject
  · exact h.exit hworker hstop hempty
  · exact h.take hworker htasks
  · exact h.finish hworker
  · exact h.stop

theorem Run.inv (h : Run events pool) : Inv events pool := by
  induction h with
  | start => exact inv_new
  | step _ hstep ih => exact ih.step hstep

/-- An accepted task is in the queue, in the hands of one worker or finished, and it is so once. The
tasks are taken in the order in which they were accepted, a worker exits when the pool has been stopped
and nothing is queued, and with the last worker gone all tasks are finished. -/
theorem accepted_once (h : Run events pool) :
    (acceptedTasks events : Multiset ℕ) =
      pool.tasks+inHands pool.workers+finishedTasks events ∧
    (acceptedTasks events).Nodup ∧
    acceptedTasks events = takenTasks events++pool.tasks ∧
    (∀ i pool', Step pool (.exited i) pool' → pool.stop = true ∧ pool.tasks = []) ∧
    (0 < n → (∀ i, pool.workers i = .exited) →
      (finishedTasks events).Perm (acceptedTasks events)) := by
  have hinv := h.inv
  have hunion : (acceptedTasks events : Multiset ℕ) =
      pool.tasks+inHands pool.workers+finishedTasks events := by
    rw [hinv.inOrder,← Multiset.coe_add,hinv.hands,add_comm,add_assoc]
  refine ⟨hunion,hinv.nodup,hinv.inOrder,fun i pool' hstep => hstep.stopped_of_exited,?_⟩
  intro hn hexited
  have hempty : pool.tasks = [] := (hinv.exited ⟨0,hn⟩ (hexited _)).2
  have hnone : inHands pool.workers = 0 :=
    Finset.sum_eq_zero fun i _ => by rw [hexited i]; rfl
  rw [hempty,hnone,Multiset.coe_nil,zero_add,zero_add] at hunion
  exact (Multiset.coe_eq_coe.mp hunion).symm

/-- One worker, which is stopped while it runs a task with another one queued. -/
theorem accepted_once_stopped : ∃ events, ∃ pool : ThreadPool 1, Run events pool ∧
    acceptedTasks events = [0,1] ∧ (finishedTasks events).Perm [0,1] := by
  have h₁ := Run.start.step (Step.enqueue (new 1))
  have h₂ := h₁.step (Step.enqueue _)
  have h₃ := h₂.step (@Step.wake _ _ _ 0 _ rfl rfl)
  have h₄ := h₃.step (Step.destroy _)
  have h₅ := h₄.step (@Step.run _ _ 0 0 rfl)
  have h₆ := h₅.step (@Step.wake _ _ _ 0 _ rfl rfl)
  have h₇ := h₆.step (@Step.run _ _ 0 1 rfl)
  have h₈ := h₇.step (@Step.wake _ _ _ 0 _ rfl rfl)
  exact ⟨_,_,h₈,rfl,(accepted_once h₈).2.2.2.2 (by decide) (by decide)⟩

end Invariant

end ThreadPool

end OrangeSQL
