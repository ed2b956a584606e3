import Mathlib.Algebra.Order.BigOperators.Group.Finset
import OrangeSQL.ThreadPool

/-! The condition variable of the thread pool. A worker that finds nothing to do goes to sleep in the
critical section in which it looked; a notification is sent when the mutex has been given up, as a step
of its own. -/
namespace OrangeSQL

inductive Destructor
  | idle
  | stopping
  | joining
  deriving DecidableEq, Repr

/-- `owed` are the calls of `notify_one` that are still to be made. -/
structure SignalledPool (n : ℕ) where
  pool : ThreadPool n
  asleep : Finset (Fin n)
  owed : ℕ
  destructor : Destructor

namespace SignalledPool

open ThreadPool

variable {n : ℕ}

section Steps

def new (n : ℕ) : SignalledPool n := ⟨ThreadPool.new n,∅,0,.idle⟩

/-- A step, with the event of the pool under it if it is one of its steps too. -/
inductive Step : SignalledPool n → Option (Event n) → SignalledPool n → Prop
  | enqueue (s : SignalledPool n) : Step s (some s.pool.enqueue.1)
      { s with pool := s.pool.enqueue.2, owed := (if s.pool.stop then s.owed else s.owed+1) }
  | notifyOne {s : SignalledPool n} {i : Fin n} (howed : 0 < s.owed) (hi : i ∈ s.asleep) :
      Step s none { s with owed := s.owed-1, asleep := s.asleep.erase i }
  | notifyNobody {s : SignalledPool n} (howed : 0 < s.owed) (hnobody : s.asleep = ∅) :
      Step s none { s with owed := s.owed-1 }
  | check {s : SignalledPool n} {i : Fin n} {e : Event n} {pool : ThreadPool n}
      (hworker : s.pool.workers i = .waiting) (hawake : i ∉ s.asleep)
      (hwake : s.pool.wake i = some (e,pool)) : Step s (some e) { s with pool := pool }
  | sleep {s : SignalledPool n} {i : Fin n} (hworker : s.pool.workers i = .waiting)
      (hawake : i ∉ s.asleep) (hwake : s.pool.wake i = none) :
      Step s none { s with asleep := insert i s.asleep }
  | spurious {s : SignalledPool n} {i : Fin n} (hi : i ∈ s.asleep) :
      Step s none { s with asleep := s.asleep.erase i }
  | run {s : SignalledPool n} {i : Fin n} {task : ℕ} (hworker : s.pool.workers i = .running task) :
      Step s (some (.finished i task)) { s with pool := s.pool.finish i }
  | destroy {s : SignalledPool n} (hidle : s.destructor = .idle) :
      Step s (some .stopped) { s with pool := s.pool.destroy, destructor := .stopping }
  | notifyAll {s : SignalledPool n} (hstopping : s.destructor = .stopping) :
      Step s none { s with asleep := ∅, destructor := .joining }

/-- What follows a state, with the events of the pool. -/
inductive Run (start : SignalledPool n) : List (Event n) → SignalledPool n → Prop
  | start : Run start [] start
  | step {events : List (Event n)} {s s' : SignalledPool n} {o : Option (Event n)}
      (hrun : Run start events s) (hstep : Step s o s') : Run start (events++o.toList) s'

variable {events events' : List (Event n)} {start s s' : SignalledPool n} {o : Option (Event n)}

theorem Run.trans (h : Run start events s) (h' : Run s events' s') :
    Run start (events++events') s' := by
  induction h' with
  | start => rwa [List.append_nil]
  | step _ hstep ih =>
    rw [← List.append_assoc]
    exact ih.step hstep

/-- A step is one of the pool, or the pool does not see it. -/
theorem Step.pool_cases (h : Step s o s') :
    (∃ e, o = some e ∧ ThreadPool.Step s.pool e s'.pool) ∨ o = none ∧ s'.pool = s.pool := by
  cases h with
  | enqueue => exact Or.inl ⟨_,rfl,.enqueue _⟩
  | notifyOne howed hi => exact Or.inr ⟨rfl,rfl⟩
  | notifyNobody howed hnobody => exact Or.inr ⟨rfl,rfl⟩
  | check hworker hawake hwake => exact Or.inl ⟨_,rfl,.wake hworker hwake⟩
  | sleep hworker hawake hwake => exact Or.inr ⟨rfl,rfl⟩
  | spurious hi => exact Or.inr ⟨rfl,rfl⟩
  | run hworker => exact Or.inl ⟨_,rfl,.run hworker⟩
  | destroy hidle => exact Or.inl ⟨_,rfl,.destroy _⟩
  | notifyAll hstopping => exact Or.inr ⟨rfl,rfl⟩

/-- The events of a run are those of a run of the pool. -/
theorem Run.toPool (h : Run (new n) events s) : ThreadPool.Run events s.pool := by
  induction h with
  | start => exact .start
  | step _ hstep ih =>
    obtain ⟨e,rfl,hpool⟩ | ⟨rfl,hpool⟩ := hstep.pool_cases
    · exact ih.step hpool
    · rw [Option.toList_none,List.append_nil,hpool]
      exact ih

end Steps

section Invariant

/-- The workers that will look for a task without being woken. -/
def awake (s : SignalledPool n) : Finset (Fin n) :=
  Finset.univ.filter fun i => s.pool.workers i = .waiting ∧ i ∉ s.asleep

/-- Who sleeps, and that for each queued task a notification is owed or a worker is awake, if one sleeps. -/
structure Wakeful (s : SignalledPool n) : Prop where
  waiting : ∀ i ∈ s.asleep, s.pool.workers i = .waiting
  stop : s.pool.stop = true ↔ s.destructor ≠ .idle
  joining : s.destructor = .joining → s.asleep = ∅
  noticed : s.asleep.Nonempty → s.pool.tasks.length ≤ s.owed+s.awake.card

variable {events events' : List (Event n)} {s s' : SignalledPool n} {o : Option (Event n)}

theorem mem_awake {i : Fin n} : i ∈ s.awake ↔ s.pool.workers i = .waiting ∧ i ∉ s.asleep := by
  simp [awake]

theorem wakeful_new (n : ℕ) : Wakeful (new n) where
  waiting i hi := absurd hi (Finset.notMem_empty i)
  stop := by simp [new,ThreadPool.new]
  joining _ := rfl
  noticed h := absurd h Finset.not_nonempty_empty

/-- A sleeper that wakes up is one more that looks for a task. -/
theorem Wakeful.wakeUp (h : Wakeful s) {i : Fin n} (hi : i ∈ s.asleep) {owed : ℕ}
    (howed : s.owed ≤ owed+1) : Wakeful { s with owed := owed, asleep := s.asleep.erase i } where
  waiting j hj := h.waiting j (Finset.mem_of_mem_erase hj)
  stop := h.stop
  joining hjoin := by
    rw [h.joining hjoin] at hi
    exact absurd hi (Finset.notMem_empty i)
  noticed _ := by
    have hnew : i ∉ s.awake := fun hmem => (mem_awake.mp hmem).2 hi
    have hsub : insert i s.awake ⊆
        awake { s with owed := owed, asleep := s.asleep.erase i } := by
      intro j hj
      rcases Finset.mem_insert.mp hj with rfl | hj
      · exact mem_awake.mpr ⟨h.waiting j hi,Finset.notMem_erase j _⟩
      · obtain ⟨hwaiting,hawake⟩ := mem_awake.mp hj
        exact mem_awake.mpr ⟨hwaiting,fun hin => hawake (Finset.mem_of_mem_erase hin)⟩
    have hcard := Finset.card_le_card hsub
    have hold := h.noticed ⟨i,hi⟩
    rw [Finset.card_insert_of_notMem hnew] at hcard
    change s.pool.tasks.length ≤ owed+_
    omega

/-- What a worker with the mutex does that does not have to wait. -/
theorem wake_some {pool pool' : ThreadPool n} {i : Fin n} {e : Event n}
    (h : pool.wake i = some (e,pool')) :
    (pool.stop = true ∧ pool.tasks = [] ∧ e = .exited i ∧
      pool' = { pool with workers := Function.update pool.workers i .exited }) ∨
    ∃ task tasks, pool.tasks = task::tasks ∧ e = .took i task ∧ pool' =
      { pool with workers := Function.update pool.workers i (.running task), tasks := tasks } := by
  unfold ThreadPool.wake at h
  split_ifs at h with hready hexit
  · obtain ⟨rfl,rfl⟩ := Prod.mk.inj (Option.some.inj h)
    obtain ⟨hstop,hempty⟩ := Bool.and_eq_true_iff.mp hexit
    exact Or.inl ⟨hstop,List.isEmpty_iff.mp hempty,rfl,rfl⟩
  · cases htasks : pool.tasks with
    | nil =>
      rw [htasks] at h
      cases h
    | cons task tasks =>
      rw [htasks] at h
      obtain ⟨rfl,rfl⟩ := Prod.mk.inj (Option.some.inj h)
      exact Or.inr ⟨task,tasks,rfl,rfl,rfl⟩

theorem wake_none {pool : ThreadPool n} {i : Fin n} (h : pool.wake i = none) :
    pool.stop = false ∧ pool.tasks = [] := by
  unfold ThreadPool.wake at h
  cases hstop : pool.stop <;> cases htasks : pool.tasks <;> simp_all

/-- A worker that is awake and goes on to something else. -/
theorem Wakeful.leave (h : Wakeful s) {i : Fin n} (hworker : s.pool.workers i = .waiting)
    (hawake : i ∉ s.asleep) (worker : Worker) {tasks : List ℕ}
    (htasks : tasks.length ≤ s.pool.tasks.length-1) : Wakeful { s with
      pool := { s.pool with workers := Function.update s.pool.workers i worker, tasks := tasks } } where
  waiting j hj := by
    have hne : j ≠ i := by
      rintro rfl
      exact hawake hj
    exact (Function.update_of_ne hne _ _).trans (h.waiting j hj)
  stop := h.stop
  joining := h.joining
  noticed hsome := by
    have hsub : s.awake.erase i ⊆ awake { s with
        pool := { s.pool with workers := Function.update s.pool.workers i worker, tasks := tasks } } := by
      intro j hj
      obtain ⟨hne,hj⟩ := Finset.mem_erase.mp hj
      obtain ⟨hwaiting,hin⟩ := mem_awake.mp hj
      exact mem_awake.mpr ⟨(Function.update_of_ne hne _ _).trans hwaiting,hin⟩
    have hcard := Finset.card_le_card hsub
    rw [Finset.card_erase_of_mem (mem_awake.mpr ⟨hworker,hawake⟩)] at hcard
    have hold := h.noticed hsome
    change tasks.length ≤ s.owed+_
    omega

theorem Wakeful.step (h : Wakeful s) (hstep : Step s o s') : Wakeful s' := by
  cases hstep with
  | enqueue =>
    have hworkers : s.pool.enqueue.2.workers = s.pool.workers := by
      unfold ThreadPool.enqueue
      dsimp only
      split_ifs <;> rfl
    have hkept : s.pool.enqueue.2.stop = s.pool.stop := by
      unfold ThreadPool.enqueue
      dsimp only
      split_ifs <;> rfl
    have hlength : s.pool.enqueue.2.tasks.length+s.owed ≤
        s.pool.tasks.length+if s.pool.stop then s.owed else s.owed+1 := by
      unfold ThreadPool.enqueue
      dsimp only
      split_ifs
      · exact le_rfl
      · rw [List.length_append,List.length_singleton]
        omega
    refine ⟨fun i hi => (congrFun hworkers i).trans (h.waiting i hi),?_,h.joining,fun hsome => ?_⟩
    · exact (Bool.eq_iff_iff.mp hkept).trans h.stop
    · have hsame : awake { s with
          pool := s.pool.enqueue.2
          owed := (if s.pool.stop then s.owed else s.owed+1) } = s.awake := by
        ext i
        rw [mem_awake,mem_awake,hworkers]
      have hold := h.noticed hsome
      rw [hsame]
      change s.pool.enqueue.2.tasks.length ≤ (if s.pool.stop then s.owed else s.owed+1)+_
      omega
  | notifyOne howed hi => exact h.wakeUp hi (by omega)
  | notifyNobody howed hnobody =>
    exact ⟨h.waiting,h.stop,h.joining,fun hsome => absurd hnobody hsome.ne_empty⟩
  | @check i e pool hworker hawake hwake =>
    obtain ⟨_,hempty,_,rfl⟩ | ⟨task,tasks,htasks,_,rfl⟩ := wake_some hwake
    · exact h.leave hworker hawake .exited (Nat.le_of_eq (by rw [hempty]; rfl))
    · exact h.leave hworker hawake (.running task) (Nat.le_of_eq (by rw [htasks]; rfl))
  | @sleep i hworker hawake hwake =>
    obtain ⟨hstop,hempty⟩ := wake_none hwake
    refine ⟨fun j hj => ?_,h.stop,fun hjoin => ?_,fun _ => ?_⟩
    · rcases Finset.mem_insert.mp hj with rfl | hj
      · exact hworker
      · exact h.waiting j hj
    · have hidle := h.stop.mpr (by rw [show s.destructor = .joining from hjoin]; decide)
      rw [hstop] at hidle
      cases hidle
    · change s.pool.tasks.length ≤ _
      rw [hempty]
      exact Nat.zero_le _
  | spurious hi => exact h.wakeUp hi (Nat.le_succ _)
  | @run i task hworker =>
    refine ⟨fun j hj => ?_,h.stop,h.joining,fun hsome => ?_⟩
    · have hne : j ≠ i := by
        rintro rfl
        rw [h.waiting j hj] at hworker
        cases hworker
      exact (Function.update_of_ne hne _ _).trans (h.waiting j hj)
    · have hsub : s.awake ⊆ awake { s with pool := s.pool.finish i } := by
        intro j hj
        obtain ⟨hwaiting,hin⟩ := mem_awake.mp hj
        refine mem_awake.mpr ⟨?_,hin⟩
        rcases eq_or_ne j i with rfl | hne
        · exact Function.update_self _ _ _
        · exact (Function.update_of_ne hne _ _).trans hwaiting
      exact (h.noticed hsome).trans (Nat.add_le_add_left (Finset.card_le_card hsub) _)
  | destroy hidle =>
    refine ⟨h.waiting,?_,?_,h.noticed⟩
    swap
    · intro hjoin
      cases hjoin
    have hstopping : Destructor.stopping ≠ .idle := by decide
    exact iff_of_true rfl hstopping
  | notifyAll hstopping =>
    refine ⟨fun i hi => absurd hi (Finset.notMem_empty i),?_,fun _ => rfl,
      fun hsome => absurd hsome Finset.not_nonempty_empty⟩
    have hjoining : Destructor.joining ≠ .idle := by decide
    exact iff_of_true (h.stop.mpr (by rw [hstopping]; decide)) hjoining

theorem Run.wakeful (h : Run (new n) events s) : Wakeful s := by
  induction h with
  | start => exact wakeful_new n
  | step _ hstep ih => exact ih.step hstep

/-- No wakeup is lost: while a worker sleeps there are as many calls of `notify_one` to come and awake
workers as there are tasks, and while a task is queued not all of the workers sleep without a call to
come. -/
theorem no_lost_wakeup (h : Run (new n) events s) :
    (s.asleep.Nonempty → s.pool.tasks.length ≤ s.owed+s.awake.card) ∧
    (0 < n → s.pool.tasks ≠ [] → 0 < s.owed ∨ ∃ i, i ∉ s.asleep ∧ s.pool.workers i ≠ .exited) := by
  have hwakeful := h.wakeful
  refine ⟨hwakeful.noticed,fun hn htasks => ?_⟩
  have hlives : ∀ i, s.pool.workers i ≠ .exited := fun i hi => htasks (h.toPool.inv.exited i hi).2
  rcases s.asleep.eq_empty_or_nonempty with hnobody | hsome
  · refine Or.inr ⟨⟨0,hn⟩,?_,hlives _⟩
    rw [hnobody]
    exact Finset.notMem_empty _
  · have hnoticed := hwakeful.noticed hsome
    have hqueued : 0 < s.pool.tasks.length := List.length_pos_iff.mpr htasks
    rcases Nat.eq_zero_or_pos s.owed with hnone | howed
    · have hawake : 0 < s.awake.card := by omega
      obtain ⟨i,hi⟩ := Finset.card_pos.mp hawake
      exact Or.inr ⟨i,(mem_awake.mp hi).2,hlives i⟩
    · exact Or.inl howed

/-- Two workers go to sleep, and two tasks come before either is told. -/
theorem no_lost_wakeup_two : ∃ events, ∃ s : SignalledPool 2, Run (new 2) events s ∧
    s.pool.tasks = [0,1] ∧ s.asleep.Nonempty ∧ 2 ≤ s.owed+s.awake.card := by
  have h₁ := Run.start.step (@Step.sleep _ (new 2) 0 rfl (by decide) rfl)
  have h₂ := h₁.step (@Step.sleep _ _ 1 rfl (by decide) rfl)
  have h₃ := h₂.step (Step.enqueue _)
  have h₄ := h₃.step (@Step.notifyOne _ _ 1 (by decide) (by decide))
  have h₅ := h₄.step (Step.enqueue _)
  exact ⟨_,_,h₅,rfl,⟨0,by decide⟩,(no_lost_wakeup h₅).1 ⟨0,by decide⟩⟩

end Invariant

section Shutdown

/-- The steps of the workers, all but the waits. -/
def isWork : Event n → Bool
  | .took _ _ => true
  | .finished _ _ => true
  | .exited _ => true
  | _ => false

/-- The steps that a worker still has to make by itself. -/
def weight : Worker → ℕ
  | .waiting => 1
  | .running _ => 2
  | .exited => 0

/-- The steps that are left in a pool that has been stopped. -/
def left (pool : ThreadPool n) : ℕ := 2*pool.tasks.length+∑ i, weight (pool.workers i)

variable {events events' : List (Event n)} {s s' : SignalledPool n} {o : Option (Event n)}

theorem sum_weight_update (workers : Fin n → Worker) (i : Fin n) (worker : Worker) :
    (∑ j, weight (Function.update workers i worker j))+weight (workers i) =
      (∑ j, weight (workers j))+weight worker := by
  have hupdate : (fun j => weight (Function.update workers i worker j)) =
      Function.update (fun j => weight (workers j)) i (weight worker) := by
    funext j
    exact Function.apply_update (fun _ => weight) workers i worker j
  rw [hupdate,Finset.sum_update_of_mem (Finset.mem_univ i),
    ← Finset.sum_sdiff (Finset.subset_univ {i}),Finset.sum_singleton]
  omega

/-- When the destructor waits, each step of a worker brings the end nearer, and no other step does
anything to the pool. -/
theorem Step.joining (h : Step s o s') (hwakeful : Wakeful s) (hjoin : s.destructor = .joining) :
    s'.destructor = .joining ∧ left s'.pool+o.toList.countP isWork ≤ left s.pool := by
  have hnobody := hwakeful.joining hjoin
  have hstop : s.pool.stop = true := hwakeful.stop.mpr (by rw [hjoin]; decide)
  cases h with
  | enqueue =>
    refine ⟨hjoin,?_⟩
    simp only [ThreadPool.enqueue,hstop,if_true]
    exact le_rfl
  | notifyOne howed hi =>
    rw [hnobody] at hi
    exact absurd hi (Finset.notMem_empty _)
  | notifyNobody => exact ⟨hjoin,le_rfl⟩
  | @check i e pool hworker hawake hwake =>
    refine ⟨hjoin,?_⟩
    obtain ⟨_,_,rfl,rfl⟩ | ⟨task,tasks,htasks,rfl,rfl⟩ := wake_some hwake
    · have hsum := sum_weight_update s.pool.workers i .exited
      rw [hworker] at hsum
      simp only [left,weight,Option.toList_some,List.countP_singleton,isWork,if_true] at hsum ⊢
      omega
    · have hsum := sum_weight_update s.pool.workers i (.running task)
      rw [hworker] at hsum
      simp only [left,weight,Option.toList_some,List.countP_singleton,isWork,if_true,htasks,
        List.length_cons] at hsum ⊢
      omega
  | sleep hworker hawake hwake =>
    rw [(wake_none hwake).1] at hstop
    cases hstop
  | spurious hi =>
    rw [hnobody] at hi
    exact absurd hi (Finset.notMem_empty _)
  | @run i task hworker =>
    refine ⟨hjoin,?_⟩
    have hsum := sum_weight_update s.pool.workers i .waiting
    rw [hworker] at hsum
    simp only [left,ThreadPool.finish,weight,Option.toList_some,List.countP_singleton,isWork,
      if_true] at hsum ⊢
    omega
  | destroy hidle =>
    rw [hjoin] at hidle
    cases hidle
  | notifyAll hstopping =>
    rw [hjoin] at hstopping
    cases hstopping

theorem Run.joining (h : Run s events' s') (hwakeful : Wakeful s) (hjoin : s.destructor = .joining) :
    Wakeful s' ∧ s'.destructor = .joining ∧
      left s'.pool+events'.countP isWork ≤ left s.pool := by
  induction h with
  | start => exact ⟨hwakeful,hjoin,le_rfl⟩
  | step _ hstep ih =>
    obtain ⟨hwakeful',hjoin',hle⟩ := ih
    obtain ⟨hjoin'',hstep'⟩ := hstep.joining hwakeful' hjoin'
    refine ⟨hwakeful'.step hstep,hjoin'',?_⟩
    rw [List.countP_append]
    omega

/-- A worker that has not exited when the destructor waits can make a step. -/
theorem Wakeful.can_work (h : Wakeful s) (hjoin : s.destructor = .joining) {i : Fin n}
    (hlives : s.pool.workers i ≠ .exited) : ∃ e s', isWork e = true ∧ Step s (some e) s' := by
  have hstop : s.pool.stop = true := h.stop.mpr (by rw [hjoin]; decide)
  cases hworker : s.pool.workers i with
  | waiting =>
    have hawake : i ∉ s.asleep := by rw [h.joining hjoin]; exact Finset.notMem_empty i
    cases hwake : s.pool.wake i with
    | none =>
      rw [(wake_none hwake).1] at hstop
      cases hstop
    | some r =>
      refine ⟨r.1,_,?_,.check hworker hawake hwake⟩
      have hsome : s.pool.wake i = some (r.1,r.2) := hwake
      obtain ⟨_,_,he,_⟩ | ⟨task,tasks,_,he,_⟩ := wake_some hsome
      · rw [he]
        rfl
      · rw [he]
        rfl
  | running task => exact ⟨_,_,rfl,.run hworker⟩
  | exited => exact absurd hworker hlives

theorem sum_weight_le (workers : Fin n → Worker) : ∑ i, weight (workers i) ≤ 2*n := by
  have hle : ∀ i ∈ Finset.univ, weight (workers i) ≤ 2 := by
    intro i _
    cases workers i <;> simp [weight]
  simpa [mul_comm] using Finset.sum_le_card_nsmul Finset.univ _ 2 hle

/-- The last worker leaves when there is nothing more to do. -/
theorem finished_perm {pool : ThreadPool n} (h : ThreadPool.Run events pool) (hn : 0 < n)
    (hexited : ∀ i, pool.workers i = .exited) : (finishedTasks events).Perm (acceptedTasks events) := by
  have hinv := h.inv
  have hempty : pool.tasks = [] := (hinv.exited ⟨0,hn⟩ (hexited _)).2
  have hnone : inHands pool.workers = 0 := by
    refine Finset.sum_eq_zero fun i _ => ?_
    rw [hexited i]
    rfl
  have hhands := hinv.hands
  rw [hnone,zero_add,Multiset.coe_eq_coe] at hhands
  rw [hinv.inOrder,hempty,List.append_nil]
  exact hhands.symm

/-- Once the destructor has told the workers, it does not wait forever: in whatever follows they make
no more steps than two for each task in the queue and for each worker, until they are gone one of them
can make a step, and when they are gone every task that was accepted has been run. -/
theorem shutdown_ends (hn : 0 < n) (h : Run (new n) events s) (hjoin : s.destructor = .joining)
    (h' : Run s events' s') :
    events'.countP isWork ≤ 2*s.pool.tasks.length+2*n ∧
    ((∃ i, s'.pool.workers i ≠ .exited) → ∃ e s₂, isWork e = true ∧ Step s' (some e) s₂) ∧
    ((∀ i, s'.pool.workers i = .exited) →
      (finishedTasks (events++events')).Perm (acceptedTasks (events++events'))) := by
  obtain ⟨hwakeful,hjoin',hle⟩ := h'.joining h.wakeful hjoin
  have hsum := sum_weight_le s.pool.workers
  refine ⟨?_,?_,fun hexited => ?_⟩
  · unfold left at hle
    omega
  · rintro ⟨i,hi⟩
    exact hwakeful.can_work hjoin' hi
  · exact finished_perm (h.trans h').toPool hn hexited

/-- The worker sleeps, is told of a task and runs it when the pool is destroyed. -/
theorem shutdown_ends_one : ∃ events events', ∃ s s' : SignalledPool 1, Run (new 1) events s ∧
    s.destructor = .joining ∧ Run s events' s' ∧ s'.pool.workers 0 = .exited ∧
    finishedTasks (events++events') = [0] ∧
    (finishedTasks (events++events')).Perm (acceptedTasks (events++events')) := by
  have h₁ := Run.start.step (@Step.sleep _ (new 1) 0 rfl (by decide) rfl)
  have h₂ := h₁.step (Step.enqueue _)
  have h₃ := h₂.step (@Step.notifyOne _ _ 0 (by decide) (by decide))
  have h₄ := h₃.step (@Step.check _ _ 0 _ _ rfl (by decide) rfl)
  have h₅ := h₄.step (Step.destroy rfl)
  have h₆ := h₅.step (@Step.run _ _ 0 0 rfl)
  have h₇ := h₆.step (Step.notifyAll rfl)
  have hexit := @Step.check 1 ⟨⟨fun _ => .waiting,[],true,1⟩,∅,0,.joining⟩ 0 _ _ rfl (by decide) rfl
  have hworkers : Function.update (Function.update (fun _ => Worker.waiting) 0 (.running 0)) 0 .waiting =
      (fun _ : Fin 1 => Worker.waiting) := by decide
  exact ⟨_,_,_,_,h₇,rfl,hworkers ▸ Run.start.step hexit,rfl,rfl,
    (shutdown_ends (by decide) h₇ rfl (hworkers ▸ Run.start.step hexit)).2.2 (by decide)⟩

end Shutdown

end SignalledPool

end OrangeSQL
