import Mathlib.Order.Lattice
import OrangeSQL.DeadlockVictims
import OrangeSQL.WaitQueues

/-! Transactions that only wait for a resource above all those they hold. In no order of their steps do
they deadlock. -/
namespace OrangeSQL

open LockManager

namespace LockSystem

/-- The transactions that hold a lock after an upgrade held one there before it. -/
theorem holder_upgradeLock {m : LockManager} {tx : TransactionId} {r r' : String} {newMode : LockMode}
    {e : LockEntry} (h : e ∈ (m.upgradeLock tx r newMode).2.locksOn r') :
    ∃ d ∈ m.locksOn r', d.holder = e.holder := by
  rw [upgradeLock] at h
  cases hlocks : (m.locksOn r).dropWhile fun e => decide (e.holder ≠ tx) with
  | nil =>
    simp only [hlocks,locksOn_setLocks] at h
    split_ifs at h with hr
    · exact ⟨e,hr ▸ h,rfl⟩
    · exact ⟨e,h,rfl⟩
  | cons old behind =>
    obtain ⟨hold,hsplit,_⟩ := split_locks hlocks
    have hset : ∀ mode g, e ∈ (m.setLocks r (((m.locksOn r).takeWhile fun e =>
        decide (e.holder ≠ tx))++behind++[⟨mode,tx,g⟩])).locksOn r' →
        ∃ d ∈ m.locksOn r', d.holder = e.holder := by
      intro mode g he
      rw [locksOn_setLocks] at he
      split_ifs at he with hr
      · rw [hr,hsplit]
        rcases List.mem_append.mp he with he | he
        · refine ⟨e,?_,rfl⟩
          rcases List.mem_append.mp he with he | he
          · exact List.mem_append_left _ he
          · exact List.mem_append_right _ (List.mem_cons_of_mem old he)
        · rw [List.mem_singleton.mp he]
          exact ⟨old,List.mem_append_right _ List.mem_cons_self,hold⟩
      · exact ⟨e,he,rfl⟩
    simp only [hlocks] at h
    split_ifs at h
    · exact hset _ _ h
    · exact hset _ _ h

variable {α : Type*} [LinearOrder α] (rank : String → α)

section Order

/-- All that the transaction of a call holds is below the resource it asks for. -/
def Above (m : LockManager) (c : LockCall) : Prop :=
  ∀ r, ∀ e ∈ m.locksOn r, e.holder = c.txId → rank r < rank c.resource

/-- A transaction makes no call while it waits, and if it has to wait it does so in the order. -/
def InOrder (s : LockSystem) : LockOp → Prop
  | .acquireLock c _ => (∀ d ∈ s.sleeping, d.txId ≠ c.txId) ∧
    (canGrant (s.manager.locksOn c.resource) c.mode = false → Above rank s.manager c)
  | _ => True

/-- Who is on the lists of those that wait is in a call, in one call, and waits in the order. -/
structure Ordered (s : LockSystem) : Prop where
  waiting : ∀ t, ∀ r ∈ s.manager.resourcesOf t, ∃ c ∈ s.sleeping, c.txId = t ∧ c.resource = r
  once : (s.sleeping.map LockCall.txId).Nodup
  above : ∀ c ∈ s.sleeping, Above rank s.manager c

end Order

section Steps

variable {rank} {m : LockManager} {pre post calls : List LockCall} {c : LockCall}

theorem ordered_new : Ordered rank new where
  waiting _ _ hr := absurd hr List.not_mem_nil
  once := List.nodup_nil
  above _ hc := absurd hc List.not_mem_nil

/-- Fewer locks, and the same that wait or fewer. -/
theorem Ordered.less {m' : LockManager} (h : Ordered rank ⟨m,calls⟩)
    (hlocks : ∀ r, ∀ e ∈ m'.locksOn r, ∃ d ∈ m.locksOn r, d.holder = e.holder)
    (hwaiting : ∀ t, ∀ r ∈ m'.resourcesOf t, r ∈ m.resourcesOf t) : Ordered rank ⟨m',calls⟩ where
  waiting t r hr := h.waiting t r (hwaiting t r hr)
  once := h.once
  above c hc r e he hholder := by
    obtain ⟨d,hd,hsame⟩ := hlocks r e he
    exact h.above c hc r d hd (hsame.trans hholder)

/-- A lock for a transaction that does not wait. -/
theorem Ordered.addLock (h : Ordered rank ⟨m,calls⟩) (hawake : ∀ d ∈ calls, d.txId ≠ c.txId) :
    Ordered rank ⟨m.addLock c,calls⟩ where
  waiting := h.waiting
  once := h.once
  above d hd r e he hholder := by
    rw [locksOn_addLock] at he
    split_ifs at he with hr
    · rcases List.mem_append.mp he with he | he
      · exact h.above d hd r e (hr ▸ he) hholder
      · rw [List.mem_singleton.mp he] at hholder
        exact absurd hholder.symm (hawake d hd)
    · exact h.above d hd r e he hholder

theorem Ordered.enqueue (h : Ordered rank ⟨m,calls⟩) (hawake : ∀ d ∈ calls, d.txId ≠ c.txId)
    (habove : Above rank m c) : Ordered rank ⟨m.enqueue c,calls++[c]⟩ where
  waiting t r hr := by
    rw [resourcesOf_enqueue] at hr
    split_ifs at hr with ht
    · rcases List.mem_append.mp hr with hr | hr
      · obtain ⟨d,hd,hdt,hdr⟩ := h.waiting t r (ht ▸ hr)
        exact ⟨d,List.mem_append_left _ hd,hdt,hdr⟩
      · exact ⟨c,List.mem_append_right _ (List.mem_singleton_self c),ht.symm,
          (List.mem_singleton.mp hr).symm⟩
    · obtain ⟨d,hd,hdt,hdr⟩ := h.waiting t r hr
      exact ⟨d,List.mem_append_left _ hd,hdt,hdr⟩
  once := by
    rw [List.map_append,List.map_singleton]
    refine h.once.append (List.nodup_singleton _) ?_
    rw [List.disjoint_singleton]
    intro hmem
    obtain ⟨d,hd,hdt⟩ := List.mem_map.mp hmem
    exact hawake d hd hdt
  above d hd := by
    rcases List.mem_append.mp hd with hd | hd
    · exact h.above d hd
    · rw [List.mem_singleton.mp hd]
      exact habove

theorem Ordered.others (h : Ordered rank ⟨m,pre++c::post⟩) : ∀ d ∈ pre++post, d.txId ≠ c.txId := by
  intro d hd heq
  have honce := h.once
  rw [List.map_append,List.map_cons,List.nodup_middle,List.nodup_cons,← List.map_append] at honce
  exact honce.1 (heq ▸ List.mem_map_of_mem hd)

/-- A call that leaves the wait loop takes its resource off its list. -/
theorem Ordered.leave {m' : LockManager} (h : Ordered rank ⟨m,pre++c::post⟩)
    (hlocks : ∀ r, m'.locksOn r = m.locksOn r)
    (hwaiting : ∀ t, m'.resourcesOf t = if t = c.txId then
      (m.resourcesOf c.txId).filter fun x => x ≠ c.resource else m.resourcesOf t) :
    Ordered rank ⟨m',pre++post⟩ where
  waiting t r hr := by
    have hstays : ∀ d ∈ pre++c::post, d ≠ c → d ∈ pre++post := by
      intro d hd hne
      rcases List.mem_append.mp hd with hd | hd
      · exact List.mem_append_left _ hd
      · exact List.mem_append_right _ ((List.mem_cons.mp hd).resolve_left hne)
    rw [hwaiting] at hr
    split_ifs at hr with ht
    · obtain ⟨hr,hne⟩ := List.mem_filter.mp hr
      obtain ⟨d,hd,hdt,rfl⟩ := h.waiting t r (ht ▸ hr)
      refine ⟨d,hstays d hd ?_,hdt,rfl⟩
      rintro rfl
      simp at hne
    · obtain ⟨d,hd,rfl,hdr⟩ := h.waiting t r hr
      refine ⟨d,hstays d hd ?_,rfl,hdr⟩
      rintro rfl
      exact ht rfl
  once := by
    have honce := h.once
    rw [List.map_append,List.map_cons,List.nodup_middle,List.nodup_cons,← List.map_append] at honce
    exact honce.2
  above d hd r e he := by
    rw [hlocks] at he
    refine h.above d ?_ r e he
    rcases List.mem_append.mp hd with hd | hd
    · exact List.mem_append_left _ hd
    · exact List.mem_append_right _ (List.mem_cons_of_mem c hd)

theorem Ordered.giveUp (h : Ordered rank ⟨m,pre++c::post⟩) :
    Ordered rank ⟨m.removeFromWaitQueue c.resource c.txId,pre++post⟩ :=
  h.leave (fun _ => rfl) (resourcesOf_removeFromWaitQueue m c.resource c.txId)

theorem Ordered.grant (h : Ordered rank ⟨m,pre++c::post⟩) :
    Ordered rank ⟨m.grantWaiting c,pre++post⟩ := by
  have hleave : Ordered rank ⟨(m.setQueue c.resource (m.queueOn c.resource).tail).stopWaiting
      c.resource c.txId,pre++post⟩ :=
    h.leave (fun _ => rfl) (resourcesOf_stopWaiting _ c.resource c.txId)
  exact hleave.addLock h.others

/-- What a call does that has to wait. -/
theorem acquireLock_waits {c : LockCall} (hnot : canGrant (m.locksOn c.resource) c.mode = false)
    (elapsed : ℕ) : m.acquireLock c elapsed = (m.enqueue c).poll c elapsed := by
  simp [acquireLock,hnot]

theorem Ordered.acquireLock {s : LockSystem} (h : Ordered rank s) {c : LockCall} {elapsed : ℕ}
    (hop : InOrder rank s (.acquireLock c elapsed)) :
    Ordered rank (s.step (.acquireLock c elapsed)) := by
  by_cases hgrant : canGrant (s.manager.locksOn c.resource) c.mode = true
  · have hstep : s.step (.acquireLock c elapsed) =
        ⟨(s.manager.setQueue c.resource (s.manager.queueOn c.resource)).addLock c,s.sleeping⟩ := by
      simp [step,LockManager.acquireLock,hgrant]
    have hsame : Ordered rank
        ⟨s.manager.setQueue c.resource (s.manager.queueOn c.resource),s.sleeping⟩ :=
      h.less (fun r e he => ⟨e,he,rfl⟩) fun t r hr => hr
    rw [hstep]
    exact hsame.addLock hop.1
  · have hnot : canGrant (s.manager.locksOn c.resource) c.mode = false := by simpa using hgrant
    have henqueue : Ordered rank ⟨s.manager.enqueue c,s.sleeping++[c]⟩ :=
      Ordered.enqueue h hop.1 (hop.2 hnot)
    simp only [step,acquireLock_waits hnot]
    rcases poll_cases (s.manager.enqueue c) c elapsed with ⟨_,status,_,hpoll⟩ | ⟨_,hcan,_⟩ | ⟨_,_,hpoll⟩
    · simpa [hpoll] using henqueue.giveUp
    · exact absurd hcan hgrant
    · simpa [hpoll] using henqueue

theorem Ordered.wake {s : LockSystem} (h : Ordered rank s) (i elapsed : ℕ) :
    Ordered rank (s.step (.wake i elapsed)) := by
  cases hcall : s.sleeping[i]? with
  | none =>
    simp only [step,hcall]
    exact h
  | some c =>
    obtain ⟨hi,hget⟩ := List.getElem?_eq_some_iff.mp hcall
    have hsplit : s.sleeping = s.sleeping.take i++c::s.sleeping.drop (i+1) := by
      rw [← hget,List.getElem_cons_drop,List.take_append_drop]
    have hordered : Ordered rank ⟨s.manager,s.sleeping.take i++c::s.sleeping.drop (i+1)⟩ := by
      rw [← hsplit]
      exact h
    simp only [step,hcall]
    rcases poll_cases s.manager c elapsed with ⟨_,status,_,hpoll⟩ | ⟨_,_,hpoll⟩ | ⟨_,_,hpoll⟩
    · rw [hpoll]
      simpa [List.eraseIdx_eq_take_drop_succ] using hordered.giveUp
    · rw [hpoll]
      simpa [List.eraseIdx_eq_take_drop_succ] using hordered.grant
    · rw [hpoll]
      exact h

theorem Ordered.step {s : LockSystem} (h : Ordered rank s) {op : LockOp} (hop : InOrder rank s op) :
    Ordered rank (s.step op) := by
  cases op with
  | acquireLock c elapsed => exact h.acquireLock hop
  | wake i elapsed => exact h.wake i elapsed
  | releaseLock tx r =>
    refine h.less (fun r' e he => ⟨e,(locksOn_releaseLock s.manager tx r r').subset he,rfl⟩) ?_
    intro t x hx
    rwa [resourcesOf,(waiting_releaseLock s.manager tx r).2] at hx
  | releaseAllLocks tx =>
    refine h.less (fun r' e he => ⟨e,(locksOn_releaseAllLocks s.manager tx r').subset he,rfl⟩) ?_
    intro t x hx
    rw [resourcesOf_releaseAllLocks] at hx
    split_ifs at hx
    · exact absurd hx List.not_mem_nil
    · exact hx
  | upgradeLock tx r newMode =>
    refine h.less (fun r' e he => holder_upgradeLock he) ?_
    intro t x hx
    rwa [resourcesOf,(waiting_upgradeLock s.manager tx r newMode).2] at hx

end Steps

section Deadlocks

variable {rank} {s : LockSystem}

/-- Where a transaction waits behind one that waits itself, it waits for more. -/
theorem Ordered.climbs (h : Ordered rank s) {a b : TransactionId}
    (hpath : Relation.TransGen s.manager.WaitsBehind a b) {c : LockCall} (hc : c ∈ s.sleeping)
    (hca : c.txId = a) : ∃ d ∈ s.sleeping, d.txId = b ∧ rank d.resource < rank c.resource := by
  have hedge : ∀ a b, s.manager.WaitsBehind a b → ∀ c ∈ s.sleeping, c.txId = a →
      ∃ d ∈ s.sleeping, d.txId = b ∧ rank d.resource < rank c.resource := by
    rintro a b ⟨_,resources,hlook,r,hr,lock,hlock,hholder⟩ c hc hca
    have hmem : r ∈ s.manager.resourcesOf b := by
      rw [resourcesOf,hlook]
      exact hr
    obtain ⟨d,hd,hdb,rfl⟩ := h.waiting b r hmem
    exact ⟨d,hd,hdb,h.above c hc _ lock hlock (hholder.trans hca.symm)⟩
  induction hpath with
  | single hstep => exact hedge _ _ hstep c hc hca
  | tail _ hstep ih =>
    obtain ⟨d,hd,hdb,hlt⟩ := ih
    obtain ⟨e,he,heb,hlt'⟩ := hedge _ _ hstep d hd hdb
    exact ⟨e,he,heb,hlt'.trans hlt⟩

theorem Ordered.no_cycle (h : Ordered rank s) (tx : TransactionId) : ¬ s.manager.CycleBehind tx := by
  rintro ⟨u,_,hcycle⟩
  obtain ⟨v,_,hlast⟩ := Relation.TransGen.tail'_iff.mp hcycle
  obtain ⟨_,resources,hlook,r,hr,_⟩ := hlast
  have hmem : r ∈ s.manager.resourcesOf u := by
    rw [resourcesOf,hlook]
    exact hr
  obtain ⟨c,hc,hcu,_⟩ := h.waiting u r hmem
  obtain ⟨d,hd,hdu,hlt⟩ := h.climbs hcycle hc hcu
  have hsame : d = c := List.inj_on_of_nodup_map h.once hd hc (hdu.trans hcu.symm)
  rw [hsame] at hlt
  exact lt_irrefl _ hlt

theorem Ordered.not_deadlock (h : Ordered rank s) (c : LockCall) (elapsed : ℕ) :
    (s.manager.poll c elapsed).1 ≠ some .deadlock := by
  intro hstatus
  have hpoll : s.manager.poll c elapsed = (some .deadlock,(s.manager.poll c elapsed).2) :=
    Prod.ext hstatus rfl
  exact h.no_cycle c.txId (cycleBehind_of_poll hpoll)

/-- Of the calls that wait, one for the highest resource waits for no transaction that waits. -/
theorem Ordered.exists_highest (h : Ordered rank s) (hsome : s.sleeping ≠ []) :
    ∃ c ∈ s.sleeping, ∀ e ∈ s.manager.locksOn c.resource, ∀ d ∈ s.sleeping, e.holder ≠ d.txId := by
  have hne : s.sleeping.toFinset.Nonempty := (List.toFinset_nonempty_iff _).mpr hsome
  obtain ⟨c,hc,hmax⟩ := s.sleeping.toFinset.exists_max_image (fun c => rank c.resource) hne
  refine ⟨c,List.mem_toFinset.mp hc,fun e he d hd hholder => ?_⟩
  exact absurd (h.above d hd _ e he hholder) (hmax d (List.mem_toFinset.mpr hd)).not_gt

/-- In every run in which the transactions wait in one order of the resources, no search finds a
deadlock and no call is refused for one. While calls wait, there is one that waits for none of the
transactions that wait, so the others can let it through. -/
theorem ordered_locking (rank : String → α) (ops : List LockOp)
    (h : ∀ past op future, ops = past++op::future → InOrder rank (run past) op) :
    (∀ tx, (run ops).manager.hasDeadlock (run ops).manager.searchDepth tx = some false) ∧
    (∀ c elapsed, InOrder rank (run ops) (.acquireLock c elapsed) →
      ((run ops).manager.acquireLock c elapsed).1 ≠ some .deadlock) ∧
    (∀ c ∈ (run ops).sleeping, ∀ elapsed, ((run ops).manager.poll c elapsed).1 ≠ some .deadlock) ∧
    ((run ops).sleeping ≠ [] → ∃ c ∈ (run ops).sleeping,
      ∀ e ∈ (run ops).manager.locksOn c.resource, ∀ d ∈ (run ops).sleeping, e.holder ≠ d.txId) := by
  have hordered : Ordered rank (run ops) :=
    Runs.EachStep.invariant h ordered_new fun s op hs hop => hs.step hop
  refine ⟨fun tx => ?_,fun c elapsed hop => ?_,fun c _ elapsed => hordered.not_deadlock c elapsed,
    hordered.exists_highest⟩
  · obtain ⟨b,marks,hsearch,hcycle⟩ := (run ops).manager.exists_search tx le_rfl
    rw [hasDeadlock,hsearch,Option.map_some]
    cases b with
    | false => rfl
    | true => exact absurd (hcycle.mp rfl) (hordered.no_cycle tx)
  · cases hgrant : canGrant ((run ops).manager.locksOn c.resource) c.mode with
    | true =>
      have hgranted : LockStatus.granted ≠ .deadlock := by decide
      simp [LockManager.acquireLock,hgrant,hgranted]
    | false =>
      rw [acquireLock_waits hgrant]
      exact (Ordered.enqueue hordered hop.1 (hop.2 hgrant)).not_deadlock c elapsed

def exclusiveOn (tx : TransactionId) (r : String) : LockCall := ⟨tx,r,.exclusive,.table,5000⟩

/-- Transaction 1 waits for the longer name, which 2 has locked. -/
theorem ordered_locking_two :
    let s := run [.acquireLock (exclusiveOn 1 "a") 0,.acquireLock (exclusiveOn 2 "bb") 0,
      .acquireLock (exclusiveOn 1 "bb") 7]
    s.sleeping ≠ [] ∧ ∀ tx, s.manager.hasDeadlock s.manager.searchDepth tx = some false := by
  intro s
  have hlocks : ∀ r, (run [.acquireLock (exclusiveOn 1 "a") 0,
      .acquireLock (exclusiveOn 2 "bb") 0]).manager.locksOn r =
      if r = "bb" then [⟨.exclusive,2,.table⟩] else if r = "a" then [⟨.exclusive,1,.table⟩] else [] := by
    intro r
    exact (locksOn_addLock _ (exclusiveOn 2 "bb") r).trans
      (congrArg (fun l => if r = "bb" then _ else l) (locksOn_addLock _ (exclusiveOn 1 "a") r))
  have habove : Above String.length (run [.acquireLock (exclusiveOn 1 "a") 0,
      .acquireLock (exclusiveOn 2 "bb") 0]).manager (exclusiveOn 1 "bb") := by
    intro r e he hholder
    rw [hlocks] at he
    split_ifs at he with hb ha
    · rw [List.mem_singleton.mp he] at hholder
      exact absurd hholder (by decide)
    · rw [ha]
      decide
    · exact absurd he List.not_mem_nil
  have hnone : Runs.EachStep step new (InOrder String.length) [] := by
    intro past op future hops
    exact absurd hops.symm (by simp)
  have hfirst : InOrder String.length new (.acquireLock (exclusiveOn 1 "a") 0) :=
    ⟨by decide,fun hnot => absurd hnot (by decide)⟩
  have hsecond : InOrder String.length (run [.acquireLock (exclusiveOn 1 "a") 0])
      (.acquireLock (exclusiveOn 2 "bb") 0) :=
    ⟨by decide,fun hnot => absurd hnot (by decide)⟩
  have hthird : InOrder String.length (run [.acquireLock (exclusiveOn 1 "a") 0,
      .acquireLock (exclusiveOn 2 "bb") 0]) (.acquireLock (exclusiveOn 1 "bb") 7) :=
    ⟨by decide,fun _ => habove⟩
  have hone := Runs.eachStep_append_singleton.mpr ⟨hnone,hfirst⟩
  have htwo := Runs.eachStep_append_singleton.mpr ⟨hone,hsecond⟩
  have hsteps := Runs.eachStep_append_singleton.mpr ⟨htwo,hthird⟩
  exact ⟨by decide,(ordered_locking String.length _ hsteps).1⟩

end Deadlocks

end LockSystem

end OrangeSQL
