import OrangeSQL.LockOwners
import OrangeSQL.Library.Grouping

/-! The two tables of those that wait, the queue of each resource and the resources of each
transaction, beside the calls that are in the wait loop. As long as both tables list these calls,
the one under their resource and the other under their transaction, each step can be told to keep
them or not. -/
namespace OrangeSQL

open AssocList LockManager Grouping

namespace LockManager

def LockCall.waitEntry (c : LockCall) : LockWaitEntry := ⟨c.txId,c.mode⟩

/-- `waiting_for_[tx]`: no resource where the map has no entry. -/
def resourcesOf (m : LockManager) (tx : TransactionId) : List String :=
  (m.waitingFor.lookup tx).getD []

section Tables

variable (m : LockManager) (c : LockCall)

theorem resourcesOf_stopWaiting (r : String) (tx t : TransactionId) :
    (m.stopWaiting r tx).resourcesOf t =
      if t = tx then (m.resourcesOf tx).filter fun x => x ≠ r else m.resourcesOf t := by
  simp only [stopWaiting,resourcesOf]
  by_cases h : t = tx
  · subst h
    simp only [if_true]
    split
    · next hempty => rw [AList.lookup_erase,List.isEmpty_iff.mp hempty,Option.getD_none]
    · rw [AList.lookup_insert,Option.getD_some]
  · simp only [if_neg h]
    split
    · rw [AList.lookup_erase_ne h]
    · rw [AList.lookup_insert_ne h]

theorem resourcesOf_enqueue (t : TransactionId) :
    (m.enqueue c).resourcesOf t =
      if t = c.txId then m.resourcesOf c.txId++[c.resource] else m.resourcesOf t := by
  by_cases h : t = c.txId
  · subst h
    simp [enqueue,resourcesOf,setQueue]
  · simp [h,enqueue,resourcesOf,setQueue,AList.lookup_insert_ne h]

theorem queueOn_enqueue (r : String) :
    (m.enqueue c).queueOn r =
      if r = c.resource then m.queueOn c.resource++[c.waitEntry] else m.queueOn r :=
  queueOn_setQueue m c.resource r _

theorem resourcesOf_releaseAllLocks (tx t : TransactionId) :
    (m.releaseAllLocks tx).resourcesOf t = if t = tx then [] else m.resourcesOf t := by
  by_cases h : t = tx
  · subst h
    simp [releaseAllLocks,resourcesOf]
  · simp [h,releaseAllLocks,resourcesOf,AList.lookup_erase_ne h]

theorem queueOn_removeFromWaitQueue (r r' : String) (tx : TransactionId) :
    (m.removeFromWaitQueue r tx).queueOn r' =
      if r' = r then (m.queueOn r).filter fun e => e.waiter ≠ tx else m.queueOn r' :=
  queueOn_setQueue m r r' _

theorem queueOn_grantWaiting (r : String) :
    (m.grantWaiting c).queueOn r =
      if r = c.resource then (m.queueOn c.resource).tail else m.queueOn r :=
  queueOn_setQueue m c.resource r _

theorem resourcesOf_removeFromWaitQueue (r : String) (tx t : TransactionId) :
    (m.removeFromWaitQueue r tx).resourcesOf t =
      if t = tx then (m.resourcesOf tx).filter fun x => x ≠ r else m.resourcesOf t :=
  resourcesOf_stopWaiting _ r tx t

theorem resourcesOf_grantWaiting (t : TransactionId) :
    (m.grantWaiting c).resourcesOf t =
      if t = c.txId then (m.resourcesOf c.txId).filter fun x => x ≠ c.resource
      else m.resourcesOf t :=
  resourcesOf_stopWaiting _ c.resource c.txId t

/-- Without a poll, the tables of those that wait stay as they are. -/
theorem waiting_releaseLock (tx : TransactionId) (r : String) :
    (m.releaseLock tx r).2.waitQueues = m.waitQueues ∧
      (m.releaseLock tx r).2.waitingFor = m.waitingFor := by
  rw [releaseLock]
  split
  · exact ⟨rfl,rfl⟩
  · exact ⟨rfl,rfl⟩

theorem waiting_upgradeLock (tx : TransactionId) (r : String) (newMode : LockMode) :
    (m.upgradeLock tx r newMode).2.waitQueues = m.waitQueues ∧
      (m.upgradeLock tx r newMode).2.waitingFor = m.waitingFor := by
  simp only [upgradeLock]
  split
  · exact ⟨rfl,rfl⟩
  · split
    · exact ⟨rfl,rfl⟩
    · exact ⟨rfl,rfl⟩

end Tables

end LockManager

namespace LockSystem

/-- The tables list the sleeping calls in their order, the queues by resource and the map by
transaction. -/
structure Exact (s : LockSystem) : Prop where
  queue : ∀ r, s.manager.queueOn r = group LockCall.resource LockCall.waitEntry s.sleeping r
  waiting : ∀ t, s.manager.resourcesOf t = group LockCall.txId LockCall.resource s.sleeping t

/-- The transaction is in the queue exactly if the resource is on its list, and both exactly if a
call of the transaction is in the wait loop for the resource. -/
def TablesAgree (s : LockSystem) : Prop :=
  ∀ t r, ((∃ e ∈ s.manager.queueOn r, e.waiter = t) ↔ r ∈ s.manager.resourcesOf t) ∧
    ((∃ e ∈ s.manager.queueOn r, e.waiter = t) ↔ ∃ c ∈ s.sleeping, c.txId = t ∧ c.resource = r)

theorem Exact.tablesAgree {s : LockSystem} (h : Exact s) : TablesAgree s := by
  intro t r
  have hqueue : (∃ e ∈ s.manager.queueOn r, e.waiter = t) ↔
      ∃ c ∈ s.sleeping, c.txId = t ∧ c.resource = r := by
    rw [h.queue r]
    constructor
    · rintro ⟨e,he,rfl⟩
      obtain ⟨c,hc,hr,rfl⟩ := mem_group_iff.mp he
      exact ⟨c,hc,rfl,hr⟩
    · rintro ⟨c,hc,rfl,hr⟩
      exact ⟨c.waitEntry,mem_group_iff.mpr ⟨c,hc,hr,rfl⟩,rfl⟩
  refine ⟨?_,hqueue⟩
  rw [hqueue,h.waiting t,mem_group_iff]

/-- No call of the list is in the wait loop for the same transaction and resource. -/
def Alone (calls : List LockCall) (c : LockCall) : Prop :=
  ∀ d ∈ calls, d.resource = c.resource → d.txId ≠ c.txId

section Leave

variable {m : LockManager} {pre post calls : List LockCall} {c : LockCall}

theorem Exact.removeFromWaitQueue (h : Exact ⟨m,pre++c::post⟩) (halone : Alone (pre++post) c) :
    Exact ⟨m.removeFromWaitQueue c.resource c.txId,pre++post⟩ := by
  constructor
  · intro r
    have hqueue := h.queue r
    simp only [queueOn_removeFromWaitQueue] at hqueue ⊢
    split
    · next hr =>
      subst hr
      have hothers : ∀ d ∈ pre++post, d.resource = c.resource →
          d.waitEntry.waiter ≠ c.waitEntry.waiter := halone
      rw [hqueue]
      exact filter_group_of_only hothers
    · next hr => rw [hqueue,group_remove_ne (Ne.symm hr)]
  · intro t
    have hwaiting := h.waiting t
    simp only [resourcesOf_removeFromWaitQueue] at hwaiting ⊢
    split
    · next ht =>
      subst ht
      have hothers : ∀ d ∈ pre++post, d.txId = c.txId → id d.resource ≠ id c.resource :=
        fun d hd htx hr => halone d hd hr htx
      rw [hwaiting]
      exact filter_group_of_only hothers
    · next ht => rw [hwaiting,group_remove_ne (Ne.symm ht)]

theorem Exact.grantWaiting (h : Exact ⟨m,pre++c::post⟩) (halone : Alone (pre++post) c)
    (hfront : ∃ e, (m.queueOn c.resource).head? = some e ∧ e.waiter = c.txId) :
    Exact ⟨m.grantWaiting c,pre++post⟩ := by
  constructor
  · intro r
    have hqueue := h.queue r
    simp only [queueOn_grantWaiting] at hqueue ⊢
    split
    · next hr =>
      subst hr
      have hothers : ∀ d ∈ pre++post, d.resource = c.resource →
          d.waitEntry.waiter ≠ c.waitEntry.waiter := halone
      rw [hqueue] at hfront ⊢
      exact tail_group_of_only hothers hfront
    · next hr => rw [hqueue,group_remove_ne (Ne.symm hr)]
  · intro t
    have hwaiting := (h.removeFromWaitQueue halone).waiting t
    simp only [resourcesOf_removeFromWaitQueue] at hwaiting
    simp only [resourcesOf_grantWaiting,hwaiting]

/-- After a call has left the loop without the lock, nothing of its transaction is in the queue. -/
theorem alone_of_removeFromWaitQueue
    (h : TablesAgree ⟨m.removeFromWaitQueue c.resource c.txId,calls⟩) : Alone calls c := by
  intro d hd hr htx
  obtain ⟨e,he,hwaiter⟩ := (h c.txId c.resource).2.mpr ⟨d,hd,htx,hr⟩
  simp only [queueOn_removeFromWaitQueue,if_true] at he
  exact of_decide_eq_true (List.mem_filter.mp he).2 hwaiter

theorem not_mem_resourcesOf_grantWaiting : c.resource ∉ (m.grantWaiting c).resourcesOf c.txId := by
  rw [resourcesOf_grantWaiting,if_pos rfl]
  simp

theorem alone_of_grantWaiting (h : TablesAgree ⟨m.grantWaiting c,calls⟩) : Alone calls c := by
  intro d hd hr htx
  have hqueued := (h c.txId c.resource).2.mpr ⟨d,hd,htx,hr⟩
  exact not_mem_resourcesOf_grantWaiting ((h c.txId c.resource).1.mp hqueued)

/-- The entry of the call is not in the rest of the queue, so it was in front. -/
theorem front_of_grantWaiting (h : Exact ⟨m,pre++c::post⟩)
    (hafter : TablesAgree ⟨m.grantWaiting c,calls⟩) :
    ∃ e, (m.queueOn c.resource).head? = some e ∧ e.waiter = c.txId := by
  have hcall : ∃ d ∈ pre++c::post, d.txId = c.txId ∧ d.resource = c.resource :=
    ⟨c,by simp,rfl,rfl⟩
  obtain ⟨e,he,hwaiter⟩ := (h.tablesAgree c.txId c.resource).2.mpr hcall
  change e ∈ m.queueOn c.resource at he
  have hafter' : ¬∃ e ∈ (m.grantWaiting c).queueOn c.resource, e.waiter = c.txId := fun hqueued =>
    not_mem_resourcesOf_grantWaiting ((hafter c.txId c.resource).1.mp hqueued)
  rw [queueOn_grantWaiting,if_pos rfl] at hafter'
  cases hq : m.queueOn c.resource with
  | nil =>
    rw [hq] at he
    cases he
  | cons front rest =>
    rw [hq] at he hafter'
    rcases List.mem_cons.mp he with rfl | hrest
    · exact ⟨e,rfl,hwaiter⟩
    · exact absurd ⟨e,hrest,hwaiter⟩ hafter'

end Leave

section Stay

variable {m : LockManager} {calls : List LockCall}

theorem Exact.enqueue (h : Exact ⟨m,calls⟩) (c : LockCall) : Exact ⟨m.enqueue c,calls++[c]⟩ := by
  constructor
  · intro r
    have hqueue := h.queue
    simp only [queueOn_enqueue,group_append] at hqueue ⊢
    split
    · next hr =>
      subst hr
      rw [hqueue,group_cons_self,group_nil]
    · next hr => rw [hqueue,group_cons_ne _ _ (Ne.symm hr),group_nil,List.append_nil]
  · intro t
    have hwaiting := h.waiting
    simp only [resourcesOf_enqueue,group_append] at hwaiting ⊢
    split
    · next ht =>
      subst ht
      rw [hwaiting,group_cons_self,group_nil]
    · next ht => rw [hwaiting,group_cons_ne _ _ (Ne.symm ht),group_nil,List.append_nil]

theorem Exact.releaseAllLocks (h : Exact ⟨m,calls⟩) {tx : TransactionId}
    (hnone : ∀ d ∈ calls, d.txId ≠ tx) : Exact ⟨m.releaseAllLocks tx,calls⟩ := by
  constructor
  · intro r
    change (m.releaseAllLocks tx).queueOn r = _
    rw [queueOn_releaseAllLocks,h.queue r]
    apply filter_group_eq_self
    intro d hd _
    exact decide_eq_true (hnone d hd)
  · intro t
    change (m.releaseAllLocks tx).resourcesOf t = _
    rw [resourcesOf_releaseAllLocks]
    split
    · next ht =>
      subst ht
      symm
      rw [List.eq_nil_iff_forall_not_mem]
      intro r hr
      obtain ⟨d,hd,htx,_⟩ := mem_group_iff.mp hr
      exact hnone d hd htx
    · exact h.waiting t

theorem none_of_releaseAllLocks {tx : TransactionId}
    (h : TablesAgree ⟨m.releaseAllLocks tx,calls⟩) : ∀ d ∈ calls, d.txId ≠ tx := by
  intro d hd htx
  obtain ⟨e,he,hwaiter⟩ := (h tx d.resource).2.mpr ⟨d,hd,htx,rfl⟩
  change e ∈ (m.releaseAllLocks tx).queueOn d.resource at he
  rw [queueOn_releaseAllLocks] at he
  exact of_decide_eq_true (List.mem_filter.mp he).2 hwaiter

/-- Only the tables of those that wait count. -/
theorem Exact.of_waiting {m' : LockManager} (h : Exact ⟨m,calls⟩)
    (hqueue : ∀ r, m'.queueOn r = m.queueOn r) (hwaiting : m'.waitingFor = m.waitingFor) :
    Exact ⟨m',calls⟩ := by
  refine ⟨fun r => (hqueue r).trans (h.queue r),fun t => ?_⟩
  rw [← h.waiting t]
  change m'.resourcesOf t = m.resourcesOf t
  rw [resourcesOf,resourcesOf,hwaiting]

end Stay

section Steps

/-- A call that leaves the wait loop is the only one there for its transaction and resource, and its
entry is in front of the queue if it gets the lock; and no call is in the loop for a transaction all
of whose locks are released. -/
def KeepsTables (s : LockSystem) : LockOp → Prop
  | .acquireLock c elapsed =>
    canGrant (s.manager.locksOn c.resource) c.mode = false →
      (s.manager.enqueue c).GivesUp c elapsed → Alone s.sleeping c
  | .wake i elapsed => ∀ c, s.sleeping[i]? = some c →
    (s.manager.GivesUp c elapsed → Alone (s.sleeping.eraseIdx i) c) ∧
    (¬s.manager.GivesUp c elapsed → canGrant (s.manager.locksOn c.resource) c.mode = true →
      Alone (s.sleeping.eraseIdx i) c ∧
        ∃ e, (s.manager.queueOn c.resource).head? = some e ∧ e.waiter = c.txId)
  | .releaseAllLocks tx => ∀ d ∈ s.sleeping, d.txId ≠ tx
  | .releaseLock _ _ | .upgradeLock _ _ _ => True

/-- What a request does to a system whose tables are exact. -/
theorem acquireLock_tables {s : LockSystem} (h : Exact s) (c : LockCall) (elapsed : ℕ) :
    (KeepsTables s (.acquireLock c elapsed) → Exact (s.step (.acquireLock c elapsed))) ∧
    (TablesAgree (s.step (.acquireLock c elapsed)) → KeepsTables s (.acquireLock c elapsed)) := by
  by_cases hgrant : canGrant (s.manager.locksOn c.resource) c.mode = true
  · have hstep : s.step (.acquireLock c elapsed) =
        ⟨(s.manager.setQueue c.resource (s.manager.queueOn c.resource)).addLock c,s.sleeping⟩ := by
      simp [step,acquireLock,hgrant]
    refine ⟨fun _ => ?_,fun _ hnot => ?_⟩
    · rw [hstep]
      exact h.of_waiting (queueOn_setQueue_self s.manager c.resource) rfl
    · rw [hgrant] at hnot
      cases hnot
  · have hnot : canGrant (s.manager.locksOn c.resource) c.mode = false := by simpa using hgrant
    have henqueue : Exact ⟨s.manager.enqueue c,s.sleeping++c::[]⟩ := h.enqueue c
    rcases poll_cases (s.manager.enqueue c) c elapsed with ⟨hgives,status,_,hpoll⟩ |
        ⟨_,hcan,_⟩ | ⟨hstays,_,hpoll⟩
    · have hstep : s.step (.acquireLock c elapsed) =
          ⟨(s.manager.enqueue c).removeFromWaitQueue c.resource c.txId,s.sleeping⟩ := by
        simp [step,acquireLock,hnot,hpoll]
      rw [hstep]
      refine ⟨fun hop => ?_,fun hafter _ _ => alone_of_removeFromWaitQueue hafter⟩
      have halone := hop hnot hgives
      simpa using henqueue.removeFromWaitQueue (by simpa using halone)
    · exact absurd hcan hgrant
    · have hstep : s.step (.acquireLock c elapsed) = ⟨s.manager.enqueue c,s.sleeping++[c]⟩ := by
        simp [step,acquireLock,hnot,hpoll]
      rw [hstep]
      exact ⟨fun _ => henqueue,fun _ _ hgives => absurd hgives hstays⟩

theorem wake_tables {s : LockSystem} (h : Exact s) (i elapsed : ℕ) :
    (KeepsTables s (.wake i elapsed) → Exact (s.step (.wake i elapsed))) ∧
    (TablesAgree (s.step (.wake i elapsed)) → KeepsTables s (.wake i elapsed)) := by
  cases hcall : s.sleeping[i]? with
  | none =>
    have hstep : s.step (.wake i elapsed) = s := by simp [step,hcall]
    rw [hstep]
    refine ⟨fun _ => h,fun _ c hc => ?_⟩
    rw [hcall] at hc
    cases hc
  | some c =>
    obtain ⟨hi,hget⟩ := List.getElem?_eq_some_iff.mp hcall
    have hsplit : s.sleeping = s.sleeping.take i++c::s.sleeping.drop (i+1) := by
      rw [← hget,List.getElem_cons_drop,List.take_append_drop]
    have herase : s.sleeping.eraseIdx i = s.sleeping.take i++s.sleeping.drop (i+1) :=
      List.eraseIdx_eq_take_drop_succ _ _
    have hexact : Exact ⟨s.manager,s.sleeping.take i++c::s.sleeping.drop (i+1)⟩ := by
      rw [← hsplit]
      exact h
    have hkeeps : KeepsTables s (.wake i elapsed) ↔
        (s.manager.GivesUp c elapsed → Alone (s.sleeping.eraseIdx i) c) ∧
        (¬s.manager.GivesUp c elapsed → canGrant (s.manager.locksOn c.resource) c.mode = true →
          Alone (s.sleeping.eraseIdx i) c ∧
            ∃ e, (s.manager.queueOn c.resource).head? = some e ∧ e.waiter = c.txId) := by
      simp [KeepsTables,hcall]
    rw [hkeeps,herase]
    rcases poll_cases s.manager c elapsed with ⟨hgives,status,_,hpoll⟩ |
        ⟨hstays,hcan,hpoll⟩ | ⟨hstays,hnot,hpoll⟩
    · have hstep : s.step (.wake i elapsed) = ⟨s.manager.removeFromWaitQueue c.resource c.txId,
          s.sleeping.take i++s.sleeping.drop (i+1)⟩ := by
        simp [step,hcall,hpoll,herase]
      rw [hstep]
      refine ⟨fun hop => hexact.removeFromWaitQueue (hop.1 hgives),fun hafter => ⟨?_,?_⟩⟩
      · exact fun _ => alone_of_removeFromWaitQueue hafter
      · exact fun hstays => absurd hgives hstays
    · have hstep : s.step (.wake i elapsed) =
          ⟨s.manager.grantWaiting c,s.sleeping.take i++s.sleeping.drop (i+1)⟩ := by
        simp [step,hcall,hpoll,herase]
      rw [hstep]
      refine ⟨fun hop => ?_,fun hafter => ⟨fun hgives => absurd hgives hstays,fun _ _ => ?_⟩⟩
      · obtain ⟨halone,hfront⟩ := hop.2 hstays hcan
        exact hexact.grantWaiting halone hfront
      · exact ⟨alone_of_grantWaiting hafter,front_of_grantWaiting hexact hafter⟩
    · have hstep : s.step (.wake i elapsed) = s := by simp [step,hcall,hpoll]
      rw [hstep]
      refine ⟨fun _ => h,fun _ => ⟨fun hgives => absurd hgives hstays,fun _ hcan => ?_⟩⟩
      rw [hnot] at hcan
      cases hcan

/-- From exact tables, a step leads to tables that agree only if it keeps them, and then they are
exact again. -/
theorem step_tables {s : LockSystem} (h : Exact s) (op : LockOp) :
    (KeepsTables s op → Exact (s.step op)) ∧ (TablesAgree (s.step op) → KeepsTables s op) := by
  cases op with
  | acquireLock c elapsed => exact acquireLock_tables h c elapsed
  | wake i elapsed => exact wake_tables h i elapsed
  | releaseLock tx r =>
    obtain ⟨hqueues,hwaiting⟩ := waiting_releaseLock s.manager tx r
    refine ⟨fun _ => ?_,fun _ => trivial⟩
    exact h.of_waiting (fun r' => by rw [queueOn,hqueues,← queueOn]) hwaiting
  | releaseAllLocks tx => exact ⟨h.releaseAllLocks,none_of_releaseAllLocks⟩
  | upgradeLock tx r newMode =>
    obtain ⟨hqueues,hwaiting⟩ := waiting_upgradeLock s.manager tx r newMode
    refine ⟨fun _ => ?_,fun _ => trivial⟩
    exact h.of_waiting (fun r' => by rw [queueOn,hqueues,← queueOn]) hwaiting

theorem exact_new : Exact new := ⟨fun _ => rfl,fun _ => rfl⟩

/-- The tables agree in all states of a run exactly if each of its steps keeps them. -/
theorem tablesAgree_iff (ops : List LockOp) :
    (∀ past future, ops = past++future → TablesAgree (run past)) ↔
      ∀ past op future, ops = past++op::future → KeepsTables (run past) op :=
  Runs.always_iff_eachStep exact_new (fun _ h => h.tablesAgree) (fun _ op h => (step_tables h op).1)
    (fun _ op h => (step_tables h op).2) ops

/-- Transactions 2 and 3 wait until 1 has released its lock, and 3 is the first to look again: it
takes the entry of 2 out of the queue. -/
theorem not_tablesAgree_overtaken :
    ¬TablesAgree (run [.acquireLock ⟨4,"a",.intentShared,.table,5000⟩ 0,
      .acquireLock ⟨1,"a",.shared,.table,5000⟩ 0,.acquireLock ⟨2,"a",.intentExclusive,.table,5000⟩ 7,
      .acquireLock ⟨3,"a",.intentExclusive,.table,5000⟩ 7,.releaseAllLocks 1,.wake 1 17]) := by
  intro h
  have hqueue : (run [.acquireLock ⟨4,"a",.intentShared,.table,5000⟩ 0,
      .acquireLock ⟨1,"a",.shared,.table,5000⟩ 0,.acquireLock ⟨2,"a",.intentExclusive,.table,5000⟩ 7,
      .acquireLock ⟨3,"a",.intentExclusive,.table,5000⟩ 7,.releaseAllLocks 1,
      .wake 1 17]).manager.queueOn "a" = [⟨3,.intentExclusive⟩] := by decide
  have hsleeping : (run [.acquireLock ⟨4,"a",.intentShared,.table,5000⟩ 0,
      .acquireLock ⟨1,"a",.shared,.table,5000⟩ 0,.acquireLock ⟨2,"a",.intentExclusive,.table,5000⟩ 7,
      .acquireLock ⟨3,"a",.intentExclusive,.table,5000⟩ 7,.releaseAllLocks 1,
      .wake 1 17]).sleeping = [⟨2,"a",.intentExclusive,.table,5000⟩] := by decide
  have hagree := (h 2 "a").2
  rw [hqueue,hsleeping] at hagree
  simp at hagree

end Steps

end LockSystem

end OrangeSQL
