import OrangeSQL.LockRuns

/-! Whose entries the calls of the lock manager change. A release of all locks takes out the entries
of one transaction and nothing else; an upgrade exchanges one lock, for which it reads the granularity
in the wrong place; a request is checked also against the locks of the transaction that makes it. -/
namespace OrangeSQL
namespace LockManager

open AssocList LockSystem

section Release

variable (m : LockManager) (t : TransactionId)

theorem locksOn_releaseAllLocks_eq (r : String) :
    (m.releaseAllLocks t).locksOn r = (m.locksOn r).filter fun e => e.holder ≠ t := by
  simp only [releaseAllLocks,locksOn,lookup_filterMapValues]
  cases m.grantedLocks.lookup r with
  | none => rfl
  | some locks =>
    simp only [Option.bind_some,Option.getD_some]
    split
    · next hempty => rw [List.isEmpty_iff.mp hempty,Option.getD_none]
    · rfl

theorem queueOn_releaseAllLocks (r : String) :
    (m.releaseAllLocks t).queueOn r = (m.queueOn r).filter fun e => e.waiter ≠ t := by
  simp only [releaseAllLocks,queueOn,lookup_filterMapValues]
  cases m.waitQueues.lookup r with
  | none => rfl
  | some queue => rfl

theorem grantedLocks_releaseAllLocks_ne_nil (r : String) :
    (m.releaseAllLocks t).grantedLocks.lookup r ≠ some [] := by
  simp only [releaseAllLocks,lookup_filterMapValues]
  cases m.grantedLocks.lookup r with
  | none => simp
  | some locks =>
    simp only [Option.bind_some]
    split
    · simp
    · next hsome =>
      intro hnil
      rw [Option.some.inj hnil] at hsome
      exact hsome rfl

/-- A lock of another transaction is there just as before. -/
theorem holds_releaseAllLocks {u : TransactionId} (hu : u ≠ t) (r : String) :
    ((m.releaseAllLocks t).locksOn r).any (fun e => e.holder = u) =
      (m.locksOn r).any fun e => e.holder = u := by
  rw [locksOn_releaseAllLocks_eq,List.any_filter]
  apply congrArg (List.any (m.locksOn r))
  funext e
  by_cases he : e.holder = u
  · simp [he,hu]
  · simp [he]

theorem getWaitingTransactions_releaseAllLocks {u : TransactionId} (hu : u ≠ t) :
    (m.releaseAllLocks t).getWaitingTransactions u =
      (m.getWaitingTransactions u).filter fun w => w ≠ t := by
  have hentries : (m.releaseAllLocks t).waitingFor.entries =
      m.waitingFor.entries.filter fun e => e.1 ≠ t := entries_erase m.waitingFor t
  simp only [getWaitingTransactions,holds_releaseAllLocks m t hu,hentries,List.filter_flatMap]
  induction m.waitingFor.entries with
  | nil => rfl
  | cons e es ih =>
    rw [List.flatMap_cons,← ih]
    by_cases he : e.1 = t
    · rw [List.filter_cons_of_neg (by simpa using he)]
      split
      · rfl
      · simp [he]
    · rw [List.filter_cons_of_pos (by simpa using he),List.flatMap_cons]
      congr 1
      split
      · rfl
      · simp [he]

/-- All that a transaction holds and waits for is gone, the rest is there in its order, and nothing
else is lost. -/
theorem releaseAllLocks_complete :
    (∀ r, ∀ e ∈ (m.releaseAllLocks t).locksOn r, e.holder ≠ t) ∧
    (∀ r, ∀ e ∈ (m.releaseAllLocks t).queueOn r, e.waiter ≠ t) ∧
    t ∉ (m.releaseAllLocks t).waitingFor ∧
    (∀ r, (m.releaseAllLocks t).grantedLocks.lookup r ≠ some []) ∧
    (∀ r, (m.releaseAllLocks t).locksOn r = (m.locksOn r).filter fun e => e.holder ≠ t) ∧
    (∀ r, (m.releaseAllLocks t).queueOn r = (m.queueOn r).filter fun e => e.waiter ≠ t) ∧
    (∀ u, u ≠ t → (m.releaseAllLocks t).waitingFor.lookup u = m.waitingFor.lookup u) ∧
    ∀ u, u ≠ t → (m.releaseAllLocks t).getWaitingTransactions u =
      (m.getWaitingTransactions u).filter fun w => w ≠ t := by
  refine ⟨?_,?_,?_,grantedLocks_releaseAllLocks_ne_nil m t,locksOn_releaseAllLocks_eq m t,
    queueOn_releaseAllLocks m t,fun u hu => AList.lookup_erase_ne hu,
    fun u hu => getWaitingTransactions_releaseAllLocks m t hu⟩
  · intro r e he
    rw [locksOn_releaseAllLocks_eq] at he
    simpa using List.of_mem_filter he
  · intro r e he
    rw [queueOn_releaseAllLocks] at he
    simpa using List.of_mem_filter he
  · intro hmem
    exact (AList.mem_erase.mp hmem).1 rfl

end Release

section Upgrade

variable (m : LockManager) (tx : TransactionId) (r : String) (newMode : LockMode)

/-- The transaction has one lock on the resource, in this mode and granularity. -/
def HoldsOnly (mode : LockMode) (g : LockGranularity) : Prop :=
  (m.locksOn r).filter (fun e => e.holder = tx) = [⟨mode,tx,g⟩]

instance (mode : LockMode) (g : LockGranularity) : Decidable (m.HoldsOnly tx r mode g) :=
  inferInstanceAs (Decidable (_ = _))

/-- An upgrade exchanges the mode or leaves the lock as it is, and changes no other entry. -/
def UpgradesWhole (mode : LockMode) (g : LockGranularity) : Prop :=
  let (status,m') := m.upgradeLock tx r newMode
  (status = .granted ∧ m'.HoldsOnly tx r newMode g ∨ status = .waiting ∧ m'.HoldsOnly tx r mode g) ∧
    ∀ r', (m'.locksOn r').filter (fun e => e.holder ≠ tx) =
      (m.locksOn r').filter fun e => e.holder ≠ tx

/-- The lock behind the first one of the transaction. -/
def lockBehind : Option LockEntry :=
  ((m.locksOn r).dropWhile fun e => e.holder ≠ tx).tail.head?

variable {m tx r newMode}

theorem HoldsOnly.split {mode : LockMode} {g : LockGranularity} (h : m.HoldsOnly tx r mode g) :
    ∃ front behind, m.locksOn r = front++⟨mode,tx,g⟩::behind ∧
      (m.locksOn r).takeWhile (fun e => e.holder ≠ tx) = front ∧
      (m.locksOn r).dropWhile (fun e => e.holder ≠ tx) = ⟨mode,tx,g⟩::behind ∧
      ∀ e ∈ front++behind, e.holder ≠ tx := by
  obtain ⟨front,behind,hlocks,hfront,_,hbehind⟩ := List.filter_eq_cons_iff.mp h
  have hfront' : ∀ e ∈ front, decide (e.holder ≠ tx) = true := by
    intro e he
    simpa using hfront e he
  have hbehind' : ∀ e ∈ behind, e.holder ≠ tx := by
    intro e he
    simpa using List.filter_eq_nil_iff.mp hbehind e he
  refine ⟨front,behind,hlocks,?_,?_,?_⟩
  · rw [hlocks,List.takeWhile_append_of_pos hfront',List.takeWhile_cons_of_neg (by simp),
      List.append_nil]
  · rw [hlocks,List.dropWhile_append_of_pos hfront',List.dropWhile_cons_of_neg (by simp)]
  · intro e he
    rcases List.mem_append.mp he with he | he
    · simpa using hfront' e he
    · exact hbehind' e he

/-- One new lock of the transaction among locks of others. -/
theorem holdsOnly_setLocks_iff {rest : List LockEntry} (hrest : ∀ e ∈ rest, e.holder ≠ tx)
    (mode : LockMode) (g g' : LockGranularity) :
    (m.setLocks r (rest++[⟨mode,tx,g'⟩])).HoldsOnly tx r mode g ↔ g' = g := by
  have hnone : rest.filter (fun e => decide (e.holder = tx)) = [] := by
    rw [List.filter_eq_nil_iff]
    intro e he
    simpa using hrest e he
  rw [HoldsOnly,locksOn_setLocks,if_pos rfl,List.filter_append,hnone,List.nil_append,
    List.filter_cons_of_pos (by simp)]
  simp

theorem others_setLocks {front behind : List LockEntry} {old : LockEntry}
    (hlocks : m.locksOn r = front++old::behind) (hold : old.holder = tx) (new : LockEntry)
    (hnew : new.holder = tx) (r' : String) :
    ((m.setLocks r (front++behind++[new])).locksOn r').filter (fun e => e.holder ≠ tx) =
      (m.locksOn r').filter fun e => e.holder ≠ tx := by
  rw [locksOn_setLocks]
  split
  · next hr =>
    rw [hr,hlocks]
    simp [hold,hnew]
  · rfl

/-- The granularity survives exactly if the lock behind has the same one. -/
theorem upgradesWhole_iff (m : LockManager) (tx : TransactionId) (r : String)
    (newMode mode : LockMode) (g : LockGranularity) (h : m.HoldsOnly tx r mode g) :
    m.UpgradesWhole tx r newMode mode g ↔ ∀ e ∈ m.lockBehind tx r, e.granularity = g := by
  obtain ⟨front,behind,hlocks,hfront,hbehind,hothers⟩ := h.split
  have hread : (∀ e ∈ m.lockBehind tx r, e.granularity = g) ↔
      (behind.headD ⟨mode,tx,g⟩).granularity = g := by
    rw [lockBehind,hbehind,List.tail_cons]
    cases behind with
    | nil => simp
    | cons e behind => simp
  have hframe := others_setLocks hlocks rfl
  rw [hread,UpgradesWhole]
  simp only [upgradeLock,hbehind,hfront]
  by_cases hgrant : canGrant (front++behind) newMode = true
  · have hkeep := hframe ⟨newMode,tx,(behind.headD ⟨mode,tx,g⟩).granularity⟩ rfl
    simp only [if_pos hgrant,holdsOnly_setLocks_iff hothers,true_and,reduceCtorEq,false_and,
      or_false]
    exact and_iff_left hkeep
  · have hkeep := hframe ⟨mode,tx,(behind.headD ⟨mode,tx,g⟩).granularity⟩ rfl
    simp only [if_neg hgrant,holdsOnly_setLocks_iff hothers,true_and,reduceCtorEq,false_and,
      false_or]
    exact and_iff_left hkeep

theorem upgradesWhole_iff_alone :
    (run [.acquireLock ⟨1,"t",.shared,.table,5000⟩ 0]).manager.HoldsOnly 1 "t" .shared .table ∧
    (run [.acquireLock ⟨1,"t",.shared,.table,5000⟩ 0]).manager.UpgradesWhole 1 "t" .exclusive
      .shared .table := by
  have h : (run [.acquireLock ⟨1,"t",.shared,.table,5000⟩ 0]).manager.HoldsOnly 1 "t" .shared
      .table := by decide
  refine ⟨h,(upgradesWhole_iff _ 1 "t" .exclusive .shared .table h).mpr ?_⟩
  have hnone : (run [.acquireLock ⟨1,"t",.shared,.table,5000⟩ 0]).manager.lockBehind 1 "t" =
      none := by decide
  simp [hnone]

/-- The lock on the table comes back as a lock on a row, as the one behind it is. -/
theorem not_upgradesWhole_two :
    (run [.acquireLock ⟨1,"t",.intentShared,.table,5000⟩ 0,
      .acquireLock ⟨2,"t",.intentShared,.row,5000⟩ 0]).manager.HoldsOnly 1 "t" .intentShared .table ∧
    ¬(run [.acquireLock ⟨1,"t",.intentShared,.table,5000⟩ 0,
      .acquireLock ⟨2,"t",.intentShared,.row,5000⟩ 0]).manager.UpgradesWhole 1 "t" .shared
        .intentShared .table := by
  refine ⟨by decide,?_⟩
  rintro ⟨⟨_,hgranted⟩ | ⟨hwaiting,_⟩,_⟩
  · have hrow : ¬((run [.acquireLock ⟨1,"t",.intentShared,.table,5000⟩ 0,
        .acquireLock ⟨2,"t",.intentShared,.row,5000⟩ 0]).manager.upgradeLock 1 "t"
          .shared).2.HoldsOnly 1 "t" .shared .table := by decide
    exact hrow hgranted
  · have hstatus : ((run [.acquireLock ⟨1,"t",.intentShared,.table,5000⟩ 0,
        .acquireLock ⟨2,"t",.intentShared,.row,5000⟩ 0]).manager.upgradeLock 1 "t"
          .shared).1 ≠ .waiting := by decide
    exact hstatus hwaiting

end Upgrade

section Requests

variable (m : LockManager) (c : LockCall)

/-- The request returns with the lock, and nobody waits who did not wait before. -/
def GrantedAtOnce (elapsed : ℕ) : Prop :=
  let (status,m') := m.acquireLock c elapsed
  status = some .granted ∧ (∀ r, m'.queueOn r = m.queueOn r) ∧ m'.waitingFor = m.waitingFor

theorem queueOn_setQueue (r r' : String) (queue : List LockWaitEntry) :
    (m.setQueue r queue).queueOn r' = if r' = r then queue else m.queueOn r' := by
  by_cases h : r' = r
  · subst h
    simp [setQueue,queueOn]
  · simp [h,setQueue,queueOn,AList.lookup_insert_ne h]

theorem queueOn_setQueue_self (r r' : String) :
    (m.setQueue r (m.queueOn r)).queueOn r' = m.queueOn r' := by
  rw [queueOn_setQueue]
  split
  · next h => rw [h]
  · rfl

/-- A request that is not granted at the first check is not granted at the second either. -/
theorem grantedAtOnce_iff_canGrant (elapsed : ℕ) :
    m.GrantedAtOnce c elapsed ↔ canGrant (m.locksOn c.resource) c.mode = true := by
  rw [GrantedAtOnce,acquireLock]
  by_cases hgrant : canGrant (m.locksOn c.resource) c.mode = true
  · rw [if_pos hgrant]
    exact iff_of_true ⟨rfl,queueOn_setQueue_self m c.resource,rfl⟩ hgrant
  · rw [if_neg hgrant]
    refine iff_of_false ?_ hgrant
    rintro ⟨hstatus,_⟩
    change ((m.enqueue c).poll c elapsed).1 = some .granted at hstatus
    rcases poll_cases (m.enqueue c) c elapsed with ⟨_,status,hne,hpoll⟩ | ⟨_,hcan,_⟩ | ⟨_,_,hpoll⟩
    · rw [hpoll] at hstatus
      exact hne (Option.some.inj hstatus)
    · exact hgrant hcan
    · rw [hpoll] at hstatus
      cases hstatus

/-- On a resource that only the transaction itself has locked, exactly the modes of its own locks
decide. -/
theorem grantedAtOnce_iff (m : LockManager) (c : LockCall) (elapsed : ℕ)
    (hown : ∀ e ∈ m.locksOn c.resource, e.holder = c.txId) :
    m.GrantedAtOnce c elapsed ↔
      ∀ mode, m.hasLock c.txId c.resource mode = true → areCompatible mode c.mode = true := by
  rw [grantedAtOnce_iff_canGrant,canGrant,List.all_eq_true]
  constructor
  · intro h mode hlock
    obtain ⟨e,he,hmatch⟩ := List.any_eq_true.mp hlock
    rw [← (of_decide_eq_true hmatch).2]
    exact h e he
  · intro h e he
    apply h e.mode
    exact List.any_eq_true.mpr ⟨e,he,by simpa using hown e he⟩

theorem grantedAtOnce_iff_again :
    (run [.acquireLock ⟨1,"t",.shared,.table,5000⟩ 0]).manager.GrantedAtOnce
      ⟨1,"t",.sharedIntentExclusive,.table,5000⟩ 0 := by
  have hlocks : (run [.acquireLock ⟨1,"t",.shared,.table,5000⟩ 0]).manager.locksOn "t" =
      [⟨.shared,1,.table⟩] := by decide
  refine (grantedAtOnce_iff _ ⟨1,"t",.sharedIntentExclusive,.table,5000⟩ 0 ?_).mpr ?_
  · intro e he
    rw [hlocks] at he
    rw [List.mem_singleton.mp he]
  · intro mode hlock
    simp only [hasLock,hlocks,List.any_cons,List.any_nil,Bool.or_false] at hlock
    rw [← (of_decide_eq_true hlock).2]
    rfl

/-- A transaction that has read and wants to write waits for itself. -/
theorem not_grantedAtOnce_write :
    (∀ e ∈ (run [.acquireLock ⟨1,"t",.shared,.table,5000⟩ 0]).manager.locksOn "t", e.holder = 1) ∧
    ¬(run [.acquireLock ⟨1,"t",.shared,.table,5000⟩ 0]).manager.GrantedAtOnce
      ⟨1,"t",.exclusive,.table,5000⟩ 0 := by
  refine ⟨by decide,?_⟩
  rintro ⟨hstatus,_⟩
  have hnone : ((run [.acquireLock ⟨1,"t",.shared,.table,5000⟩ 0]).manager.acquireLock
      ⟨1,"t",.exclusive,.table,5000⟩ 0).1 ≠ some .granted := by decide
  exact hnone hstatus

end Requests

end LockManager
end OrangeSQL
