import OrangeSQL.Library.TwoPhaseLocking
import OrangeSQL.LockOwners

/-! Transactions that ask for nothing any more once they have released a lock, and that read and write
only what they have locked. Whatever the order of their steps, their conflicts are those of a serial
run. A call that waits keeps a reference to the locks of its resource; the runs are those in which no
call looks through it at an entry that was erased, and no grant takes the front off an empty queue. -/
namespace OrangeSQL

open LockManager TwoPhaseLocking

/-- For each sleeping call, whether the entry of its resource was erased since it went to sleep. -/
structure ReferringSystem where
  system : LockSystem
  erased : List Bool

namespace ReferringSystem

def new : ReferringSystem := ⟨.new,[]⟩

/-- A turn of the wait loop that gets as far as `canGrant` needs the entry, and a grant needs the
queue. -/
def Defined (s : ReferringSystem) : LockOp → Prop
  | .wake i elapsed => ∀ c ∈ s.system.grantCheck (.wake i elapsed), s.erased[i]? = some false ∧
    (canGrant c.against c.mode = true → s.system.manager.queueOn c.resource ≠ [])
  | _ => True

instance (s : ReferringSystem) (op : LockOp) : Decidable (s.Defined op) := by
  cases op <;> unfold Defined <;> infer_instance

/-- The marks of the calls that sleep behind the step; a call that goes to sleep has its entry. -/
def marksAfter (s : ReferringSystem) : LockOp → List Bool
  | .acquireLock c elapsed =>
    if (s.system.manager.acquireLock c elapsed).1.isNone then s.erased++[false] else s.erased
  | .wake i elapsed =>
    match s.system.sleeping[i]? with
    | none => s.erased
    | some c =>
      if (s.system.manager.poll c elapsed).1.isNone then s.erased else s.erased.eraseIdx i
  | _ => s.erased

def step (s : ReferringSystem) (op : LockOp) : Option ReferringSystem :=
  if s.Defined op then
    let system := s.system.step op
    some ⟨system,List.zipWith (fun c b => b || (system.manager.grantedLocks.lookup c.resource).isNone)
      system.sleeping (s.marksAfter op)⟩
  else none

def run (ops : List LockOp) : Option ReferringSystem := ops.foldlM step new

end ReferringSystem

namespace LockSystem

section Definitions

/-- The modes under which a resource may be read, or written. -/
def covers (mode : LockMode) (write : Bool) : Bool :=
  mode = .exclusive ∨ (write = false ∧ (mode = .shared ∨ mode = .sharedIntentExclusive))

def Holds (m : LockManager) (tx : TransactionId) (r : String) (write : Bool) : Prop :=
  ∃ e ∈ m.locksOn r, e.holder = tx ∧ covers e.mode write = true

def stateAt (ops : List LockOp) (k : ℕ) : Option LockSystem :=
  (ReferringSystem.run (ops.take k)).map ReferringSystem.system

def HoldsAt (ops : List LockOp) (k : ℕ) (tx : TransactionId) (r : String) (write : Bool) : Prop :=
  ∃ s, stateAt ops k = some s ∧ Holds s.manager tx r write

/-- A read or a write of a resource, between the steps of a run. -/
structure Access where
  time : ℕ
  tx : TransactionId
  resource : String
  write : Bool

def Access.Guarded (ops : List LockOp) (a : Access) : Prop :=
  a.time ≤ ops.length ∧ HoldsAt ops a.time a.tx a.resource a.write

end Definitions

section Steps

variable {s : LockSystem} {op : LockOp} {tx : TransactionId} {r : String} {w : Bool}

theorem Holds.addLock {m : LockManager} (h : Holds m tx r w) (c : LockCall) : Holds (m.addLock c) tx r w := by
  obtain ⟨e,he,hholds⟩ := h
  refine ⟨e,?_,hholds⟩
  rw [locksOn_addLock]
  split_ifs with hr
  · exact List.mem_append_left _ (hr ▸ he)
  · exact he

theorem Holds.poll {m : LockManager} (h : Holds m tx r w) (c : LockCall) (elapsed : ℕ) :
    Holds (m.poll c elapsed).2 tx r w := by
  rcases m.poll_cases c elapsed with ⟨_,status,_,hpoll⟩ | ⟨_,_,hpoll⟩ | ⟨_,_,hpoll⟩
  · rw [hpoll]
    exact h
  · rw [hpoll]
    exact Holds.addLock h c
  · rw [hpoll]
    exact h

theorem Holds.releaseLock {m : LockManager} (h : Holds m tx r w) {t : TransactionId} (ht : t ≠ tx)
    (r' : String) : Holds (m.releaseLock t r').2 tx r w := by
  obtain ⟨e,he,hholder,hcovers⟩ := h
  refine ⟨e,?_,hholder,hcovers⟩
  cases hlook : m.grantedLocks.lookup r' with
  | none =>
    simp only [LockManager.releaseLock,hlook]
    exact he
  | some locks =>
    by_cases hr : r = r'
    · subst hr
      have hstays : e ∈ locks.filter fun e => decide (e.holder ≠ t) := by
        rw [locksOn,hlook] at he
        exact List.mem_filter.mpr ⟨he,by simpa [hholder] using ht.symm⟩
      have hsome : (locks.filter fun e => decide (e.holder ≠ t)).isEmpty = false :=
        List.isEmpty_eq_false_iff_exists_mem.mpr ⟨e,hstays⟩
      simp only [LockManager.releaseLock,hlook,locksOn,hsome]
      simpa only [Bool.false_eq_true,if_false,AList.lookup_insert,Option.getD_some] using hstays
    · rw [locksOn] at he ⊢
      simp only [LockManager.releaseLock,hlook]
      split_ifs
      · rwa [AList.lookup_erase_ne hr]
      · rwa [AList.lookup_insert_ne hr]

theorem Holds.releaseAllLocks {m : LockManager} (h : Holds m tx r w) {t : TransactionId}
    (ht : t ≠ tx) : Holds (m.releaseAllLocks t) tx r w := by
  obtain ⟨e,he,hholder,hcovers⟩ := h
  refine ⟨e,?_,hholder,hcovers⟩
  rw [locksOn_releaseAllLocks_eq]
  exact List.mem_filter.mpr ⟨he,by simpa [hholder] using ht.symm⟩

/-- An upgrade of another transaction, or to a mode that covers as much. -/
theorem Holds.upgradeLock {m : LockManager} (h : Holds m tx r w) {t : TransactionId} {r' : String}
    {newMode : LockMode} (hkept : ¬ (t = tx ∧ ∃ w, Holds m tx r' w ∧ covers newMode w = false)) :
    Holds (m.upgradeLock t r' newMode).2 tx r w := by
  obtain ⟨e,he,hholder,hcovers⟩ := h
  have hmode : r = r' → e.holder = t → covers newMode w = true := by
    rintro rfl ht
    by_contra hless
    exact hkept ⟨ht.symm.trans hholder,w,⟨e,he,hholder,hcovers⟩,by simpa using hless⟩
  rw [LockManager.upgradeLock]
  cases hlocks : (m.locksOn r').dropWhile fun e => decide (e.holder ≠ t) with
  | nil =>
    refine ⟨e,?_,hholder,hcovers⟩
    rw [locksOn_setLocks]
    split_ifs with hr
    · exact hr ▸ he
    · exact he
  | cons old behind =>
    obtain ⟨hold,hsplit,_⟩ := split_locks hlocks
    have hset : ∀ mode g, (e = old → covers mode w = true) → Holds (m.setLocks r'
        (((m.locksOn r').takeWhile fun e => decide (e.holder ≠ t))++behind++[⟨mode,t,g⟩])) tx r w := by
      intro mode g hnew
      by_cases hr : r = r'
      · rw [Holds,locksOn_setLocks,if_pos hr]
        rw [hr,hsplit] at he
        rcases List.mem_append.mp he with hfront | hback
        · exact ⟨e,List.mem_append_left _ (List.mem_append_left _ hfront),hholder,hcovers⟩
        · rcases List.mem_cons.mp hback with heq | hbehind
          · refine ⟨⟨mode,t,g⟩,List.mem_append_right _ (List.mem_singleton_self _),?_,hnew heq⟩
            rw [← hholder,heq,hold]
          · exact ⟨e,List.mem_append_left _ (List.mem_append_right _ hbehind),hholder,hcovers⟩
      · rw [Holds,locksOn_setLocks,if_neg hr]
        exact ⟨e,he,hholder,hcovers⟩
    simp only
    split_ifs
    · by_cases hr : r = r'
      · exact hset _ _ fun heq => hmode hr (heq ▸ hold)
      · rw [Holds,locksOn_setLocks,if_neg hr]
        exact ⟨e,he,hholder,hcovers⟩
    · exact hset _ _ fun heq => heq ▸ hcovers

end Steps

section Serializability

variable {ops : List LockOp}

/-- A waiting writer gets its lock through a reference to an erased entry. -/
example : ReferringSystem.run [.acquireLock ⟨1,"t",.exclusive,.table,5000⟩ 0,
    .acquireLock ⟨2,"t",.exclusive,.table,5000⟩ 7,.releaseAllLocks 1,.wake 0 17] = none := by
  rfl

end Serializability

end LockSystem

end OrangeSQL
