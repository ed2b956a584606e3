import Mathlib.Data.List.TakeWhile
import OrangeSQL.Library.Runs
import OrangeSQL.LockManager

/-! Runs of the lock manager: any number of callers, each call cut where it sleeps. Locks that are
granted together are compatible, and what the compatibility matrix lets happen between readers
and writers follows from what one step can do to the locks of a resource. -/
namespace OrangeSQL

open AssocList LockManager

namespace LockManager

/-- The call leaves the wait loop at this turn without the lock. -/
def GivesUp (m : LockManager) (c : LockCall) (elapsed : ℕ) : Prop :=
  c.timeoutMs < elapsed ∨
    elapsed%100 = 0 ∧ m.hasDeadlock m.searchDepth c.txId = some true

/-- The lock tables after a grant in the wait loop. -/
def grantWaiting (m : LockManager) (c : LockCall) : LockManager :=
  ((m.setQueue c.resource (m.queueOn c.resource).tail).stopWaiting c.resource c.txId).addLock c

/-- How a turn of the wait loop ends. -/
theorem poll_cases (m : LockManager) (c : LockCall) (elapsed : ℕ) :
    (m.GivesUp c elapsed ∧ ∃ status, status ≠ .granted ∧
      m.poll c elapsed = (some status,m.removeFromWaitQueue c.resource c.txId)) ∨
    (¬m.GivesUp c elapsed ∧ canGrant (m.locksOn c.resource) c.mode = true ∧
      m.poll c elapsed = (some .granted,m.grantWaiting c)) ∨
    (¬m.GivesUp c elapsed ∧ canGrant (m.locksOn c.resource) c.mode = false ∧
      m.poll c elapsed = (none,m)) := by
  by_cases htime : c.timeoutMs < elapsed
  · exact Or.inl ⟨Or.inl htime,.timeout,by decide,by rw [poll,if_pos htime]⟩
  · by_cases hdead : elapsed%100 = 0 ∧ m.hasDeadlock m.searchDepth c.txId = some true
    · exact Or.inl ⟨Or.inr hdead,.deadlock,by decide,by rw [poll,if_neg htime,if_pos hdead]⟩
    · have hstays : ¬m.GivesUp c elapsed := not_or.mpr ⟨htime,hdead⟩
      by_cases hgrant : canGrant (m.locksOn c.resource) c.mode = true
      · refine Or.inr (Or.inl ⟨hstays,hgrant,?_⟩)
        rw [poll,if_neg htime,if_neg hdead,if_pos hgrant]
        rfl
      · refine Or.inr (Or.inr ⟨hstays,by simpa using hgrant,?_⟩)
        rw [poll,if_neg htime,if_neg hdead,if_neg hgrant]

end LockManager

/-- The lock manager and the calls of `acquireLock` that sleep in the wait loop. -/
structure LockSystem where
  manager : LockManager
  sleeping : List LockCall

inductive LockOp
  | acquireLock (c : LockCall) (elapsed : ℕ)
  | wake (i : ℕ) (elapsed : ℕ)
  | releaseLock (tx : TransactionId) (r : String)
  | releaseAllLocks (tx : TransactionId)
  | upgradeLock (tx : TransactionId) (r : String) (newMode : LockMode)

/-- What a lock counts for: its mode and who holds it. -/
def LockEntry.modeAndHolder (e : LockEntry) : LockMode × TransactionId := (e.mode,e.holder)

namespace LockSystem

def new : LockSystem := ⟨.new,[]⟩

def step (s : LockSystem) : LockOp → LockSystem
  | .acquireLock c elapsed =>
    let (status,m) := s.manager.acquireLock c elapsed
    ⟨m,if status.isNone then s.sleeping++[c] else s.sleeping⟩
  | .wake i elapsed =>
    match s.sleeping[i]? with
    | none => s
    | some c =>
      let (status,m) := s.manager.poll c elapsed
      ⟨m,if status.isNone then s.sleeping else s.sleeping.eraseIdx i⟩
  | .releaseLock tx r => ⟨(s.manager.releaseLock tx r).2,s.sleeping⟩
  | .releaseAllLocks tx => ⟨s.manager.releaseAllLocks tx,s.sleeping⟩
  | .upgradeLock tx r newMode => ⟨(s.manager.upgradeLock tx r newMode).2,s.sleeping⟩

def run (ops : List LockOp) : LockSystem := ops.foldl step new

/-- A check of `canGrant` that a step makes before it adds a lock: the new lock's mode and holder,
and the locks it is checked against. -/
structure GrantCheck where
  resource : String
  mode : LockMode
  holder : TransactionId
  against : List LockEntry

/-- A call that times out or finds a deadlock makes none, nor does an upgrade without a lock. -/
def grantCheck (s : LockSystem) : LockOp → Option GrantCheck
  | .acquireLock c _ => some ⟨c.resource,c.mode,c.txId,s.manager.locksOn c.resource⟩
  | .wake i elapsed =>
    match s.sleeping[i]? with
    | none => none
    | some c =>
      if c.timeoutMs < elapsed ∨ elapsed%100 = 0 ∧
          s.manager.hasDeadlock s.manager.searchDepth c.txId = some true then none
      else some ⟨c.resource,c.mode,c.txId,s.manager.locksOn c.resource⟩
  | .upgradeLock tx r newMode =>
    let locks := s.manager.locksOn r
    if locks.any fun e => e.holder = tx then
      some ⟨r,newMode,tx,locks.eraseP fun e => e.holder = tx⟩
    else none
  | _ => none

section Locks

theorem locksOn_setLocks (m : LockManager) (r r' : String) (locks : List LockEntry) :
    (m.setLocks r locks).locksOn r' = if r' = r then locks else m.locksOn r' := by
  by_cases h : r' = r
  · subst h
    simp [setLocks,locksOn]
  · simp [h,setLocks,locksOn,AList.lookup_insert_ne h]

theorem locksOn_addLock (m : LockManager) (c : LockCall) (r : String) :
    (m.addLock c).locksOn r =
      if r = c.resource then m.locksOn c.resource++[c.entry] else m.locksOn r :=
  locksOn_setLocks m c.resource r _

theorem locksOn_releaseLock (m : LockManager) (tx : TransactionId) (r r' : String) :
    ((m.releaseLock tx r).2.locksOn r').Sublist (m.locksOn r') := by
  cases hlook : m.grantedLocks.lookup r with
  | none => simp [releaseLock,hlook]
  | some locks =>
    by_cases hr : r' = r
    · subst hr
      simp only [releaseLock,hlook,locksOn]
      split
      · simp
      · simp
    · simp only [releaseLock,hlook,locksOn]
      split
      · simp [AList.lookup_erase_ne hr]
      · simp [AList.lookup_insert_ne hr]

theorem locksOn_releaseAllLocks (m : LockManager) (tx : TransactionId) (r : String) :
    ((m.releaseAllLocks tx).locksOn r).Sublist (m.locksOn r) := by
  simp only [releaseAllLocks,locksOn,lookup_filterMapValues]
  cases hlook : m.grantedLocks.lookup r with
  | none => simp
  | some locks =>
    simp only [Option.bind_some,Option.getD_some]
    split
    · simp
    · exact List.filter_sublist

/-- The locks after a step that adds none are some of the locks before it, in any order. -/
def OnlyLess (old new : List LockEntry) : Prop :=
  (new.map LockEntry.modeAndHolder).Subperm (old.map LockEntry.modeAndHolder)

theorem OnlyLess.of_sublist {old new : List LockEntry} (h : new.Sublist old) : OnlyLess old new :=
  (h.map LockEntry.modeAndHolder).subperm

theorem OnlyLess.refl (locks : List LockEntry) : OnlyLess locks locks :=
  List.Subperm.refl _

end Locks

section Steps

/-- A step adds the lock it has checked. -/
def Grants (s : LockSystem) (op : LockOp) (r : String) : Prop :=
  ∃ c g, s.grantCheck op = some c ∧ c.resource = r ∧ canGrant c.against c.mode = true ∧
    (s.step op).manager.locksOn r = c.against++[⟨c.mode,c.holder,g⟩]

/-- A step adds no lock on the resource, and its check, if it makes one there, fails. -/
def Withholds (s : LockSystem) (op : LockOp) (r : String) : Prop :=
  (∀ c, s.grantCheck op = some c → c.resource = r → canGrant c.against c.mode = false) ∧
    OnlyLess (s.manager.locksOn r) ((s.step op).manager.locksOn r)

theorem locksOn_grantWaiting (m : LockManager) (c : LockCall) (r : String) :
    (m.grantWaiting c).locksOn r =
      if r = c.resource then m.locksOn c.resource++[c.entry] else m.locksOn r :=
  locksOn_addLock _ c r

theorem poll_locks {m : LockManager} {c : LockCall}
    (h : canGrant (m.locksOn c.resource) c.mode = false) (elapsed : ℕ) (r : String) :
    (m.poll c elapsed).2.locksOn r = m.locksOn r := by
  rcases m.poll_cases c elapsed with ⟨_,status,_,hpoll⟩ | ⟨_,hgrant,_⟩ | ⟨_,_,hpoll⟩
  · rw [hpoll]
    rfl
  · rw [hgrant] at h
    cases h
  · rw [hpoll]

theorem acquireLock_locks (s : LockSystem) (c : LockCall) (elapsed : ℕ) (r : String) :
    Grants s (.acquireLock c elapsed) r ∨ Withholds s (.acquireLock c elapsed) r := by
  by_cases hgrant : canGrant (s.manager.locksOn c.resource) c.mode = true
  · have hm : (s.step (.acquireLock c elapsed)).manager =
        (s.manager.setQueue c.resource (s.manager.queueOn c.resource)).addLock c := by
      simp [step,acquireLock,hgrant]
    by_cases hr : r = c.resource
    · subst hr
      refine Or.inl ⟨_,c.granularity,rfl,rfl,hgrant,?_⟩
      rw [hm,locksOn_addLock,if_pos rfl]
      rfl
    · have hsame : (s.step (.acquireLock c elapsed)).manager.locksOn r = s.manager.locksOn r := by
        rw [hm,locksOn_addLock,if_neg hr]
        rfl
      refine Or.inr ⟨?_,by rw [hsame]; exact OnlyLess.refl _⟩
      intro d hd hdr
      cases Option.some.inj hd
      exact absurd hdr.symm hr
  · have hnot : canGrant (s.manager.locksOn c.resource) c.mode = false := by simpa using hgrant
    have hsame : (s.step (.acquireLock c elapsed)).manager.locksOn r = s.manager.locksOn r := by
      have hpoll := poll_locks (m := s.manager.enqueue c) hnot elapsed r
      simp only [step,acquireLock,hnot]
      exact hpoll
    refine Or.inr ⟨?_,by rw [hsame]; exact OnlyLess.refl _⟩
    intro d hd _
    cases Option.some.inj hd
    exact hnot

/-- A call that stays for this turn checks the locks there are. -/
theorem grantCheck_wake {s : LockSystem} {i elapsed : ℕ} {c : LockCall}
    (hcall : s.sleeping[i]? = some c) (hstays : ¬s.manager.GivesUp c elapsed) :
    s.grantCheck (.wake i elapsed) =
      some ⟨c.resource,c.mode,c.txId,s.manager.locksOn c.resource⟩ := by
  simp only [grantCheck,hcall]
  exact if_neg hstays

theorem wake_locks (s : LockSystem) (i elapsed : ℕ) (r : String) :
    Grants s (.wake i elapsed) r ∨ Withholds s (.wake i elapsed) r := by
  cases hcall : s.sleeping[i]? with
  | none =>
    refine Or.inr ⟨by simp [grantCheck,hcall],?_⟩
    simpa [step,hcall] using OnlyLess.refl _
  | some c =>
    have hm : (s.step (.wake i elapsed)).manager = (s.manager.poll c elapsed).2 := by
      simp [step,hcall]
    rcases s.manager.poll_cases c elapsed with ⟨hgives,status,_,hpoll⟩ | ⟨hstays,hgrant,hpoll⟩ |
        ⟨hstays,hnot,hpoll⟩
    · have hnone : s.grantCheck (.wake i elapsed) = none := by
        simp only [grantCheck,hcall]
        exact if_pos hgives
      refine Or.inr ⟨by simp [hnone],?_⟩
      rw [hm,hpoll]
      exact OnlyLess.refl _
    · have hcheck := grantCheck_wake hcall hstays
      by_cases hr : r = c.resource
      · subst hr
        refine Or.inl ⟨_,c.granularity,hcheck,rfl,hgrant,?_⟩
        rw [hm,hpoll,locksOn_grantWaiting,if_pos rfl]
        rfl
      · refine Or.inr ⟨?_,?_⟩
        · intro d hd hdr
          rw [hcheck] at hd
          cases Option.some.inj hd
          exact absurd hdr.symm hr
        · rw [hm,hpoll,locksOn_grantWaiting,if_neg hr]
          exact OnlyLess.refl _
    · have hcheck := grantCheck_wake hcall hstays
      refine Or.inr ⟨?_,?_⟩
      · intro d hd _
        rw [hcheck] at hd
        cases Option.some.inj hd
        exact hnot
      · rw [hm,hpoll]
        exact OnlyLess.refl _

/-- The first lock of a transaction, what stands before it and what behind. -/
theorem split_locks {locks behind : List LockEntry} {tx : TransactionId} {old : LockEntry}
    (h : locks.dropWhile (fun e => e.holder ≠ tx) = old::behind) :
    old.holder = tx ∧ locks = locks.takeWhile (fun e => e.holder ≠ tx)++old::behind ∧
      locks.eraseP (fun e => e.holder = tx) =
        locks.takeWhile (fun e => e.holder ≠ tx)++behind := by
  have hold : old.holder = tx := by
    have hne : locks.dropWhile (fun e => e.holder ≠ tx) ≠ [] := by
      rw [h]
      exact List.cons_ne_nil old behind
    have hhead := List.head_dropWhile_not (fun e : LockEntry => decide (e.holder ≠ tx)) hne
    simp only [h,List.head_cons] at hhead
    simpa using hhead
  have hsplit : locks = locks.takeWhile (fun e => e.holder ≠ tx)++old::behind := by
    rw [← h,List.takeWhile_append_dropWhile]
  have hfront : ∀ e ∈ locks.takeWhile (fun e => e.holder ≠ tx),
      ¬decide (e.holder = tx) = true := by
    intro e he
    simpa using List.mem_takeWhile_imp he
  refine ⟨hold,hsplit,?_⟩
  conv_lhs => rw [hsplit]
  rw [List.eraseP_append_right _ hfront,List.eraseP_cons_of_pos (by simpa using hold)]

theorem upgradeLock_locks (s : LockSystem) (tx : TransactionId) (r r' : String)
    (newMode : LockMode) :
    Grants s (.upgradeLock tx r newMode) r' ∨ Withholds s (.upgradeLock tx r newMode) r' := by
  cases hlocks : (s.manager.locksOn r).dropWhile (fun e => e.holder ≠ tx) with
  | nil =>
    have hnone : ∀ e ∈ s.manager.locksOn r, e.holder ≠ tx := by
      simpa using List.dropWhile_eq_nil_iff.mp hlocks
    refine Or.inr ⟨?_,?_⟩
    · have hany : (s.manager.locksOn r).any (fun e => decide (e.holder = tx)) = false := by
        simpa using hnone
      simp [grantCheck,hany]
    · have hsame : (s.step (.upgradeLock tx r newMode)).manager.locksOn r' =
          s.manager.locksOn r' := by
        simp only [step,upgradeLock,hlocks,locksOn_setLocks]
        split
        · next hr => rw [hr]
        · rfl
      rw [hsame]
      exact OnlyLess.refl _
  | cons old behind =>
    obtain ⟨hold,hsplit,herase⟩ := split_locks hlocks
    set front := (s.manager.locksOn r).takeWhile fun e => e.holder ≠ tx with hfront
    have hhas : (s.manager.locksOn r).any (fun e => decide (e.holder = tx)) = true := by
      rw [hsplit]
      simp [hold]
    have hcheck : s.grantCheck (.upgradeLock tx r newMode) =
        some ⟨r,newMode,tx,front++behind⟩ := by
      simp only [grantCheck,hhas,if_true,herase]
    by_cases hr : r' = r
    · subst hr
      by_cases hgrant : canGrant (front++behind) newMode = true
      · refine Or.inl ⟨_,(behind.headD old).granularity,hcheck,rfl,hgrant,?_⟩
        simp only [step,upgradeLock,hlocks,← hfront,hgrant,if_true,locksOn_setLocks]
      · refine Or.inr ⟨?_,?_⟩
        · intro d hd _
          rw [hcheck] at hd
          cases Option.some.inj hd
          simpa using hgrant
        · have hnew : (s.step (.upgradeLock tx r' newMode)).manager.locksOn r' =
              front++behind++[⟨old.mode,tx,(behind.headD old).granularity⟩] := by
            simp only [step,upgradeLock,hlocks,← hfront,if_neg hgrant,locksOn_setLocks,if_true]
          rw [hnew,hsplit,OnlyLess]
          simp only [List.map_append,List.map_cons,List.map_nil,LockEntry.modeAndHolder,hold]
          apply List.Perm.subperm
          rw [List.append_assoc]
          exact (List.perm_append_singleton _ _).append_left _
    · refine Or.inr ⟨?_,?_⟩
      · intro d hd hdr
        rw [hcheck] at hd
        cases Option.some.inj hd
        exact absurd hdr.symm hr
      · have hsame : (s.step (.upgradeLock tx r newMode)).manager.locksOn r' =
            s.manager.locksOn r' := by
          simp only [step,upgradeLock,hlocks]
          split <;> simp only [locksOn_setLocks,if_neg hr]
        rw [hsame]
        exact OnlyLess.refl _

/-- What a step can do to the locks of a resource. -/
theorem step_locks (s : LockSystem) (op : LockOp) (r : String) :
    Grants s op r ∨ Withholds s op r := by
  cases op with
  | acquireLock c elapsed => exact acquireLock_locks s c elapsed r
  | wake i elapsed => exact wake_locks s i elapsed r
  | releaseLock tx r' =>
    exact Or.inr ⟨by simp [grantCheck],OnlyLess.of_sublist (locksOn_releaseLock _ tx r' r)⟩
  | releaseAllLocks tx =>
    exact Or.inr ⟨by simp [grantCheck],OnlyLess.of_sublist (locksOn_releaseAllLocks _ tx r)⟩
  | upgradeLock tx r' newMode => exact upgradeLock_locks s tx r' r newMode

/-- A new lock is checked against locks there are. -/
theorem grantCheck_against {s : LockSystem} {op : LockOp} {c : GrantCheck}
    (h : s.grantCheck op = some c) : c.against.Sublist (s.manager.locksOn c.resource) := by
  cases op with
  | acquireLock _ _ =>
    cases Option.some.inj h
    exact List.Sublist.refl _
  | wake i _ =>
    simp only [grantCheck] at h
    split at h
    · cases h
    · split at h
      · cases h
      · cases Option.some.inj h
        exact List.Sublist.refl _
  | upgradeLock tx r newMode =>
    simp only [grantCheck] at h
    split at h
    · cases Option.some.inj h
      exact List.eraseP_sublist
    · cases h
  | releaseLock _ _ => cases h
  | releaseAllLocks _ => cases h

/-- A property of all states of a run from one of its start and of each of its steps. -/
theorem run_induction {P : LockSystem → Prop} (hnew : P new)
    (hstep : ∀ s op, P s → P (s.step op)) (ops : List LockOp) : P (run ops) := by
  induction ops using List.reverseRecOn with
  | nil => exact hnew
  | append_singleton ops op ih =>
    rw [run,List.foldl_append,List.foldl_cons,List.foldl_nil]
    exact hstep _ op ih

end Steps

section Compatibility

theorem areCompatible_symm (a b : LockMode) : areCompatible a b = areCompatible b a := by
  cases a <;> cases b <;> rfl

/-- Compatible in both orders of the arguments. -/
def Compatible (a b : LockMode × TransactionId) : Prop :=
  areCompatible a.1 b.1 = true ∧ areCompatible b.1 a.1 = true

theorem Compatible.symm {a b : LockMode × TransactionId} (h : Compatible a b) : Compatible b a :=
  ⟨h.2,h.1⟩

/-- No two of the locks on any resource conflict. -/
def ConflictFree (s : LockSystem) : Prop :=
  ∀ r, ((s.manager.locksOn r).map LockEntry.modeAndHolder).Pairwise Compatible

theorem Pairwise.onlyLess {old new : List LockEntry} {R : LockMode × TransactionId →
    LockMode × TransactionId → Prop} (hsymm : ∀ {a b}, R a b → R b a)
    (h : (old.map LockEntry.modeAndHolder).Pairwise R) (hless : OnlyLess old new) :
    (new.map LockEntry.modeAndHolder).Pairwise R := by
  obtain ⟨l,hperm,hsub⟩ := hless
  exact (h.sublist hsub).perm hperm hsymm

theorem ConflictFree.step {s : LockSystem} (h : ConflictFree s) (op : LockOp) :
    ConflictFree (s.step op) := by
  intro r
  rcases step_locks s op r with ⟨c,g,hcheck,rfl,hgrant,hnew⟩ | ⟨_,hless⟩
  · have hold := (h c.resource).sublist ((grantCheck_against hcheck).map LockEntry.modeAndHolder)
    rw [hnew,List.map_append,List.pairwise_append]
    refine ⟨hold,List.pairwise_singleton _ _,?_⟩
    intro a ha b hb
    obtain ⟨e,he,rfl⟩ := List.mem_map.mp ha
    rw [List.mem_singleton.mp hb]
    have hcan : areCompatible e.mode c.mode = true := List.all_eq_true.mp hgrant e he
    exact ⟨hcan,by rw [areCompatible_symm]; exact hcan⟩
  · exact Pairwise.onlyLess Compatible.symm (h r) hless

theorem conflictFree_run (ops : List LockOp) : ConflictFree (run ops) := by
  apply run_induction
  · intro r
    exact List.Pairwise.nil
  · intro s op h
    exact h.step op

/-- In every state of every run, the locks of a resource are compatible with each other, and an
exclusive lock is the only one. -/
theorem granted_locks_never_conflict (ops : List LockOp) (r : String) (locks : List LockEntry)
    (h : (run ops).manager.grantedLocks.lookup r = some locks) :
    (∀ i j : Fin locks.length, i ≠ j →
      areCompatible (locks.get i).mode (locks.get j).mode = true ∧
      areCompatible (locks.get j).mode (locks.get i).mode = true) ∧
    ∀ e ∈ locks, e.mode = .exclusive → locks = [e] := by
  have hlocks : (run ops).manager.locksOn r = locks := by rw [locksOn,h,Option.getD_some]
  have hpair : locks.Pairwise fun a b => Compatible a.modeAndHolder b.modeAndHolder := by
    rw [← hlocks]
    exact List.pairwise_map.mp (conflictFree_run ops r)
  have hboth : ∀ i j : Fin locks.length, i ≠ j →
      Compatible (locks.get i).modeAndHolder (locks.get j).modeAndHolder := by
    intro i j hne
    rcases lt_or_gt_of_ne hne with hlt | hlt
    · exact List.pairwise_iff_get.mp hpair i j hlt
    · exact (List.pairwise_iff_get.mp hpair j i hlt).symm
  refine ⟨hboth,?_⟩
  intro e he hexclusive
  obtain ⟨i,hi⟩ := List.mem_iff_get.mp he
  have honly : ∀ j, j = i := by
    intro j
    by_contra hne
    have hcompat := (hboth i j (Ne.symm hne)).1
    simp only [hi,LockEntry.modeAndHolder,hexclusive] at hcompat
    simp [areCompatible] at hcompat
  have hlength : locks.length = 1 := by
    have hi' := i.isLt
    by_contra hne
    have hlast := honly ⟨locks.length-1,by omega⟩
    have hfirst := honly ⟨0,by omega⟩
    have hval : locks.length-1 = 0 := congrArg Fin.val (hlast.trans hfirst.symm)
    omega
  obtain ⟨a,ha⟩ := List.length_eq_one_iff.mp hlength
  rw [ha] at he ⊢
  rw [List.mem_singleton.mp he]

theorem granted_locks_never_conflict_two_readers :
    (run [.acquireLock ⟨1,"t",.shared,.table,5000⟩ 0,.acquireLock ⟨2,"t",.shared,.table,5000⟩ 0,
      .acquireLock ⟨3,"t",.exclusive,.table,5000⟩ 7]).manager.grantedLocks.lookup "t" =
        some [⟨.shared,1,.table⟩,⟨.shared,2,.table⟩] ∧
    areCompatible .shared .shared = true := by
  have hlook : (run [.acquireLock ⟨1,"t",.shared,.table,5000⟩ 0,
      .acquireLock ⟨2,"t",.shared,.table,5000⟩ 0,
      .acquireLock ⟨3,"t",.exclusive,.table,5000⟩ 7]).manager.grantedLocks.lookup "t" =
        some [⟨.shared,1,.table⟩,⟨.shared,2,.table⟩] := by decide
  exact ⟨hlook,((granted_locks_never_conflict _ "t" _ hlook).1 0 1 (by decide)).1⟩

end Compatibility

section ReadersAndWriters

def reads (mode : LockMode) : Prop := mode = .shared ∨ mode = .sharedIntentExclusive

def writes (mode : LockMode) : Prop :=
  mode = .intentExclusive ∨ mode = .sharedIntentExclusive ∨ mode = .exclusive

/-- Nobody reads a resource that another transaction writes. -/
def ReadersExcludeWriters (s : LockSystem) : Prop :=
  ∀ r, ∀ e ∈ s.manager.locksOn r, ∀ e' ∈ s.manager.locksOn r,
    e.holder ≠ e'.holder → reads e.mode → ¬writes e'.mode

/-- A shared lock beside a lock that is shared and intends to write. -/
def SharedBesideSix (a b : LockMode) : Prop :=
  a = .shared ∧ b = .sharedIntentExclusive ∨ a = .sharedIntentExclusive ∧ b = .shared

/-- The lock that a step is about to grant does not come to stand beside such a lock of another
transaction. -/
def KeepsSixApart (s : LockSystem) (op : LockOp) : Prop :=
  ∀ c, s.grantCheck op = some c → canGrant c.against c.mode = true →
    ∀ e ∈ c.against, e.holder ≠ c.holder → ¬SharedBesideSix e.mode c.mode

/-- The matrix separates readers from writers in all cases but one. -/
theorem sharedBesideSix_of_compatible {a b : LockMode} (h : areCompatible a b = true)
    (hrw : reads a ∧ writes b ∨ reads b ∧ writes a) :
    SharedBesideSix a b ∨ SharedBesideSix b a := by
  cases a <;> cases b <;> simp_all [reads,writes,areCompatible,SharedBesideSix]

theorem SharedBesideSix.symm {a b : LockMode} (h : SharedBesideSix a b) : SharedBesideSix b a :=
  Or.imp And.symm And.symm (Or.symm h)

/-- Away from that case, locks that are compatible exclude readers from writers. -/
theorem not_writes_of_compatible {a b : LockMode} (h : areCompatible a b = true)
    (hapart : ¬SharedBesideSix a b) : (reads a → ¬writes b) ∧ (reads b → ¬writes a) := by
  have hnone : ¬(reads a ∧ writes b ∨ reads b ∧ writes a) := by
    intro hrw
    rcases sharedBesideSix_of_compatible h hrw with hab | hba
    · exact hapart hab
    · exact hapart hba.symm
  rw [not_or] at hnone
  exact ⟨fun ha hb => hnone.1 ⟨ha,hb⟩,fun hb ha => hnone.2 ⟨hb,ha⟩⟩

/-- Every lock after a step that adds none was there before, but for its granularity. -/
theorem OnlyLess.exists_old {old new : List LockEntry} (h : OnlyLess old new) {e : LockEntry}
    (he : e ∈ new) : ∃ e' ∈ old, e'.mode = e.mode ∧ e'.holder = e.holder := by
  have hmem : e.modeAndHolder ∈ old.map LockEntry.modeAndHolder :=
    h.subset (List.mem_map_of_mem he)
  obtain ⟨e',he',heq⟩ := List.mem_map.mp hmem
  exact ⟨e',he',congrArg Prod.fst heq,congrArg Prod.snd heq⟩

theorem ReadersExcludeWriters.step {s : LockSystem} (h : ReadersExcludeWriters s) {op : LockOp}
    (hop : KeepsSixApart s op) : ReadersExcludeWriters (s.step op) := by
  intro r e he e' he' hne
  rcases step_locks s op r with ⟨c,g,hcheck,rfl,hgrant,hnew⟩ | ⟨_,hless⟩
  · have hsub := (grantCheck_against hcheck).subset
    have hbeside : ∀ x ∈ c.against, x.holder ≠ c.holder →
        (reads x.mode → ¬writes c.mode) ∧ (reads c.mode → ¬writes x.mode) := by
      intro x hx hholder
      exact not_writes_of_compatible (List.all_eq_true.mp hgrant x hx)
        (hop c hcheck hgrant x hx hholder)
    rw [hnew,List.mem_append,List.mem_singleton] at he he'
    rcases he with hold | rfl
    · rcases he' with hold' | rfl
      · exact h c.resource e (hsub hold) e' (hsub hold') hne
      · exact (hbeside e hold hne).1
    · rcases he' with hold' | rfl
      · exact (hbeside e' hold' hne.symm).2
      · exact absurd rfl hne
  · obtain ⟨x,hx,hxm,hxh⟩ := hless.exists_old he
    obtain ⟨x',hx',hxm',hxh'⟩ := hless.exists_old he'
    rw [← hxm,← hxm']
    exact h r x hx x' hx' (by rwa [hxh,hxh'])

theorem KeepsSixApart.of_step {s : LockSystem} {op : LockOp}
    (h : ReadersExcludeWriters (s.step op)) : KeepsSixApart s op := by
  intro c hcheck hgrant e he hholder hsix
  rcases step_locks s op c.resource with ⟨d,g,hd,_,_,hnew⟩ | ⟨hnot,_⟩
  · rw [hcheck] at hd
    cases Option.some.inj hd
    have hold : e ∈ (s.step op).manager.locksOn c.resource := by
      rw [hnew]
      exact List.mem_append_left _ he
    have hadded : (⟨c.mode,c.holder,g⟩ : LockEntry) ∈ (s.step op).manager.locksOn c.resource := by
      rw [hnew]
      exact List.mem_append_right _ (List.mem_singleton_self _)
    rcases hsix with ⟨hs,hx⟩ | ⟨hx,hs⟩
    · exact h c.resource e hold _ hadded hholder (Or.inl hs) (Or.inr (Or.inl hx))
    · exact h c.resource _ hadded e hold hholder.symm (Or.inl hs) (Or.inr (Or.inl hx))
  · rw [hnot c hcheck rfl] at hgrant
    cases hgrant

/-- Readers exclude writers in all states of a run exactly if no step of it grants a shared lock
beside another transaction's lock that is shared and intends to write, or the other way round. -/
theorem readers_exclude_writers_iff (ops : List LockOp) :
    (∀ past future, ops = past++future → ReadersExcludeWriters (run past)) ↔
      ∀ past op future, ops = past++op::future → KeepsSixApart (run past) op := by
  have hnew : ReadersExcludeWriters new := by
    intro r e he
    cases he
  exact Runs.always_iff_eachStep hnew (fun _ h => h) (fun _ _ h hop => h.step hop)
    (fun _ _ _ h => KeepsSixApart.of_step h) ops

/-- The first transaction holds a shared lock when the second gets its lock that is shared and
intends to write. -/
theorem readers_exclude_writers_fails :
    ¬ReadersExcludeWriters (run [.acquireLock ⟨1,"t",.shared,.table,5000⟩ 0,
      .acquireLock ⟨2,"t",.sharedIntentExclusive,.table,5000⟩ 0]) := by
  intro h
  have hlocks : (run [.acquireLock ⟨1,"t",.shared,.table,5000⟩ 0,
      .acquireLock ⟨2,"t",.sharedIntentExclusive,.table,5000⟩ 0]).manager.locksOn "t" =
        [⟨.shared,1,.table⟩,⟨.sharedIntentExclusive,2,.table⟩] := by decide
  have hpair := h "t"
  rw [hlocks] at hpair
  exact hpair ⟨.shared,1,.table⟩ (by simp) ⟨.sharedIntentExclusive,2,.table⟩ (by simp) (by decide)
    (Or.inl rfl) (Or.inr (Or.inl rfl))

end ReadersAndWriters

end LockSystem
end OrangeSQL
