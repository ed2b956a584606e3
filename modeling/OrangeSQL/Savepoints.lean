import Mathlib.Data.List.TakeWhile
import OrangeSQL.Library.Runs
import OrangeSQL.TransactionManager

/-! The savepoints of a transaction as a stack with names. The newest is last, while a name is looked
for from the first on. -/
namespace OrangeSQL
namespace Transaction

def setLastLSN (t : Transaction) (lsn : LogSequenceNumber) : Transaction := { t with lastLsn := lsn }

/-- The calls on a transaction that matter for its savepoints: these, and what they read. -/
inductive SavepointOp
  | createSavepoint (name : List UInt8)
  | rollbackToSavepoint (name : List UInt8)
  | releaseSavepoint (name : List UInt8)
  | setLastLSN (lsn : LogSequenceNumber)

def savepointStep (t : Transaction) : SavepointOp → Transaction
  | .createSavepoint name => t.createSavepoint name
  | .rollbackToSavepoint name => t.rollbackToSavepoint name
  | .releaseSavepoint name => t.releaseSavepoint name
  | .setLastLSN lsn => t.setLastLSN lsn

/-- Both calls find the newest savepoint of a name: a rollback takes it out with all created after
it, a release takes it out alone, and those created before it are still there. -/
def ResolvesNewest (t : Transaction) : Prop :=
  ∀ earlier sp later, t.savepoints = earlier++sp::later → (∀ s ∈ later, s.name ≠ sp.name) →
    (t.rollbackToSavepoint sp.name).savepoints = earlier ∧
    (t.releaseSavepoint sp.name).savepoints = earlier++later

def UniqueNames (t : Transaction) : Prop := (t.savepoints.map Savepoint.name).Nodup

/-- A new savepoint has a name that no savepoint of the transaction has. -/
def FreshName (t : Transaction) : SavepointOp → Prop
  | .createSavepoint name => ∀ s ∈ t.savepoints, s.name ≠ name
  | _ => True

variable {t : Transaction}

theorem uniqueNames_of_split (h : ∀ front sp back, t.savepoints = front++sp::back →
    ∀ s ∈ back, sp.name ≠ s.name) : t.UniqueNames := by
  have hpairs : ∀ l front, t.savepoints = front++l → (l.map Savepoint.name).Nodup := by
    intro l
    induction l with
    | nil => exact fun _ _ => List.nodup_nil
    | cons sp back ih =>
      intro front hl
      rw [List.map_cons,List.nodup_cons]
      refine ⟨?_,ih (front++[sp]) (by simp [hl])⟩
      intro hmem
      obtain ⟨s,hs,hname⟩ := List.mem_map.mp hmem
      exact h front sp back hl s hs hname.symm
  exact hpairs t.savepoints [] rfl

theorem ResolvesNewest.uniqueNames (h : t.ResolvesNewest) : t.UniqueNames := by
  apply uniqueNames_of_split
  intro front sp back hl s hs hname
  -- the last of the name behind the first one
  obtain ⟨sp',_,⟨mid,later,rfl,hlater⟩,hsp'⟩ := AssocList.exists_lastTo
    (f := fun x : Savepoint => some (x.name,())) (a := sp.name) (b := ()) hs (by simp [hname])
  have hname' : sp'.name = sp.name := (Prod.mk.inj (Option.some.inj hsp')).1
  have hnone : ∀ x ∈ later, x.name ≠ sp'.name := by
    intro x hx heq
    exact hlater x hx () (congrArg (fun name => some (name,())) (heq.trans hname'))
  have hroll := (h (front++sp::mid) sp' later (by simp [hl]) hnone).1
  have hmem : sp ∈ t.savepoints.takeWhile fun x => x.name ≠ sp'.name := by
    change sp ∈ (t.rollbackToSavepoint sp'.name).savepoints
    rw [hroll]
    simp
  have hpass := List.mem_takeWhile_imp hmem
  exact of_decide_eq_true hpass hname'.symm

theorem UniqueNames.resolvesNewest (h : t.UniqueNames) : t.ResolvesNewest := by
  intro earlier sp later hl _
  rw [UniqueNames,hl,List.map_append,List.nodup_append] at h
  have hother : ∀ s ∈ earlier, s.name ≠ sp.name := by
    intro s hs
    exact h.2.2 s.name (List.mem_map_of_mem hs) sp.name (by simp)
  constructor
  · have hpass : ∀ s ∈ earlier, decide (s.name ≠ sp.name) = true :=
      fun s hs => decide_eq_true (hother s hs)
    simp only [rollbackToSavepoint,hl]
    rw [List.takeWhile_append_of_pos hpass,List.takeWhile_cons_of_neg (by simp),List.append_nil]
  · have hpass : ∀ s ∈ earlier, ¬decide (s.name = sp.name) = true := by
      intro s hs
      simpa using hother s hs
    simp only [releaseSavepoint,hl]
    rw [List.eraseP_append_right _ hpass,List.eraseP_cons_of_pos (by simp)]

/-- Only a creation can bring a name a second time. -/
theorem UniqueNames.step (h : t.UniqueNames) {op : SavepointOp} (hop : t.FreshName op) :
    (t.savepointStep op).UniqueNames := by
  cases op with
  | createSavepoint name =>
    have hnot : name ∉ t.savepoints.map Savepoint.name := by
      intro hmem
      obtain ⟨s,hs,hname⟩ := List.mem_map.mp hmem
      exact hop s hs hname
    simp only [UniqueNames,savepointStep,createSavepoint,List.map_append,List.map_cons,
      List.map_nil]
    exact List.nodup_append_comm.mp (List.nodup_cons.mpr ⟨hnot,h⟩)
  | rollbackToSavepoint name => exact h.sublist ((List.takeWhile_sublist _).map _)
  | releaseSavepoint name => exact h.sublist (List.eraseP_sublist.map _)
  | setLastLSN lsn => exact h

theorem FreshName.of_step {op : SavepointOp} (h : (t.savepointStep op).UniqueNames) :
    t.FreshName op := by
  cases op with
  | createSavepoint name =>
    intro s hs hname
    simp only [UniqueNames,savepointStep,createSavepoint,List.map_append,List.map_cons,
      List.map_nil,List.nodup_append] at h
    exact h.2.2 s.name (List.mem_map_of_mem hs) name (by simp) hname
  | rollbackToSavepoint name => trivial
  | releaseSavepoint name => trivial
  | setLastLSN lsn => trivial

/-- Names mean the newest savepoint all along a run of calls exactly if no creation repeats the name
of a savepoint that is still there. -/
theorem resolvesNewest_iff (id : TransactionId) (isolation : IsolationLevel) (mode : AccessMode)
    (now : ℤ) (ops : List SavepointOp) :
    (∀ past future, ops = past++future →
        (past.foldl savepointStep (new id isolation mode now)).ResolvesNewest) ↔
      ∀ past op future, ops = past++op::future →
        (past.foldl savepointStep (new id isolation mode now)).FreshName op := by
  have hnew : (new id isolation mode now).UniqueNames := List.nodup_nil
  exact Runs.always_iff_eachStep hnew (fun _ h => h.resolvesNewest) (fun _ _ h hop => h.step hop)
    (fun _ _ _ h => FreshName.of_step h.uniqueNames) ops

/-- A savepoint `a`, then `b`, then `a` again: a rollback to `a` goes back to the first one. -/
theorem not_resolvesNewest_repeated :
    ¬([.createSavepoint [97],.createSavepoint [98],.createSavepoint [97]].foldl savepointStep
      (new 1 .serializable .readWrite 0)).ResolvesNewest := by
  intro h
  have hroll := (h [⟨[97],0⟩,⟨[98],0⟩] ⟨[97],0⟩ [] rfl (by simp)).1
  cases hroll

end Transaction
end OrangeSQL
