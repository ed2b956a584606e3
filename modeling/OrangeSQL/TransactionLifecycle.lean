import OrangeSQL.CheckpointUndo

/-! The life of the transactions of a manager: begun, changed and ended by calls on pointers that
`begin` has returned. Beside the manager a run keeps what it has promised so far: the ids handed
out, the ids that were committed or aborted, and the records that the manager has logged. -/
namespace OrangeSQL

open LogManager

structure Lifecycle where
  manager : TransactionManager
  begun : List TransactionId
  ended : List TransactionId
  logged : List LogRecord

/-- The calls that can end a transaction. -/
inductive EndCall
  | commit (pages : List PageId) (order : List TransactionId) (now : ℤ)
  | abort (order : List TransactionId) (now : ℤ)
  | rollback (order : List TransactionId) (now : ℤ)

inductive LifecycleCall
  | begin (isolation : IsolationLevel) (mode : AccessMode) (now : ℤ)
  | ending (id : TransactionId) (call : EndCall)
  | savepoint (id : TransactionId) (name : List UInt8) (now : ℤ)
  | addModifiedPage (id : TransactionId) (pid : PageId) (lsn : UInt32)

namespace TransactionManager

/-- The transaction behind a pointer, as long as the manager owns it. -/
def object (m : TransactionManager) (id : TransactionId) : Option Transaction :=
  (m.activeTransactions.lookup id).or (m.completedTransactions.lookup id)

end TransactionManager

namespace EndCall

def run (m : TransactionManager) (id : TransactionId) : EndCall → Status × TransactionManager
  | .commit pages order now => m.commit id pages order now []
  | .abort order now => m.abort id order now
  | .rollback order now => m.rollback id order now

/-- The orders are ones of the hash maps that the call walks through. -/
def Ordered (m : TransactionManager) (tx : Transaction) : EndCall → Prop
  | .commit pages order _ => Engine.Lists pages tx.modifiedPages.keys ∧
      Engine.Lists order (insert tx.id m.completedTransactions.keys)
  | .abort order _ => Engine.Lists order (insert tx.id m.completedTransactions.keys)
  | .rollback order _ => Engine.Lists order (insert tx.id m.completedTransactions.keys)

instance (m : TransactionManager) (tx : Transaction) (c : EndCall) : Decidable (c.Ordered m tx) :=
  match c with
  | .commit _ _ _ => inferInstanceAs (Decidable (_ ∧ _))
  | .abort order _ => inferInstanceAs (Decidable (Engine.Lists order _))
  | .rollback order _ => inferInstanceAs (Decidable (Engine.Lists order _))

end EndCall

namespace Lifecycle

/-- A manager over any pool and log, after `setMaxTransactions`. -/
def start (pool : BufferPool) (log : LogManager) (maxTransactions : ℕ) : Lifecycle :=
  ⟨{ TransactionManager.new pool log with maxTransactions := maxTransactions },[],[],[]⟩

/-- The manager goes on to another state; what it appended to its log is noted. -/
def follow (s : Lifecycle) (m : TransactionManager) : Lifecycle :=
  { s with
    manager := m
    logged := s.logged++appendedSince s.manager.logManager m.logManager }

/-- Every call looks at the state of the transaction first. -/
def endCall (s : Lifecycle) (id : TransactionId) (c : EndCall) : Option (Status × Lifecycle) :=
  match s.manager.object id with
  | none => none
  | some tx =>
    if tx.state ≠ .active then some (.error,s)
    else if c.Ordered s.manager tx then
      let (status,m) := c.run s.manager id
      some (status,{ s.follow m with
        ended := if status = .ok then s.ended++[id] else s.ended })
    else none

def savepoint (s : Lifecycle) (id : TransactionId) (name : List UInt8) (now : ℤ) :
    Option (Status × Lifecycle) :=
  match s.manager.object id with
  | none => none
  | some tx =>
    if tx.state ≠ .active then some (.error,s)
    else
      let (status,m) := s.manager.savepoint id name now
      some (status,s.follow m)

/-- One call; there is none through a pointer to a transaction that is gone. -/
def call (s : Lifecycle) : LifecycleCall → Option Lifecycle
  | .begin isolation mode now =>
    let (id,m) := s.manager.begin isolation mode now
    some { s.follow m with begun := s.begun++id.toList }
  | .ending id c => (s.endCall id c).map Prod.snd
  | .savepoint id name now => (s.savepoint id name now).map Prod.snd
  | .addModifiedPage id pid lsn => some (s.follow (Engine.addModifiedPage s.manager id pid lsn))

/-- The states of all runs. -/
inductive Reaches (s : Lifecycle) : Lifecycle → Prop
  | start : Reaches s s
  | call {t t' : Lifecycle} {c : LifecycleCall} :
      Reaches s t → t.call c = some t' → Reaches s t'

section Effects

variable {s s' : Lifecycle}

@[simp] theorem appendedSince_self (m : LogManager) : appendedSince m m = [] := by
  simp [appendedSince]

@[simp] theorem follow_self (s : Lifecycle) : s.follow s.manager = s := by
  simp [follow]

/-- What a call does to the run, if it does anything. -/
inductive Effect (s s' : Lifecycle) : Prop
  | nothing (h : s' = s)
  | begins (tx : Transaction) (r : LogRecord)
      (room : s.manager.activeTransactions.keys.card < s.manager.maxTransactions)
      (fresh : tx.id = s.manager.nextTxId ∧ tx.state = .active)
      (record : r.type = .begin ∧ r.transactionId = s.manager.nextTxId)
      (active : s'.manager.activeTransactions =
        s.manager.activeTransactions.insert s.manager.nextTxId tx)
      (completed : s'.manager.completedTransactions = s.manager.completedTransactions)
      (next : s'.manager.nextTxId = s.manager.nextTxId+1)
      (max : s'.manager.maxTransactions = s.manager.maxTransactions)
      (ghost : s'.begun = s.begun++[s.manager.nextTxId] ∧ s'.ended = s.ended ∧
        s'.logged = s.logged++[r])
  | ends (id : TransactionId) (tx tx' : Transaction) (r : LogRecord)
      (found : s.manager.activeTransactions.lookup id = some tx)
      (closed : tx'.id = tx.id ∧ (tx'.state = .committed ∨ tx'.state = .aborted))
      (record : (r.type = .commit ∨ r.type = .abort) ∧ r.transactionId = tx.id)
      (active : s'.manager.activeTransactions = s.manager.activeTransactions.erase tx.id)
      (completed : ∀ k t, s'.manager.completedTransactions.lookup k = some t →
        k = tx.id ∧ t = tx' ∨ s.manager.completedTransactions.lookup k = some t)
      (next : s'.manager.nextTxId = s.manager.nextTxId)
      (max : s'.manager.maxTransactions = s.manager.maxTransactions)
      (ghost : s'.begun = s.begun ∧ s'.ended = s.ended++[id] ∧ s'.logged = s.logged++[r])
  | changes (id : TransactionId) (tx tx' : Transaction) (rs : List LogRecord)
      (found : s.manager.activeTransactions.lookup id = some tx)
      (kept : tx'.id = tx.id ∧ tx'.state = tx.state)
      (records : ∀ r ∈ rs, r.type = .savepoint ∧ r.transactionId = id)
      (active : s'.manager.activeTransactions = s.manager.activeTransactions.insert id tx')
      (completed : s'.manager.completedTransactions = s.manager.completedTransactions)
      (next : s'.manager.nextTxId = s.manager.nextTxId)
      (max : s'.manager.maxTransactions = s.manager.maxTransactions)
      (ghost : s'.begun = s.begun ∧ s'.ended = s.ended ∧ s'.logged = s.logged++rs)

theorem begin_effect (isolation : IsolationLevel) (mode : AccessMode) (now : ℤ)
    (h : s.call (.begin isolation mode now) = some s') : Effect s s' := by
  by_cases hfull : s.manager.maxTransactions ≤ s.manager.activeTransactions.keys.card
  · apply Effect.nothing
    simpa [call,TransactionManager.begin,hfull] using h.symm
  · have hroom := Nat.not_le.mp hfull
    simp only [call,TransactionManager.begin,hfull,if_false,Option.some.injEq] at h
    subst h
    refine .begins _ (s.manager.logManager.stamp (makeRecord .begin s.manager.nextTxId
      invalidPageId none) now) hroom ⟨rfl,rfl⟩ ⟨rfl,rfl⟩ rfl rfl rfl rfl ⟨rfl,rfl,?_⟩
    exact congrArg (s.logged++·) (appendedSince_append _ _ _)

/-- The completed transactions after one more is filed. -/
theorem archive_lookup (m : TransactionManager) (tx : Transaction) (order : List TransactionId)
    {k : TransactionId} {t : Transaction}
    (h : (m.archiveCompletedTransaction tx order).completedTransactions.lookup k = some t) :
    k = tx.id ∧ t = tx ∨ m.completedTransactions.lookup k = some t := by
  have hinsert : (m.completedTransactions.insert tx.id tx).lookup k = some t := by
    unfold TransactionManager.archiveCompletedTransaction at h
    dsimp only at h
    split_ifs at h
    · cases hmin : TransactionManager.minElement (fun id =>
          ((m.completedTransactions.insert tx.id tx).lookup id).elim 0 Transaction.startTime)
          order with
      | none => simpa [hmin] using h
      | some oldest =>
        rw [hmin] at h
        exact (FiniteMap.lookup_erase_cases h).2
    · exact h
  exact FiniteMap.lookup_insert_cases hinsert

/-- `pool` is the buffer pool after the pages of the transaction were written. -/
theorem finish_effect (pool : BufferPool) {id : TransactionId} {tx : Transaction}
    (hlook : s.manager.activeTransactions.lookup id = some tx) {type : LogRecordType}
    (htype : type = .commit ∨ type = .abort) {state : TransactionState}
    (hstate : state = .committed ∨ state = .aborted) (order : List TransactionId) (now : ℤ) :
    Effect s { s.follow ({ s.manager with bufferPool := pool }.finish tx type state order now) with
      ended := s.ended++[id] } := by
  let lsn := (s.manager.appendRecord type tx.id none now).1
  refine .ends id tx { tx with lastLsn := lsn, state := state }
    (s.manager.logManager.stamp (makeRecord type tx.id invalidPageId none) now) hlook
    ⟨rfl,hstate⟩ ⟨htype,rfl⟩ rfl ?_ rfl rfl ⟨rfl,rfl,?_⟩
  · intro k t ht
    exact archive_lookup _ _ _ ht
  · exact congrArg (s.logged++·) (appendedSince_append _ _ _)

/-- A call that can end a transaction fails, or ends an active one. -/
theorem endCall_run_cases (m : TransactionManager) (id : TransactionId) (c : EndCall) :
    c.run m id = (.error,m) ∨
    ∃ tx pool type state order now, m.activeTransactions.lookup id = some tx ∧
      (type = .commit ∨ type = .abort) ∧ (state = .committed ∨ state = .aborted) ∧
      c.run m id = (.ok,{ m with bufferPool := pool }.finish tx type state order now) := by
  cases hlook : m.activeTransactions.lookup id with
  | none =>
    left
    cases c <;> simp [EndCall.run,TransactionManager.commit,TransactionManager.rollback,
      TransactionManager.abort,hlook]
  | some tx =>
    by_cases hactive : tx.state = .active
    · right
      cases c with
      | commit pages order now =>
        refine ⟨tx,m.bufferPool.flushAll pages,.commit,.committed,order,now,rfl,Or.inl rfl,
          Or.inl rfl,?_⟩
        rw [EndCall.run,TransactionManager.commit,hlook]
        exact if_neg (not_not.mpr hactive)
      | abort order now =>
        refine ⟨tx,m.bufferPool,.abort,.aborted,order,now,rfl,Or.inr rfl,Or.inr rfl,?_⟩
        simp [EndCall.run,TransactionManager.abort,TransactionManager.undoTransaction,hlook,hactive]
      | rollback order now =>
        refine ⟨tx,m.bufferPool,.abort,.aborted,order,now,rfl,Or.inr rfl,Or.inr rfl,?_⟩
        simp [EndCall.run,TransactionManager.rollback,TransactionManager.abort,
          TransactionManager.undoTransaction,hlook,hactive]
    · left
      cases c <;> simp [EndCall.run,TransactionManager.commit,TransactionManager.rollback,
        TransactionManager.abort,hlook,hactive]

theorem endCall_effect {id : TransactionId} {c : EndCall} {status : Status}
    (h : s.endCall id c = some (status,s')) : Effect s s' := by
  unfold endCall at h
  cases hobj : s.manager.object id with
  | none => simp [hobj] at h
  | some o =>
    simp only [hobj] at h
    by_cases hstate : o.state = .active
    · by_cases hord : c.Ordered s.manager o
      · rw [if_neg (not_not.mpr hstate),if_pos hord] at h
        rcases endCall_run_cases s.manager id c with hrun |
          ⟨tx,pool,type,state,order,now,hlook,htype,hclosed,hrun⟩
        · simp only [hrun,follow_self,reduceCtorEq,if_false] at h
          exact .nothing (Prod.mk.inj (Option.some.inj h)).2.symm
        · simp only [hrun,if_true] at h
          rw [← (Prod.mk.inj (Option.some.inj h)).2]
          exact finish_effect pool hlook htype hclosed order now
      · simp [hstate,hord] at h
    · rw [if_pos hstate] at h
      exact .nothing (Prod.mk.inj (Option.some.inj h)).2.symm

theorem savepoint_effect {id : TransactionId} {name : List UInt8} {now : ℤ} {status : Status}
    (h : s.savepoint id name now = some (status,s')) : Effect s s' := by
  unfold savepoint at h
  cases hobj : s.manager.object id with
  | none => simp [hobj] at h
  | some o =>
    simp only [hobj] at h
    split_ifs at h with hstate
    · exact .nothing (Prod.mk.inj (Option.some.inj h)).2.symm
    · rw [← (Prod.mk.inj (Option.some.inj h)).2]
      cases hlook : s.manager.activeTransactions.lookup id with
      | none =>
        apply Effect.nothing
        simp [TransactionManager.savepoint,TransactionManager.update,hlook]
      | some tx =>
        by_cases hactive : tx.state = .active
        · rw [TransactionManager.savepoint,TransactionManager.update,hlook]
          simp only [hactive,ne_eq,not_true_eq_false,if_false]
          refine .changes id tx (tx.createSavepoint name) [s.manager.logManager.stamp
            (makeRecord .savepoint id invalidPageId (some (name++[0]))) now] hlook ⟨rfl,rfl⟩ ?_
            rfl rfl rfl rfl ⟨rfl,rfl,?_⟩
          · simp [LogManager.stamp,makeRecord]
          · exact congrArg (s.logged++·) (appendedSince_append _ _ _)
        · apply Effect.nothing
          simp [TransactionManager.savepoint,TransactionManager.update,hlook,hactive]

theorem addModifiedPage_effect (id : TransactionId) (pid : PageId) (lsn : UInt32) :
    Effect s (s.follow (Engine.addModifiedPage s.manager id pid lsn)) := by
  unfold Engine.addModifiedPage
  cases hlook : s.manager.activeTransactions.lookup id with
  | none => exact .nothing (follow_self s)
  | some tx =>
    refine .changes id tx (tx.addModifiedPage pid lsn) [] hlook ⟨rfl,rfl⟩ (by simp) rfl rfl rfl rfl
      ⟨rfl,rfl,?_⟩
    exact congrArg (s.logged++·) (appendedSince_self _)

/-- Every call has one of the effects. -/
theorem call_effect {c : LifecycleCall} (h : s.call c = some s') : Effect s s' := by
  cases c with
  | begin isolation mode now => exact begin_effect isolation mode now h
  | ending id c =>
    obtain ⟨⟨status,t⟩,hcall,rfl⟩ := Option.map_eq_some_iff.mp h
    exact endCall_effect hcall
  | savepoint id name now =>
    obtain ⟨⟨status,t⟩,hcall,rfl⟩ := Option.map_eq_some_iff.mp h
    exact savepoint_effect hcall
  | addModifiedPage id pid lsn =>
    rw [← Option.some.inj h]
    exact addModifiedPage_effect id pid lsn

end Effects

/-- A COMMIT or ABORT record. -/
def isEnd (r : LogRecord) : Bool := decide (r.type = .commit ∨ r.type = .abort)

/-- How many BEGIN records, and how many COMMIT and ABORT records, were logged for an id. -/
def beginCount (s : Lifecycle) (id : TransactionId) : ℕ :=
  s.logged.countP fun r => decide (r.type = .begin ∧ r.transactionId = id)

def endCount (s : Lifecycle) (id : TransactionId) : ℕ :=
  s.logged.countP fun r => isEnd r && decide (r.transactionId = id)

/-- The invariant of all runs. -/
structure Lawful (s : Lifecycle) : Prop where
  ids : s.begun.Pairwise (· < ·)
  below : ∀ id ∈ s.begun, id < s.manager.nextTxId
  active : ∀ id, id ∈ s.manager.activeTransactions.keys ↔ id ∈ s.begun ∧ id ∉ s.ended
  running : ∀ id tx, s.manager.activeTransactions.lookup id = some tx →
    tx.id = id ∧ tx.state = .active
  room : s.manager.activeTransactions.keys.card ≤ s.manager.maxTransactions
  completed : ∀ id tx, s.manager.completedTransactions.lookup id = some tx →
    tx.id = id ∧ id ∈ s.ended ∧ (tx.state = .committed ∨ tx.state = .aborted)
  ended : ∀ id ∈ s.ended, id ∈ s.begun
  beginOnce : ∀ id, s.beginCount id = if id ∈ s.begun then 1 else 0
  endOnce : ∀ id, s.endCount id = if id ∈ s.ended then 1 else 0
  known : ∀ r ∈ s.logged, r.transactionId ∈ s.begun
  closing : ∀ r ∈ s.logged, isEnd r = true → r.transactionId ∈ s.ended
  silent : s.logged.Pairwise fun a b => isEnd a = true → b.transactionId ≠ a.transactionId

theorem start_lawful (pool : BufferPool) (log : LogManager) (maxTransactions : ℕ) :
    (start pool log maxTransactions).Lawful := by
  constructor <;> simp [start,TransactionManager.new,beginCount,endCount]

section Steps

variable {s s' : Lifecycle}

theorem Lawful.running_mem (h : s.Lawful) {id : TransactionId} {tx : Transaction}
    (hlook : s.manager.activeTransactions.lookup id = some tx) : id ∈ s.begun ∧ id ∉ s.ended := by
  rw [← h.active,Finmap.mem_keys]
  exact Finmap.mem_of_lookup_eq_some hlook

theorem beginCount_of_logged {rs : List LogRecord} (hlogged : s'.logged = s.logged++rs)
    (id : TransactionId) : s'.beginCount id =
      s.beginCount id+rs.countP fun r => decide (r.type = .begin ∧ r.transactionId = id) := by
  rw [beginCount,hlogged,List.countP_append,beginCount]

theorem endCount_of_logged {rs : List LogRecord} (hlogged : s'.logged = s.logged++rs)
    (id : TransactionId) : s'.endCount id =
      s.endCount id+rs.countP fun r => isEnd r && decide (r.transactionId = id) := by
  rw [endCount,hlogged,List.countP_append,endCount]

theorem Lawful.silent_append (h : s.Lawful) {rs : List LogRecord}
    (hrs : rs.Pairwise fun a b => isEnd a = true → b.transactionId ≠ a.transactionId)
    (hnew : ∀ r ∈ rs, r.transactionId ∉ s.ended) :
    (s.logged++rs).Pairwise fun a b => isEnd a = true → b.transactionId ≠ a.transactionId := by
  refine List.pairwise_append.mpr ⟨h.silent,hrs,?_⟩
  intro a ha b hb hend heq
  exact hnew b hb (heq ▸ h.closing a ha hend)

theorem Lawful.begins (h : s.Lawful) {tx : Transaction} {r : LogRecord}
    (room : s.manager.activeTransactions.keys.card < s.manager.maxTransactions)
    (fresh : tx.id = s.manager.nextTxId ∧ tx.state = .active)
    (record : r.type = .begin ∧ r.transactionId = s.manager.nextTxId)
    (active : s'.manager.activeTransactions =
      s.manager.activeTransactions.insert s.manager.nextTxId tx)
    (completed : s'.manager.completedTransactions = s.manager.completedTransactions)
    (next : s'.manager.nextTxId = s.manager.nextTxId+1)
    (max : s'.manager.maxTransactions = s.manager.maxTransactions)
    (ghost : s'.begun = s.begun++[s.manager.nextTxId] ∧ s'.ended = s.ended ∧
      s'.logged = s.logged++[r]) : s'.Lawful := by
  obtain ⟨hbegun,hended,hlogged⟩ := ghost
  obtain ⟨htype,htx⟩ := record
  have hnew : s.manager.nextTxId ∉ s.begun := fun hmem => lt_irrefl _ (h.below _ hmem)
  have hnotEnded : s.manager.nextTxId ∉ s.ended := fun hmem => hnew (h.ended _ hmem)
  have hnotEnd : isEnd r = false := by simp [isEnd,htype]
  constructor
  case ids =>
    rw [hbegun]
    refine List.pairwise_append.mpr ⟨h.ids,List.pairwise_singleton _ _,?_⟩
    intro id hid k hk
    rw [List.mem_singleton.mp hk]
    exact h.below id hid
  case below =>
    intro id hid
    rw [hbegun,List.mem_append,List.mem_singleton] at hid
    rw [next]
    rcases hid with hid | rfl
    · exact Nat.lt_succ_of_lt (h.below id hid)
    · exact Nat.lt_succ_self _
  case active =>
    intro id
    rw [active,FiniteMap.keys_insert,Finset.mem_insert,h.active,hbegun,hended,List.mem_append,
      List.mem_singleton]
    constructor
    · rintro (rfl | ⟨hid,hopen⟩)
      · exact ⟨Or.inr rfl,hnotEnded⟩
      · exact ⟨Or.inl hid,hopen⟩
    · rintro ⟨hid | rfl,hopen⟩
      · exact Or.inr ⟨hid,hopen⟩
      · exact Or.inl rfl
  case running =>
    intro id t ht
    rw [active] at ht
    rcases FiniteMap.lookup_insert_cases ht with ⟨rfl,rfl⟩ | hold
    · exact fresh
    · exact h.running id t hold
  case room =>
    rw [active,FiniteMap.keys_insert,max]
    exact (Finset.card_insert_le _ _).trans room
  case completed =>
    intro id t ht
    rw [completed] at ht
    rw [hended]
    exact h.completed id t ht
  case ended =>
    intro id hid
    rw [hended] at hid
    rw [hbegun]
    exact List.mem_append_left _ (h.ended id hid)
  case beginOnce =>
    intro id
    rw [beginCount_of_logged hlogged,h.beginOnce,hbegun]
    by_cases hid : id = s.manager.nextTxId
    · subst hid
      simp [hnew,htype,htx]
    · simp [htype,htx,hid,Ne.symm hid]
  case endOnce =>
    intro id
    rw [endCount_of_logged hlogged,h.endOnce,hended]
    simp [hnotEnd]
  case known =>
    intro q hq
    rw [hlogged,List.mem_append,List.mem_singleton] at hq
    rw [hbegun,List.mem_append,List.mem_singleton]
    rcases hq with hq | rfl
    · exact Or.inl (h.known q hq)
    · exact Or.inr htx
  case closing =>
    intro q hq hend
    rw [hlogged,List.mem_append,List.mem_singleton] at hq
    rw [hended]
    rcases hq with hq | rfl
    · exact h.closing q hq hend
    · rw [hnotEnd] at hend
      cases hend
  case silent =>
    rw [hlogged]
    refine h.silent_append (List.pairwise_singleton _ _) ?_
    intro q hq
    rw [List.mem_singleton.mp hq,htx]
    exact hnotEnded

theorem Lawful.ends (h : s.Lawful) {id : TransactionId} {tx tx' : Transaction} {r : LogRecord}
    (found : s.manager.activeTransactions.lookup id = some tx)
    (closed : tx'.id = tx.id ∧ (tx'.state = .committed ∨ tx'.state = .aborted))
    (record : (r.type = .commit ∨ r.type = .abort) ∧ r.transactionId = tx.id)
    (active : s'.manager.activeTransactions = s.manager.activeTransactions.erase tx.id)
    (completed : ∀ k t, s'.manager.completedTransactions.lookup k = some t →
      k = tx.id ∧ t = tx' ∨ s.manager.completedTransactions.lookup k = some t)
    (next : s'.manager.nextTxId = s.manager.nextTxId)
    (max : s'.manager.maxTransactions = s.manager.maxTransactions)
    (ghost : s'.begun = s.begun ∧ s'.ended = s.ended++[id] ∧ s'.logged = s.logged++[r]) :
    s'.Lawful := by
  obtain ⟨hbegun,hended,hlogged⟩ := ghost
  obtain ⟨htype,htx⟩ := record
  obtain ⟨hmem,hopen⟩ := h.running_mem found
  obtain ⟨hid,_⟩ := h.running id tx found
  rw [hid] at closed htx active completed
  have hend : isEnd r = true := decide_eq_true htype
  have hnotBegin : r.type ≠ .begin := by
    rcases htype with ht | ht <;> simp [ht]
  constructor
  case ids =>
    rw [hbegun]
    exact h.ids
  case below =>
    rw [hbegun,next]
    exact h.below
  case active =>
    intro k
    rw [Finmap.mem_keys,active,Finmap.mem_erase,← Finmap.mem_keys,h.active,hbegun,hended,
      List.mem_append,List.mem_singleton]
    constructor
    · rintro ⟨hk,hkb,hke⟩
      exact ⟨hkb,fun hor => hor.elim hke hk⟩
    · rintro ⟨hkb,hke⟩
      exact ⟨fun hk => hke (Or.inr hk),hkb,fun hk => hke (Or.inl hk)⟩
  case running =>
    intro k t ht
    rw [active] at ht
    exact h.running k t (FiniteMap.lookup_erase_cases ht).2
  case room =>
    have hsub : s'.manager.activeTransactions.keys ⊆ s.manager.activeTransactions.keys := by
      intro k hk
      rw [Finmap.mem_keys,active] at hk
      exact Finmap.mem_keys.mpr (Finmap.mem_erase.mp hk).2
    rw [max]
    exact (Finset.card_le_card hsub).trans h.room
  case completed =>
    intro k t ht
    rw [hended]
    rcases completed k t ht with ⟨rfl,rfl⟩ | hold
    · exact ⟨closed.1,List.mem_append_right _ (List.mem_singleton_self _),closed.2⟩
    · obtain ⟨hk,hke,hstate⟩ := h.completed k t hold
      exact ⟨hk,List.mem_append_left _ hke,hstate⟩
  case ended =>
    intro k hk
    rw [hended,List.mem_append,List.mem_singleton] at hk
    rw [hbegun]
    rcases hk with hk | rfl
    · exact h.ended k hk
    · exact hmem
  case beginOnce =>
    intro k
    rw [beginCount_of_logged hlogged,h.beginOnce,hbegun]
    simp [hnotBegin]
  case endOnce =>
    intro k
    rw [endCount_of_logged hlogged,h.endOnce,hended]
    by_cases hk : k = id
    · subst hk
      simp [hopen,hend,htx]
    · simp [hend,htx,hk,Ne.symm hk]
  case known =>
    intro q hq
    rw [hlogged,List.mem_append,List.mem_singleton] at hq
    rw [hbegun]
    rcases hq with hq | rfl
    · exact h.known q hq
    · exact htx ▸ hmem
  case closing =>
    intro q hq hqend
    rw [hlogged,List.mem_append,List.mem_singleton] at hq
    rw [hended,List.mem_append,List.mem_singleton]
    rcases hq with hq | rfl
    · exact Or.inl (h.closing q hq hqend)
    · exact Or.inr htx
  case silent =>
    rw [hlogged]
    refine h.silent_append (List.pairwise_singleton _ _) ?_
    intro q hq
    rw [List.mem_singleton.mp hq,htx]
    exact hopen

theorem Lawful.changes (h : s.Lawful) {id : TransactionId} {tx tx' : Transaction}
    {rs : List LogRecord} (found : s.manager.activeTransactions.lookup id = some tx)
    (kept : tx'.id = tx.id ∧ tx'.state = tx.state)
    (records : ∀ r ∈ rs, r.type = .savepoint ∧ r.transactionId = id)
    (active : s'.manager.activeTransactions = s.manager.activeTransactions.insert id tx')
    (completed : s'.manager.completedTransactions = s.manager.completedTransactions)
    (next : s'.manager.nextTxId = s.manager.nextTxId)
    (max : s'.manager.maxTransactions = s.manager.maxTransactions)
    (ghost : s'.begun = s.begun ∧ s'.ended = s.ended ∧ s'.logged = s.logged++rs) :
    s'.Lawful := by
  obtain ⟨hbegun,hended,hlogged⟩ := ghost
  obtain ⟨hmem,hopen⟩ := h.running_mem found
  have hkeys : s'.manager.activeTransactions.keys = s.manager.activeTransactions.keys := by
    rw [active,FiniteMap.keys_insert]
    exact Finset.insert_eq_of_mem ((h.active id).mpr ⟨hmem,hopen⟩)
  have hnotEnd : ∀ r ∈ rs, isEnd r = false := by
    intro r hr
    simp [isEnd,(records r hr).1]
  constructor
  case ids =>
    rw [hbegun]
    exact h.ids
  case below =>
    rw [hbegun,next]
    exact h.below
  case active =>
    rw [hkeys,hbegun,hended]
    exact h.active
  case running =>
    intro k t ht
    rw [active] at ht
    rcases FiniteMap.lookup_insert_cases ht with ⟨rfl,rfl⟩ | hold
    · rw [kept.1,kept.2]
      exact h.running k tx found
    · exact h.running k t hold
  case room =>
    rw [hkeys,max]
    exact h.room
  case completed =>
    rw [completed,hended]
    exact h.completed
  case ended =>
    rw [hbegun,hended]
    exact h.ended
  case beginOnce =>
    intro k
    rw [beginCount_of_logged hlogged,h.beginOnce,hbegun,List.countP_eq_zero.mpr,Nat.add_zero]
    intro r hr
    simp [(records r hr).1]
  case endOnce =>
    intro k
    rw [endCount_of_logged hlogged,h.endOnce,hended,List.countP_eq_zero.mpr,Nat.add_zero]
    intro r hr
    simp [hnotEnd r hr]
  case known =>
    intro q hq
    rw [hlogged,List.mem_append] at hq
    rw [hbegun]
    rcases hq with hq | hq
    · exact h.known q hq
    · exact (records q hq).2 ▸ hmem
  case closing =>
    intro q hq hqend
    rw [hlogged,List.mem_append] at hq
    rw [hended]
    rcases hq with hq | hq
    · exact h.closing q hq hqend
    · rw [hnotEnd q hq] at hqend
      cases hqend
  case silent =>
    rw [hlogged]
    refine h.silent_append (List.Pairwise.imp_of_mem ?_ (List.pairwise_of_forall
      (R := fun _ _ => True) fun _ _ => trivial)) ?_
    · intro a b ha _ _ haend
      rw [hnotEnd a ha] at haend
      cases haend
    · intro q hq
      rw [(records q hq).2]
      exact hopen

theorem Lawful.call (h : s.Lawful) {c : LifecycleCall} (hcall : s.call c = some s') :
    s'.Lawful ∧ s'.manager.maxTransactions = s.manager.maxTransactions := by
  cases call_effect hcall with
  | nothing heq =>
    subst heq
    exact ⟨h,rfl⟩
  | begins tx r room fresh record active completed next max ghost =>
    exact ⟨h.begins room fresh record active completed next max ghost,max⟩
  | ends id tx tx' r found closed record active completed next max ghost =>
    exact ⟨h.ends found closed record active completed next max ghost,max⟩
  | changes id tx tx' rs found kept records active completed next max ghost =>
    exact ⟨h.changes found kept records active completed next max ghost,max⟩

end Steps

theorem Reaches.lawful {s t : Lifecycle} (h : Reaches s t) (hs : s.Lawful) :
    t.Lawful ∧ t.manager.maxTransactions = s.manager.maxTransactions := by
  induction h with
  | start => exact ⟨hs,rfl⟩
  | call _ hcall ih =>
    obtain ⟨hlawful,hmax⟩ := ih.1.call hcall
    exact ⟨hlawful,hmax.trans ih.2⟩

/-- A transaction that has ended is not in the active map. -/
theorem Lawful.endCall_again {s : Lifecycle} (h : s.Lawful) {id : TransactionId}
    (hid : id ∈ s.ended) (howned : (s.manager.object id).isSome) (c : EndCall) :
    s.endCall id c = some (.error,s) := by
  have hnone : s.manager.activeTransactions.lookup id = none := by
    rw [Finmap.lookup_eq_none,← Finmap.mem_keys,h.active]
    exact fun hand => hand.2 hid
  obtain ⟨tx,htx⟩ := Option.isSome_iff_exists.mp howned
  have hcompleted : s.manager.completedTransactions.lookup id = some tx := by
    rwa [TransactionManager.object,hnone,Option.none_or] at htx
  have hstate : tx.state ≠ .active := by
    rcases (h.completed id tx hcompleted).2.2 with hs | hs <;> simp [hs]
  rw [endCall,htx]
  exact if_pos hstate

/-- In every state that calls on owned transactions reach, from any pool, log and limit. -/
theorem transaction_lifecycle {pool : BufferPool} {log : LogManager} {maxTransactions : ℕ}
    {s : Lifecycle} (h : Reaches (start pool log maxTransactions) s) :
    s.begun.Pairwise (· < ·) ∧
    (∀ id, id ∈ s.manager.activeTransactions.keys ↔ id ∈ s.begun ∧ id ∉ s.ended) ∧
    (∀ id tx, s.manager.activeTransactions.lookup id = some tx →
      tx.id = id ∧ tx.state = .active) ∧
    s.manager.activeTransactions.keys.card ≤ maxTransactions ∧
    Disjoint s.manager.completedTransactions.keys s.manager.activeTransactions.keys ∧
    (∀ id tx, s.manager.completedTransactions.lookup id = some tx →
      tx.id = id ∧ (tx.state = .committed ∨ tx.state = .aborted)) ∧
    (∀ id ∈ s.ended, (s.manager.object id).isSome → ∀ c, s.endCall id c = some (.error,s)) ∧
    (∀ id ∈ s.begun, s.beginCount id = 1 ∧ s.endCount id ≤ 1) ∧
    s.logged.Pairwise fun a b => isEnd a = true → b.transactionId ≠ a.transactionId := by
  obtain ⟨hlawful,hmax⟩ := h.lawful (start_lawful pool log maxTransactions)
  refine ⟨hlawful.ids,hlawful.active,hlawful.running,?_,?_,?_,?_,?_,hlawful.silent⟩
  · exact hlawful.room.trans hmax.le
  · rw [Finset.disjoint_left]
    intro id hcompleted hactive
    obtain ⟨tx,htx⟩ := Finmap.mem_iff.mp (Finmap.mem_keys.mp hcompleted)
    exact ((hlawful.active id).mp hactive).2 (hlawful.completed id tx htx).2.1
  · intro id tx htx
    obtain ⟨hid,_,hstate⟩ := hlawful.completed id tx htx
    exact ⟨hid,hstate⟩
  · intro id hid howned c
    exact hlawful.endCall_again hid howned c
  · intro id hid
    rw [hlawful.beginOnce,hlawful.endOnce,if_pos hid]
    exact ⟨rfl,by split_ifs <;> simp⟩

theorem transaction_lifecycle_committed :
    ∃ s, Reaches (start (BufferPool.new 1 Disk.empty 1) (LogManager.new .normal) 5) s ∧
      s.ended = [1] ∧ s.beginCount 1 = 1 ∧
      s.endCall 1 (.abort [1] 0) = some (.error,s) := by
  have hbegin : Reaches (start (BufferPool.new 1 Disk.empty 1) (LogManager.new .normal) 5) _ :=
    .call (c := .begin .serializable .readWrite 0) .start rfl
  have hcommit := Reaches.call (c := .ending 1 (.commit [] [1] 0)) hbegin rfl
  obtain ⟨_,_,_,_,_,_,hagain,hlogged,_⟩ := transaction_lifecycle hcommit
  exact ⟨_,hcommit,rfl,(hlogged 1 (by decide)).1,hagain 1 (by decide) rfl _⟩

end Lifecycle
end OrangeSQL
