import OrangeSQL.DeadlockVictims
import OrangeSQL.Engine

/-! The archive of completed transactions. It is bounded, and what goes from a full one is the
transaction that started first, be it the one that has just been put in. -/
namespace OrangeSQL
namespace TransactionManager

open Engine (Lists)

/-- The archive is within its bound, and a commit still finds the transaction that it has moved
there. -/
def KeepsFinished (m : TransactionManager) (tx : Transaction) (order : List TransactionId) : Prop :=
  let completed := (m.archiveCompletedTransaction tx order).completedTransactions
  completed.keys.card ≤ maxCompleted ∧ completed.lookup tx.id = some tx

/-- Another transaction of the archive started earlier, or at the same time and is met earlier in
the walk through the map. -/
def OlderThere (m : TransactionManager) (tx : Transaction) (order : List TransactionId) : Prop :=
  ∃ id other, id ≠ tx.id ∧ m.completedTransactions.lookup id = some other ∧
    (other.startTime < tx.startTime ∨
      other.startTime = tx.startTime ∧ id ∈ order.takeWhile fun x => x ≠ tx.id)

variable {m : TransactionManager} {tx : Transaction} {order : List TransactionId}

/-- The start time of an entry after the transaction was put in. -/
def startTimeWith (m : TransactionManager) (tx : Transaction) (id : TransactionId) : ℤ :=
  ((m.completedTransactions.insert tx.id tx).lookup id).elim 0 Transaction.startTime

theorem startTimeWith_self : m.startTimeWith tx tx.id = tx.startTime := by
  rw [startTimeWith,Finmap.lookup_insert,Option.elim_some]

theorem startTimeWith_other {id : TransactionId} {other : Transaction} (hid : id ≠ tx.id)
    (hlook : m.completedTransactions.lookup id = some other) :
    m.startTimeWith tx id = other.startTime := by
  rw [startTimeWith,Finmap.lookup_insert_of_ne _ hid,hlook,Option.elim_some]

/-- With room for one more, all stay. -/
theorem archive_of_room (h : (insert tx.id m.completedTransactions.keys).card ≤ maxCompleted) :
    (m.archiveCompletedTransaction tx order).completedTransactions =
      m.completedTransactions.insert tx.id tx := by
  have hroom : ¬maxCompleted < (m.completedTransactions.insert tx.id tx).keys.card := by
    rw [FiniteMap.keys_insert]
    omega
  simp only [archiveCompletedTransaction,if_neg hroom]

/-- Otherwise the first of those with the least start time goes. -/
theorem archive_of_full (h : maxCompleted < (insert tx.id m.completedTransactions.keys).card)
    (horder : Lists order (insert tx.id m.completedTransactions.keys)) :
    ∃ front oldest back, order = front++oldest::back ∧
      (∀ id ∈ front, m.startTimeWith tx oldest < m.startTimeWith tx id) ∧
      (∀ id ∈ back, m.startTimeWith tx oldest ≤ m.startTimeWith tx id) ∧
      (m.archiveCompletedTransaction tx order).completedTransactions =
        (m.completedTransactions.insert tx.id tx).erase oldest := by
  have hfull : maxCompleted < (m.completedTransactions.insert tx.id tx).keys.card := by
    rw [FiniteMap.keys_insert]
    exact h
  cases hmin : minElement (m.startTimeWith tx) order with
  | none =>
    exfalso
    cases order with
    | nil =>
      have hmem : tx.id ∈ ([] : List TransactionId).toFinset := by
        rw [horder.2]
        exact Finset.mem_insert_self _ _
      simp at hmem
    | cons id rest => cases hmin
  | some oldest =>
    obtain ⟨front,back,hsplit,hfront,hback⟩ := minElement_split hmin
    refine ⟨front,oldest,back,hsplit,hfront,hback,?_⟩
    unfold startTimeWith at hmin
    simp only [archiveCompletedTransaction,if_pos hfull,hmin,Option.elim_some]

theorem card_archive_le (hcard : m.completedTransactions.keys.card ≤ maxCompleted)
    (horder : Lists order (insert tx.id m.completedTransactions.keys)) :
    (m.archiveCompletedTransaction tx order).completedTransactions.keys.card ≤ maxCompleted := by
  by_cases hroom : (insert tx.id m.completedTransactions.keys).card ≤ maxCompleted
  · rw [archive_of_room hroom,FiniteMap.keys_insert]
    exact hroom
  · obtain ⟨front,oldest,back,hsplit,_,_,harchive⟩ := archive_of_full (not_le.mp hroom) horder
    have hmem : oldest ∈ insert tx.id m.completedTransactions.keys := by
      rw [← horder.2,hsplit]
      simp
    have hone := Finset.card_insert_le tx.id m.completedTransactions.keys
    rw [harchive,Finmap.keys_erase,FiniteMap.keys_insert,Finset.card_erase_of_mem hmem]
    omega

/-- Whether the transaction is the victim is a question of the others. -/
theorem oldest_ne_iff {front back : List TransactionId} {oldest : TransactionId}
    (horder : Lists order (insert tx.id m.completedTransactions.keys))
    (hsplit : order = front++oldest::back)
    (hfront : ∀ id ∈ front, m.startTimeWith tx oldest < m.startTimeWith tx id)
    (hback : ∀ id ∈ back, m.startTimeWith tx oldest ≤ m.startTimeWith tx id) :
    oldest ≠ tx.id ↔ m.OlderThere tx order := by
  have hnodup : (front++oldest::back).Nodup := hsplit ▸ horder.1
  have hlisted : ∀ id, id ∈ front++oldest::back ↔ id = tx.id ∨ id ∈ m.completedTransactions := by
    intro id
    rw [← hsplit,← List.mem_toFinset,horder.2,Finset.mem_insert,Finmap.mem_keys]
  constructor
  · intro hne
    obtain ⟨other,hlook⟩ : ∃ other, m.completedTransactions.lookup oldest = some other :=
      Finmap.mem_iff.mp (((hlisted oldest).mp (by simp)).resolve_left hne)
    have htx : tx.id ∈ front++oldest::back := (hlisted tx.id).mpr (Or.inl rfl)
    refine ⟨oldest,other,hne,hlook,?_⟩
    have hself : m.startTimeWith tx tx.id = tx.startTime := startTimeWith_self
    rw [← startTimeWith_other hne hlook,← hself]
    rcases List.mem_append.mp htx with htx | htx
    · exact Or.inl (hfront tx.id htx)
    · have htx' := (List.mem_cons.mp htx).resolve_left (Ne.symm hne)
      have hpass : ∀ id ∈ front, decide (id ≠ tx.id) = true := by
        rintro id hid
        apply decide_eq_true
        rintro rfl
        exact (List.nodup_append.mp hnodup).2.2 tx.id hid tx.id htx rfl
      rw [hsplit,List.takeWhile_append_of_pos hpass,
        List.takeWhile_cons_of_pos (by simpa using hne)]
      rcases (hback tx.id htx').lt_or_eq with hlt | heq
      · exact Or.inl hlt
      · exact Or.inr ⟨heq,by simp⟩
  · rintro ⟨id,other,hid,hlook,hearlier⟩ rfl
    have hmem : id ∈ front++tx.id::back :=
      (hlisted id).mpr (Or.inr (Finmap.mem_of_lookup_eq_some hlook))
    have hstart := startTimeWith_other hid hlook
    rw [startTimeWith_self] at hfront hback
    have hleast : tx.startTime ≤ other.startTime := by
      rw [← hstart]
      rcases List.mem_append.mp hmem with hmem | hmem
      · exact (hfront id hmem).le
      · exact hback id ((List.mem_cons.mp hmem).resolve_left hid)
    rcases hearlier with hlt | ⟨heq,hmet⟩
    · omega
    · have hpass : ∀ id ∈ front, decide (id ≠ tx.id) = true := by
        intro id' hid'
        apply decide_eq_true
        rintro rfl
        exact (List.nodup_append.mp hnodup).2.2 _ hid' _ List.mem_cons_self rfl
      rw [hsplit,List.takeWhile_append_of_pos hpass,List.takeWhile_cons_of_neg (by simp),
        List.append_nil] at hmet
      have hlt := hfront id hmet
      rw [hstart] at hlt
      omega

/-- A transaction that ends stays in the archive exactly if there is room for it or an older one
goes. -/
theorem keepsFinished_iff (m : TransactionManager) (tx : Transaction) (order : List TransactionId)
    (hcard : m.completedTransactions.keys.card ≤ maxCompleted)
    (horder : Lists order (insert tx.id m.completedTransactions.keys)) :
    m.KeepsFinished tx order ↔
      (insert tx.id m.completedTransactions.keys).card ≤ maxCompleted ∨ m.OlderThere tx order := by
  have hbound := card_archive_le hcard horder
  by_cases hroom : (insert tx.id m.completedTransactions.keys).card ≤ maxCompleted
  · refine iff_of_true ⟨hbound,?_⟩ (Or.inl hroom)
    rw [archive_of_room hroom,Finmap.lookup_insert]
  · obtain ⟨front,oldest,back,hsplit,hfront,hback,harchive⟩ :=
      archive_of_full (not_le.mp hroom) horder
    rw [or_iff_right hroom,← oldest_ne_iff horder hsplit hfront hback]
    constructor
    · rintro ⟨_,hlook⟩ heq
      rw [harchive,heq,Finmap.lookup_erase] at hlook
      cases hlook
    · intro hne
      refine ⟨hbound,?_⟩
      rw [harchive,Finmap.lookup_erase_ne (Ne.symm hne),Finmap.lookup_insert]

/-- The manager at its start, when the first transaction ends. -/
theorem keepsFinished_iff_first :
    (TransactionManager.new (BufferPool.new 0 Disk.empty 1) (LogManager.new .normal)).KeepsFinished
      (Transaction.new 1 .serializable .readWrite 0) [1] := by
  refine (keepsFinished_iff _ _ [1] (by decide) (by decide)).mpr (Or.inl ?_)
  decide

section Full

def txAt (id : TransactionId) (startTime : ℤ) : Transaction :=
  Transaction.new id .serializable .readWrite startTime

/-- The archive holds transactions that all started at time 1. -/
def archiveOf (ids : List TransactionId) : TransactionManager :=
  { TransactionManager.new (BufferPool.new 0 Disk.empty 1) (LogManager.new .normal) with
    completedTransactions := activeWith (fun id => txAt id 1) ids }

variable {ids : List TransactionId}

theorem keys_archiveOf : (archiveOf ids).completedTransactions.keys = ids.toFinset := by
  change (activeWith (fun id => txAt id 1) ids).keys = ids.toFinset
  induction ids with
  | nil => rfl
  | cons id ids ih =>
    have hunfold : activeWith (fun id => txAt id 1) (id::ids) =
        (activeWith (fun id => txAt id 1) ids).insert id (txAt id 1) := rfl
    rw [hunfold,FiniteMap.keys_insert,ih,List.toFinset_cons]

theorem startTime_archiveOf {id : TransactionId} {other : Transaction}
    (h : (archiveOf ids).completedTransactions.lookup id = some other) : other.startTime = 1 := by
  have hmem := Finmap.mem_keys.mpr (Finmap.mem_of_lookup_eq_some h)
  rw [keys_archiveOf,List.mem_toFinset] at hmem
  have hlook : (archiveOf ids).completedTransactions.lookup id = some (txAt id 1) :=
    lookup_activeWith (fun id => txAt id 1) hmem
  rw [← Option.some.inj (hlook.symm.trans h)]
  rfl

/-- A full archive does not keep a transaction that has run longer than all of them. -/
theorem not_keepsFinished_archiveOf {id : TransactionId} (hids : ids.Nodup) (hid : id ∉ ids)
    (hlength : ids.length = maxCompleted) :
    ¬(archiveOf ids).KeepsFinished (txAt id 0) (id::ids) := by
  have hnew : (txAt id 0).id ∉ (archiveOf ids).completedTransactions.keys := by
    rw [keys_archiveOf,List.mem_toFinset]
    exact hid
  have horder : Lists (id::ids)
      (insert (txAt id 0).id (archiveOf ids).completedTransactions.keys) := by
    refine ⟨List.nodup_cons.mpr ⟨hid,hids⟩,?_⟩
    rw [keys_archiveOf,List.toFinset_cons]
    rfl
  have hfull : maxCompleted <
      (insert (txAt id 0).id (archiveOf ids).completedTransactions.keys).card := by
    rw [Finset.card_insert_of_notMem hnew,keys_archiveOf,List.toFinset_card_of_nodup hids,hlength]
    exact Nat.lt_add_one _
  obtain ⟨front,oldest,back,hsplit,hfront,hback,harchive⟩ := archive_of_full hfull horder
  have hvictim : oldest = (txAt id 0).id := by
    by_contra hne
    obtain ⟨id',other,_,hlook,hearlier⟩ := (oldest_ne_iff horder hsplit hfront hback).mp hne
    have hzero : (txAt id 0).startTime = 0 := rfl
    rw [startTime_archiveOf hlook,hzero] at hearlier
    omega
  rintro ⟨_,hlook⟩
  rw [harchive,hvictim,Finmap.lookup_erase] at hlook
  cases hlook

/-- Transaction 1 has run all the time, and its commit reads it after it was destroyed. -/
theorem not_keepsFinished_long :
    (archiveOf (List.range' 2 maxCompleted)).completedTransactions.keys.card ≤ maxCompleted ∧
    ¬(archiveOf (List.range' 2 maxCompleted)).KeepsFinished (txAt 1 0)
      (1::List.range' 2 maxCompleted) := by
  have hlength : (List.range' 2 maxCompleted).length = maxCompleted := List.length_range'
  have hnot : 1 ∉ List.range' 2 maxCompleted := by
    rw [List.mem_range'_1]
    omega
  refine ⟨?_,not_keepsFinished_archiveOf List.nodup_range' hnot hlength⟩
  rw [keys_archiveOf,List.toFinset_card_of_nodup List.nodup_range',hlength]

end Full

end TransactionManager
end OrangeSQL
