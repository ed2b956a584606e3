import OrangeSQL.CheckpointUndo

/-! The chain of the records of a transaction. Every record has the number of the one before it of
the same transaction, `lastTxLsn` has the number of the last one, and all transactions take their
numbers from one counter. -/
namespace OrangeSQL
namespace LogManager

/-- A list of records, each appended at its time; the numbers that are returned are listed. -/
def appendEach (m : LogManager) : List (LogRecord × ℤ) → List LogSequenceNumber × LogManager
  | [] => ([],m)
  | (r,now)::calls =>
    let (lsn,m) := m.appendLogRecord r now
    let (lsns,m) := m.appendEach calls
    (lsn::lsns,m)

/-- The number of the transaction's last record, zero if it has none. -/
def lastLsn (m : LogManager) (tx : TransactionId) : LogSequenceNumber :=
  (m.lastTxLsn.lookup tx).getD 0

/-- Go down along `prevLsn` until it is zero. Nothing is returned when a number has no record or
the steps do not suffice. -/
def followPrev (m : LogManager) : ℕ → LogSequenceNumber → Option (List LogRecord)
  | 0,lsn => if lsn = 0 then some [] else none
  | fuel+1,lsn =>
    if lsn = 0 then some []
    else do
      let r ← m.logBuffer.lookup lsn
      return r::(← m.followPrev fuel r.prevLsn)

/-- Nothing was read from a file, and nothing appended. -/
structure Fresh (m : LogManager) : Prop where
  next : m.currentLsn = 1
  empty : m.logBuffer = ∅
  last : m.lastTxLsn = ∅

theorem new_fresh (mode : LogMode) : (new mode).Fresh := ⟨rfl,rfl,rfl⟩

theorem init_fresh {mode : LogMode} {unset : Fin 8 → UInt8} {creatable : Bool} {m : LogManager}
    (h : (new mode).init unset none creatable = .ok m) : m.Fresh := by
  cases creatable with
  | false => cases h
  | true =>
    obtain rfl := Except.ok.inj h
    exact ⟨rfl,rfl,rfl⟩

theorem append_lastTxLsn (m : LogManager) (r : LogRecord) (now : ℤ) :
    (m.appendLogRecord r now).2.lastTxLsn = m.lastTxLsn.insert r.transactionId m.currentLsn := by
  obtain ⟨b,happend,hb⟩ := appendLogRecord_cases m r now
  rcases hb with rfl | rfl
  · simp [happend]
  · rw [happend]
    unfold flushBuffer
    split_ifs <;> rfl

theorem append_lastLsn (m : LogManager) (r : LogRecord) (now : ℤ) (tx : TransactionId) :
    (m.appendLogRecord r now).2.lastLsn tx =
      if tx = r.transactionId then m.currentLsn else m.lastLsn tx := by
  rw [lastLsn,append_lastTxLsn,FiniteMap.lookup_insert_eq]
  split_ifs
  · rfl
  · rfl

section FollowPrev

variable {m m' : LogManager} {lsn : LogSequenceNumber} {rs : List LogRecord}

theorem followPrev_succ {fuel : ℕ} (h : m.followPrev fuel lsn = some rs) :
    m.followPrev (fuel+1) lsn = some rs := by
  induction fuel generalizing lsn rs with
  | zero =>
    by_cases hlsn : lsn = 0
    · simpa [followPrev,hlsn] using h
    · simp [followPrev,hlsn] at h
  | succ fuel ih =>
    by_cases hlsn : lsn = 0
    · simpa [followPrev,hlsn] using h
    · rw [followPrev,if_neg hlsn] at h ⊢
      cases hlook : m.logBuffer.lookup lsn with
      | none => simp [hlook] at h
      | some r =>
        simp only [hlook,Option.bind_eq_bind,Option.bind_some] at h ⊢
        cases hrest : m.followPrev fuel r.prevLsn with
        | none => simp [hrest] at h
        | some rest =>
          rw [ih hrest]
          rwa [hrest] at h

theorem followPrev_mono {fuel fuel' : ℕ} (hle : fuel ≤ fuel')
    (h : m.followPrev fuel lsn = some rs) : m.followPrev fuel' lsn = some rs := by
  induction fuel', hle using Nat.le_induction with
  | base => exact h
  | succ fuel' _ ih => exact followPrev_succ ih

/-- Only the records on the way matter. -/
theorem followPrev_congr (hkeep : ∀ k r, m.logBuffer.lookup k = some r →
    m'.logBuffer.lookup k = some r) {fuel : ℕ} (h : m.followPrev fuel lsn = some rs) :
    m'.followPrev fuel lsn = some rs := by
  induction fuel generalizing lsn rs with
  | zero => exact h
  | succ fuel ih =>
    by_cases hlsn : lsn = 0
    · simpa [followPrev,hlsn] using h
    · rw [followPrev,if_neg hlsn] at h ⊢
      cases hlook : m.logBuffer.lookup lsn with
      | none => simp [hlook] at h
      | some r =>
        rw [hkeep lsn r hlook]
        simp only [hlook,Option.bind_eq_bind,Option.bind_some] at h ⊢
        cases hrest : m.followPrev fuel r.prevLsn with
        | none => simp [hrest] at h
        | some rest =>
          rw [ih hrest]
          rwa [hrest] at h

theorem followPrev_cons {fuel : ℕ} {r : LogRecord} (hlsn : lsn ≠ 0)
    (hlook : m.logBuffer.lookup lsn = some r) (h : m.followPrev fuel r.prevLsn = some rs) :
    m.followPrev (fuel+1) lsn = some (r::rs) := by
  rw [followPrev,if_neg hlsn]
  simp [hlook,h]

end FollowPrev

/-- The chain of one transaction: following it gives the transaction's records, the last one
first, and these are the ones with the numbers handed out for it. -/
structure TxChain (m : LogManager) (history : List (LogSequenceNumber × TransactionId))
    (tx : TransactionId) (rs : List LogRecord) : Prop where
  follows : ∃ fuel, m.followPrev fuel (m.lastLsn tx) = some rs
  descending : rs.Pairwise fun a b => b.lsn < a.lsn
  mem : ∀ r, r ∈ rs ↔ (∃ k, m.logBuffer.lookup k = some r) ∧ r.transactionId = tx
  numbers : rs.map (·.lsn) = ((history.filter (·.2 = tx)).map Prod.fst).reverse

/-- The invariant of a run of appends, with the numbers that it has handed out. -/
structure Chained (m : LogManager) (history : List (LogSequenceNumber × TransactionId)) :
    Prop where
  pos : 0 < m.currentLsn
  own : OwnNumbers m
  below : ∀ k r, m.logBuffer.lookup k = some r → k < m.currentLsn
  chain : ∀ tx, ∃ rs, TxChain m history tx rs

theorem Fresh.chained {m : LogManager} (h : m.Fresh) : m.Chained [] where
  pos := by rw [h.next]; exact Nat.zero_lt_one
  own := by
    intro k r hr
    simp [h.empty] at hr
  below := by
    intro k r hr
    simp [h.empty] at hr
  chain := by
    intro tx
    have hlast : m.lastLsn tx = 0 := by simp [lastLsn,h.last]
    refine ⟨[],⟨0,by simp [followPrev,hlast]⟩,List.Pairwise.nil,?_,rfl⟩
    simp [h.empty]

section Append

variable {m : LogManager} {history : List (LogSequenceNumber × TransactionId)}
  (h : m.Chained history) {r : LogRecord} (hprev : r.prevLsn = 0) (now : ℤ)
include h

/-- An append leaves the records of before where they are. -/
theorem Chained.keeps {k : LogSequenceNumber} {q : LogRecord}
    (hq : m.logBuffer.lookup k = some q) :
    (m.appendLogRecord r now).2.logBuffer.lookup k = some q := by
  rw [append_logBuffer,Finmap.lookup_insert_of_ne _ (Nat.ne_of_lt (h.below k q hq)),hq]

theorem Chained.mem_append {q : LogRecord} :
    (∃ k, (m.appendLogRecord r now).2.logBuffer.lookup k = some q) ↔
      q = m.stamp r now ∨ ∃ k, m.logBuffer.lookup k = some q := by
  constructor
  · rintro ⟨k,hk⟩
    rw [append_logBuffer] at hk
    rcases FiniteMap.lookup_insert_cases hk with ⟨_,hq⟩ | hold
    · exact Or.inl hq
    · exact Or.inr ⟨k,hold⟩
  · rintro (rfl | ⟨k,hk⟩)
    · exact ⟨m.currentLsn,by rw [append_logBuffer,Finmap.lookup_insert]⟩
    · exact ⟨k,h.keeps now hk⟩

include hprev

/-- The chain of the record's own transaction gets the record in front. -/
theorem Chained.own_chain {rs : List LogRecord} (hrs : TxChain m history r.transactionId rs) :
    TxChain (m.appendLogRecord r now).2 (history++[(m.currentLsn,r.transactionId)])
      r.transactionId (m.stamp r now::rs) := by
  constructor
  · obtain ⟨fuel,hfuel⟩ := hrs.follows
    refine ⟨fuel+1,?_⟩
    rw [append_lastLsn,if_pos rfl]
    apply followPrev_cons (Nat.ne_of_gt h.pos)
    · rw [append_logBuffer,Finmap.lookup_insert]
    · have hstamp : (m.stamp r now).prevLsn = m.lastLsn r.transactionId := by
        rw [stamp,lastLsn,hprev]
      rw [hstamp]
      exact followPrev_congr (fun _ _ => h.keeps now) hfuel
  · refine List.Pairwise.cons ?_ hrs.descending
    intro q hq
    obtain ⟨⟨k,hk⟩,_⟩ := (hrs.mem q).mp hq
    rw [h.own k q hk]
    exact h.below k q hk
  · intro q
    rw [List.mem_cons,hrs.mem,h.mem_append]
    constructor
    · rintro (rfl | ⟨hq,htx⟩)
      · exact ⟨Or.inl rfl,rfl⟩
      · exact ⟨Or.inr hq,htx⟩
    · rintro ⟨hq | hq,htx⟩
      · exact Or.inl hq
      · exact Or.inr ⟨hq,htx⟩
  · rw [List.map_cons,hrs.numbers,List.filter_append]
    simp [stamp]

omit hprev in
theorem Chained.other_chain {tx : TransactionId} (htx : tx ≠ r.transactionId)
    {rs : List LogRecord} (hrs : TxChain m history tx rs) :
    TxChain (m.appendLogRecord r now).2 (history++[(m.currentLsn,r.transactionId)]) tx rs := by
  constructor
  · obtain ⟨fuel,hfuel⟩ := hrs.follows
    refine ⟨fuel,?_⟩
    rw [append_lastLsn,if_neg htx]
    exact followPrev_congr (fun _ _ => h.keeps now) hfuel
  · exact hrs.descending
  · intro q
    rw [hrs.mem,h.mem_append]
    constructor
    · rintro ⟨hq,hqtx⟩
      exact ⟨Or.inr hq,hqtx⟩
    · rintro ⟨rfl | hq,hqtx⟩
      · exact absurd hqtx.symm htx
      · exact ⟨hq,hqtx⟩
  · rw [hrs.numbers,List.filter_append]
    simp [Ne.symm htx]

theorem Chained.append :
    (m.appendLogRecord r now).2.Chained (history++[(m.currentLsn,r.transactionId)]) where
  pos := by
    rw [append_currentLsn]
    exact Nat.succ_pos _
  own := h.own.run (.append r now)
  below := by
    intro k q hq
    rw [append_logBuffer] at hq
    rw [append_currentLsn]
    rcases FiniteMap.lookup_insert_cases hq with ⟨rfl,_⟩ | hold
    · exact Nat.lt_succ_self _
    · exact Nat.lt_succ_of_lt (h.below k q hold)
  chain := by
    intro tx
    obtain ⟨rs,hrs⟩ := h.chain tx
    by_cases htx : tx = r.transactionId
    · subst htx
      exact ⟨_,h.own_chain hprev now hrs⟩
    · exact ⟨rs,h.other_chain now htx hrs⟩

end Append

theorem appendEach_cons (m : LogManager) (r : LogRecord) (now : ℤ) (calls : List (LogRecord × ℤ)) :
    m.appendEach ((r,now)::calls) =
      (m.currentLsn::((m.appendLogRecord r now).2.appendEach calls).1,
        ((m.appendLogRecord r now).2.appendEach calls).2) := by
  rw [← append_lsn m r now]
  rfl

theorem Chained.appendEach {m : LogManager} {history : List (LogSequenceNumber × TransactionId)}
    (h : m.Chained history) {calls : List (LogRecord × ℤ)}
    (hprev : ∀ c ∈ calls, c.1.prevLsn = 0) :
    (m.appendEach calls).2.Chained
      (history++(m.appendEach calls).1.zip (calls.map fun c => c.1.transactionId)) := by
  induction calls generalizing m history with
  | nil => simpa [LogManager.appendEach] using h
  | cons c calls ih =>
    obtain ⟨r,now⟩ := c
    have hstep := h.append (hprev _ List.mem_cons_self) now
    have hrest := ih hstep fun c hc => hprev c (List.mem_cons_of_mem _ hc)
    rw [appendEach_cons]
    simpa [List.append_assoc] using hrest

theorem appendEach_lsns (m : LogManager) (calls : List (LogRecord × ℤ)) :
    (m.appendEach calls).1 = List.range' m.currentLsn calls.length := by
  induction calls generalizing m with
  | nil => rfl
  | cons c calls ih =>
    rw [appendEach_cons,ih,append_currentLsn,List.length_cons,List.range'_succ]

/-- The records found by filtering and sorting are those of the chain from its other end. -/
theorem Chained.getLogs_eq {m : LogManager}
    {history : List (LogSequenceNumber × TransactionId)} (h : m.Chained history)
    {order : List LogSequenceNumber} (horder : Engine.Lists order m.logBuffer.keys)
    {tx : TransactionId} {rs : List LogRecord} (hrs : TxChain m history tx rs) :
    m.getLogsForTransaction tx order = rs.reverse := by
  have hnodup : (m.getLogsForTransaction tx order).Nodup := by
    rw [getLogsForTransaction,(List.mergeSort_perm _ _).nodup_iff]
    apply List.Nodup.filter
    apply List.Nodup.filterMap _ horder.1
    intro k k' r hk hk'
    rw [← h.own k r hk,← h.own k' r hk']
  have hsorted : (m.getLogsForTransaction tx order).Pairwise fun a b => a.lsn ≤ b.lsn := by
    have htrans : ∀ a b c : LogRecord, decide (a.lsn ≤ b.lsn) = true →
        decide (b.lsn ≤ c.lsn) = true → decide (a.lsn ≤ c.lsn) = true := by
      intro a b c hab hbc
      exact decide_eq_true (le_trans (of_decide_eq_true hab) (of_decide_eq_true hbc))
    have htotal : ∀ a b : LogRecord,
        (decide (a.lsn ≤ b.lsn) || decide (b.lsn ≤ a.lsn)) = true := by
      intro a b
      simpa using le_total a.lsn b.lsn
    have hmerge := List.pairwise_mergeSort htrans htotal
      ((order.filterMap m.logBuffer.lookup).filter fun r => r.transactionId = tx)
    simpa [getLogsForTransaction] using hmerge
  have hreverse : rs.reverse.Pairwise fun a b => a.lsn < b.lsn :=
    List.pairwise_reverse.mpr hrs.descending
  have hperm : (m.getLogsForTransaction tx order).Perm rs.reverse := by
    rw [List.perm_ext_iff_of_nodup hnodup (hreverse.imp fun hlt heq => by simp [heq] at hlt)]
    intro r
    rw [mem_getLogsForTransaction horder,List.mem_reverse,hrs.mem]
  refine hperm.eq_of_pairwise ?_ hsorted (hreverse.imp le_of_lt)
  intro a b ha hb hab hba
  obtain ⟨⟨k,hk⟩,_⟩ := (mem_getLogsForTransaction horder).mp ha
  obtain ⟨⟨k',hk'⟩,_⟩ := (hrs.mem b).mp (List.mem_reverse.mp hb)
  have hkk : k = k' := by
    rw [← h.own k a hk,← h.own k' b hk']
    exact le_antisymm hab hba
  subst hkk
  exact Option.some.inj (hk.symm.trans hk')

/-- After any appends to a fresh log the numbers handed out increase, and following `prevLsn` from
a transaction's last record ends and gives its records, the reverse of what
`getLogsForTransaction` gives; their numbers are the ones that its appends returned. -/
theorem log_chains_complete {m : LogManager} (hm : m.Fresh) (calls : List (LogRecord × ℤ))
    (hprev : ∀ c ∈ calls, c.1.prevLsn = 0) :
    (m.appendEach calls).1.Pairwise (· < ·) ∧
    ∀ tx order, Engine.Lists order (m.appendEach calls).2.logBuffer.keys →
      let m' := (m.appendEach calls).2
      let visited := (m'.getLogsForTransaction tx order).reverse
      (∃ steps, ∀ fuel ≥ steps, m'.followPrev fuel (m'.lastLsn tx) = some visited) ∧
      visited.Pairwise (fun a b => b.lsn < a.lsn) ∧
      (∀ r, r ∈ visited ↔ (∃ k, m'.logBuffer.lookup k = some r) ∧ r.transactionId = tx) ∧
      visited.map (·.lsn) =
        ((((m.appendEach calls).1.zip (calls.map fun c => c.1.transactionId)).filter
          (·.2 = tx)).map Prod.fst).reverse := by
  have hrun := hm.chained.appendEach hprev
  refine ⟨?_,?_⟩
  · rw [appendEach_lsns]
    exact List.pairwise_lt_range'
  · intro tx order horder
    obtain ⟨rs,hrs⟩ := hrun.chain tx
    have hvisited : ((m.appendEach calls).2.getLogsForTransaction tx order).reverse = rs := by
      rw [hrun.getLogs_eq horder hrs,List.reverse_reverse]
    simp only [hvisited]
    obtain ⟨steps,hsteps⟩ := hrs.follows
    exact ⟨⟨steps,fun fuel hfuel => followPrev_mono hfuel hsteps⟩,hrs.descending,hrs.mem,
      hrs.numbers⟩

theorem log_chains_complete_interleaved :
    let m := ((new .normal).appendEach [(makeRecord .begin 7 0 none,0),(makeRecord .begin 8 0 none,0),
      (makeRecord .commit 7 0 none,0)]).2
    (m.getLogsForTransaction 7 [1,2,3]).reverse.map (·.lsn) = [3,1] ∧
    ∃ steps, ∀ fuel ≥ steps,
      m.followPrev fuel (m.lastLsn 7) = some (m.getLogsForTransaction 7 [1,2,3]).reverse := by
  have hall := log_chains_complete (new_fresh .normal)
    [(makeRecord .begin 7 0 none,0),(makeRecord .begin 8 0 none,0),(makeRecord .commit 7 0 none,0)]
    (by simp [makeRecord])
  obtain ⟨hfollow,_,_,hnumbers⟩ := hall.2 7 [1,2,3] (by decide)
  exact ⟨hnumbers,hfollow⟩

end LogManager
end OrangeSQL
