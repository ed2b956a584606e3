import OrangeSQL.Checkpoint
import OrangeSQL.LogBuffering

/-! Reading CHECKPOINT records back. The text of the checkpoint manager is read as it was written;
that of the transaction manager lacks the word that the reader looks for. Which of several
CHECKPOINT records is found depends on the order of the map. -/
namespace OrangeSQL

open TransactionManager (decimal joinIds)

section Text

/-- The digits of a number are read as the number. -/
theorem stoull_toDigits {n : ℕ} (hn : n < 2^64) : stoull (Nat.toDigits 10 n) = .ok n := by
  have hne : Nat.toDigits 10 n ≠ [] := Nat.toDigits_ne_nil
  have hvalue := @Nat.ofDigitChars_ten_toDigits n
  simp only [stoull,dropWhile_isspace_toDigits,signAt_toDigits,List.length_nil,List.drop_zero,
    takeWhile_isDigit_toDigits,hvalue]
  rw [if_neg hne,if_neg (by omega),if_neg (by decide)]

theorem textOf_append (a b : List UInt8) : textOf (a++b) = textOf a++textOf b := List.map_append

theorem isDigit_toNat {c : Char} (h : c.isDigit) : 48 ≤ c.toNat ∧ c.toNat ≤ 57 := by
  simp only [Char.isDigit,Bool.and_eq_true,decide_eq_true_eq,ge_iff_le,UInt32.le_iff_toNat_le] at h
  exact h

theorem toNat_ofNat_digit {c : Char} (h : c.isDigit) : (UInt8.ofNat c.toNat).toNat = c.toNat := by
  have hbound := isDigit_toNat h
  rw [UInt8.toNat_ofNat']
  exact Nat.mod_eq_of_lt (by omega)

theorem textOf_decimal (n : ℕ) : textOf (decimal n) = Nat.toDigits 10 n := by
  unfold textOf decimal
  rw [List.map_map]
  have hback : ∀ c ∈ Nat.toDigits 10 n,
      ((fun b : UInt8 => Char.ofNat b.toNat) ∘ fun c : Char => UInt8.ofNat c.toNat) c = c := by
    intro c hc
    have hbyte := toNat_ofNat_digit (isDigit_of_mem_toDigits hc)
    simp only [Function.comp,hbyte,Char.ofNat_toNat]
  rw [List.map_congr_left hback,List.map_id']

theorem mem_decimal {n : ℕ} {b : UInt8} (h : b ∈ decimal n) : 48 ≤ b.toNat ∧ b.toNat ≤ 57 := by
  obtain ⟨c,hc,rfl⟩ := List.mem_map.mp h
  have hbound := isDigit_toNat (isDigit_of_mem_toDigits hc)
  rwa [toNat_ofNat_digit (isDigit_of_mem_toDigits hc)]

@[simp] theorem joinIds_nil : joinIds [] = [] := rfl

@[simp] theorem joinIds_singleton (id : TransactionId) : joinIds [id] = decimal id := by
  simp [joinIds,List.intercalate]

theorem joinIds_cons_cons (id id' : TransactionId) (ids : List TransactionId) :
    joinIds (id::id'::ids) = decimal id++44::joinIds (id'::ids) := by
  simp [joinIds,List.intercalate]

/-- The bytes of a list of ids are commas and digits. -/
theorem mem_joinIds {ids : List TransactionId} {b : UInt8} (h : b ∈ joinIds ids) :
    b = 44 ∨ 48 ≤ b.toNat ∧ b.toNat ≤ 57 := by
  induction ids with
  | nil => cases h
  | cons id ids ih =>
    cases ids with
    | nil => exact Or.inr (mem_decimal (joinIds_singleton id ▸ h))
    | cons id' ids =>
      rw [joinIds_cons_cons] at h
      rcases List.mem_append.mp h with hid | hrest
      · exact Or.inr (mem_decimal hid)
      · rcases List.mem_cons.mp hrest with rfl | hids
        · exact Or.inl rfl
        · exact ih hids

theorem ne_of_mem_toDigits {n : ℕ} {c d : Char} (h : c ∈ Nat.toDigits 10 n)
    (hd : d.isDigit = false) : decide (c ≠ d) = true := by
  have hc := isDigit_of_mem_toDigits h
  apply decide_eq_true
  rintro rfl
  rw [hd] at hc
  cases hc

theorem parseIds_last {txs : Text} (hne : txs ≠ []) (h : ∀ c ∈ txs, decide (c ≠ ',') = true) :
    parseIds txs = do return [← stoull txs] := by
  have hdrop : txs.dropWhile (· ≠ ',') = [] := List.dropWhile_eq_nil_iff.mpr h
  rw [parseIds,if_neg hne]
  split
  · rfl
  · next c rest hrest =>
    rw [hdrop] at hrest
    cases hrest

theorem parseIds_comma {piece rest : Text} (h : ∀ c ∈ piece, decide (c ≠ ',') = true) :
    parseIds (piece++ ','::rest) = do
      let id ← stoull piece
      return id::(← parseIds rest) := by
  have hdrop : (piece++ ','::rest).dropWhile (· ≠ ',') = ','::rest := by
    rw [List.dropWhile_append_of_pos h]
    rfl
  have htake : (piece++ ','::rest).takeWhile (· ≠ ',') = piece := by
    rw [List.takeWhile_append_of_pos h]
    simp
  rw [parseIds,if_neg (by simp)]
  split
  · next hnil =>
    rw [hdrop] at hnil
    cases hnil
  · next c tail htail =>
    rw [hdrop] at htail
    obtain ⟨_,rfl⟩ := List.cons.inj htail
    rw [htake]

/-- The list is read number by number. -/
theorem parseIds_joinIds {ids : List TransactionId} (h : ∀ id ∈ ids, id < 2^64) :
    parseIds (textOf (joinIds ids)) = .ok ids := by
  induction ids with
  | nil => rw [joinIds_nil,textOf,List.map_nil,parseIds,if_pos rfl]
  | cons id ids ih =>
    have hid := stoull_toDigits (h id List.mem_cons_self)
    have hcomma : ∀ c ∈ Nat.toDigits 10 id, decide (c ≠ ',') = true :=
      fun c hc => ne_of_mem_toDigits hc (by decide)
    cases ids with
    | nil =>
      rw [joinIds_singleton,textOf_decimal,parseIds_last Nat.toDigits_ne_nil hcomma,hid]
      rfl
    | cons id' ids =>
      have hrest := ih fun x hx => h x (List.mem_cons_of_mem _ hx)
      have htext : textOf (joinIds (id::id'::ids)) =
          Nat.toDigits 10 id++ ','::textOf (joinIds (id'::ids)) := by
        rw [joinIds_cons_cons,textOf_append,textOf_decimal]
        rfl
      rw [htext,parseIds_comma hcomma,hid,hrest]
      rfl

end Text

namespace CheckpointManager

/-- The texts that the two components write, each with the zero byte at its end. -/
inductive Writer
  | transactionManager
  | checkpointManager (isFull : Bool)
  deriving DecidableEq, Repr

def Writer.data (ids : List TransactionId) : Writer → List UInt8
  | .transactionManager => joinIds ids++[0]
  | .checkpointManager isFull => checkpointData isFull ids++[0]

theorem mem_checkpointData {isFull : Bool} {ids : List TransactionId} {b : UInt8}
    (h : b ∈ checkpointData isFull ids) : b ≠ 0 := by
  have hword : ∀ word : Text, (0 : UInt8) ∉ bytesOf word → b ∈ bytesOf word → b ≠ 0 := by
    rintro word hzero hb rfl
    exact hzero hb
  simp only [checkpointData,List.mem_append] at h
  rcases h with ((((h | h) | h) | h) | h) | h
  · exact hword _ (by cases isFull <;> decide) h
  · exact hword _ (by decide) h
  · rcases mem_joinIds h with rfl | ⟨hb,_⟩
    · decide
    · rintro rfl
      simp at hb
  · exact hword _ (by decide) h
  · exact hword _ (by decide) h
  · exact hword _ (by decide) h

/-- The text up to the zero byte is what was written. -/
theorem takeWhile_text {text : List UInt8} (h : ∀ b ∈ text, b ≠ 0) :
    (text++[0]).takeWhile (· ≠ 0) = text := by
  have htext : ∀ b ∈ text, decide (b ≠ 0) = true := fun b hb => decide_eq_true (h b hb)
  rw [List.takeWhile_append_of_pos htext]
  simp

/-- The text as the reader sees it. -/
theorem textOf_checkpointData (isFull : Bool) (ids : List TransactionId) :
    textOf (checkpointData isFull ids) =
      (if isFull then "FULL\n" else "INCR\n").toList++("ACTIVE:".toList++
        (textOf (joinIds ids)++ '\n'::"DIRTY:\n".toList)) := by
  have hback : ∀ s ∈ ["FULL\n","INCR\n","ACTIVE:","\n","DIRTY:"],
      textOf (bytesOf s.toList) = s.toList := by decide
  have hmode : textOf (bytesOf (if isFull then "FULL\n" else "INCR\n").toList) =
      (if isFull then "FULL\n" else "INCR\n").toList := by
    cases isFull
    · exact hback _ (by decide)
    · exact hback _ (by decide)
  simp only [checkpointData,textOf_append,hmode,hback _ (show "ACTIVE:" ∈ _ by decide),
    hback _ (show "\n" ∈ _ by decide),hback _ (show "DIRTY:" ∈ _ by decide),List.append_assoc]
  rfl

theorem notMem_joinIds {c : Char} (h : c.toNat < 44 ∨ 57 < c.toNat) (ids : List TransactionId) :
    c ∉ textOf (joinIds ids) := by
  intro hc
  obtain ⟨b,hb,rfl⟩ := List.mem_map.mp hc
  have hbound : 44 ≤ b.toNat ∧ b.toNat ≤ 57 := by
    rcases mem_joinIds hb with rfl | ⟨hlow,hhigh⟩
    · decide
    · omega
  have hchar : ∀ n < 58, (Char.ofNat n).toNat = n := by decide
  rw [hchar b.toNat (by omega)] at h
  omega

theorem afterFirst_append (isFull : Bool) (rest : Text) :
    afterFirst "ACTIVE:".toList
      ((if isFull then "FULL\n" else "INCR\n").toList++("ACTIVE:".toList++rest)) = some rest := by
  cases isFull <;> simp [afterFirst]

theorem activeIds_checkpointData (isFull : Bool) {ids : List TransactionId}
    (h : ∀ id ∈ ids, id < 2^64) : activeIds (textOf (checkpointData isFull ids)) = .ok ids := by
  have hline : (textOf (joinIds ids)++ '\n'::"DIRTY:\n".toList).takeWhile (· ≠ '\n') =
      textOf (joinIds ids) := by
    have hplain : ∀ c ∈ textOf (joinIds ids), decide (c ≠ '\n') = true := by
      intro c hc
      exact decide_eq_true fun hcn => notMem_joinIds (by decide) ids (hcn ▸ hc)
    rw [List.takeWhile_append_of_pos hplain]
    simp
  rw [activeIds,textOf_checkpointData,afterFirst_append]
  simp only [hline,List.mem_append,List.mem_cons,true_or,or_true,if_true]
  exact parseIds_joinIds h

theorem afterFirst_eq_none {c : Char} {word text : Text} (h : c ∉ text) :
    afterFirst (c::word) text = none := by
  induction text with
  | nil => rfl
  | cons d text ih =>
    obtain ⟨hd,htext⟩ := List.ne_and_not_mem_of_not_mem_cons h
    have hword : ¬c::word <+: d::text := fun hpre => hd (List.cons_prefix_cons.mp hpre).1
    rw [afterFirst,if_neg hword,ih htext]

/-- The reader does not find its word in the text of the transaction manager. -/
theorem activeIds_joinIds (ids : List TransactionId) : activeIds (textOf (joinIds ids)) = .ok [] := by
  have hword : afterFirst "ACTIVE:".toList (textOf (joinIds ids)) = none :=
    afterFirst_eq_none (notMem_joinIds (by decide) ids)
  rw [activeIds,hword]

theorem readRecord_text {r : LogRecord} {text : List UInt8} (hdata : r.data = some (text++[0]))
    (h : ∀ b ∈ text, b ≠ 0) : readRecord r = activeIds (textOf text) := by
  rw [readRecord,hdata]
  simp only [takeWhile_text h,List.mem_append,List.mem_singleton,or_true,if_true]

/-- What is read of a record with the text of either writer. -/
theorem readRecord_data {r : LogRecord} {w : Writer} {ids : List TransactionId}
    (hdata : r.data = some (w.data ids)) (h : ∀ id ∈ ids, id < 2^64) :
    readRecord r = .ok (if w = .transactionManager then [] else ids) := by
  cases w with
  | transactionManager =>
    have hplain : ∀ b ∈ joinIds ids, b ≠ 0 := by
      intro b hb
      rcases mem_joinIds hb with rfl | ⟨hlow,_⟩
      · decide
      · rintro rfl
        simp at hlow
    rw [readRecord_text hdata hplain,activeIds_joinIds,if_pos rfl]
  | checkpointManager isFull =>
    rw [readRecord_text hdata fun b hb => mem_checkpointData hb,activeIds_checkpointData isFull h,
      if_neg (by simp)]

/-- The log after one of the components has written a CHECKPOINT record. -/
def Writer.write (m : TransactionManager) (c : CheckpointManager) (pages : List PageId)
    (ids : List TransactionId) (now : ℤ) : Writer → LogManager
  | .transactionManager => (m.checkpoint pages ids now).2.logManager
  | .checkpointManager isFull => (c.writeCheckpointRecord m.logManager isFull ids now).2

/-- Both put one record with their text into the map, under the next number. -/
theorem Writer.write_logBuffer (w : Writer) (m : TransactionManager) (c : CheckpointManager)
    (pages : List PageId) (ids : List TransactionId) (now : ℤ) :
    ∃ r, (w.write m c pages ids now).logBuffer =
        m.logManager.logBuffer.insert m.logManager.currentLsn r ∧
      r.type = .checkpoint ∧ r.data = some (w.data ids) := by
  have hdata : ∀ text : List UInt8, (m.logManager.stamp (LogManager.makeRecord .checkpoint 0
      invalidPageId (some (text++[0]))) now).data = some (text++[0]) := by
    intro text
    simp [LogManager.stamp,LogManager.makeRecord]
  cases w with
  | transactionManager =>
    refine ⟨m.logManager.stamp (LogManager.makeRecord .checkpoint 0 invalidPageId
      (some (joinIds ids++[0]))) now,?_,rfl,hdata (joinIds ids)⟩
    simp only [write,TransactionManager.checkpoint,TransactionManager.appendRecord,
      LogManager.flushAll,LogManager.flush_eq,LogManager.flushBuffer_logBuffer]
    exact LogManager.append_logBuffer _ _ _
  | checkpointManager isFull =>
    refine ⟨m.logManager.stamp (LogManager.makeRecord .checkpoint 0 invalidPageId
      (some (checkpointData isFull ids++[0]))) now,?_,rfl,hdata (checkpointData isFull ids)⟩
    exact LogManager.append_logBuffer _ _ _

section Search

variable {m : LogManager} {lsn : LogSequenceNumber} {r : LogRecord}

theorem checkpointAt_eq_some {k : LogSequenceNumber} :
    checkpointAt m k = some (lsn,r) ↔
      k = lsn ∧ m.logBuffer.lookup k = some r ∧ r.type = .checkpoint := by
  unfold checkpointAt
  cases m.logBuffer.lookup k with
  | none => simp
  | some q =>
    by_cases htype : q.type = .checkpoint <;> simp [htype] <;> aesop

/-- The only CHECKPOINT record is found in every order. -/
theorem findSome_of_unique {order : List LogSequenceNumber} (hmem : lsn ∈ order)
    (hlook : m.logBuffer.lookup lsn = some r) (htype : r.type = .checkpoint)
    (hunique : ∀ k q, m.logBuffer.lookup k = some q → q.type = .checkpoint → k = lsn) :
    order.reverse.findSome? (checkpointAt m) = some (lsn,r) := by
  have hat : checkpointAt m lsn = some (lsn,r) := checkpointAt_eq_some.mpr ⟨rfl,hlook,htype⟩
  have hsome : (order.reverse.findSome? (checkpointAt m)).isSome := by
    rw [List.findSome?_isSome_iff]
    exact ⟨lsn,List.mem_reverse.mpr hmem,by rw [hat]; rfl⟩
  obtain ⟨⟨k,q⟩,hfound⟩ := Option.isSome_iff_exists.mp hsome
  obtain ⟨l,_,hl⟩ := List.exists_of_findSome?_eq_some hfound
  obtain ⟨rfl,hq,hqtype⟩ := checkpointAt_eq_some.mp hl
  obtain rfl := hunique _ _ hq hqtype
  rw [hfound,Option.some.inj (hq.symm.trans hlook)]

/-- A CHECKPOINT record is found first in an order that ends with it. -/
theorem findSome_last {order : List LogSequenceNumber} (hlook : m.logBuffer.lookup lsn = some r)
    (htype : r.type = .checkpoint) :
    (order++[lsn]).reverse.findSome? (checkpointAt m) = some (lsn,r) := by
  have hat : checkpointAt m lsn = some (lsn,r) := checkpointAt_eq_some.mpr ⟨rfl,hlook,htype⟩
  rw [List.reverse_append,List.reverse_singleton,List.singleton_append,List.findSome?_cons,hat]

theorem findLastCheckpoint_of_found {order : List LogSequenceNumber} {lsn : LogSequenceNumber}
    {r : LogRecord} (h : order.reverse.findSome? (checkpointAt m) = some (lsn,r)) :
    findLastCheckpoint m order = (readRecord r).map fun ids => some (lsn,ids) := by
  simp only [findLastCheckpoint,h]
  cases readRecord r <;> rfl

/-- Any key can be the last one of an order. -/
theorem lists_last {keys : Finset LogSequenceNumber} {k : LogSequenceNumber} (h : k ∈ keys) :
    Engine.Lists ((keys.erase k).toList++[k]) keys := by
  constructor
  · rw [List.nodup_append]
    refine ⟨Finset.nodup_toList _,List.nodup_singleton k,?_⟩
    intro a ha b hb
    obtain rfl := List.mem_singleton.mp hb
    exact Finset.ne_of_mem_erase (Finset.mem_toList.mp ha)
  · rw [List.toFinset_append,Finset.toList_toFinset]
    ext a
    by_cases ha : a = k <;> simp [ha,h]

end Search

/-- In every order of the map the new record is found, with the ids that were written. -/
def ReadsBack (w : Writer) (m : TransactionManager) (c : CheckpointManager) (pages : List PageId)
    (ids : List TransactionId) (now : ℤ) : Prop :=
  ∀ order, Engine.Lists order (w.write m c pages ids now).logBuffer.keys →
    findLastCheckpoint (w.write m c pages ids now) order =
      .ok (some (m.logManager.currentLsn,ids))

/-- Only the text of the checkpoint manager has the ids where the reader looks for them, and no
order is told from another only when no earlier CHECKPOINT record is in the map. -/
theorem readsBack_iff (w : Writer) (m : TransactionManager) (c : CheckpointManager)
    (pages : List PageId) (ids : List TransactionId) (now : ℤ) (hids : ∀ id ∈ ids, id < 2^64)
    (_hfits : (w.data ids).length ≤ 65535) :
    ReadsBack w m c pages ids now ↔
      (w = .transactionManager → ids = []) ∧
      ∀ k r, m.logManager.logBuffer.lookup k = some r → r.type = .checkpoint →
        k = m.logManager.currentLsn := by
  obtain ⟨r,hbuffer,htype,hdata⟩ := w.write_logBuffer m c pages ids now
  have hlook : (w.write m c pages ids now).logBuffer.lookup m.logManager.currentLsn = some r := by
    rw [hbuffer,Finmap.lookup_insert]
  have hread := readRecord_data hdata hids
  have hlast : ∀ {k q}, (w.write m c pages ids now).logBuffer.lookup k = some q →
      q.type = .checkpoint → ReadsBack w m c pages ids now →
      k = m.logManager.currentLsn ∧ readRecord q = .ok ids := by
    intro k q hq hqtype h
    have hk : k ∈ (w.write m c pages ids now).logBuffer.keys :=
      Finmap.mem_keys.mpr (Finmap.mem_of_lookup_eq_some hq)
    have hresult := h _ (lists_last hk)
    rw [findLastCheckpoint_of_found (findSome_last hq hqtype)] at hresult
    cases hqread : readRecord q with
    | error e =>
      rw [hqread] at hresult
      cases hresult
    | ok found =>
      rw [hqread] at hresult
      cases hresult
      exact ⟨rfl,rfl⟩
  constructor
  · intro h
    constructor
    · rintro rfl
      have hfound := (hlast hlook htype h).2
      rw [hread,if_pos rfl] at hfound
      exact (Except.ok.inj hfound).symm
    · intro k q hq hqtype
      by_contra hk
      have hkept : (w.write m c pages ids now).logBuffer.lookup k = some q := by
        rw [hbuffer,Finmap.lookup_insert_of_ne _ hk,hq]
      exact hk (hlast hkept hqtype h).1
  · rintro ⟨hwriter,hnone⟩ order horder
    have hmem : m.logManager.currentLsn ∈ order := by
      rw [← List.mem_toFinset,horder.2,Finmap.mem_keys]
      exact Finmap.mem_of_lookup_eq_some hlook
    have hunique : ∀ k q, (w.write m c pages ids now).logBuffer.lookup k = some q →
        q.type = .checkpoint → k = m.logManager.currentLsn := by
      intro k q hq hqtype
      rw [hbuffer] at hq
      rcases FiniteMap.lookup_insert_cases hq with ⟨hk,_⟩ | hq
      · exact hk
      · exact hnone k q hq hqtype
    have hids' : (if w = .transactionManager then [] else ids) = ids := by
      split_ifs with hw
      · exact (hwriter hw).symm
      · rfl
    rw [findLastCheckpoint_of_found (findSome_of_unique hmem hlook htype hunique),hread,hids']
    rfl

/-- Two transactions have begun on an empty log. -/
def twoActive : TransactionManager :=
  let m := TransactionManager.new (BufferPool.new 1 Disk.empty 1) (LogManager.new .normal)
  let m := (m.begin .readCommitted .readWrite 0).2
  (m.begin .readCommitted .readWrite 0).2

/-- The active transactions 1 and 2, written by the transaction manager, are read as none. -/
theorem transactionManager_ids_lost :
    Engine.Lists [1,2] twoActive.activeTransactions.keys ∧
    ¬ReadsBack .transactionManager twoActive ⟨false,0⟩ [] [1,2] 0 := by
  refine ⟨by decide,?_⟩
  intro h
  obtain ⟨r,hbuffer,htype,hdata⟩ :=
    Writer.transactionManager.write_logBuffer twoActive ⟨false,0⟩ [] [1,2] 0
  have hlook : (Writer.transactionManager.write twoActive ⟨false,0⟩ [] [1,2] 0).logBuffer.lookup 3 =
      some r := by
    rw [hbuffer]
    exact Finmap.lookup_insert _
  have hresult := h ([1,2]++[3]) (by decide)
  rw [findLastCheckpoint_of_found (findSome_last hlook htype),readRecord_data hdata (by decide),
    if_pos rfl] at hresult
  cases hresult

/-- The first CHECKPOINT record of the checkpoint manager is read back. -/
theorem readsBack_first_checkpoint :
    ReadsBack (.checkpointManager true) twoActive ⟨false,0⟩ [] [1,2] 0 := by
  apply (readsBack_iff _ _ _ _ _ _ (by decide) (by decide)).mpr
  refine ⟨by decide,?_⟩
  intro k r hr htype
  rcases FiniteMap.lookup_insert_cases hr with ⟨_,rfl⟩ | hr
  · cases htype
  · rcases FiniteMap.lookup_insert_cases hr with ⟨_,rfl⟩ | hr
    · cases htype
    · cases hr

end CheckpointManager
end OrangeSQL
