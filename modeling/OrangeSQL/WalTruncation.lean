import OrangeSQL.WalRecords

/-! A row of the log that was cut off. The reader gives a value whose bytes are not all there the
default of its type, and goes on with the bytes that are left as if they were the next value. -/
namespace OrangeSQL
namespace WalManager

open Bytes
open Value (ShortString Same IsBlank blank)

/-- The first `n` bytes of a row give a beginning of the row, whatever the constructor of a value
leaves unset. -/
def DecodesToPrefix (record : List Value) (n : ℕ) : Prop :=
  ∀ unset, ∃ vals, deserializeRecord unset ((serializeRecord record).take n) = some vals ∧
    List.Forall₂ Same (record.take vals.length) vals

/-- How many of `m` bytes lie behind the beginning of field `i`. -/
def present (record : List Value) (m i : ℕ) : ℕ :=
  m-((record.take i).map fun v => 1+valueSize v).sum

/-- A field with `left` bytes in front of the cut and `next` more fields to read does no harm: it is
all there, or it is the default of its type and nothing is read behind its type byte. -/
def FieldOk (unset : UInt32) (v : Value) (left next : ℕ) : Prop :=
  v.ShortString ∧ 1+valueSize v ≤ left ∨ IsBlank unset v ∧ (left = 1 ∨ next = 0)

/-- The fields that begin in front of the cut do no harm. -/
def FieldsOk (unset : UInt32) (record : List Value) (count m : ℕ) : Prop :=
  ∀ i v, i < count → record[i]? = some v → 0 < present record m i →
    FieldOk unset v (present record m i) (count-(i+1))

/-- The count takes two bytes and is cut to them. -/
def CutHarmless (record : List Value) (n : ℕ) : Prop :=
  ∀ unset, FieldsOk unset record (record.length%2^16) (n-2)

section Cut

theorem present_zero (record : List Value) (m : ℕ) : present record m 0 = m := by
  simp [present]

theorem present_cons (v : Value) (record : List Value) (m i : ℕ) :
    present (v::record) m (i+1) = present record (m-(1+valueSize v)) i := by
  rw [present,present,List.take_succ_cons,List.map_cons,List.sum_cons,Nat.sub_add_eq]

theorem present_le (record : List Value) (m i : ℕ) : present record m i ≤ m := Nat.sub_le _ _

variable {unset : UInt32}

theorem fieldsOk_zero (record : List Value) (m : ℕ) : FieldsOk unset record 0 m :=
  fun _ _ hi => absurd hi (Nat.not_lt_zero _)

theorem fieldsOk_empty (record : List Value) (count : ℕ) : FieldsOk unset record count 0 := by
  intro i v _ _ hpos
  exact absurd hpos (Nat.not_lt.mpr (present_le record 0 i))

theorem fieldsOk_cons (v : Value) (record : List Value) (count : ℕ) {m : ℕ} (hm : 0 < m) :
    FieldsOk unset (v::record) (count+1) m ↔
      FieldOk unset v m count ∧ FieldsOk unset record count (m-(1+valueSize v)) := by
  constructor
  · intro h
    constructor
    · have hhead := h 0 v (Nat.succ_pos count) rfl (by rwa [present_zero])
      rwa [present_zero] at hhead
    · intro i u hi hu hpos
      have htail := h (i+1) u (Nat.succ_lt_succ hi) hu (by rwa [present_cons])
      rwa [present_cons,Nat.add_sub_add_right] at htail
  · rintro ⟨hhead,htail⟩ i u hi hu hpos
    cases i with
    | zero =>
      obtain rfl := Option.some.inj hu
      rwa [present_zero]
    | succ i =>
      rw [present_cons] at hpos ⊢
      rw [Nat.add_sub_add_right]
      exact htail i u (Nat.lt_of_succ_lt_succ hi) hu hpos

theorem isBlank_short {v : Value} (h : IsBlank unset v) : v.ShortString := by
  intro hv
  have hstr := ((Value.same_varchar_iff hv).mp h).2
  rw [hstr]
  exact Nat.two_pow_pos 32

/-- A string that is read is not a string that is too long. -/
theorem readString_short {data : List UInt8} {type : DataType} {val : Value} {pos next : ℕ}
    (h : readString data (blank unset type) pos = some (val,next)) : val.strVal.length < 2^32 := by
  by_cases hin : pos+4 ≤ data.length
  · rw [readString_inside hin rfl] at h
    have hlen := leNat_lt (slice data pos 4)
    rw [slice_length data pos 4 hin] at hlen
    split at h
    · obtain ⟨rfl,-⟩ := Prod.mk.inj (Option.some.inj h)
      exact (List.length_take_le _ _).trans_lt hlen
    · obtain ⟨rfl,-⟩ := Prod.mk.inj (Option.some.inj h)
      exact Nat.two_pow_pos 32
  · rw [readString_cut (Nat.not_le.mp hin)] at h
    obtain ⟨rfl,-⟩ := Prod.mk.inj (Option.some.inj h)
    exact Nat.two_pow_pos 32

variable (unset) in
/-- The bytes of a value that is cut off give a value with nothing but the type. -/
theorem readMember_cut {v : Value} (h : v.type ∈ loggedTypes) (hs : v.ShortString)
    (front : List UInt8) {m : ℕ} (hm : m < valueSize v) :
    ∃ next, readMember (front++(serializeValue v).take m) (blank unset v.type) front.length =
        some (blank unset v.type,next) ∧ (IsBlank unset v → next = front.length) := by
  have hsize := (length_serializeValue_iff v).mpr hs
  have hlen : (front++(serializeValue v).take m).length = front.length+m := by
    rw [List.length_append,List.length_take]
    omega
  rcases scalar_or_varchar_or_null h with ⟨w,hw⟩ | hv | hnull
  · rw [(serializeValue_scalar hw).2] at hm
    rw [readMember_scalar (by exact hw),readScalar_cut (by omega)]
    exact ⟨_,rfl,fun _ => rfl⟩
  · obtain ⟨hbytes,hvsize⟩ := serializeValue_varchar hv
    rw [readMember_varchar (by exact hv)]
    by_cases hfour : m < 4
    · rw [readString_cut (by omega)]
      exact ⟨_,rfl,fun _ => rfl⟩
    · -- the length is there, and the string is not
      have hstrLen : leNat (slice (front++(serializeValue v).take m) front.length 4) =
          v.strVal.length := by
        have hparts : front++(serializeValue v).take m = front++leBytes 4 v.strVal.length++
            (v.strVal.take (v.strVal.length%2^32)).take (m-4) := by
          rw [hbytes,List.take_append,leBytes_length,
            List.take_of_length_le (by rw [leBytes_length]; omega),List.append_assoc]
        have hslice := slice_between front (leBytes 4 v.strVal.length)
          ((v.strVal.take (v.strVal.length%2^32)).take (m-4))
        rw [leBytes_length] at hslice
        rw [hparts,hslice,leNat_leBytes]
        exact Nat.mod_eq_of_lt (hs hv)
      rw [readString_inside (by omega) hstrLen,if_neg (by omega)]
      refine ⟨_,rfl,fun hblank => ?_⟩
      have hempty := ((Value.same_varchar_iff hv).mp hblank).2
      rw [hempty] at hvsize
      exact absurd hm (by rw [hvsize]; simpa [blank,Value.null] using hfour)
  · rw [(serializeValue_other (by rw [hnull]; rfl) (by rw [hnull]; decide)).2] at hm
    exact absurd hm (Nat.not_lt_zero m)

/-- The bytes behind the type byte of a default begin with zero, if there are any. -/
theorem serializeValue_blank {v : Value} (h : v.type ∈ loggedTypes) (hblank : IsBlank unset v)
    (hpos : 0 < valueSize v) : ∃ rest, serializeValue v = 0::rest := by
  rcases scalar_or_varchar_or_null h with ⟨w,hw⟩ | hv | hnull
  · obtain ⟨hbytes,hsize⟩ := serializeValue_scalar hw
    obtain ⟨w,rfl⟩ := Nat.exists_eq_add_of_le' (show 1 ≤ w by omega)
    have hdata : (blank unset v.type).data.toNat = 2^32*unset.toNat := by
      have hlt := unset.toNat_lt
      rw [blank,UInt64.toNat_ofNat']
      exact Nat.mod_eq_of_lt (by omega)
    have hsame := congrArg (·%256) ((Value.same_scalar_iff hw).mp hblank).2
    have hdvd : 256 ∣ 256^(w+1) := dvd_pow_self 256 (Nat.succ_ne_zero w)
    simp only [Nat.mod_mod_of_dvd _ hdvd,hdata] at hsame
    have hlow : UInt8.ofNat v.data.toNat = 0 := by
      apply UInt8.toNat_inj.mp
      rw [UInt8.toNat_ofNat']
      exact hsame.trans (show 2^32*unset.toNat%256 = 0 by omega)
    exact ⟨leBytes w (v.data.toNat/256),by rw [hbytes,leBytes,hlow]⟩
  · obtain ⟨hbytes,-⟩ := serializeValue_varchar hv
    have hempty : v.strVal = [] := ((Value.same_varchar_iff hv).mp hblank).2
    rw [hempty] at hbytes
    exact ⟨_,hbytes⟩
  · rw [(serializeValue_other (by rw [hnull]; rfl) (by rw [hnull]; decide)).2] at hpos
    exact absurd hpos (Nat.lt_irrefl 0)

variable (unset) in
/-- A value that no row of the log has at this place. -/
theorem readValues_zero (front rest : List UInt8) (count : ℕ) : ∃ val vals,
    readValues unset (front++0::rest) (count+1) front.length = some (val::vals) ∧
      val.type = .unknown := by
  have hpos : front.length < (front++0::rest).length := by simp
  have hslice := slice_between front [0] rest
  rw [List.append_assoc,List.singleton_append] at hslice
  have hread : readValue unset (front++0::rest) front.length =
      some (blank unset .unknown,front.length+1) := by
    rw [readValue_eq hpos,show slice (front++0::rest) front.length 1 = [0] from hslice]
    rfl
  obtain ⟨vals,hvals,-⟩ := readValues_returns unset (front++0::rest) count (front.length+1)
  exact ⟨blank unset .unknown,vals,by rw [readValues_step hpos hread,hvals]; rfl,rfl⟩

variable (unset) in
/-- A string that is too long is not read back, wherever the cut is. -/
theorem readMember_long {v : Value} (hs : ¬v.ShortString) (data : List UInt8) (pos : ℕ) :
    ∃ val next, readMember data (blank unset v.type) pos = some (val,next) ∧ ¬v.Same val := by
  have hv : v.type = .varchar ∧ 2^32 ≤ v.strVal.length := by
    rw [ShortString] at hs
    push Not at hs
    exact hs
  obtain ⟨val,next,hread,-⟩ := readMember_returns data (blank unset v.type) pos
  refine ⟨val,next,hread,fun hsame => ?_⟩
  rw [readMember_varchar (by exact hv.1)] at hread
  have hshort := readString_short hread
  rw [← ((Value.same_varchar_iff hv.1).mp hsame).2] at hshort
  exact absurd hshort (Nat.not_lt.mpr hv.2)

/-- Behind a default that is cut off, one more round reads a zero as a type. -/
theorem readValues_behind_cut {v : Value} (h : v.type ∈ loggedTypes) (hblank : IsBlank unset v)
    {record : List Value} (htypes : ∀ u ∈ record, u.type ∈ loggedTypes) (front : List UInt8)
    {count m : ℕ} (hm : m < valueSize v) (hcount : count ≤ record.length) :
    ∃ vals, readValues unset (front++(serializeValue v).take m) count front.length = some vals ∧
      (List.Forall₂ Same (record.take vals.length) vals ↔ m = 0 ∨ count = 0) := by
  rcases Nat.eq_zero_or_pos m with rfl | hpos
  · exact ⟨[],readValues_end (by simp),by simp⟩
  cases count with
  | zero => exact ⟨[],rfl,by simp⟩
  | succ count =>
    obtain ⟨rest,hrest⟩ := serializeValue_blank h hblank (hpos.trans hm)
    obtain ⟨m,rfl⟩ := Nat.exists_eq_add_of_le' hpos
    obtain ⟨val,vals,hvals,htype⟩ := readValues_zero unset front (rest.take m) count
    refine ⟨val::vals,by rw [hrest,List.take_succ_cons]; exact hvals,iff_of_false ?_ (by simp)⟩
    cases record with
    | nil => exact absurd hcount (Nat.not_succ_le_zero count)
    | cons u record =>
      rw [List.length_cons,List.take_succ_cons,List.forall₂_cons]
      rintro ⟨hsame,-⟩
      have hu := htypes u List.mem_cons_self
      rw [hsame.1,htype] at hu
      exact absurd hu (by decide)

/-- A round of the loop on the type byte of a value. -/
theorem readValues_field {type : DataType} (h : type ∈ loggedTypes) {front rest : List UInt8}
    {val : Value} {next : ℕ} (hread : readMember (front++leBytes 1 type.code++rest)
      (blank unset type) (front++leBytes 1 type.code).length = some (val,next)) (count : ℕ) :
    readValues unset (front++leBytes 1 type.code++rest) (count+1) front.length =
      (readValues unset (front++leBytes 1 type.code++rest) count next).map fun vals => val::vals := by
  have hpos : front.length < (front++leBytes 1 type.code++rest).length := by
    simp only [List.length_append,leBytes_length]
    omega
  rw [List.length_append,leBytes_length] at hread
  exact readValues_step hpos ((readValue_typeByte unset h front rest).trans hread)

/-- The cut is inside the value in front. -/
theorem readValues_cut_inside {v : Value} (h : v.type ∈ loggedTypes) (hs : v.ShortString)
    {record : List Value} (htypes : ∀ u ∈ record, u.type ∈ loggedTypes) (front : List UInt8)
    {count m : ℕ} (hm : m < valueSize v) (hcount : count ≤ record.length) :
    ∃ vals, readValues unset (front++leBytes 1 v.type.code++(serializeValue v).take m) (count+1)
        front.length = some vals ∧
      (List.Forall₂ Same ((v::record).take vals.length) vals ↔
        FieldOk unset v (m+1) count) := by
  obtain ⟨next,hread,hnext⟩ := readMember_cut unset h hs (front++leBytes 1 v.type.code) hm
  by_cases hblank : IsBlank unset v
  · obtain ⟨vals,hvals,hiff⟩ := readValues_behind_cut h hblank htypes
      (front++leBytes 1 v.type.code) hm hcount
    refine ⟨blank unset v.type::vals,by rw [readValues_field h hread,hnext hblank,hvals]; rfl,?_⟩
    rw [List.length_cons,List.take_succ_cons,List.forall₂_cons,hiff,FieldOk]
    constructor
    · rintro ⟨-,hend⟩
      exact Or.inr ⟨hblank,by omega⟩
    · rintro (hhead | ⟨-,hend⟩)
      · omega
      · exact ⟨hblank,by omega⟩
  · obtain ⟨vals,hvals,-⟩ := readValues_returns unset
      (front++leBytes 1 v.type.code++(serializeValue v).take m) count next
    refine ⟨blank unset v.type::vals,by rw [readValues_field h hread,hvals]; rfl,?_⟩
    rw [List.length_cons,List.take_succ_cons,List.forall₂_cons,FieldOk]
    constructor
    · exact fun hall => absurd hall.1 hblank
    · rintro (hhead | hhead)
      · omega
      · exact absurd hhead.1 hblank

/-- A string in front is too long, wherever the cut is. -/
theorem readValues_cut_long {v : Value} (h : v.type ∈ loggedTypes) (hs : ¬v.ShortString)
    (record : List Value) (front rest : List UInt8) (count : ℕ) :
    ∃ vals, readValues unset (front++leBytes 1 v.type.code++rest) (count+1) front.length =
        some vals ∧
      ¬List.Forall₂ Same ((v::record).take vals.length) vals := by
  obtain ⟨val,next,hread,hdiffers⟩ := readMember_long unset hs
    (front++leBytes 1 v.type.code++rest) (front++leBytes 1 v.type.code).length
  obtain ⟨vals,hvals,-⟩ := readValues_returns unset (front++leBytes 1 v.type.code++rest) count next
  refine ⟨val::vals,by rw [readValues_field h hread,hvals]; rfl,?_⟩
  rw [List.length_cons,List.take_succ_cons,List.forall₂_cons]
  exact fun hall => hdiffers hall.1

theorem FieldOk.short {v : Value} {left next : ℕ} (h : FieldOk unset v left next) : v.ShortString := by
  rcases h with hall | hblank
  · exact hall.1
  · exact isBlank_short hblank.1

/-- The loop over a row that is cut off behind `m` bytes: by induction on the row, with the fields
that are all there read first and the cut in front of the rest. -/
theorem readValues_cut {record : List Value} (htypes : ∀ v ∈ record, v.type ∈ loggedTypes)
    (zeros front : List UInt8) {count m : ℕ} (hcount : count ≤ record.length) :
    ∃ vals, readValues unset (front++(record.flatMap fieldBytes++zeros).take m) count
        front.length = some vals ∧
      (List.Forall₂ Same (record.take vals.length) vals ↔ FieldsOk unset record count m) := by
  induction record generalizing front count m with
  | nil =>
    obtain rfl : count = 0 := Nat.le_zero.mp hcount
    exact ⟨[],rfl,iff_of_true .nil (fieldsOk_zero _ _)⟩
  | cons v record ih =>
    cases count with
    | zero => exact ⟨[],rfl,iff_of_true .nil (fieldsOk_zero _ _)⟩
    | succ count =>
      rcases Nat.eq_zero_or_pos m with rfl | hm
      · exact ⟨[],readValues_end (by simp),iff_of_true .nil (fieldsOk_empty _ _)⟩
      have hv := htypes v List.mem_cons_self
      have hrecord : ∀ u ∈ record, u.type ∈ loggedTypes :=
        fun u hu => htypes u (List.mem_cons_of_mem v hu)
      have hcount' : count ≤ record.length := Nat.le_of_succ_le_succ hcount
      rw [fieldsOk_cons v record count hm]
      obtain ⟨m,rfl⟩ := Nat.exists_eq_add_of_le' hm
      have hdata : front++((v::record).flatMap fieldBytes++zeros).take (m+1) =
          front++leBytes 1 v.type.code++
            (serializeValue v++(record.flatMap fieldBytes++zeros)).take m := by
        simp [fieldBytes,leBytes]
      rw [hdata]
      by_cases hs : v.ShortString
      · have hsize := (length_serializeValue_iff v).mpr hs
        by_cases hfits : valueSize v ≤ m
        · -- all of the value is there
          have htake : (serializeValue v++(record.flatMap fieldBytes++zeros)).take m =
              serializeValue v++(record.flatMap fieldBytes++zeros).take (m-valueSize v) := by
            rw [List.take_append,List.take_of_length_le (by omega),hsize]
          obtain ⟨v',hread,hsame⟩ := readMember_serializeValue unset hv hs
            (front++leBytes 1 v.type.code)
            ((record.flatMap fieldBytes++zeros).take (m-valueSize v))
          obtain ⟨vals,hvals,hiff⟩ := ih (m := m-valueSize v) hrecord
            (front++leBytes 1 v.type.code++serializeValue v) hcount'
          rw [List.append_assoc _ (serializeValue v)] at hread hvals
          rw [List.length_append,hsize] at hvals
          refine ⟨v'::vals,by rw [htake,readValues_field hv hread,hvals]; rfl,?_⟩
          have hhead : FieldOk unset v (m+1) count := Or.inl ⟨hs,by omega⟩
          rw [List.length_cons,List.take_succ_cons,List.forall₂_cons,hiff,
            show m+1-(1+valueSize v) = m-valueSize v by omega]
          exact ⟨fun h => ⟨hhead,h.2⟩,fun h => ⟨hsame,h.2⟩⟩
        · have htake : (serializeValue v++(record.flatMap fieldBytes++zeros)).take m =
              (serializeValue v).take m := List.take_append_of_le_length (by omega)
          obtain ⟨vals,hvals,hiff⟩ := readValues_cut_inside hv hs hrecord front
            (Nat.not_le.mp hfits) hcount'
          have hrest : FieldsOk unset record count (m+1-(1+valueSize v)) := by
            rw [show m+1-(1+valueSize v) = 0 by omega]
            exact fieldsOk_empty _ _
          exact ⟨vals,by rw [htake,hvals],hiff.trans (and_iff_left hrest).symm⟩
      · obtain ⟨vals,hvals,hnot⟩ := readValues_cut_long hv hs record front
          ((serializeValue v++(record.flatMap fieldBytes++zeros)).take m) count
        exact ⟨vals,hvals,iff_of_false hnot fun h => hs h.1.short⟩

end Cut

/-- Exactly the cuts that are harmless give a beginning of the row. -/
theorem decodesToPrefix_iff (record : List Value) (htypes : ∀ v ∈ record, v.type ∈ loggedTypes)
    (n : ℕ) : DecodesToPrefix record n ↔ CutHarmless record n := by
  have himage : serializeRecord record = leBytes 2 record.length++(record.flatMap fieldBytes++
      List.replicate (totalSize record-(written record).length) 0) := by
    rw [serializeRecord_eq,written,List.append_assoc]
  rw [DecodesToPrefix,himage,CutHarmless]
  apply forall_congr'
  intro unset
  generalize List.replicate (totalSize record-(written record).length) (0 : UInt8) = zeros
  by_cases hn : n < 2
  · have hcut : (((leBytes 2 record.length++(record.flatMap fieldBytes++zeros)).take n).length < 2) :=
      (List.length_take_le _ _).trans_lt hn
    rw [deserializeRecord,if_pos hcut,show n-2 = 0 by omega]
    exact iff_of_true ⟨[],rfl,.nil⟩ (fieldsOk_empty _ _)
  · have htake : (leBytes 2 record.length++(record.flatMap fieldBytes++zeros)).take n =
        leBytes 2 record.length++(record.flatMap fieldBytes++zeros).take (n-2) := by
      rw [List.take_append,leBytes_length,List.take_of_length_le (by rw [leBytes_length]; omega)]
    obtain ⟨vals,hvals,hiff⟩ := readValues_cut (m := n-2) htypes zeros (leBytes 2 record.length)
      (Nat.mod_le record.length (2^16))
    rw [leBytes_length] at hvals
    have hlong : ¬(leBytes 2 record.length++(record.flatMap fieldBytes++zeros).take (n-2)).length <
        2 := by
      rw [List.length_append,leBytes_length]
      omega
    have hcountBytes := readBytes_between [] (leBytes 2 record.length)
      ((record.flatMap fieldBytes++zeros).take (n-2))
    rw [leBytes_length,List.nil_append,List.length_nil] at hcountBytes
    rw [htake,deserializeRecord,if_neg hlong,hcountBytes]
    simp only [Option.bind_eq_bind,Option.bind_some,leNat_leBytes]
    rw [show 256^2 = 2^16 from rfl,hvals,← hiff]
    constructor
    · rintro ⟨vals',hsome,hall⟩
      obtain rfl := Option.some.inj hsome
      exact hall
    · exact fun hall => ⟨vals,rfl,hall⟩

/-- A cut between the two values. -/
theorem decodesToPrefix_iff_between : DecodesToPrefix [Value.ofInt 7,.null] 7 :=
  (decodesToPrefix_iff [Value.ofInt 7,.null] (by decide) 7).mpr
    fun _ => (fieldsOk_cons _ _ 1 (by decide)).mpr
      ⟨Or.inl ⟨by decide,by decide⟩,fieldsOk_empty [Value.null] 1⟩

/-- The number seven, cut off behind its type byte, is read as zero. -/
theorem not_decodesToPrefix_seven : 3 ≤ (serializeRecord [Value.ofInt 7]).length ∧
    ¬DecodesToPrefix [Value.ofInt 7] 3 := by
  refine ⟨by decide,?_⟩
  intro h
  obtain ⟨vals,hvals,hall⟩ := h 0
  have hread : deserializeRecord 0 ((serializeRecord [Value.ofInt 7]).take 3) =
      some [blank 0 .integer] := by decide
  obtain rfl : vals = [blank 0 .integer] := Option.some.inj (hvals.symm.trans hread)
  cases hall with
  | cons hsame _ =>
    have hseven : (Value.ofInt 7).data.toUInt32 = (blank 0 .integer).data.toUInt32 := hsame.2
    exact absurd hseven (by decide)

end WalManager
end OrangeSQL
