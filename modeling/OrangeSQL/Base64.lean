import Mathlib.Data.List.GetD
import OrangeSQL.Library.BitStreams

/-! Base64, over an accumulator of 32 bits that is never cleared: what is shifted out of it was
written before, and the number of bits says how much of it still counts. -/
namespace OrangeSQL
namespace Base64

open BitStreams

def b64Table : List Char :=
  "ABCDEFGHIJKLMNOPQRSTUVWXYZabcdefghijklmnopqrstuvwxyz0123456789+/".toList

/-- The indices are below 64. -/
def b64Char (i : UInt32) : Char := b64Table.getD i.toNat '='

/-- The loop over an accumulator that has the bits of a digit. -/
def drain (temp : UInt32) : ℕ → List Char → ℕ × List Char
  | bits+6, result => drain temp bits (result++[b64Char ((temp >>> UInt32.ofNat bits) &&& 0x3F)])
  | bits, result => (bits,result)

def encodeByte : UInt32 × ℕ × List Char → UInt8 → UInt32 × ℕ × List Char
  | (temp,bits,result), byte =>
    let temp := (temp <<< 8) ||| byte.toUInt32
    (temp,drain temp (bits+8) result)

def pad (result : List Char) : List Char :=
  if result.length%4 = 0 then result else pad (result++['='])
termination_by (4-result.length%4)%4
decreasing_by
  rw [List.length_append,List.length_singleton]
  omega

def encode (data : List UInt8) : List Char :=
  let (temp,bits,result) := data.foldl encodeByte (0,0,[])
  pad (if bits > 0 then result++[b64Char ((temp <<< UInt32.ofNat (6-bits)) &&& 0x3F)] else result)

/-- Where `strchr` finds a character in the table; the zero byte is behind the last digit. -/
def strchr (c : Char) : Option ℕ := (b64Table++[Char.ofNat 0]).idxOf? c

def decodeFrom : UInt32 × ℕ × List UInt8 → List Char → List UInt8
  | (_,_,result), [] => result
  | (temp,bits,result), c::str =>
    if c = '=' then result
    else
      match strchr c with
      | none => decodeFrom (temp,bits,result) str
      | some pos =>
        let value := UInt8.ofNat pos
        let temp := (temp <<< 6) ||| value.toUInt32
        let bits := bits+6
        if bits ≥ 8 then
          let bits := bits-8
          decodeFrom (temp,bits,result++[((temp >>> UInt32.ofNat bits) &&& 0xFF).toUInt8]) str
        else decodeFrom (temp,bits,result) str

def decode (str : List Char) : List UInt8 := decodeFrom (0,0,[]) str

section Table

theorem length_b64Table : b64Table.length = 64 := by decide

/-- A digit is found where it is in the table, and none is a padding character. -/
theorem strchr_digit : ∀ d < 64, b64Table.getD d '=' ≠ '=' ∧ strchr (b64Table.getD d '=') = some d := by
  decide +kernel

theorem mem_b64Table {d : ℕ} (hd : d < 64) : b64Table.getD d '=' ∈ b64Table := by
  rw [List.getD_eq_getElem _ _ (length_b64Table.symm ▸ hd)]
  exact List.getElem_mem _

end Table

section Digits

/-- The characters of a list of digits. -/
def chars (ds : List ℕ) : List Char := ds.map fun d => b64Table.getD d '='

theorem chars_append (ds ds' : List ℕ) : chars (ds++ds') = chars ds++chars ds' := List.map_append

theorem chars_singleton (i : UInt32) : chars [i.toNat] = [b64Char i] := rfl

/-- The bits of bytes. -/
def byteBits (data : List UInt8) : List Bool := data.flatMap fun byte => bits 8 byte.toNat

variable {temp : UInt32} {k : ℕ}

theorem toNat_shiftRight_of_lt (temp : UInt32) (hk : k < 32) :
    (temp >>> UInt32.ofNat k).toNat = temp.toNat >>> k := by
  rw [UInt32.toNat_shiftRight,UInt32.toNat_ofNat',Nat.mod_eq_of_lt (by omega : k < 2^32),
    Nat.mod_eq_of_lt hk]

theorem toNat_shiftLeft_of_lt (temp : UInt32) (hk : k < 32) :
    (temp <<< UInt32.ofNat k).toNat = temp.toNat <<< k%2^32 := by
  rw [UInt32.toNat_shiftLeft,UInt32.toNat_ofNat',Nat.mod_eq_of_lt (by omega : k < 2^32),
    Nat.mod_eq_of_lt hk]

/-- A mask keeps the bits that count. -/
theorem bits_mask (w n : ℕ) : bits w (n &&& (2^w-1)) = bits w n := by
  rw [Nat.and_two_pow_sub_one_eq_mod,bits_mod le_rfl]

/-- The next digit and what it leaves in the accumulator. -/
theorem bits_digit (temp : UInt32) (hk : k < 32) :
    bits (k+6) temp.toNat = bits 6 ((temp >>> UInt32.ofNat k) &&& 0x3F).toNat++bits k temp.toNat := by
  rw [Nat.add_comm,bits_shiftRight,UInt32.toNat_and,toNat_shiftRight_of_lt temp hk]
  exact congrArg (·++_) (bits_mask 6 _).symm

/-- A byte goes into the accumulator. -/
theorem bits_byte (temp : UInt32) (byte : UInt8) (hk : k+8 ≤ 32) :
    bits (k+8) ((temp <<< 8) ||| byte.toUInt32).toNat = bits k temp.toNat++bits 8 byte.toNat := by
  have hshift : (temp <<< 8).toNat = temp.toNat <<< 8%2^32 := toNat_shiftLeft_of_lt temp (by decide)
  rw [UInt32.toNat_or,hshift,UInt8.toNat_toUInt32]
  exact bits_shiftLeft_or byte.toNat_lt hk

/-- A digit goes into the accumulator. -/
theorem bits_value (temp : UInt32) {d : ℕ} (hd : d < 64) (hk : k+6 ≤ 32) :
    bits (k+6) ((temp <<< 6) ||| (UInt8.ofNat d).toUInt32).toNat = bits k temp.toNat++bits 6 d := by
  have hvalue : (UInt8.ofNat d).toUInt32.toNat = d := by
    rw [UInt8.toNat_toUInt32,UInt8.toNat_ofNat',Nat.mod_eq_of_lt (by omega : d < 2^8)]
  have hshift : (temp <<< 6).toNat = temp.toNat <<< 6%2^32 := toNat_shiftLeft_of_lt temp (by decide)
  rw [UInt32.toNat_or,hshift,hvalue]
  exact bits_shiftLeft_or hd hk

/-- A byte comes out of the accumulator. -/
theorem bits_octet (temp : UInt32) (hk : k < 32) :
    bits (k+8) temp.toNat =
      bits 8 ((temp >>> UInt32.ofNat k) &&& 0xFF).toUInt8.toNat++bits k temp.toNat := by
  rw [Nat.add_comm,bits_shiftRight,UInt32.toNat_toUInt8,bits_mod le_rfl,UInt32.toNat_and,
    toNat_shiftRight_of_lt temp hk]
  exact congrArg (·++_) (bits_mask 8 _).symm

theorem digit_lt (i : UInt32) : (i &&& 0x3F).toNat < 64 := by
  rw [UInt32.toNat_and]
  exact Nat.and_lt_two_pow _ (by decide : (0x3F : UInt32).toNat < 2^6)

theorem length_byteBits (data : List UInt8) : (byteBits data).length = 8*data.length := by
  rw [byteBits,← List.flatMap_map UInt8.toNat (bits 8),length_flatMap_bits,List.length_map]

theorem byteBits_inj {data data' : List UInt8} {x y : List Bool} (hlength : data.length = data'.length)
    (h : byteBits data++x = byteBits data'++y) : data = data' := by
  rw [byteBits,byteBits,← List.flatMap_map UInt8.toNat (bits 8),
    ← List.flatMap_map UInt8.toNat (bits 8)] at h
  have hsmall : ∀ {l : List UInt8}, ∀ n ∈ l.map UInt8.toNat, n < 2^8 := by
    intro l n hn
    obtain ⟨byte,_,rfl⟩ := List.mem_map.mp hn
    exact byte.toNat_lt
  refine List.map_injective_iff.mpr (fun a b => UInt8.toNat_inj.mp) ?_
  exact groups_inj hsmall hsmall (by rw [List.length_map,List.length_map,hlength]) h

end Digits

section Encode

/-- The digits that the loop has written for the bytes, with what is left in the accumulator. -/
structure Encoded (data : List UInt8) (s : UInt32 × ℕ × List Char) (ds : List ℕ) : Prop where
  result : s.2.2 = chars ds
  small : ∀ d ∈ ds, d < 64
  rest : s.2.1 < 6
  stream : ds.flatMap (bits 6)++bits s.2.1 s.1.toNat = byteBits data

theorem drain_spec (temp : UInt32) (k : ℕ) (ds : List ℕ) (hk : k < 32) :
    ∃ k' ds', drain temp k (chars ds) = (k',chars (ds++ds')) ∧ k' < 6 ∧ (∀ d ∈ ds', d < 64) ∧
      ds'.flatMap (bits 6)++bits k' temp.toNat = bits k temp.toNat := by
  induction k using Nat.strongRecOn generalizing ds with
  | ind k ih =>
    by_cases hlow : k < 6
    · refine ⟨k,[],?_,hlow,by simp,rfl⟩
      rw [drain,List.append_nil]
      rintro n rfl
      omega
    · obtain ⟨j,rfl⟩ : ∃ j, k = j+6 := ⟨k-6,by omega⟩
      let d := ((temp >>> UInt32.ofNat j) &&& 0x3F).toNat
      have hwrite : chars ds++[b64Char ((temp >>> UInt32.ofNat j) &&& 0x3F)] = chars (ds++[d]) := by
        rw [chars_append,chars_singleton]
      obtain ⟨k',ds',hdrain,hk',hsmall,hstream⟩ := ih j (by omega) (ds++[d]) (by omega)
      refine ⟨k',d::ds',?_,hk',?_,?_⟩
      · rw [drain,hwrite,hdrain,List.append_assoc,List.singleton_append]
      · intro e he
        rcases List.mem_cons.mp he with rfl | he
        · exact digit_lt _
        · exact hsmall e he
      · rw [List.flatMap_cons,List.append_assoc,hstream,bits_digit temp (by omega)]

theorem Encoded.step {data : List UInt8} {s : UInt32 × ℕ × List Char} {ds : List ℕ}
    (h : Encoded data s ds) (byte : UInt8) : ∃ ds', Encoded (data++[byte]) (encodeByte s byte) ds' := by
  obtain ⟨temp,k,result⟩ := s
  obtain ⟨rfl,hsmall,hk,hstream⟩ := h
  dsimp only at hk hstream
  obtain ⟨k',ds',hdrain,hk',hsmall',hstream'⟩ :=
    drain_spec ((temp <<< 8) ||| byte.toUInt32) (k+8) ds (by omega)
  have hresult : encodeByte (temp,k,chars ds) byte =
      ((temp <<< 8) ||| byte.toUInt32,k',chars (ds++ds')) := by
    rw [encodeByte,hdrain]
  rw [hresult]
  refine ⟨ds++ds',rfl,?_,hk',?_⟩
  · intro d hd
    rcases List.mem_append.mp hd with hd | hd
    · exact hsmall d hd
    · exact hsmall' d hd
  · rw [List.flatMap_append,List.append_assoc,hstream',bits_byte temp byte (by omega),
      ← List.append_assoc,hstream,byteBits,byteBits,List.flatMap_append,List.flatMap_singleton]

theorem encoded (data : List UInt8) : ∃ ds, Encoded data (data.foldl encodeByte (0,0,[])) ds := by
  induction data using List.reverseRecOn with
  | nil => exact ⟨[],rfl,nofun,by decide,rfl⟩
  | append_singleton data byte ih =>
    obtain ⟨ds,h⟩ := ih
    rw [List.foldl_append,List.foldl_cons,List.foldl_nil]
    exact h.step byte

theorem pad_eq (result : List Char) :
    pad result = result++List.replicate ((4-result.length%4)%4) '=' := by
  induction result using pad.induct with
  | case1 result hfull =>
    rw [pad,if_pos hfull,hfull,List.replicate_zero,List.append_nil]
  | case2 result hmore ih =>
    have hcount : (4-result.length%4)%4 = (4-(result++['=']).length%4)%4+1 := by
      rw [List.length_append,List.length_singleton]
      omega
    rw [pad,if_neg hmore,ih,List.append_assoc,List.singleton_append,hcount,List.replicate_succ]

/-- The text is digits and padding, and the bits of the digits are those of the bytes and fewer
than six more. -/
theorem encode_eq (data : List UInt8) : ∃ ds tail, encode data = pad (chars ds) ∧
    (∀ d ∈ ds, d < 64) ∧ ds.flatMap (bits 6) = byteBits data++tail ∧ tail.length < 6 := by
  obtain ⟨ds,h⟩ := encoded data
  unfold encode
  generalize data.foldl encodeByte (0,0,[]) = s at h ⊢
  obtain ⟨temp,k,result⟩ := s
  obtain ⟨rfl,hsmall,hk,hstream⟩ := h
  dsimp only at hk hstream ⊢
  split_ifs with hsome
  · let i := (temp <<< UInt32.ofNat (6-k)) &&& 0x3F
    have hlast : bits 6 i.toNat = bits k temp.toNat++bits (6-k) 0 := by
      have hpush := @bits_shiftLeft_or k (6-k) 32 temp.toNat 0 (by positivity) (by omega)
      rw [Nat.add_sub_cancel' (by omega : k ≤ 6),Nat.or_zero,
        ← toNat_shiftLeft_of_lt temp (by omega)] at hpush
      rw [← hpush,UInt32.toNat_and]
      exact bits_mask 6 _
    refine ⟨ds++[i.toNat],bits (6-k) 0,?_,?_,?_,?_⟩
    · rw [chars_append,chars_singleton]
    · intro d hd
      rcases List.mem_append.mp hd with hd | hd
      · exact hsmall d hd
      · rw [List.mem_singleton.mp hd]
        exact digit_lt _
    · rw [List.flatMap_append,List.flatMap_singleton,hlast,← List.append_assoc,hstream]
    · rw [length_bits]
      omega
  · obtain rfl : k = 0 := Nat.eq_zero_of_not_pos hsome
    exact ⟨ds,[],rfl,hsmall,by rw [List.append_nil,← hstream,bits,List.append_nil],by decide⟩

end Encode

section Decode

/-- The loop puts the bits of digits behind those it has. -/
theorem decodeFrom_chars {ds : List ℕ} (hsmall : ∀ d ∈ ds, d < 64) (n : ℕ) (temp : UInt32) {k : ℕ}
    (result : List UInt8) (hk : k < 8) :
    ∃ temp' k' result', decodeFrom (temp,k,result) (chars ds++List.replicate n '=') = result' ∧ k' < 8 ∧
      byteBits result'++bits k' temp' = byteBits result++bits k temp.toNat++ds.flatMap (bits 6) := by
  induction ds generalizing temp k result with
  | nil =>
    refine ⟨temp.toNat,k,result,?_,hk,by simp⟩
    cases n with
    | zero => rfl
    | succ n => rfl
  | cons d ds ih =>
    obtain ⟨hd,hrest⟩ := List.forall_mem_cons.mp hsmall
    obtain ⟨hne,hfound⟩ := strchr_digit d hd
    let next := (temp <<< 6) ||| (UInt8.ofNat d).toUInt32
    have hvalue : bits (k+6) next.toNat = bits k temp.toNat++bits 6 d :=
      bits_value temp hd (by omega)
    have hstep : chars (d::ds)++List.replicate n '=' =
        b64Table.getD d '='::(chars ds++List.replicate n '=') := rfl
    rw [hstep,decodeFrom,if_neg hne,hfound,List.flatMap_cons,← List.append_assoc,
      List.append_assoc (byteBits result),← hvalue]
    dsimp only
    split_ifs with hfull
    · obtain ⟨j,hj⟩ : ∃ j, k+6 = j+8 := ⟨k+6-8,by omega⟩
      obtain ⟨temp',k',result',hrun,hk',hstream⟩ :=
        ih hrest next (result++[((next >>> UInt32.ofNat j) &&& 0xFF).toUInt8])
          (by omega : j < 8)
      refine ⟨temp',k',result',?_,hk',?_⟩
      · rw [hj,Nat.add_sub_cancel]
        exact hrun
      · rw [hstream,hj,bits_octet next (by omega)]
        simp [byteBits]
    · exact ih hrest next result (by omega)

end Decode

/-- Decoding gives the bytes back, and the text is digits with at most two padding characters, four
for every three bytes or less. -/
theorem decode_encode (data : List UInt8) :
    decode (encode data) = data ∧ (encode data).length = 4*((data.length+2)/3) ∧
    ∃ body n, encode data = body++List.replicate n '=' ∧ (∀ c ∈ body, c ∈ b64Table) ∧ n ≤ 2 := by
  obtain ⟨ds,tail,hencode,hsmall,hstream,htail⟩ := encode_eq data
  have hcount : 6*ds.length = 8*data.length+tail.length := by
    have hlength := congrArg List.length hstream
    rwa [length_flatMap_bits,List.length_append,length_byteBits] at hlength
  have hchars : (chars ds).length = ds.length := List.length_map ..
  rw [hencode,pad_eq,hchars]
  refine ⟨?_,?_,chars ds,_,rfl,?_,by omega⟩
  · obtain ⟨temp,k,result,hdecode,hk,hbits⟩ := decodeFrom_chars hsmall ((4-ds.length%4)%4) 0 []
      (by decide : 0 < 8)
    rw [hstream] at hbits
    change byteBits result++bits k temp = byteBits data++tail at hbits
    have hlength := congrArg List.length hbits
    rw [List.length_append,List.length_append,length_byteBits,length_byteBits,length_bits] at hlength
    rw [decode,hdecode]
    exact byteBits_inj (by omega) hbits
  · rw [List.length_append,List.length_replicate,hchars]
    omega
  · intro c hc
    obtain ⟨d,hd,rfl⟩ := List.mem_map.mp hc
    exact mem_b64Table (hsmall d hd)

end Base64
end OrangeSQL
