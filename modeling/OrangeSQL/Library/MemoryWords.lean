import Mathlib.Data.List.GetD
import OrangeSQL.Library.ByteReader

/-! Memory as aligned words of 32 bits, and checksums that take the words one after the other. -/
namespace Bytes

theorem leBytes_leNat (bs : List UInt8) : leBytes bs.length (leNat bs) = bs := by
  induction bs with
  | nil => rfl
  | cons b bs ih =>
    have hlow : UInt8.ofNat (b.toNat+256*leNat bs) = b := by
      apply UInt8.toNat_inj.mp
      rw [UInt8.toNat_ofNat',Nat.add_mul_mod_self_left,Nat.mod_eq_of_lt b.toNat_lt]
    have hhigh : (b.toNat+256*leNat bs)/256 = leNat bs := by
      have hlt := b.toNat_lt
      omega
    rw [leNat,List.length_cons,leBytes,hlow,hhigh,ih]

section Memory

variable (mem : ℕ → UInt8) {pos pos' i : ℕ} {bs bs' : List UInt8}

theorem writeMem_of_mem (hlow : pos ≤ i) (hhigh : i < pos+bs.length) :
    writeMem mem pos bs i = bs.getD (i-pos) 0 := by
  have hlt : i-pos < bs.length := by omega
  rw [writeMem,if_pos hlow,List.getD_eq_getElem?_getD,List.getD_eq_getElem?_getD,
    List.getElem?_eq_getElem hlt,Option.getD_some,Option.getD_some]

theorem outside_or_inside (pos n i : ℕ) : (i < pos ∨ pos+n ≤ i) ∨ pos ≤ i ∧ i < pos+n := by omega

theorem writeMem_of_outside (h : i < pos ∨ pos+bs.length ≤ i) : writeMem mem pos bs i = mem i :=
  h.elim (writeMem_of_lt mem bs) (writeMem_of_le mem bs)

/-- What is written last stays. -/
theorem writeMem_writeMem (h : bs.length = bs'.length) :
    writeMem (writeMem mem pos bs) pos bs' = writeMem mem pos bs' := by
  funext i
  rcases outside_or_inside pos bs'.length i with hout | ⟨hlow,hhigh⟩
  · rw [writeMem_of_outside _ hout,writeMem_of_outside _ (h ▸ hout),writeMem_of_outside _ hout]
  · rw [writeMem_of_mem _ hlow hhigh,writeMem_of_mem _ hlow hhigh]

/-- To write what is there changes nothing. -/
theorem writeMem_readMem (pos n : ℕ) : writeMem mem pos (readMem mem pos n) = mem := by
  have hlength : (readMem mem pos n).length = n := by simp [readMem]
  funext i
  rcases outside_or_inside pos n i with hout | ⟨hlow,hhigh⟩
  · exact writeMem_of_outside _ (hlength.symm ▸ hout)
  · have hlt : i-pos < n := by omega
    rw [writeMem_of_mem _ hlow (hlength.symm ▸ hhigh)]
    simp [readMem,hlt,Nat.add_sub_cancel' hlow]

/-- Writes side by side can be made in either order. -/
theorem writeMem_comm (h : pos+bs.length ≤ pos') :
    writeMem (writeMem mem pos bs) pos' bs' = writeMem (writeMem mem pos' bs') pos bs := by
  funext i
  rcases outside_or_inside pos' bs'.length i with hout' | ⟨hlow',hhigh'⟩
  · rw [writeMem_of_outside _ hout']
    rcases outside_or_inside pos bs.length i with hout | ⟨hlow,hhigh⟩
    · rw [writeMem_of_outside _ hout,writeMem_of_outside _ hout,writeMem_of_outside _ hout']
    · rw [writeMem_of_mem _ hlow hhigh,writeMem_of_mem _ hlow hhigh]
  · rw [writeMem_of_mem _ hlow' hhigh',writeMem_of_outside _ (Or.inr (h.trans hlow')),
      writeMem_of_mem _ hlow' hhigh']

theorem writeMem_append (pos : ℕ) (bs bs' : List UInt8) :
    writeMem mem pos (bs++bs') = writeMem (writeMem mem pos bs) (pos+bs.length) bs' := by
  have hlength : (bs++bs').length = bs.length+bs'.length := List.length_append
  funext i
  rcases outside_or_inside (pos+bs.length) bs'.length i with hout | ⟨hlow,hhigh⟩
  · rw [writeMem_of_outside _ hout]
    rcases outside_or_inside pos bs.length i with hout' | ⟨hlow',hhigh'⟩
    · rw [writeMem_of_outside _ hout',writeMem_of_outside]
      omega
    · rw [writeMem_of_mem _ hlow' hhigh',writeMem_of_mem _ hlow' (by omega),
        List.getD_append _ _ _ _ (by omega)]
  · rw [writeMem_of_mem _ hlow hhigh,writeMem_of_mem _ (by omega) (by omega),
      List.getD_append_right _ _ _ _ (by omega),Nat.sub_add_eq]

/-- A part of what was written, written anew. -/
theorem writeMem_part (pos : ℕ) (front rest : List UInt8) (h : bs.length = bs'.length) :
    writeMem (writeMem mem pos (front++bs++rest)) (pos+front.length) bs' =
      writeMem mem pos (front++bs'++rest) := by
  rw [writeMem_append mem pos (front++bs),writeMem_append mem pos (front++bs'),
    writeMem_append mem pos front bs,writeMem_append mem pos front bs',← writeMem_comm,
    writeMem_writeMem _ h,List.length_append,List.length_append,h]
  rw [List.length_append]
  omega

end Memory

section Words

/-- The aligned word at an index. -/
def word (mem : ℕ → UInt8) (i : ℕ) : UInt32 := UInt32.ofNat (leNat (readMem mem (4*i) 4))

def setWord (mem : ℕ → UInt8) (i : ℕ) (c : UInt32) : ℕ → UInt8 :=
  writeMem mem (4*i) (leBytes 4 c.toNat)

variable (mem : ℕ → UInt8) (i j : ℕ) (c d : UInt32)

theorem word_setWord : word (setWord mem i c) j = if j = i then c else word mem j := by
  split_ifs with hj
  · subst hj
    have hread := readMem_writeMem_part mem (4*j) [] (leBytes 4 c.toNat) []
    rw [List.nil_append,List.append_nil,List.length_nil,Nat.add_zero,leBytes_length] at hread
    have hlt : c.toNat < 256^4 := c.toNat_lt
    rw [word,setWord,hread,leNat_leBytes,Nat.mod_eq_of_lt hlt,UInt32.ofNat_toNat]
  · rw [word,word]
    congr 2
    apply readMem_congr
    intro k hlow hhigh
    apply writeMem_of_outside
    rw [leBytes_length]
    omega

theorem setWord_setWord : setWord (setWord mem i c) i d = setWord mem i d :=
  writeMem_writeMem mem (by rw [leBytes_length,leBytes_length])

theorem setWord_word : setWord mem i (word mem i) = mem := by
  have hread : leBytes 4 (word mem i).toNat = readMem mem (4*i) 4 := by
    have hlength : (readMem mem (4*i) 4).length = 4 := by simp [readMem]
    have hlt : leNat (readMem mem (4*i) 4) < 2^32 := by
      have hbound := leNat_lt (readMem mem (4*i) 4)
      rwa [hlength] at hbound
    have hback := leBytes_leNat (readMem mem (4*i) 4)
    rw [hlength] at hback
    rw [word,UInt32.toNat_ofNat',Nat.mod_eq_of_lt hlt,hback]
  rw [setWord,hread,writeMem_readMem]

end Words

section Checksums

variable {α : Type*} {op : α → α → α} {f g : ℕ → α} {i : ℕ}

/-- A checksum whose operation cancels tells one changed word from all its other values. -/
theorem foldl_range_eq_iff (hleft : ∀ a b c, op c a = op c b → a = b)
    (hright : ∀ a b c, op a c = op b c → a = b) (start : α) {n : ℕ} (hi : i < n)
    (h : ∀ j < n, j ≠ i → f j = g j) :
    (List.range n).foldl (fun c j => op c (f j)) start =
      (List.range n).foldl (fun c j => op c (g j)) start ↔ f i = g i := by
  induction n with
  | zero => exact absurd hi (Nat.not_lt_zero i)
  | succ n ih =>
    rw [List.range_succ,List.foldl_append,List.foldl_append]
    rcases Nat.lt_succ_iff_lt_or_eq.mp hi with hlt | rfl
    · have hlast := h n (Nat.lt_succ_self n) (Nat.ne_of_gt hlt)
      rw [← ih hlt fun j hj => h j (Nat.lt_succ_of_lt hj)]
      simp only [List.foldl_cons,List.foldl_nil,hlast]
      exact ⟨hright _ _ _,fun heq => by rw [heq]⟩
    · have hsame : (List.range i).foldl (fun c j => op c (f j)) start =
          (List.range i).foldl (fun c j => op c (g j)) start := by
        apply List.foldl_ext
        intro c j hj
        have hlt := List.mem_range.mp hj
        rw [h j (Nat.lt_succ_of_lt hlt) (Nat.ne_of_lt hlt)]
      simp only [List.foldl_cons,List.foldl_nil,hsame]
      exact ⟨hleft _ _ _,fun heq => by rw [heq]⟩

end Checksums
end Bytes
