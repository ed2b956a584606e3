import OrangeSQL.Page
import OrangeSQL.Library.MemoryWords

/-! The checksum of a page, which is the exclusive or of all words of the object. Its own field is
one of them, and is zero while it is calculated. -/
namespace OrangeSQL

open Bytes

/-- The bytes of a page from its address on; only the first 4096 are the page's. -/
abbrev PageImage := ℕ → UInt8

namespace PageImage

/-- The index of `header_.checksum`, which is at byte 48. -/
def checksumWord : ℕ := 12

def calculateChecksum (img : PageImage) : UInt32 :=
  (List.range (pageSize/4)).foldl (fun checksum i => checksum ^^^ word img i) 0

/-- The result, and the page after the field was set and set back. -/
def verifyChecksum (img : PageImage) : Bool × PageImage :=
  let expected := word img checksumWord
  let img := setWord img checksumWord 0
  let actual := calculateChecksum img
  (decide (expected = actual),setWord img checksumWord expected)

/-- Two images differ in one word. -/
structure DiffersAt (img img' : PageImage) (i : ℕ) : Prop where
  inside : i < pageSize/4
  changed : word img' i ≠ word img i
  rest : ∀ j < pageSize/4, j ≠ i → word img' j = word img j

variable {img img' : PageImage} {i : ℕ}

theorem calculateChecksum_eq_iff (hi : i < pageSize/4)
    (h : ∀ j < pageSize/4, j ≠ i → word img' j = word img j) :
    calculateChecksum img' = calculateChecksum img ↔ word img' i = word img i :=
  foldl_range_eq_iff (fun _ _ c => (UInt32.xor_right_inj c).mp)
    (fun _ _ c => (UInt32.xor_left_inj c).mp) 0 hi h

theorem verifyChecksum_iff : (verifyChecksum img).1 = true ↔
    word img checksumWord = calculateChecksum (setWord img checksumWord 0) := by
  simp only [verifyChecksum,decide_eq_true_eq]

/-- A change of one word changes the field or the checksum, and not both. -/
theorem DiffersAt.not_verified (h : DiffersAt img img' i) (hvalid : (verifyChecksum img).1 = true) :
    (verifyChecksum img').1 = false := by
  rw [verifyChecksum_iff] at hvalid
  apply Bool.eq_false_iff.mpr
  rw [ne_eq,verifyChecksum_iff]
  by_cases hfield : i = checksumWord
  · subst hfield
    have hsame : ∀ j < pageSize/4, j ≠ checksumWord →
        word (setWord img' checksumWord 0) j = word (setWord img checksumWord 0) j := by
      intro j hj hne
      rw [word_setWord,word_setWord,if_neg hne,if_neg hne]
      exact h.rest j hj hne
    have hsum := (calculateChecksum_eq_iff h.inside hsame).mpr (by
      rw [word_setWord,word_setWord,if_pos rfl,if_pos rfl])
    rw [hsum,← hvalid]
    exact h.changed
  · have hword : ∀ img : PageImage, word (setWord img checksumWord 0) i = word img i := by
      intro img
      rw [word_setWord,if_neg hfield]
    have hsame : ∀ j < pageSize/4, j ≠ i →
        word (setWord img' checksumWord 0) j = word (setWord img checksumWord 0) j := by
      intro j hj hne
      rw [word_setWord,word_setWord]
      split_ifs
      · rfl
      · exact h.rest j hj hne
    have hsum := (calculateChecksum_eq_iff h.inside hsame).not.mpr (by
      rw [hword,hword]
      exact h.changed)
    rw [h.rest checksumWord (by decide) (Ne.symm hfield),hvalid]
    exact Ne.symm hsum

/-- A page that is verified is not after the change of one word, whichever it is; to verify leaves
the page as it is; and a page with the checksum that it has while the field is zero is verified. -/
theorem verifyChecksum_spec (img : PageImage) :
    ((verifyChecksum img).1 = true →
      ∀ img' i, DiffersAt img img' i → (verifyChecksum img').1 = false) ∧
    (verifyChecksum img).2 = img ∧
    (verifyChecksum (setWord img checksumWord
      (calculateChecksum (setWord img checksumWord 0)))).1 = true := by
  refine ⟨fun hvalid img' i h => h.not_verified hvalid,?_,?_⟩
  · rw [verifyChecksum,setWord_setWord,setWord_word]
  · rw [verifyChecksum_iff,word_setWord,if_pos rfl,setWord_setWord]

/-- A page of zeros is verified, and is not with a one in it. -/
theorem verifyChecksum_spec_zeros : (verifyChecksum (setWord (fun _ => 0) 5 1)).1 = false := by
  have hzero : ∀ i, word (setWord (fun _ => 0) checksumWord 0) i = 0 := fun i => by
    rw [word_setWord]
    split_ifs <;> rfl
  have hvalid : (verifyChecksum fun _ => 0).1 = true := by
    rw [verifyChecksum_iff,calculateChecksum]
    exact (List.foldl_fixed' (fun i => by rw [hzero,UInt32.xor_zero]) _).symm
  refine (verifyChecksum_spec fun _ => 0).1 hvalid (setWord (fun _ => 0) 5 1) 5
    ⟨by decide,?_,fun j _ hne => ?_⟩
  · rw [word_setWord,if_pos rfl]
    decide
  · rw [word_setWord,if_neg hne]

end PageImage

namespace Page

def verifyChecksum (p : Page) : Bool × Page :=
  let expected := p.header.checksum
  let p := { p with header.checksum := 0 }
  let actual := p.calculateChecksum
  (decide (expected = actual),{ p with header.checksum := expected })

theorem image_withChecksum (p : Page) (c : UInt32) :
    image { p with header.checksum := c } = setWord p.image PageImage.checksumWord c := by
  let front := leBytes 8 p.header.pageId ++ leBytes 4 p.header.tableId ++
    leBytes 4 p.header.type.code ++ leBytes 2 p.header.freeSpaceOffset.toNat ++
    leBytes 2 p.header.freeSpaceEnd.toNat ++ leBytes 2 p.header.recordCount.toNat ++
    leBytes 2 p.header.slotCount.toNat ++ leBytes 8 p.header.nextPageId ++
    leBytes 8 p.header.prevPageId ++ leBytes 8 p.header.parentPageId
  let rest := leBytes 4 p.header.lsn.toNat ++ leBytes 1 p.header.isDirty.toNat ++
    leBytes 1 p.header.isLocked.toNat ++ leBytes 6 0
  have hbytes : ∀ c, headerBytes { p.header with checksum := c } = front++leBytes 4 c.toNat++rest := by
    intro c
    simp only [headerBytes,front,rest,List.append_assoc]
  have hfront : front.length = 48 := by simp [front]
  have hpart := @writeMem_part p.bytes (leBytes 4 p.header.checksum.toNat) (leBytes 4 c.toNat) 0
    front rest (by rw [leBytes_length,leBytes_length])
  rw [← hbytes,← hbytes,hfront] at hpart
  exact hpart.symm

theorem calculateChecksum_image (p : Page) :
    PageImage.calculateChecksum p.image = p.calculateChecksum := by
  unfold PageImage.calculateChecksum calculateChecksum word
  rfl

/-- The page as an object is verified as its bytes are. -/
theorem verifyChecksum_image (p : Page) :
    PageImage.verifyChecksum p.image = (p.verifyChecksum.1,p.verifyChecksum.2.image) := by
  have hfield : word p.image PageImage.checksumWord = p.header.checksum := by
    have hself := image_withChecksum p p.header.checksum
    rw [show image { p with header.checksum := p.header.checksum } = p.image from rfl] at hself
    rw [hself,word_setWord,if_pos rfl]
  rw [PageImage.verifyChecksum,hfield,setWord_setWord,← image_withChecksum,← image_withChecksum,
    calculateChecksum_image,verifyChecksum]

end Page
end OrangeSQL
