import OrangeSQL.Page

/-! The table iterator and the full scan `for (it = begin(); it != end(); ++it)`.
A table is seen through a buffer pool that returns the page stored under an id; the loops of
the source carry fuel, so that a scan that never ends has no result for any amount of it. -/
namespace OrangeSQL

open Page

structure Table where
  firstPage : Page
  fetchPage : PageId → Option Page

/-- `page` is the pointer `current_page_`, null before the first load. -/
structure TableIterator where
  pageId : PageId
  slot : ℕ
  page : Option Page

namespace TableIterator

def loadCurrentPage (t : Table) (it : TableIterator) : TableIterator :=
  if it.pageId ≠ invalidPageId then { it with page := t.fetchPage it.pageId } else it

/-- The page that `current_page_id_` moves to when the slots of the current one are used up. -/
def nextPageId (it : TableIterator) : PageId := (it.page.map getNextPage).getD invalidPageId

def onRecord (it : TableIterator) : Bool := it.page.any fun p => decide (it.slot < p.getRecordCount)

/-- The slot is reset only when a further page is loaded, not when the chain ends. -/
def advanceToNextValid (t : Table) : ℕ → TableIterator → Option TableIterator
  | 0, _ => none
  | fuel+1, it =>
    if it.pageId = invalidPageId then some it
    else if it.onRecord then some it
    else
      let it := { it with pageId := it.nextPageId }
      if it.pageId ≠ invalidPageId then
        advanceToNextValid t fuel { it.loadCurrentPage t with slot := 0 }
      else advanceToNextValid t fuel it

/-- The constructor from a page id and a slot. -/
def make (t : Table) (fuel : ℕ) (pageId : PageId) (slot : ℕ) : Option TableIterator :=
  let it : TableIterator := ⟨pageId,slot,none⟩
  if pageId ≠ invalidPageId then
    let it := it.loadCurrentPage t
    if it.page.any fun p => decide (p.getRecordCount ≤ it.slot) then advanceToNextValid t fuel it
    else some it
  else some it

def increment (t : Table) (fuel : ℕ) (it : TableIterator) : Option TableIterator :=
  if it.pageId ≠ invalidPageId then advanceToNextValid t fuel { it with slot := (it.slot+1)%2^16 }
  else some it

/-- `operator==` ignores the page pointer. -/
def equals (a b : TableIterator) : Bool := decide (a.pageId = b.pageId ∧ a.slot = b.slot)

/-- `operator*`: a record that cannot be read is yielded as an empty row. -/
def deref (it : TableIterator) : RecordId × List Value :=
  let rid := makeRecordId it.pageId it.slot
  (rid,(it.page.bind fun p => p.getRecord rid).getD [])

end TableIterator

open TableIterator

namespace Table

def begin (t : Table) (fuel : ℕ) : Option TableIterator := make t fuel t.firstPage.getPageId 0
def «end» : TableIterator := ⟨invalidPageId,0,none⟩

/-- The rest of the scan from an iterator on, with the pairs it yields. -/
def scanFrom (t : Table) : ℕ → TableIterator → Option (List (RecordId × List Value))
  | 0, _ => none
  | fuel+1, it =>
    if it.equals Table.end then some []
    else do
      let next ← it.increment t fuel
      let rest ← scanFrom t fuel next
      return it.deref::rest

def scan (t : Table) (fuel : ℕ) : Option (List (RecordId × List Value)) := do
  let it ← t.begin fuel
  t.scanFrom fuel it

/-- The pages met from a page id on by following the next links up to the invalid id. -/
inductive PageChain (t : Table) : PageId → List (PageId × Page) → Prop
  | last {pid : PageId} {p : Page} : pid ≠ invalidPageId → t.fetchPage pid = some p →
      p.getNextPage = invalidPageId → PageChain t pid [(pid,p)]
  | link {pid : PageId} {p : Page} {rest : List (PageId × Page)} : pid ≠ invalidPageId →
      t.fetchPage pid = some p → PageChain t p.getNextPage rest → PageChain t pid ((pid,p)::rest)

theorem PageChain.head {t : Table} {pid : PageId} {pages : List (PageId × Page)}
    (h : PageChain t pid pages) :
    ∃ p rest, pages = (pid,p)::rest ∧ t.fetchPage pid = some p ∧ pid ≠ invalidPageId := by
  cases h with
  | last hid hf _ => exact ⟨_,_,rfl,hf,hid⟩
  | link hid hf _ => exact ⟨_,_,rfl,hf,hid⟩

/-- Every slot below the record counts of a list of pages, in chain and slot order. -/
def slots (pages : List (PageId × Page)) : List (PageId × Page × ℕ) :=
  pages.flatMap fun e => (List.range e.2.getRecordCount).map fun i => (e.1,e.2,i)

/-- The record of a slot with its id, if `getRecord` can return it. -/
def readSlot (s : PageId × Page × ℕ) : Option (RecordId × List Value) :=
  (s.2.1.getRecord (makeRecordId s.1 s.2.2)).map fun row => (makeRecordId s.1 s.2.2,row)

/-- What the iterator yields at a slot, readable or not. -/
def yieldSlot (s : PageId × Page × ℕ) : RecordId × List Value :=
  (⟨s.1,s.2.2,some s.2.1⟩ : TableIterator).deref

theorem advance_mono (t : Table) {n m : ℕ} (h : n ≤ m) {it it' : TableIterator}
    (hadv : advanceToNextValid t n it = some it') : advanceToNextValid t m it = some it' := by
  induction n generalizing m it with
  | zero => simp [advanceToNextValid] at hadv
  | succ n ih =>
    obtain ⟨m,rfl⟩ := Nat.exists_eq_add_of_le' (show 1 ≤ m by omega)
    simp only [advanceToNextValid] at hadv ⊢
    split_ifs at hadv ⊢
    · exact hadv
    · exact hadv
    · exact ih (by omega) hadv
    · exact ih (by omega) hadv

theorem increment_mono (t : Table) {n m : ℕ} (h : n ≤ m) {it it' : TableIterator}
    (hinc : it.increment t n = some it') : it.increment t m = some it' := by
  unfold increment at hinc ⊢
  split_ifs at hinc ⊢
  · exact advance_mono t h hinc
  · exact hinc

theorem scanFrom_mono (t : Table) {n m : ℕ} (h : n ≤ m) {it : TableIterator}
    {out : List (RecordId × List Value)} (hscan : t.scanFrom n it = some out) :
    t.scanFrom m it = some out := by
  induction n generalizing m it out with
  | zero => simp [scanFrom] at hscan
  | succ n ih =>
    obtain ⟨m,rfl⟩ := Nat.exists_eq_add_of_le' (show 1 ≤ m by omega)
    simp only [scanFrom] at hscan ⊢
    split_ifs at hscan ⊢
    · exact hscan
    · simp only [Option.bind_eq_bind,Option.bind_eq_some_iff] at hscan ⊢
      obtain ⟨next,hinc,rest,hrest,hout⟩ := hscan
      exact ⟨next,increment_mono t (by omega) hinc,rest,ih (by omega) hrest,hout⟩

theorem begin_mono (t : Table) {n m : ℕ} (h : n ≤ m) {it : TableIterator}
    (hbegin : t.begin n = some it) : t.begin m = some it := by
  simp only [Table.begin,make] at hbegin ⊢
  split_ifs at hbegin ⊢
  · exact advance_mono t h hbegin
  · exact hbegin
  · exact hbegin

theorem scan_mono (t : Table) {n m : ℕ} (h : n ≤ m) {out : List (RecordId × List Value)}
    (hscan : t.scan n = some out) : t.scan m = some out := by
  simp only [scan,Option.bind_eq_bind,Option.bind_eq_some_iff] at hscan ⊢
  obtain ⟨it,hbegin,hfrom⟩ := hscan
  exact ⟨it,begin_mono t h hbegin,scanFrom_mono t h hfrom⟩

/-- A scan has one result at most, whatever fuel it was given. -/
theorem scan_unique (t : Table) {n m : ℕ} {a b : List (RecordId × List Value)}
    (ha : t.scan n = some a) (hb : t.scan m = some b) : a = b := by
  have ha' := scan_mono t (le_max_left n m) ha
  have hb' := scan_mono t (le_max_right n m) hb
  exact Option.some.inj (ha'.symm.trans hb')

/-- Moving an iterator to the next record and scanning on from there ends with these pairs. -/
def Yields (t : Table) (it : TableIterator) (out : List (RecordId × List Value)) : Prop :=
  ∃ fuel it', advanceToNextValid t fuel it = some it' ∧ t.scanFrom fuel it' = some out

theorem yields_of_advance (t : Table) {it it' : TableIterator}
    {out : List (RecordId × List Value)}
    (hstep : ∀ fuel, advanceToNextValid t (fuel+1) it = advanceToNextValid t fuel it')
    (h : Yields t it' out) : Yields t it out := by
  obtain ⟨fuel,stop,hadv,hscan⟩ := h
  exact ⟨fuel+1,stop,(hstep fuel).trans hadv,scanFrom_mono t (by omega) hscan⟩

/-- The end iterator is reached from an exhausted last page only with slot zero. -/
theorem yields_last (t : Table) {pid : PageId} {p : Page} (hpid : pid ≠ invalidPageId)
    (hnext : p.getNextPage = invalidPageId) (hempty : p.getRecordCount = 0) :
    Yields t ⟨pid,0,some p⟩ [] := by
  refine ⟨2,⟨invalidPageId,0,some p⟩,?_,?_⟩
  · simp [advanceToNextValid,hpid,onRecord,hempty,nextPageId,hnext]
  · simp [scanFrom,equals,Table.end]

theorem yields_nextPage (t : Table) {pid : PageId} {p q : Page} {slot : ℕ}
    {out : List (RecordId × List Value)} (hpid : pid ≠ invalidPageId)
    (hdone : p.getRecordCount ≤ slot) (hnext : p.getNextPage ≠ invalidPageId)
    (hfetch : t.fetchPage p.getNextPage = some q)
    (h : Yields t ⟨p.getNextPage,0,some q⟩ out) : Yields t ⟨pid,slot,some p⟩ out := by
  apply yields_of_advance t _ h
  intro fuel
  simp [advanceToNextValid,hpid,onRecord,Nat.not_lt.mpr hdone,nextPageId,hnext,
    loadCurrentPage,hfetch]

theorem yields_record (t : Table) {pid : PageId} {p : Page} {slot : ℕ}
    {out : List (RecordId × List Value)} (hpid : pid ≠ invalidPageId)
    (hslot : slot < p.getRecordCount) (h : Yields t ⟨pid,slot+1,some p⟩ out) :
    Yields t ⟨pid,slot,some p⟩ (yieldSlot (pid,p,slot)::out) := by
  obtain ⟨fuel,stop,hadv,hscan⟩ := h
  have hcount : p.getRecordCount < 2^16 := p.header.recordCount.toNat_lt
  have hwrap : (slot+1)%65536 = slot+1 := Nat.mod_eq_of_lt (by omega)
  refine ⟨fuel+1,⟨pid,slot,some p⟩,?_,?_⟩
  · simp [advanceToNextValid,hpid,onRecord,hslot]
  · simp [scanFrom,equals,Table.end,hpid,increment,hwrap,hadv,hscan,yieldSlot]

theorem yields_records (t : Table) {pid : PageId} {p : Page}
    {out : List (RecordId × List Value)} (hpid : pid ≠ invalidPageId) (n slot : ℕ)
    (hn : slot+n = p.getRecordCount) (h : Yields t ⟨pid,p.getRecordCount,some p⟩ out) :
    Yields t ⟨pid,slot,some p⟩
      ((List.range' slot n).map (fun i => yieldSlot (pid,p,i))++out) := by
  induction n generalizing slot with
  | zero =>
    have hs : slot = p.getRecordCount := by omega
    simpa [hs] using h
  | succ n ih =>
    have htail := ih (slot+1) (by omega)
    simpa [List.range'_succ] using yields_record t hpid (by omega) htail

/-- A chain whose last page is empty is scanned completely, every slot in order. -/
theorem yields_chain (t : Table) {pid : PageId} {pages : List (PageId × Page)}
    (hchain : PageChain t pid pages)
    (hlast : ∀ e, pages.getLast? = some e → e.2.getRecordCount = 0) :
    ∃ p, t.fetchPage pid = some p ∧ pid ≠ invalidPageId ∧
      Yields t ⟨pid,0,some p⟩ ((slots pages).map yieldSlot) := by
  induction hchain with
  | @last pid p hpid hfetch hnext =>
    have hempty : p.getRecordCount = 0 := hlast (pid,p) (by simp)
    refine ⟨p,hfetch,hpid,?_⟩
    simpa [slots,hempty] using yields_last t hpid hnext hempty
  | @link pid p rest hpid hfetch hrest ih =>
    have hne : rest ≠ [] := by rintro rfl; cases hrest
    obtain ⟨q,hq,hnext,hyields⟩ := ih (by
      intro e he
      apply hlast e
      rw [List.getLast?_cons_of_ne_nil hne]
      exact he)
    refine ⟨p,hfetch,hpid,?_⟩
    have hend := yields_nextPage t hpid le_rfl hnext hq hyields
    have hall := yields_records t hpid p.getRecordCount 0 (by omega) hend
    simpa [slots,List.range_eq_range',Function.comp_def] using hall

/-- An iterator that runs past the end, or will do so: it sits behind the last page with a
slot other than zero, or on a chain whose last page holds a slot. -/
def Stray (t : Table) (it : TableIterator) : Prop :=
  (it.pageId = invalidPageId ∧ it.slot ≠ 0) ∨
  ∃ p pages e, it.page = some p ∧ PageChain t it.pageId ((it.pageId,p)::pages) ∧
    ((it.pageId,p)::pages).getLast? = some e ∧ e.2.getRecordCount ≠ 0

theorem advance_stray (t : Table) (fuel : ℕ) {it it' : TableIterator} (hit : Stray t it)
    (hadv : advanceToNextValid t fuel it = some it') : Stray t it' := by
  induction fuel generalizing it with
  | zero => simp [advanceToNextValid] at hadv
  | succ fuel ih =>
    simp only [advanceToNextValid] at hadv
    rcases hit with ⟨hid,hslot⟩ | ⟨p,pages,e,hpage,hchain,hlast,hcount⟩
    · rw [if_pos hid] at hadv
      exact Option.some.inj hadv ▸ Or.inl ⟨hid,hslot⟩
    split_ifs at hadv with hid hrec hnext
    · exact Option.some.inj hadv ▸ Or.inr ⟨p,pages,e,hpage,hchain,hlast,hcount⟩
    · exact Option.some.inj hadv ▸ Or.inr ⟨p,pages,e,hpage,hchain,hlast,hcount⟩
    · have hmove : it.nextPageId = p.getNextPage := by simp [nextPageId,hpage]
      rw [hmove] at hadv hnext
      cases hchain with
      | last _ _ hend => exact absurd hend hnext
      | link _ _ hrest =>
        obtain ⟨q,rest,rfl,hfetch,_⟩ := hrest.head
        refine ih (Or.inr ⟨q,rest,e,?_,?_,?_,hcount⟩) hadv
        · simp [loadCurrentPage,hnext,hfetch]
        · simpa [loadCurrentPage,hnext] using hrest
        · simpa [loadCurrentPage,hnext] using hlast
    · have hmove : it.nextPageId = p.getNextPage := by simp [nextPageId,hpage]
      rw [hmove] at hadv hnext
      have hend : p.getNextPage = invalidPageId := not_not.mp hnext
      refine ih (Or.inl ⟨hend,?_⟩) hadv
      have hone : pages = [] := by
        cases hchain with
        | last => rfl
        | link _ _ hrest => cases hrest <;> contradiction
      subst hone
      have hself : e = (it.pageId,p) := by simpa using hlast.symm
      subst hself
      simp only [onRecord,hpage,Option.any_some,decide_eq_true_eq,not_lt] at hrec
      have hpos : 0 < p.getRecordCount := Nat.pos_of_ne_zero hcount
      exact Nat.ne_of_gt (lt_of_lt_of_le hpos hrec)

theorem increment_stray (t : Table) (fuel : ℕ) {it it' : TableIterator} (hit : Stray t it)
    (hinc : it.increment t fuel = some it') : Stray t it' := by
  unfold increment at hinc
  split_ifs at hinc with hid
  · rcases hit with hgone | hchain
    · exact absurd hgone.1 hid
    · have hmoved : Stray t { it with slot := (it.slot+1)%2^16 } := Or.inr hchain
      exact advance_stray t fuel hmoved hinc
  · exact Option.some.inj hinc ▸ hit

/-- A stray iterator never compares equal to the end, so its loop does not stop. -/
theorem scanFrom_stray (t : Table) (fuel : ℕ) {it : TableIterator} (hit : Stray t it) :
    t.scanFrom fuel it = none := by
  induction fuel generalizing it with
  | zero => rfl
  | succ fuel ih =>
    have hnot : it.equals Table.end = false := by
      rcases hit with ⟨_,hslot⟩ | ⟨p,pages,e,_,hchain,_,_⟩
      · simp [equals,Table.end,hslot]
      · obtain ⟨_,_,_,_,hid⟩ := hchain.head
        simp [equals,Table.end,hid]
    simp only [scanFrom,hnot,Bool.false_eq_true,if_false]
    cases hinc : it.increment t fuel with
    | none => rfl
    | some next => simp [ih (increment_stray t fuel hit hinc)]

/-- A scan whose chain ends in a page with slots never returns. -/
theorem scan_stray (t : Table) {pages : List (PageId × Page)} {e : PageId × Page}
    (hchain : PageChain t t.firstPage.getPageId pages) (hlast : pages.getLast? = some e)
    (hcount : e.2.getRecordCount ≠ 0) (fuel : ℕ) : t.scan fuel = none := by
  obtain ⟨p,rest,rfl,hfetch,hid⟩ := hchain.head
  have hstart : Stray t ⟨t.firstPage.getPageId,0,some p⟩ :=
    Or.inr ⟨p,rest,e,rfl,hchain,hlast,hcount⟩
  simp only [scan,Option.bind_eq_bind,Option.bind_eq_none_iff]
  intro it hbegin
  apply scanFrom_stray
  simp only [Table.begin,make,loadCurrentPage,ne_eq,hid,not_false_eq_true,if_true,hfetch] at hbegin
  split_ifs at hbegin
  · exact advance_stray t fuel hstart hbegin
  · exact Option.some.inj hbegin ▸ hstart

theorem scan_chain (t : Table) {pages : List (PageId × Page)}
    (hchain : PageChain t t.firstPage.getPageId pages)
    (hlast : ∀ e, pages.getLast? = some e → e.2.getRecordCount = 0) :
    ∃ fuel, t.scan fuel = some ((slots pages).map yieldSlot) := by
  obtain ⟨p,hfetch,hid,fuel,it,hadv,hscan⟩ := yields_chain t hchain hlast
  refine ⟨fuel,?_⟩
  simp only [scan,Option.bind_eq_bind,Option.bind_eq_some_iff]
  refine ⟨it,?_,hscan⟩
  simp only [Table.begin,make,loadCurrentPage,ne_eq,hid,not_false_eq_true,if_true,hfetch]
  split_ifs with hfull
  · exact hadv
  · cases fuel with
    | zero => simp [advanceToNextValid] at hadv
    | succ fuel =>
      have hrec : (⟨t.firstPage.getPageId,0,some p⟩ : TableIterator).onRecord = true := by
        simpa [onRecord,Nat.pos_iff_ne_zero] using hfull
      simpa [advanceToNextValid,hrec] using hadv

end Table

theorem Page.slotOf_makeRecordId (pid : PageId) (i : ℕ) (hi : i < 2^16) :
    slotOf (makeRecordId pid i) = i := by
  have hhigh : ((pid <<< 32)%2^64)%2^16 = 0 := by
    rw [Nat.shiftLeft_eq,Nat.mod_mod_of_dvd _ (by decide)]
    exact Nat.mod_eq_zero_of_dvd (Dvd.dvd.mul_left (by decide) pid)
  have hmask : (0xFFFF : ℕ) = 2^16-1 := by decide
  rw [slotOf,makeRecordId,hmask,Nat.and_two_pow_sub_one_eq_mod,Nat.or_mod_two_pow,hhigh,
    Nat.mod_eq_of_lt hi,Nat.zero_or]

/-- The slot holds a record of non-zero length that is not marked deleted. -/
def Page.SlotReadable (p : Page) (i : ℕ) : Prop :=
  (p.getSlot i).length ≠ 0 ∧ (p.getSlot i).flags &&& 1 = 0

theorem Page.getRecord_isSome_iff (p : Page) (pid : PageId) (i : ℕ) (hi : i < p.getRecordCount) :
    (p.getRecord (makeRecordId pid i)).isSome ↔ p.SlotReadable i := by
  have hcount : p.getRecordCount < 2^16 := p.header.recordCount.toNat_lt
  simp only [getRecord,slotOf_makeRecordId pid i (by omega),Nat.not_le.mpr hi,if_false,SlotReadable]
  split_ifs with hdead
  · simp only [Option.isSome_none,Bool.false_eq_true,false_iff]
    tauto
  · simp only [Option.isSome_some,true_iff]
    tauto

namespace Table

theorem yieldSlot_eq {s : PageId × Page × ℕ} {r : RecordId × List Value}
    (h : readSlot s = some r) : yieldSlot s = r := by
  simp only [readSlot,Option.map_eq_some_iff] at h
  obtain ⟨row,hrow,rfl⟩ := h
  simp [yieldSlot,deref,hrow]

/-- Yielding every slot is reading every record exactly if all slots are readable. -/
theorem filterMap_readSlot_eq_iff (l : List (PageId × Page × ℕ)) :
    l.filterMap readSlot = l.map yieldSlot ↔ ∀ s ∈ l, (readSlot s).isSome := by
  constructor
  · intro h
    have hlen : (l.filterMap readSlot).length = l.length := by simp [h]
    simpa using List.filterMap_length_eq_length.mp hlen
  · intro h
    rw [← List.filterMap_eq_map]
    apply List.filterMap_congr
    intro s hs
    obtain ⟨r,hr⟩ := Option.isSome_iff_exists.mp (h s hs)
    simp [hr,yieldSlot_eq hr]

/-- A scan ends and is exact precisely when the last page of the chain has no slot and every
slot below a record count can be read. -/
theorem scan_exact_iff (t : Table) (pages : List (PageId × Page))
    (hchain : PageChain t t.firstPage.getPageId pages) :
    (∃ fuel, t.scan fuel = some ((slots pages).filterMap readSlot)) ↔
      (∀ e, pages.getLast? = some e → e.2.getRecordCount = 0) ∧
      ∀ e ∈ pages, ∀ i < e.2.getRecordCount, e.2.SlotReadable i := by
  have hreadable : (∀ s ∈ slots pages, (readSlot s).isSome) ↔
      ∀ e ∈ pages, ∀ i < e.2.getRecordCount, e.2.SlotReadable i := by
    simp only [slots,List.mem_flatMap,List.mem_map,List.mem_range,forall_exists_index,and_imp]
    constructor
    · intro h e he i hi
      have hs := h (e.1,e.2,i) e he i hi rfl
      exact (getRecord_isSome_iff e.2 e.1 i hi).mp (by simpa [readSlot] using hs)
    · rintro h s e he i hi rfl
      simpa [readSlot] using (getRecord_isSome_iff e.2 e.1 i hi).mpr (h e he i hi)
  rw [← hreadable,← filterMap_readSlot_eq_iff]
  constructor
  · rintro ⟨fuel,hscan⟩
    have hlast : ∀ e, pages.getLast? = some e → e.2.getRecordCount = 0 := by
      intro e he
      by_contra hcount
      rw [scan_stray t hchain he hcount fuel] at hscan
      contradiction
    obtain ⟨fuel',hall⟩ := scan_chain t hchain hlast
    exact ⟨hlast,scan_unique t hscan hall⟩
  · rintro ⟨hlast,heq⟩
    rw [heq]
    exact scan_chain t hchain hlast

/-- A table of one page, stored under id one. -/
def single (p : Page) : Table := ⟨p,fun pid => if pid = 1 then some p else none⟩

theorem single_chain (p : Page) (hid : p.getPageId = 1) (hnext : p.getNextPage = invalidPageId) :
    PageChain (single p) (single p).firstPage.getPageId [(1,p)] := by
  have hstart : (single p).firstPage.getPageId = 1 := hid
  rw [hstart]
  exact .last (by decide) rfl hnext

/-- A valid image with one integer record in its last seven bytes. -/
def oneRecordPage : Page :=
  let p := Page.new 1 1
  let q : Page :=
    { p with
      header.recordCount := 1
      header.freeSpaceOffset := 72
      header.freeSpaceEnd := 4089
      bytes := Bytes.writeMem p.bytes 4089 (serializeValue (Value.ofInt 7)) }
  q.setSlot 0 ⟨4089,7,0,0⟩

/-- The page with the record, and an empty one behind it. -/
def twoPages : Table :=
  let p := oneRecordPage.setNextPage 2
  ⟨p,fun pid => if pid = 1 then some p else if pid = 2 then some (Page.new 2 1) else none⟩

theorem scan_exact_iff_two_pages :
    ∃ fuel, twoPages.scan fuel =
      some ((slots [(1,twoPages.firstPage),(2,Page.new 2 1)]).filterMap readSlot) := by
  have hchain : PageChain twoPages 1 [(1,twoPages.firstPage),(2,Page.new 2 1)] :=
    .link (by decide) rfl (.last (by decide) rfl rfl)
  refine (scan_exact_iff twoPages [(1,twoPages.firstPage),(2,Page.new 2 1)] hchain).mpr ⟨?_,?_⟩
  · intro e he
    have hlast : (2,Page.new 2 1) = e := by simpa using he
    subst hlast
    rfl
  · intro e he i hi
    obtain rfl | rfl : e = (1,twoPages.firstPage) ∨ e = (2,Page.new 2 1) := by simpa using he
    · obtain rfl : i = 0 := Nat.lt_one_iff.mp hi
      exact ⟨by decide,by decide⟩
    · exact absurd hi (Nat.not_lt_zero i)

/-- The scan of a table with one record yields it and then goes on for ever. -/
theorem one_record_scan_diverges :
    PageChain (single oneRecordPage) (single oneRecordPage).firstPage.getPageId
      [(1,oneRecordPage)] ∧
    ¬ ∃ fuel, (single oneRecordPage).scan fuel =
      some ((slots [(1,oneRecordPage)]).filterMap readSlot) := by
  have hchain := single_chain oneRecordPage rfl rfl
  refine ⟨hchain,?_⟩
  rintro ⟨fuel,hscan⟩
  have hcount : oneRecordPage.getRecordCount ≠ 0 := by decide
  rw [scan_stray _ hchain (e := (1,oneRecordPage)) rfl hcount fuel] at hscan
  contradiction

end Table
end OrangeSQL
