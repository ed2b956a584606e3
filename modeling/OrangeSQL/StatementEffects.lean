import OrangeSQL.QueryExecutor
import OrangeSQL.StoreRows

/-! What the loops of DELETE, UPDATE and INSERT do to the rows of a store. -/
namespace OrangeSQL

open Page Store TableCursor QueryExecutor

theorem pageOf_makeRecordId {pid : PageId} {i : ℕ} (hi : i < 2^32) :
    pageOf (makeRecordId pid i) = pid%2^32 := by
  unfold pageOf makeRecordId
  rw [Nat.shiftRight_or_distrib,Nat.shiftRight_eq_div_pow i,Nat.div_eq_of_lt hi,Nat.or_zero,
    Nat.shiftLeft_eq,Nat.shiftRight_eq_div_pow]
  have hsplit : (2 : ℕ)^64 = 2^32*2^32 := by decide
  rw [hsplit,Nat.mul_mod_mul_right,Nat.mul_div_cancel _ (by decide)]

section Slot

variable {s : Store} {t : OpenTable} {it : TableCursor}

/-- The record id of an iterator on a slot names its page. -/
theorem pageOf_recordId (hs : s.WellFormed) (hready : Ready s t.tableId it)
    (hid : it.pageId ≠ invalidPageId) : pageOf it.recordId = it.pageId := by
  obtain ⟨_,hslot⟩ := hready.onSlot hid
  have hcount := s.countOf_lt t.tableId it.pageId
  have hpid : it.pageId < 2^32 := Nat.lt_of_lt_of_le (hs.lt_of_lt_countOf hslot) (by decide)
  rw [recordId,pageOf_makeRecordId (by omega),Nat.mod_eq_of_lt hpid]

/-- Behind the last page the record id names a page without slots, if any. -/
theorem pageOf_recordId_past (hs : s.WellFormed) (hready : Ready s t.tableId it)
    (hid : it.pageId = invalidPageId) {p : Page}
    (hp : s.pages t.tableId (pageOf it.recordId) = some p) : p.Spent := by
  have hslot : it.slot < 2^16 := by
    rcases hready with hpast | hslot
    · exact hpast.2
    · exact Nat.lt_trans hslot.2 (s.countOf_lt t.tableId it.pageId)
  have hpage : pageOf it.recordId = 2^32-1 := by
    rw [recordId,pageOf_makeRecordId (by omega),hid]
    decide
  rw [hpage] at hp
  rcases (hs.placed _ _ p hp).numbered with hlt | hspent
  · exact absurd hlt (lt_irrefl _)
  · exact hspent

end Slot

section Put

variable {s : Store} {table : TableId} {pid : PageId} {p q : Page}

theorem nextOf_put (hp : s.pages table pid = some p) (hnext : q.getNextPage = p.getNextPage)
    (table' : TableId) (pid' : PageId) :
    (s.put table pid q).nextOf table' pid' = s.nextOf table' pid' := by
  unfold nextOf
  rw [put_pages]
  split_ifs with hboth
  · rw [hboth.1,hboth.2,hp,Option.map_some,Option.map_some,hnext]
  · rfl

theorem countOf_put (hp : s.pages table pid = some p) (hcount : q.getRecordCount = p.getRecordCount)
    (table' : TableId) (pid' : PageId) :
    (s.put table pid q).countOf table' pid' = s.countOf table' pid' := by
  unfold countOf
  rw [put_pages]
  split_ifs with hboth
  · rw [hboth.1,hboth.2,hp,Option.map_some,Option.map_some,hcount]
  · rfl

theorem countOf_le_put (hp : s.pages table pid = some p)
    (hle : p.getRecordCount ≤ q.getRecordCount) (table' : TableId) (pid' : PageId) :
    s.countOf table' pid' ≤ (s.put table pid q).countOf table' pid' := by
  unfold countOf
  rw [put_pages]
  split_ifs with hboth
  · rw [hboth.1,hboth.2,hp,Option.map_some,Option.map_some,Option.getD_some,Option.getD_some]
    exact hle
  · exact le_rfl

theorem rowAt_put (s : Store) (table : TableId) (pid : PageId) (q : Page) (table' : TableId)
    (pid' : PageId) (i : ℕ) :
    (s.put table pid q).rowAt table' pid' i =
      if table' = table ∧ pid' = pid then q.rowAt i else s.rowAt table' pid' i := by
  unfold Store.rowAt
  rw [put_pages]
  split_ifs with hboth
  · rfl
  · rfl

theorem Store.Placed.withDeleted (hp : Placed pid p) (i : ℕ) : Placed pid (p.withDeleted i) := by
  refine ⟨hp.wellFormed.withDeleted i,hp.pageId,?_⟩
  rcases hp.numbered with hlt | hspent
  · exact Or.inl hlt
  · exact Or.inr hspent

/-- A deletion takes the row of one slot. -/
theorem rowAt_put_withDeleted (hs : s.WellFormed) (hp : s.pages table pid = some p) {i : ℕ}
    (hi : i < p.getRecordCount) (table' : TableId) (pid' : PageId) (j : ℕ) :
    (s.put table pid (p.withDeleted i)).rowAt table' pid' j =
      if table' = table ∧ pid' = pid ∧ j = i then none else s.rowAt table' pid' j := by
  rw [rowAt_put]
  by_cases hboth : table' = table ∧ pid' = pid
  · obtain ⟨rfl,rfl⟩ := hboth
    by_cases hj : j = i
    · subst hj
      simp [rowAt_withDeleted]
    · have hwf := (hs.placed _ _ p hp).wellFormed
      simp [hj,rowAt_withDeleted_of_ne hwf hi hj,rowAt_of_pages hp]
  · rw [if_neg hboth,if_neg fun hall => hboth ⟨hall.1,hall.2.1⟩]

end Put

section Delete

variable {s s' : Store} {t : OpenTable} {it : TableCursor} {m m' : TransactionManager}
  {d : DeleteNode} {tx : Option TransactionId} {fuel : ℕ} {status : Status}

theorem deleteRecord_onSlot (hs : s.WellFormed) (hready : Ready s t.tableId it)
    (hid : it.pageId ≠ invalidPageId) :
    ∃ p, s.pages t.tableId it.pageId = some p ∧ it.slot < p.getRecordCount ∧
      t.deleteRecord s it.recordId = (.ok,s.put t.tableId it.pageId (p.withDeleted it.slot)) := by
  obtain ⟨p,hp,hslot⟩ := exists_page_of_lt_countOf (hready.onSlot hid).2
  have hlt : it.slot < 2^16 := Nat.lt_trans hslot p.getRecordCount_lt
  refine ⟨p,hp,hslot,?_⟩
  rw [OpenTable.deleteRecord,pageOf_recordId hs hready hid]
  simp only [hp,recordId,deleteRecord_makeRecordId p it.pageId hlt,if_neg (Nat.not_le.mpr hslot)]

theorem deleteRecord_past (hs : s.WellFormed) (hready : Ready s t.tableId it)
    (hid : it.pageId = invalidPageId) : t.deleteRecord s it.recordId = (.notFound,s) := by
  unfold OpenTable.deleteRecord
  cases hp : s.pages t.tableId (pageOf it.recordId) with
  | none => rfl
  | some p =>
    have hspent := pageOf_recordId_past hs hready hid hp
    have hnone : p.deleteRecord it.recordId = none := by
      simp [Page.deleteRecord,hspent.1]
    simp only [hnone]

/-- Rows may go, but only those of the table that satisfy the condition. -/
structure Thinned (condition : Option WhereClause) (table : TableId) (s s' : Store) : Prop where
  wellFormed : s'.WellFormed
  nextOf : ∀ table' pid, s'.nextOf table' pid = s.nextOf table' pid
  countOf : ∀ table' pid, s'.countOf table' pid = s.countOf table' pid
  rowAt : ∀ table' pid i, s'.rowAt table' pid i = s.rowAt table' pid i ∨
    table' = table ∧ s'.rowAt table' pid i = none ∧
      ∀ row, s.rowAt table' pid i = some row → matchesWhere condition row = some true

theorem Thinned.refl {condition : Option WhereClause} {table : TableId} (hs : s.WellFormed) :
    Thinned condition table s s :=
  ⟨hs,fun _ _ => rfl,fun _ _ => rfl,fun _ _ _ => Or.inl rfl⟩

theorem Thinned.trans {condition : Option WhereClause} {table : TableId} {s₁ s₂ s₃ : Store}
    (h : Thinned condition table s₁ s₂) (h' : Thinned condition table s₂ s₃) :
    Thinned condition table s₁ s₃ := by
  refine ⟨h'.wellFormed,fun a b => (h'.nextOf a b).trans (h.nextOf a b),
    fun a b => (h'.countOf a b).trans (h.countOf a b),?_⟩
  intro table' pid i
  rcases h.rowAt table' pid i with hsame | ⟨htable,hnone,hmatch⟩
  · rcases h'.rowAt table' pid i with hsame' | ⟨htable,hnone,hmatch⟩
    · exact Or.inl (hsame'.trans hsame)
    · exact Or.inr ⟨htable,hnone,by rwa [hsame] at hmatch⟩
  · rcases h'.rowAt table' pid i with hsame' | ⟨_,hnone',_⟩
    · exact Or.inr ⟨htable,hsame'.trans hnone,hmatch⟩
    · exact Or.inr ⟨htable,hnone',hmatch⟩

/-- The steps of the loop: it is over, it fails behind the last page, or it goes on with the next
slot, with the row deleted if it satisfies the condition. -/
theorem deleteRows_cases (hs : s.WellFormed) (hready : Ready s t.tableId it)
    (h : deleteRows d tx t (fuel+1) it s m = some (status,s',m')) :
    it.pageId = invalidPageId ∧ s' = s ∧ (status = .ok ↔ it.slot = 0) ∨
    it.pageId = invalidPageId ∧
      (∃ m'', deleteRows d tx t fuel it s m'' = some (status,s',m')) ∨
    it.pageId ≠ invalidPageId ∧ ∃ s₁ it' m'',
      Thinned d.whereClause t.tableId s s₁ ∧
      (∀ row, s.rowAt t.tableId it.pageId it.slot = some row →
        matchesWhere d.whereClause row = some true → s₁.rowAt t.tableId it.pageId it.slot = none) ∧
      it.increment s₁ t.tableId fuel = some it' ∧
      deleteRows d tx t fuel it' s₁ m'' = some (status,s',m') := by
  rw [deleteRows] at h
  by_cases hend : it.atEnd = true
  · rw [if_pos hend] at h
    obtain ⟨rfl,rfl,_⟩ := Prod.mk.inj (Option.some.inj h)
    obtain ⟨hid,hslot⟩ := of_decide_eq_true hend
    exact Or.inl ⟨hid,rfl,iff_of_true rfl hslot⟩
  rw [if_neg hend] at h
  obtain ⟨b,hb,h⟩ := Option.bind_eq_some_iff.mp h
  by_cases hid : it.pageId = invalidPageId
  · cases b with
    | true =>
      simp only [if_true,deleteRecord_past hs hready hid] at h
      obtain ⟨rfl,heq⟩ := Prod.mk.inj (Option.some.inj h)
      have hslot : it.slot ≠ 0 := fun hzero => hend (decide_eq_true ⟨hid,hzero⟩)
      exact Or.inl ⟨hid,(Prod.mk.inj heq).1.symm,iff_of_false nofun hslot⟩
    | false =>
      obtain ⟨it',hinc,h⟩ := Option.bind_eq_some_iff.mp h
      rw [increment,if_neg (not_not.mpr hid)] at hinc
      obtain rfl := Option.some.inj hinc
      exact Or.inr (Or.inl ⟨hid,m,h⟩)
  · refine Or.inr (Or.inr ⟨hid,?_⟩)
    have hrow := hready.row_eq hid
    cases b with
    | true =>
      obtain ⟨p,hp,hslot,hdelete⟩ := deleteRecord_onSlot hs hready hid
      simp only [if_true,hdelete,ne_eq,not_true_eq_false,if_false] at h
      obtain ⟨m'',_,h⟩ := Option.bind_eq_some_iff.mp h
      obtain ⟨it',hinc,h⟩ := Option.bind_eq_some_iff.mp h
      have hplaced := (hs.placed _ _ p hp).withDeleted it.slot
      have hrows := rowAt_put_withDeleted hs hp hslot
      refine ⟨_,it',m'',⟨hs.put hp hplaced,nextOf_put hp rfl,countOf_put hp rfl,?_⟩,?_,hinc,h⟩
      · intro table' pid i
        rw [hrows]
        split_ifs with hall
        · obtain ⟨rfl,rfl,rfl⟩ := hall
          refine Or.inr ⟨rfl,rfl,?_⟩
          intro row hlive
          rw [hrow,hlive,Option.getD_some] at hb
          exact hb
        · exact Or.inl rfl
      · intro _ _ _
        rw [hrows,if_pos ⟨rfl,rfl,rfl⟩]
    | false =>
      obtain ⟨it',hinc,h⟩ := Option.bind_eq_some_iff.mp h
      refine ⟨s,it',m,Thinned.refl hs,?_,hinc,h⟩
      intro row hlive hmatch
      rw [hrow,hlive,Option.getD_some,hmatch] at hb
      cases hb

theorem Thinned.ready {condition : Option WhereClause} {table : TableId}
    (h : Thinned condition table s s') (hready : Ready s t.tableId it) : Ready s' t.tableId it := by
  unfold Ready at hready ⊢
  rwa [h.countOf]

theorem Thinned.ahead {condition : Option WhereClause} {table : TableId}
    (h : Thinned condition table s s') {pid : PageId} {i : ℕ} (hahead : Ahead s t.tableId it pid i) :
    Ahead s' t.tableId it pid i := by
  unfold Ahead at hahead ⊢
  rw [h.nextOf]
  exact ⟨hahead.1,hahead.2.imp_right fun hnext =>
    ⟨hnext.1,(linked_congr (h.nextOf t.tableId) _ _).mpr hnext.2⟩⟩

/-- The loop deletes the rows in front of the iterator that satisfy the condition, and no others,
whatever its status is. -/
theorem deleteRows_spec (hs : s.WellFormed) (hready : Ready s t.tableId it)
    (h : deleteRows d tx t fuel it s m = some (status,s',m')) :
    Thinned d.whereClause t.tableId s s' ∧
    ∀ pid i row, Ahead s t.tableId it pid i → s.rowAt t.tableId pid i = some row →
      matchesWhere d.whereClause row = some true → s'.rowAt t.tableId pid i = none := by
  induction fuel generalizing it s m with
  | zero => cases h
  | succ fuel ih =>
    rcases deleteRows_cases hs hready h with ⟨hid,rfl,_⟩ | ⟨hid,m'',hloop⟩ |
      ⟨hid,s₁,it',m'',hthin,hgone,hinc,hloop⟩
    · exact ⟨Thinned.refl hs,fun _ _ _ hahead => absurd hid hahead.1⟩
    · exact ih hs hready hloop
    obtain ⟨hready',_,hpass⟩ := increment_spec (hthin.ready hready) hinc
    obtain ⟨hrest,hahead'⟩ := ih hthin.wellFormed hready' hloop
    refine ⟨hthin.trans hrest,?_⟩
    intro pid i row hahead hlive hmatch
    have hcount : i < s₁.countOf t.tableId pid := by
      rw [hthin.countOf]
      exact lt_countOf_of_rowAt hlive
    have hstays : s₁.rowAt t.tableId pid i = none → s'.rowAt t.tableId pid i = none := by
      intro hnone
      rcases hrest.rowAt t.tableId pid i with hsame | ⟨_,hnone',_⟩
      · exact hsame.trans hnone
      · exact hnone'
    rcases hpass pid i hcount (hthin.ahead hahead) with ⟨rfl,rfl⟩ | hahead''
    · exact hstays (hgone row hlive hmatch)
    · rcases hthin.rowAt t.tableId pid i with hsame | ⟨_,hnone,_⟩
      · exact hahead' pid i row hahead'' (hsame.trans hlive) hmatch
      · exact hstays hnone

/-- A loop that ends returns OK just when there is no record on the last page: behind one with
records the iterator is not the one of the end. -/
theorem deleteRows_status {last : PageId} (hs : s.WellFormed) (hready : Ready s t.tableId it)
    (hlast : s.nextOf t.tableId last = invalidPageId)
    (hlinked : it.pageId ≠ invalidPageId → Linked s t.tableId it.pageId last)
    (hpast : it.pageId = invalidPageId → it.slot = s.countOf t.tableId last)
    (h : deleteRows d tx t fuel it s m = some (status,s',m')) :
    status = .ok ↔ s.countOf t.tableId last = 0 := by
  induction fuel generalizing it s m with
  | zero => cases h
  | succ fuel ih =>
    rcases deleteRows_cases hs hready h with ⟨hid,_,hstatus⟩ | ⟨hid,m'',hloop⟩ |
      ⟨hid,s₁,it',m'',hthin,_,hinc,hloop⟩
    · rw [hstatus,hpast hid]
    · exact ih hs hready hlast hlinked hpast hloop
    have hready' := hthin.ready hready
    obtain ⟨hready'',hmet,_⟩ := increment_spec hready' hinc
    have hend := (hthin.nextOf t.tableId last).trans hlast
    have hlinked' := (linked_congr (hthin.nextOf t.tableId) _ _).mpr (hlinked hid)
    rw [← hthin.countOf t.tableId last]
    refine ih hthin.wellFormed hready'' hend ?_ ?_ hloop
    · exact fun hid' => (hmet hid').2.to_last hlinked' hend
    · intro hid'
      obtain ⟨pid,hmet',hend',hslot⟩ := increment_past hready' hid hinc hid'
      rw [hslot,hmet'.last_unique hlinked' hend hend']

end Delete

section Update

variable {s s' : Store} {t : OpenTable} {it it' : TableCursor} {m m' : TransactionManager}
  {u : UpdateNode} {tx : Option TransactionId} {fuel : ℕ} {status : Status}

/-- The first slot from the iterator on whose row satisfies a condition, also where there is no
row to be read and the condition is evaluated on an empty one. -/
def firstMatch (condition : Option WhereClause) (s : Store) (table : TableId) :
    ℕ → TableCursor → Option TableCursor
  | 0, _ => none
  | fuel+1, it =>
    if it.atEnd then none
    else do
      if ← matchesWhere condition (it.row s table) then return it
      else
        let it ← it.increment s table fuel
        firstMatch condition s table fuel it

/-- The slot holds a row that is valid after the assignments. -/
def Replaceable (u : UpdateNode) (t : OpenTable) (s : Store) (it : TableCursor) : Prop :=
  ∃ row new, s.rowAt t.tableId it.pageId it.slot = some row ∧
    applyAssignments t.schema row u.assignments row = some new ∧ t.validateRecord new = true

/-- A new record is on the page of the old one, which is deleted. -/
def Rewritten (t : OpenTable) (it : TableCursor) (new : List Value) (s s' : Store) : Prop :=
  ∃ p q, s.pages t.tableId it.pageId = some p ∧ it.slot < p.getRecordCount ∧
    Inserted (p.withDeleted it.slot) new q ∧ s' = s.put t.tableId it.pageId q

/-- An update of a slot that holds no row finds none. -/
theorem updateRecord_none (hs : s.WellFormed) (hready : Ready s t.tableId it)
    (hnone : it.pageId ≠ invalidPageId → s.rowAt t.tableId it.pageId it.slot = none)
    (values : List Value) :
    (t.updateRecord s it.recordId values).1 ≠ .ok ∧
      (t.updateRecord s it.recordId values).2 = s := by
  unfold OpenTable.updateRecord
  have herror : Status.error ≠ .ok := by decide
  have hfailed : Status.notFound ≠ .ok := by decide
  split_ifs
  · exact ⟨herror,rfl⟩
  cases hp : s.pages t.tableId (pageOf it.recordId) with
  | none => exact ⟨hfailed,rfl⟩
  | some p =>
    have hget : p.getRecord it.recordId = none := by
      by_cases hid : it.pageId = invalidPageId
      · have hspent := pageOf_recordId_past hs hready hid hp
        simp [getRecord,hspent.1]
      · have hslot := (hready.onSlot hid).2
        have hlt : it.slot < 2^16 := Nat.lt_trans hslot (s.countOf_lt t.tableId it.pageId)
        rw [pageOf_recordId hs hready hid] at hp
        rw [recordId,getRecord_makeRecordId p it.pageId hlt,← rowAt_of_pages hp]
        exact hnone hid
    have hupdate : p.updateRecord it.recordId values = (false,p) := by
      simp only [Page.updateRecord,hget]
    simp only [hupdate,put_eq_self hp]
    exact ⟨hfailed,trivial⟩

/-- An update of a row deletes it; then the new record is inserted if there is room for it. -/
theorem updateRecord_some (hs : s.WellFormed) (hready : Ready s t.tableId it)
    (hid : it.pageId ≠ invalidPageId) {row values : List Value}
    (hrow : s.rowAt t.tableId it.pageId it.slot = some row) (hvalid : t.validateRecord values = true) :
    (∃ p, s.pages t.tableId it.pageId = some p ∧ it.slot < p.getRecordCount ∧
      t.updateRecord s it.recordId values =
        (.notFound,s.put t.tableId it.pageId (p.withDeleted it.slot))) ∨
    ∃ s₁, Rewritten t it values s s₁ ∧ t.updateRecord s it.recordId values = (.ok,s₁) := by
  obtain ⟨p,hp,hslot⟩ := exists_page_of_lt_countOf (hready.onSlot hid).2
  have hlt : it.slot < 2^16 := Nat.lt_trans hslot p.getRecordCount_lt
  rw [rowAt_of_pages hp] at hrow
  have hupdate := @updateRecord_makeRecordId it.slot values p it.pageId hlt
  rw [hrow,if_neg (by simp)] at hupdate
  unfold OpenTable.updateRecord
  rw [hvalid,pageOf_recordId hs hready hid]
  simp only [Bool.not_true,Bool.false_eq_true,if_false,hp,recordId,hupdate]
  cases hinsert : (p.withDeleted it.slot).insertRecord values with
  | none => exact Or.inl ⟨p,rfl,hslot,rfl⟩
  | some r =>
    have hwf := (hs.placed _ _ p hp).wellFormed.withDeleted it.slot
    exact Or.inr ⟨_,⟨p,r.1,hp,hslot,insertRecord_inserted hwf hinsert,rfl⟩,rfl⟩

theorem rowAt_invalidPageId (hs : s.WellFormed) (table : TableId) (i : ℕ) :
    s.rowAt table invalidPageId i = none := by
  unfold Store.rowAt
  cases hp : s.pages table invalidPageId with
  | none => rfl
  | some p =>
    rcases (hs.placed _ _ p hp).numbered with hlt | hspent
    · exact absurd hlt (by decide)
    · exact hspent.rowAt i

theorem pageId_ne_of_rowAt (hs : s.WellFormed) {table : TableId} {pid : PageId} {i : ℕ}
    {row : List Value} (h : s.rowAt table pid i = some row) : pid ≠ invalidPageId := by
  rintro rfl
  rw [rowAt_invalidPageId hs] at h
  cases h

/-- An update of a slot fails without any change; or there is a row and the new one is valid, and
then the old one is deleted, whatever comes of the new one. -/
theorem updateRecord_cases (hs : s.WellFormed) (hready : Ready s t.tableId it) (values : List Value) :
    (t.updateRecord s it.recordId values).1 ≠ .ok ∧ (t.updateRecord s it.recordId values).2 = s ∧
      (∀ row, s.rowAt t.tableId it.pageId it.slot = some row → t.validateRecord values = false) ∨
    ∃ row, it.pageId ≠ invalidPageId ∧ s.rowAt t.tableId it.pageId it.slot = some row ∧
      it.row s t.tableId = row ∧ t.validateRecord values = true ∧
      ((∃ p, s.pages t.tableId it.pageId = some p ∧ it.slot < p.getRecordCount ∧
        t.updateRecord s it.recordId values =
          (.notFound,s.put t.tableId it.pageId (p.withDeleted it.slot))) ∨
      ∃ s₁, Rewritten t it values s s₁ ∧ t.updateRecord s it.recordId values = (.ok,s₁)) := by
  cases hlive : s.rowAt t.tableId it.pageId it.slot with
  | none =>
    obtain ⟨hstatus,hsame⟩ := updateRecord_none hs hready (fun _ => hlive) values
    exact Or.inl ⟨hstatus,hsame,nofun⟩
  | some row =>
    have hid := pageId_ne_of_rowAt hs hlive
    cases hvalid : t.validateRecord values with
    | false =>
      have hupdate : t.updateRecord s it.recordId values = (.error,s) := by
        simp [OpenTable.updateRecord,hvalid]
      rw [hupdate]
      exact Or.inl ⟨nofun,rfl,fun _ _ => rfl⟩
    | true =>
      have hrow : it.row s t.tableId = row := by rw [hready.row_eq hid,hlive,Option.getD_some]
      exact Or.inr ⟨row,hid,rfl,hrow,rfl,updateRecord_some hs hready hid hlive hvalid⟩

/-- The row of a slot is replaced and the loop goes on, or it fails after the deletion. -/
def ReplacedAt (u : UpdateNode) (tx : Option TransactionId) (t : OpenTable) (fuel : ℕ)
    (it : TableCursor) (s : Store) (status : Status) (s' : Store) (m' : TransactionManager) : Prop :=
  it.pageId ≠ invalidPageId ∧ ∃ row new, s.rowAt t.tableId it.pageId it.slot = some row ∧
    applyAssignments t.schema row u.assignments row = some new ∧ t.validateRecord new = true ∧
    ((∃ p, s.pages t.tableId it.pageId = some p ∧ it.slot < p.getRecordCount ∧
      s' = s.put t.tableId it.pageId (p.withDeleted it.slot) ∧ status ≠ .ok) ∨
    ∃ s₁ it' m'', Rewritten t it new s s₁ ∧ it.increment s₁ t.tableId fuel = some it' ∧
      updateRows u tx t fuel it' s₁ m'' = some (status,s',m'))

/-- The steps of the loop: it is over; it passes over a slot; it fails at one; or it replaces a row,
where it fails only after the deletion. -/
theorem updateRows_cases (hs : s.WellFormed) (hready : Ready s t.tableId it)
    (h : updateRows u tx t (fuel+1) it s m = some (status,s',m')) :
    it.atEnd = true ∧ s' = s ∧ status = .ok ∨
    it.atEnd = false ∧ matchesWhere u.whereClause (it.row s t.tableId) = some false ∧
      (∃ it', it.increment s t.tableId fuel = some it' ∧
        updateRows u tx t fuel it' s m = some (status,s',m')) ∨
    it.atEnd = false ∧ matchesWhere u.whereClause (it.row s t.tableId) = some true ∧
      (¬ Replaceable u t s it ∧ s' = s ∧ status ≠ .ok ∨
        ReplacedAt u tx t fuel it s status s' m') := by
  rw [updateRows] at h
  cases hend : it.atEnd with
  | true =>
    rw [hend,if_pos rfl] at h
    obtain ⟨rfl,heq⟩ := Prod.mk.inj (Option.some.inj h)
    exact Or.inl ⟨rfl,(Prod.mk.inj heq).1.symm,rfl⟩
  | false =>
    rw [hend,if_neg Bool.false_ne_true] at h
    dsimp only at h
    obtain ⟨b,hb,h⟩ := Option.bind_eq_some_iff.mp h
    cases b with
    | false =>
      obtain ⟨it',hinc,h⟩ := Option.bind_eq_some_iff.mp h
      exact Or.inr (Or.inl ⟨rfl,hb,it',hinc,h⟩)
    | true =>
      refine Or.inr (Or.inr ⟨rfl,hb,?_⟩)
      obtain ⟨new,hnew,h⟩ := Option.bind_eq_some_iff.mp h
      rcases updateRecord_cases hs hready new with ⟨hstatus,hsame,hrefused⟩ |
        ⟨row,hid,hlive,hrow,hvalid,⟨p,hp,hslot,hupdate⟩ | ⟨s₁,hrewritten,hupdate⟩⟩
      · rw [if_pos hstatus] at h
        obtain ⟨rfl,heq⟩ := Prod.mk.inj (Option.some.inj h)
        refine Or.inl ⟨?_,(Prod.mk.inj heq).1.symm.trans hsame,hstatus⟩
        rintro ⟨row,new',hrow,hnew',hvalid⟩
        rw [hready.row_eq (pageId_ne_of_rowAt hs hrow),hrow,Option.getD_some] at hnew
        obtain rfl := Option.some.inj (hnew'.symm.trans hnew)
        rw [hrefused row hrow] at hvalid
        cases hvalid
      · rw [hrow] at hnew
        rw [hupdate,if_pos (by nofun)] at h
        obtain ⟨rfl,heq⟩ := Prod.mk.inj (Option.some.inj h)
        exact Or.inr ⟨hid,row,new,hlive,hnew,hvalid,Or.inl ⟨p,hp,hslot,(Prod.mk.inj heq).1.symm,nofun⟩⟩
      · rw [hrow] at hnew
        rw [hupdate,if_neg (not_not.mpr rfl)] at h
        obtain ⟨m'',_,h⟩ := Option.bind_eq_some_iff.mp h
        obtain ⟨it',hinc,h⟩ := Option.bind_eq_some_iff.mp h
        exact Or.inr ⟨hid,row,new,hlive,hnew,hvalid,Or.inr ⟨s₁,it',m'',hrewritten,hinc,h⟩⟩

/-- Rows of the table may go and slots may be added to its pages. -/
structure Evolved (table : TableId) (s s' : Store) : Prop where
  wellFormed : s'.WellFormed
  nextOf : ∀ table' pid, s'.nextOf table' pid = s.nextOf table' pid
  other : ∀ table', table' ≠ table → ∀ pid i, s'.rowAt table' pid i = s.rowAt table' pid i
  countOf : ∀ pid, s.countOf table pid ≤ s'.countOf table pid
  rowAt : ∀ pid i, i < s.countOf table pid → s'.rowAt table pid i = s.rowAt table pid i ∨
    s'.rowAt table pid i = none

theorem Evolved.refl {table : TableId} (hs : s.WellFormed) : Evolved table s s :=
  ⟨hs,fun _ _ => rfl,fun _ _ _ _ => rfl,fun _ => le_rfl,fun _ _ _ => Or.inl rfl⟩

theorem Evolved.none_of_none {table : TableId} (h : Evolved table s s') {pid : PageId} {i : ℕ}
    (hi : i < s.countOf table pid) (hnone : s.rowAt table pid i = none) :
    s'.rowAt table pid i = none := by
  rcases h.rowAt pid i hi with hsame | hgone
  · exact hsame.trans hnone
  · exact hgone

theorem Evolved.trans {table : TableId} {s₁ s₂ s₃ : Store} (h : Evolved table s₁ s₂)
    (h' : Evolved table s₂ s₃) : Evolved table s₁ s₃ := by
  refine ⟨h'.wellFormed,fun a b => (h'.nextOf a b).trans (h.nextOf a b),
    fun a ha b i => (h'.other a ha b i).trans (h.other a ha b i),
    fun a => Nat.le_trans (h.countOf a) (h'.countOf a),?_⟩
  intro pid i hi
  have hi' : i < s₂.countOf table pid := Nat.lt_of_lt_of_le hi (h.countOf pid)
  rcases h.rowAt pid i hi with hsame | hgone
  · rcases h'.rowAt pid i hi' with hsame' | hgone'
    · exact Or.inl (hsame'.trans hsame)
    · exact Or.inr hgone'
  · exact Or.inr (h'.none_of_none hi' hgone)

theorem evolved_put_withDeleted {table : TableId} {pid : PageId} {p : Page} {i : ℕ}
    (hs : s.WellFormed) (hp : s.pages table pid = some p) (hi : i < p.getRecordCount) :
    Evolved table s (s.put table pid (p.withDeleted i)) := by
  have hrows := rowAt_put_withDeleted hs hp hi
  refine ⟨hs.put hp ((hs.placed _ _ p hp).withDeleted i),nextOf_put hp rfl,?_,?_,?_⟩
  · intro table' hne pid' j
    rw [hrows,if_neg fun hall => hne hall.1]
  · intro pid'
    rw [countOf_put hp (withDeleted_getRecordCount p i)]
  · intro pid' j _
    rw [hrows]
    split_ifs
    · exact Or.inr rfl
    · exact Or.inl rfl

section Rewritten

variable {new : List Value}

theorem Rewritten.evolved (hs : s.WellFormed) (h : Rewritten t it new s s') :
    Evolved t.tableId s s' := by
  obtain ⟨p,q,hp,hslot,hins,rfl⟩ := h
  have hplaced := hs.placed _ _ p hp
  have hwf := hplaced.wellFormed.withDeleted it.slot
  have hpid : it.pageId < 2^32-1 := by
    apply hs.lt_of_lt_countOf
    rw [countOf_of_pages hp]
    exact hslot
  refine ⟨hs.put hp ⟨hins.wellFormed hwf,hins.pageId.trans hplaced.pageId,Or.inl hpid⟩,
    nextOf_put hp hins.nextPage,?_,countOf_le_put hp (hins.count ▸ Nat.le_succ _) t.tableId,?_⟩
  · intro table' hne pid i
    rw [rowAt_put,if_neg fun hboth => hne hboth.1]
  · intro pid i hi
    rw [rowAt_put]
    split_ifs with hboth
    · rw [hboth.2,countOf_of_pages hp] at hi
      rw [hins.rowAt_of_lt hwf hi,hboth.2,rowAt_of_pages hp]
      by_cases hi' : i = it.slot
      · rw [hi',rowAt_withDeleted]
        exact Or.inr rfl
      · rw [rowAt_withDeleted_of_ne hplaced.wellFormed hslot hi']
        exact Or.inl rfl
    · exact Or.inl rfl

/-- The old row is gone. -/
theorem Rewritten.rowAt_old (hs : s.WellFormed) (h : Rewritten t it new s s') :
    it.slot < s'.countOf t.tableId it.pageId ∧ s'.rowAt t.tableId it.pageId it.slot = none := by
  obtain ⟨p,q,hp,hslot,hins,rfl⟩ := h
  have hwf := (hs.placed _ _ p hp).wellFormed.withDeleted it.slot
  have hcount := hins.count
  constructor
  · rw [countOf_of_pages (put_pages_self _ _ _ _),hcount]
    exact Nat.lt_succ_of_lt hslot
  · rw [rowAt_of_pages (put_pages_self _ _ _ _),hins.rowAt_of_lt hwf hslot,rowAt_withDeleted]

end Rewritten

theorem Evolved.ready {table : TableId} (h : Evolved table s s') (hready : Ready s table it) :
    Ready s' table it := by
  rcases hready with hpast | ⟨hpage,hslot⟩
  · exact Or.inl hpast
  · exact Or.inr ⟨hpage,Nat.lt_of_lt_of_le hslot (h.countOf it.pageId)⟩

theorem updateRows_evolved (hs : s.WellFormed) (hready : Ready s t.tableId it)
    (h : updateRows u tx t fuel it s m = some (status,s',m')) : Evolved t.tableId s s' := by
  induction fuel generalizing it s m with
  | zero => cases h
  | succ fuel ih =>
    rcases updateRows_cases hs hready h with ⟨_,rfl,_⟩ | ⟨_,_,it',hinc,hloop⟩ |
      ⟨_,_,⟨_,rfl,_⟩ | ⟨_,row,new,_,_,_,⟨p,hp,hslot,rfl,_⟩ | ⟨s₁,it',m'',hre,hinc,hloop⟩⟩⟩
    · exact Evolved.refl hs
    · exact ih hs (increment_spec hready hinc).1 hloop
    · exact Evolved.refl hs
    · exact evolved_put_withDeleted hs hp hslot
    · have hstep := hre.evolved hs
      exact hstep.trans (ih hstep.wellFormed (increment_spec (hstep.ready hready) hinc).1 hloop)

theorem ReplacedAt.replaceable (h : ReplacedAt u tx t fuel it s status s' m') :
    Replaceable u t s it := by
  obtain ⟨_,row,new,hrow,hnew,hvalid,_⟩ := h
  exact ⟨row,new,hrow,hnew,hvalid⟩

/-- The old row does not come back. -/
theorem ReplacedAt.rowAt_old (hs : s.WellFormed) (hready : Ready s t.tableId it)
    (h : ReplacedAt u tx t fuel it s status s' m') :
    s'.rowAt t.tableId it.pageId it.slot = none := by
  obtain ⟨_,row,new,_,_,_,⟨p,hp,hslot,rfl,_⟩ | ⟨s₁,it',m'',hre,hinc,hloop⟩⟩ := h
  · rw [rowAt_put_withDeleted hs hp hslot,if_pos ⟨rfl,rfl,rfl⟩]
  · have hstep := hre.evolved hs
    have hready' := (increment_spec (hstep.ready hready) hinc).1
    obtain ⟨hslot,hgone⟩ := hre.rowAt_old hs
    exact (updateRows_evolved hstep.wellFormed hready' hloop).none_of_none hslot hgone

/-- Up to the first match nothing changes. There the loop fails without any change, or a row is
replaced. -/
theorem updateRows_first (hs : s.WellFormed) (hready : Ready s t.tableId it)
    (h : updateRows u tx t fuel it s m = some (status,s',m')) :
    firstMatch u.whereClause s t.tableId fuel it = none ∧ status = .ok ∧ s' = s ∧
      (∀ pid i row, Ahead s t.tableId it pid i → s.rowAt t.tableId pid i = some row →
        matchesWhere u.whereClause row ≠ some true) ∨
    ∃ it', firstMatch u.whereClause s t.tableId fuel it = some it' ∧ Ready s t.tableId it' ∧
      (it'.pageId ≠ invalidPageId → it.pageId ≠ invalidPageId ∧
        Linked s t.tableId it.pageId it'.pageId) ∧
      matchesWhere u.whereClause (it'.row s t.tableId) = some true ∧
      (¬ Replaceable u t s it' ∧ s' = s ∧ status ≠ .ok ∨
        ∃ fuel', ReplacedAt u tx t fuel' it' s status s' m') := by
  induction fuel generalizing it m with
  | zero => cases h
  | succ fuel ih =>
    rcases updateRows_cases hs hready h with ⟨hend,rfl,hstatus⟩ | ⟨hend,hmatch,it',hinc,hloop⟩ |
      ⟨hend,hmatch,hcases⟩
    · have hid : it.pageId = invalidPageId := (of_decide_eq_true hend).1
      refine Or.inl ⟨by simp [firstMatch,hend],hstatus,rfl,?_⟩
      intro pid i row hahead
      exact absurd hid hahead.1
    · have hfirst : firstMatch u.whereClause s t.tableId (fuel+1) it =
          firstMatch u.whereClause s t.tableId fuel it' := by
        simp [firstMatch,hend,hmatch,hinc]
      obtain ⟨hready',hlinked,hpass⟩ := increment_spec hready hinc
      rw [hfirst]
      rcases ih hready' hloop with ⟨hnone,hstatus,hsame,hahead⟩ |
        ⟨it'',hsome,hready'',hlinked',hrest⟩
      · refine Or.inl ⟨hnone,hstatus,hsame,?_⟩
        intro pid i row hahead' hrow
        rcases hpass pid i (lt_countOf_of_rowAt hrow) hahead' with ⟨rfl,rfl⟩ | hahead''
        · rw [hready.row_eq hahead'.1,hrow,Option.getD_some] at hmatch
          rw [hmatch]
          simp
        · exact hahead pid i row hahead'' hrow
      · refine Or.inr ⟨it'',hsome,hready'',fun hid => ?_,hrest⟩
        obtain ⟨hid',hlinked''⟩ := hlinked' hid
        obtain ⟨hid'',hlinked₀⟩ := hlinked hid'
        exact ⟨hid'',hlinked₀.trans hlinked''⟩
    · have hfirst : firstMatch u.whereClause s t.tableId (fuel+1) it = some it := by
        simp [firstMatch,hend,hmatch]
      refine Or.inr ⟨it,hfirst,hready,fun hid => ⟨hid,.refl⟩,hmatch,?_⟩
      exact hcases.imp_right fun hreplaced => ⟨fuel,hreplaced⟩

end Update

section Insert

variable {s s' : Store} {t t' : OpenTable} {m m' : TransactionManager} {values : List Value}
  {tx : Option TransactionId} {status : Status} {rid : Option RecordId}

/-- The pointer to the last page is to the last page of a chain. -/
def HasLast (t : OpenTable) (s : Store) : Prop :=
  ∃ p, s.pages t.tableId t.lastPage = some p ∧ p.getNextPage = invalidPageId

/-- The record is on the last page. -/
def RecordStored (t : OpenTable) (values : List Value) (s s' : Store) : Prop :=
  ∃ p q, s.pages t.tableId t.lastPage = some p ∧ Inserted p values q ∧
    s' = s.put t.tableId t.lastPage q

/-- The rows stay as they are, in the slots there are; a page may be linked to the last one. -/
structure Extended (s s' : Store) : Prop where
  wellFormed : s'.WellFormed
  nextOf : ∀ table pid, s.nextOf table pid ≠ invalidPageId →
    s'.nextOf table pid = s.nextOf table pid
  countOf : ∀ table pid, s.countOf table pid ≤ s'.countOf table pid
  rowAt : ∀ table pid i, i < s.countOf table pid → s'.rowAt table pid i = s.rowAt table pid i

theorem Extended.refl (hs : s.WellFormed) : Extended s s :=
  ⟨hs,fun _ _ _ => rfl,fun _ _ => le_rfl,fun _ _ _ _ => rfl⟩

theorem Extended.trans {s₁ s₂ s₃ : Store} (h : Extended s₁ s₂) (h' : Extended s₂ s₃) :
    Extended s₁ s₃ := by
  refine ⟨h'.wellFormed,?_,fun a b => Nat.le_trans (h.countOf a b) (h'.countOf a b),?_⟩
  · intro table pid hne
    have hsame := h.nextOf table pid hne
    rw [← hsame] at hne
    exact (h'.nextOf table pid hne).trans hsame
  · intro table pid i hi
    exact (h'.rowAt table pid i (Nat.lt_of_lt_of_le hi (h.countOf table pid))).trans
      (h.rowAt table pid i hi)

theorem Extended.linked (h : Extended s s') {table : TableId} {start pid : PageId}
    (hlinked : Linked s table start pid) : Linked s' table start pid := by
  induction hlinked with
  | refl => exact .refl
  | @next pid' _ hne ih =>
    have hsame := h.nextOf table pid' hne
    rw [← hsame] at hne ⊢
    exact .next ih hne

theorem Extended.live (h : Extended s s') {table : TableId} {x : PageId × ℕ × List Value}
    (hx : x ∈ s.liveRows table) : x ∈ s'.liveRows table :=
  ⟨h.linked hx.1,(h.rowAt table x.1 x.2.1 (lt_countOf_of_rowAt hx.2)).trans hx.2⟩

theorem RecordStored.extended (hs : s.WellFormed) (h : RecordStored t values s s') : Extended s s' := by
  obtain ⟨p,q,hp,hins,rfl⟩ := h
  have hplaced := hs.placed _ _ p hp
  have hnumbered : t.lastPage < 2^32-1 := by
    rcases hplaced.numbered with hlt | hspent
    · exact hlt
    · have hroom := hins.room
      rw [hspent.2] at hroom
      unfold slotSize at hroom
      omega
  refine ⟨hs.put hp ⟨hins.wellFormed hplaced.wellFormed,hins.pageId.trans hplaced.pageId,
    Or.inl hnumbered⟩,fun table pid _ => nextOf_put hp hins.nextPage table pid,
    countOf_le_put hp (hins.count ▸ Nat.le_succ _),?_⟩
  intro table pid i hi
  rw [rowAt_put]
  split_ifs with hboth
  · rw [hboth.1,hboth.2,countOf_of_pages hp] at hi
    rw [hins.rowAt_of_lt hplaced.wellFormed hi,hboth.1,hboth.2,rowAt_of_pages hp]
  · rfl

theorem HasLast.put {table : TableId} {pid : PageId} {p q : Page} (hlast : HasLast t s)
    (hp : s.pages table pid = some p) (hnext : q.getNextPage = p.getNextPage) :
    HasLast t (s.put table pid q) := by
  obtain ⟨p',hp',hend⟩ := hlast
  unfold HasLast
  rw [put_pages]
  split_ifs with hboth
  · rw [hboth.1,hboth.2,hp] at hp'
    obtain rfl := Option.some.inj hp'
    exact ⟨q,rfl,hnext.trans hend⟩
  · exact ⟨p',hp',hend⟩

theorem RecordStored.hasLast (hlast : HasLast t s) (h : RecordStored t values s s') : HasLast t s' := by
  obtain ⟨p,q,hp,hins,rfl⟩ := h
  exact hlast.put hp hins.nextPage

/-- The page that is put behind the last one. -/
def appendedPage (t : OpenTable) (s : Store) (last : Page) : Page :=
  ((Page.new s.nextPageId t.tableId).setType .dataPage).setPrevPage last.getPageId

theorem appendedPage_placed (t : OpenTable) (s : Store) (last : Page) :
    Placed s.nextPageId (appendedPage t s last) ∧ (appendedPage t s last).Spent ∧
      (appendedPage t s last).getNextPage = invalidPageId := by
  have hplaced := placed_created s.nextPageId t.tableId
  have hspent : (appendedPage t s last).Spent := ((spent_new _ _).setType _).setPrevPage _
  exact ⟨⟨hplaced.wellFormed.setPrevPage _,rfl,Or.inr hspent⟩,hspent,rfl⟩

section Append

variable {last : Page}

theorem appendNewPage_pages (t : OpenTable) (s : Store) (last : Page) (table : TableId)
    (pid : PageId) :
    (t.appendNewPage s last).2.pages table pid =
      if table = t.tableId ∧ pid = s.nextPageId then some (appendedPage t s last)
      else if table = t.tableId ∧ pid = t.lastPage then some (last.setNextPage s.nextPageId)
      else s.pages table pid := by
  have hput : (t.appendNewPage s last).2 = ((s.createNewPage t.tableId).2.put t.tableId t.lastPage
    (last.setNextPage s.nextPageId)).put t.tableId s.nextPageId (appendedPage t s last) := rfl
  rw [hput,put_pages,put_pages,createNewPage_pages]
  split_ifs <;> rfl

theorem lastPage_ne (hs : s.WellFormed) (hp : s.pages t.tableId t.lastPage = some last) :
    t.lastPage ≠ s.nextPageId := by
  intro heq
  have hnone := hs.fresh t.tableId s.nextPageId le_rfl
  rw [← heq,hp] at hnone
  cases hnone

theorem appendNewPage_wellFormed (hs : s.WellFormed) (hp : s.pages t.tableId t.lastPage = some last) :
    (t.appendNewPage s last).2.WellFormed := by
  have hplaced := hs.placed _ _ last hp
  have hlink : Placed t.lastPage (last.setNextPage s.nextPageId) :=
    ⟨hplaced.wellFormed.setNextPage _,hplaced.pageId,hplaced.numbered⟩
  have hcreated := hs.createNewPage t.tableId
  have hold : (s.createNewPage t.tableId).2.pages t.tableId t.lastPage = some last := by
    rw [createNewPage_pages,if_neg fun hboth => lastPage_ne hs hp hboth.2]
    exact hp
  have hlinked := hcreated.put hold hlink
  have hnew : ((s.createNewPage t.tableId).2.put t.tableId t.lastPage
      (last.setNextPage s.nextPageId)).pages t.tableId s.nextPageId =
        some ((Page.new s.nextPageId t.tableId).setType .dataPage) := by
    rw [put_pages_of_ne _ _ _ (Ne.symm (lastPage_ne hs hp)),createNewPage_pages,
      if_pos ⟨rfl,rfl⟩]
  exact hlinked.put hnew (appendedPage_placed t s last).1

theorem rowAt_appendNewPage (hs : s.WellFormed) (hp : s.pages t.tableId t.lastPage = some last)
    (table : TableId) (pid : PageId) (i : ℕ) :
    (t.appendNewPage s last).2.rowAt table pid i = s.rowAt table pid i := by
  unfold Store.rowAt
  rw [appendNewPage_pages]
  split_ifs with hnew hlast
  · rw [hnew.2,hs.fresh table s.nextPageId le_rfl]
    exact (appendedPage_placed t s last).2.1.rowAt i
  · rw [hlast.1,hlast.2,hp]
    exact rowAt_setNextPage last s.nextPageId i
  · rfl

theorem countOf_appendNewPage (hs : s.WellFormed) (hp : s.pages t.tableId t.lastPage = some last)
    (table : TableId) (pid : PageId) :
    (t.appendNewPage s last).2.countOf table pid = s.countOf table pid := by
  unfold Store.countOf
  rw [appendNewPage_pages]
  split_ifs with hnew hlast
  · rw [hnew.2,hs.fresh table s.nextPageId le_rfl]
    exact (appendedPage_placed t s last).2.1.1
  · rw [hlast.1,hlast.2,hp]
    rfl
  · rfl

theorem nextOf_appendNewPage (hs : s.WellFormed) (hp : s.pages t.tableId t.lastPage = some last)
    (table : TableId) (pid : PageId) :
    (t.appendNewPage s last).2.nextOf table pid =
      if table = t.tableId ∧ pid = t.lastPage then s.nextPageId else s.nextOf table pid := by
  unfold Store.nextOf
  rw [appendNewPage_pages]
  have hne := lastPage_ne hs hp
  split_ifs with hnew hlast hlast
  · exact absurd (hlast.2.symm.trans hnew.2) hne
  · rw [hnew.2,hs.fresh table s.nextPageId le_rfl]
    exact (appendedPage_placed t s last).2.2
  · rfl
  · rfl

theorem liveRows_appendNewPage (hs : s.WellFormed) (hp : s.pages t.tableId t.lastPage = some last)
    (hend : last.getNextPage = invalidPageId) (table : TableId) :
    (t.appendNewPage s last).2.liveRows table = s.liveRows table := by
  by_cases htable : table = t.tableId
  · subst htable
    have hne := lastPage_ne hs hp
    refine @liveRows_append s _ _ t.lastPage s.nextPageId ?_ (rowAt_appendNewPage hs hp t.tableId)
      ?_ ?_ ?_ ?_
    · intro pid hpid
      rw [nextOf_appendNewPage hs hp,if_neg fun hboth => hpid hboth.2]
    · rw [nextOf_of_pages hp,hend]
    · rw [nextOf_appendNewPage hs hp,if_pos ⟨rfl,rfl⟩]
    · rw [nextOf_appendNewPage hs hp,if_neg fun hboth => hne hboth.2.symm,Store.nextOf,
        hs.fresh t.tableId s.nextPageId le_rfl]
      rfl
    · intro i
      rw [Store.rowAt,hs.fresh t.tableId s.nextPageId le_rfl]
      rfl
  · refine liveRows_congr ?_ (rowAt_appendNewPage hs hp table)
    intro pid
    rw [nextOf_appendNewPage hs hp,if_neg fun hboth => htable hboth.1]

theorem extended_appendNewPage (hs : s.WellFormed) (hp : s.pages t.tableId t.lastPage = some last)
    (hend : last.getNextPage = invalidPageId) : Extended s (t.appendNewPage s last).2 := by
  refine ⟨appendNewPage_wellFormed hs hp,?_,fun table pid => (countOf_appendNewPage hs hp table pid).ge,
    fun table pid i _ => rowAt_appendNewPage hs hp table pid i⟩
  intro table pid hne
  rw [nextOf_appendNewPage hs hp]
  split_ifs with hboth
  · rw [hboth.1,hboth.2,nextOf_of_pages hp] at hne
    exact absurd hend hne
  · rfl

end Append

section InsertRecord

variable {p : Page}

theorem insertRecord_of_not_valid (h : t.validateRecord values = false) :
    t.insertRecord s values = some (none,t,s) := by
  simp [OpenTable.insertRecord,h]

theorem insertRecord_of_room {q : Page} {r : RecordId} (hvalid : t.validateRecord values = true)
    (hp : s.pages t.tableId t.lastPage = some p) (hins : p.insertRecord values = some (q,r)) :
    t.insertRecord s values = some (some r,t,s.put t.tableId t.lastPage q) := by
  simp [OpenTable.insertRecord,hvalid,hp,hins]

/-- A new page is linked to the last one, and takes in no record. -/
theorem insertRecord_of_full (hvalid : t.validateRecord values = true)
    (hp : s.pages t.tableId t.lastPage = some p) (hins : p.insertRecord values = none) :
    t.insertRecord s values = some (none,t.appendNewPage s p) := by
  have hnew : (t.appendNewPage s p).2.pages (t.appendNewPage s p).1.tableId
      (t.appendNewPage s p).1.lastPage = some (appendedPage t s p) := by
    rw [appendNewPage_pages]
    exact if_pos ⟨rfl,rfl⟩
  have hrefused := (appendedPage_placed t s p).2.1.insertRecord values
  simp [OpenTable.insertRecord,hvalid,hp,hins,hnew,hrefused]

end InsertRecord

/-- A record is refused, with no change of a row, or it is stored on the last page: a new page
takes in no record. -/
theorem insertRecord_cases (hs : s.WellFormed) (hlast : HasLast t s)
    (h : t.insertRecord s values = some (rid,t',s')) :
    rid = none ∧ Extended s s' ∧ (∀ table, s'.liveRows table = s.liveRows table) ∧
      (t.validateRecord values = true → ∀ p, s.pages t.tableId t.lastPage = some p →
        p.hasSpaceFor (recordSize values) = false) ∨
    rid.isSome ∧ t' = t ∧ t.validateRecord values = true ∧ RecordStored t values s s' := by
  cases hvalid : t.validateRecord values with
  | false =>
    rw [insertRecord_of_not_valid hvalid] at h
    obtain ⟨rfl,heq⟩ := Prod.mk.inj (Option.some.inj h)
    obtain ⟨_,rfl⟩ := Prod.mk.inj heq
    exact Or.inl ⟨rfl,Extended.refl hs,fun _ => rfl,nofun⟩
  | true =>
    obtain ⟨p,hp,hend⟩ := hlast
    cases hins : p.insertRecord values with
    | some r =>
      rw [insertRecord_of_room hvalid hp hins] at h
      obtain ⟨rfl,heq⟩ := Prod.mk.inj (Option.some.inj h)
      obtain ⟨rfl,rfl⟩ := Prod.mk.inj heq
      have hinserted := insertRecord_inserted (hs.placed _ _ p hp).wellFormed hins
      exact Or.inr ⟨rfl,rfl,rfl,p,r.1,hp,hinserted,rfl⟩
    | none =>
      rw [insertRecord_of_full hvalid hp hins] at h
      obtain ⟨rfl,heq⟩ := Prod.mk.inj (Option.some.inj h)
      obtain ⟨_,rfl⟩ := Prod.mk.inj heq
      refine Or.inl ⟨rfl,extended_appendNewPage hs hp hend,liveRows_appendNewPage hs hp hend,?_⟩
      intro _ p' hp'
      obtain rfl := Option.some.inj (hp.symm.trans hp')
      rw [← insertRecord_isSome,hins]
      rfl

/-- A record without values is stored where nobody reads it. -/
theorem RecordStored.liveRows_nil (hs : s.WellFormed) (h : RecordStored t [] s s') (table : TableId) :
    s'.liveRows table = s.liveRows table := by
  obtain ⟨p,q,hp,hins,rfl⟩ := h
  have hwf := (hs.placed _ _ p hp).wellFormed
  refine liveRows_congr (nextOf_put hp hins.nextPage table) ?_
  intro pid i
  rw [rowAt_put]
  split_ifs with hboth
  · rw [hboth.1,hboth.2,rowAt_of_pages hp]
    by_cases hi : i = p.getRecordCount
    · rw [hi,hins.rowAt_new_nil,rowAt_of_le le_rfl]
    · exact hins.rowAt_of_ne hwf hi
  · rfl

/-- A record with values is a live row that was not there before. -/
theorem RecordStored.exists_live (hs : s.WellFormed) (h : RecordStored t values s s') (hne : values ≠ [])
    (hlinked : Linked s t.tableId 0 t.lastPage) :
    ∃ x ∈ s'.liveRows t.tableId, x ∉ s.liveRows t.tableId := by
  have hext := h.extended hs
  obtain ⟨p,q,hp,hins,rfl⟩ := h
  have hrow := hins.rowAt_new_eq (hs.placed _ _ p hp).wellFormed hne
  rw [← rowAt_of_pages (put_pages_self s t.tableId t.lastPage q)] at hrow
  refine ⟨(t.lastPage,p.getRecordCount,_),⟨hext.linked hlinked,hrow⟩,?_⟩
  intro hold
  have hlt := lt_countOf_of_rowAt hold.2
  rw [countOf_of_pages hp] at hlt
  exact absurd hlt (lt_irrefl _)

theorem validateRecord_length (h : t.validateRecord values = true) :
    values.length = t.schema.columns.length := by
  simp only [OpenTable.validateRecord,Bool.and_eq_true,decide_eq_true_eq] at h
  exact h.1

variable {rows : List (List ASTNode)}

/-- The steps of the loop: it is over; the next record is refused; or it is stored. -/
theorem insertRows_cases (hs : s.WellFormed) (hlast : HasLast t s)
    (h : insertRows tx rows t s m = some (status,s',m')) :
    rows = [] ∧ s' = s ∨
    ∃ exprs rest values, rows = exprs::rest ∧ exprs.mapM (evaluateExpression []) = some values ∧
      (Extended s s' ∧ (∀ table, s'.liveRows table = s.liveRows table) ∧
        (t.validateRecord values = true → ∀ p, s.pages t.tableId t.lastPage = some p →
          p.hasSpaceFor (recordSize values) = false) ∨
      t.validateRecord values = true ∧ ∃ s₁ m'', RecordStored t values s s₁ ∧
        insertRows tx rest t s₁ m'' = some (status,s',m')) := by
  cases rows with
  | nil =>
    obtain ⟨_,heq⟩ := Prod.mk.inj (Option.some.inj h)
    exact Or.inl ⟨rfl,(Prod.mk.inj heq).1.symm⟩
  | cons exprs rest =>
    obtain ⟨values,hvalues,h⟩ := Option.bind_eq_some_iff.mp h
    obtain ⟨⟨rid,t',s₁⟩,hins,h⟩ := Option.bind_eq_some_iff.mp h
    refine Or.inr ⟨exprs,rest,values,rfl,hvalues,?_⟩
    rcases insertRecord_cases hs hlast hins with ⟨rfl,hext,hlive,hrefused⟩ |
      ⟨hsome,rfl,hvalid,hstored⟩
    · obtain ⟨_,heq⟩ := Prod.mk.inj (Option.some.inj h)
      obtain ⟨rfl,_⟩ := Prod.mk.inj heq
      exact Or.inl ⟨hext,hlive,hrefused⟩
    · obtain ⟨r,rfl⟩ := Option.isSome_iff_exists.mp hsome
      obtain ⟨m'',_,h⟩ := Option.bind_eq_some_iff.mp h
      exact Or.inr ⟨hvalid,s₁,m'',hstored,h⟩

theorem insertRows_extended (hs : s.WellFormed) (hlast : HasLast t s)
    (h : insertRows tx rows t s m = some (status,s',m')) : Extended s s' := by
  induction rows generalizing s m with
  | nil =>
    rcases insertRows_cases hs hlast h with ⟨_,rfl⟩ | ⟨_,_,_,hrows,_⟩
    · exact Extended.refl hs
    · cases hrows
  | cons exprs rest ih =>
    rcases insertRows_cases hs hlast h with ⟨hrows,_⟩ |
      ⟨_,_,_,hrows,_,⟨hext,_⟩ | ⟨_,s₁,m'',hstored,hloop⟩⟩
    · cases hrows
    · exact hext
    · obtain ⟨_,rfl⟩ := List.cons.inj hrows
      have hstep := hstored.extended hs
      exact hstep.trans (ih hstep.wellFormed (hstored.hasLast hlast) hloop)

/-- Nothing can be read of a table without columns. -/
theorem insertRows_liveRows_nil (hs : s.WellFormed) (hlast : HasLast t s)
    (hcolumns : t.schema.columns = []) (h : insertRows tx rows t s m = some (status,s',m'))
    (table : TableId) : s'.liveRows table = s.liveRows table := by
  induction rows generalizing s m with
  | nil =>
    rcases insertRows_cases hs hlast h with ⟨_,rfl⟩ | ⟨_,_,_,hrows,_⟩
    · rfl
    · cases hrows
  | cons exprs rest ih =>
    rcases insertRows_cases hs hlast h with ⟨hrows,_⟩ |
      ⟨_,_,values,hrows,_,⟨_,hlive,_⟩ | ⟨hvalid,s₁,m'',hstored,hloop⟩⟩
    · cases hrows
    · exact hlive table
    · obtain ⟨_,rfl⟩ := List.cons.inj hrows
      have hlength := validateRecord_length hvalid
      rw [hcolumns] at hlength
      obtain rfl := List.eq_nil_of_length_eq_zero hlength
      have hstep := hstored.extended hs
      exact (ih hstep.wellFormed (hstored.hasLast hlast) hloop).trans (hstored.liveRows_nil hs table)

/-- The first record is not stored as a row: it is not valid, or there is no room for it on the last
page, or it has no values. -/
def FirstRefused (rows : List (List ASTNode)) (t : OpenTable) (s : Store) : Prop :=
  ∀ exprs rest values, rows = exprs::rest → exprs.mapM (evaluateExpression []) = some values →
    t.validateRecord values = true → values = [] ∨
      ∀ p, s.pages t.tableId t.lastPage = some p → p.hasSpaceFor (recordSize values) = false

theorem insertRows_liveRows (hs : s.WellFormed) (hlast : HasLast t s) (hrefused : FirstRefused rows t s)
    (h : insertRows tx rows t s m = some (status,s',m')) (table : TableId) :
    s'.liveRows table = s.liveRows table := by
  rcases insertRows_cases hs hlast h with ⟨_,rfl⟩ |
    ⟨exprs,rest,values,hrows,hvalues,⟨_,hlive,_⟩ | ⟨hvalid,s₁,m'',hstored,hloop⟩⟩
  · rfl
  · exact hlive table
  · rcases hrefused exprs rest values hrows hvalues hvalid with rfl | hfull
    · have hcolumns : t.schema.columns = [] :=
        List.eq_nil_of_length_eq_zero (validateRecord_length hvalid).symm
      exact insertRows_liveRows_nil hs hlast hcolumns h table
    · obtain ⟨p,q,hp,hins,_⟩ := hstored
      have hroom := (hasSpaceFor_iff (hs.placed _ _ p hp).wellFormed _).mpr hins.room
      rw [hfull p hp] at hroom
      cases hroom

/-- Otherwise there is a new row, and it stays whatever comes of the others. -/
theorem insertRows_exists_live (hs : s.WellFormed) (hlast : HasLast t s)
    (hlinked : Linked s t.tableId 0 t.lastPage) (hstored : ¬ FirstRefused rows t s)
    (h : insertRows tx rows t s m = some (status,s',m')) :
    ∃ x ∈ s'.liveRows t.tableId, x ∉ s.liveRows t.tableId := by
  simp only [FirstRefused,not_forall,not_or] at hstored
  obtain ⟨exprs,rest,values,hrows,hvalues,hvalid,hne,p,hp,hroom⟩ := hstored
  rcases insertRows_cases hs hlast h with ⟨hnil,_⟩ |
    ⟨_,_,_,hrows',hvalues',⟨_,_,hfull⟩ | ⟨_,s₁,m'',hstored,hloop⟩⟩
  · rw [hnil] at hrows
    cases hrows
  · obtain ⟨rfl,rfl⟩ := List.cons.inj (hrows'.symm.trans hrows)
    obtain rfl := Option.some.inj (hvalues'.symm.trans hvalues)
    exact absurd (hfull hvalid p hp) hroom
  · obtain ⟨rfl,rfl⟩ := List.cons.inj (hrows'.symm.trans hrows)
    obtain rfl := Option.some.inj (hvalues'.symm.trans hvalues)
    obtain ⟨x,hx,hnot⟩ := hstored.exists_live hs hne hlinked
    have hstep := hstored.extended hs
    have hext := insertRows_extended hstep.wellFormed (hstored.hasLast hlast) hloop
    exact ⟨x,hext.live hx,hnot⟩

end Insert

end OrangeSQL
