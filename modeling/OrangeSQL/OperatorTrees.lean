import OrangeSQL.ExecutorOperators

/-! Operator trees as functions on lists: what a pass over a tree gives after `open`, and what it
gives after `rewind`, from wherever it is called. -/
namespace OrangeSQL

open PullStreams

namespace ExecutorOperator

/-- Calling `next` gives these rows and then `NOT_FOUND` for good. -/
def Yields (op : ExecutorOperator) (rows : List Row) : Prop :=
  ∃ op', Drains Next op rows op' ∧ Next op' (none,op')

section Yields

variable {op op' child left right : ExecutorOperator} {rows rows' xs ys : List Row} {row : Row}
  {condition : Option ASTNode} {joinType : JoinType} {algorithm : JoinAlgorithm}

theorem Yields.done (h : Next op (none,op)) : Yields op [] := ⟨op,.done h,h⟩

theorem Yields.more (h : Next op (some row,op')) (hrows : Yields op' rows) :
    Yields op (row::rows) := by
  obtain ⟨last,hdrains,hlast⟩ := hrows
  exact ⟨last,.more h hdrains,hlast⟩

theorem Yields.unique (h : Yields op rows) (h' : Yields op rows') : rows = rows' := by
  obtain ⟨_,hdrains,_⟩ := h
  obtain ⟨_,hdrains',_⟩ := h'
  have hnext : ∀ op r r', Next op r → Next op r' → r = r' := fun _ _ _ => Next.unique
  exact (hdrains.unique hnext hdrains').1

/-- An operator whose calls end as those of another one gives the same rows. -/
theorem Yields.of_next (h : ∀ r, Next op' r → Next op r) (hrows : Yields op' rows) :
    Yields op rows := by
  obtain ⟨last,hdrains,hlast⟩ := hrows
  refine ⟨last,?_,hlast⟩
  cases hdrains with
  | done hdone => exact .done (h _ hdone)
  | more hmore hrest => exact .more (h _ hmore) hrest

theorem yields_source (rows rest : List Row) : Yields (.source ⟨rows,rest⟩) rest := by
  induction rest with
  | nil => exact .done (next_source_nil rows)
  | cons row rest ih => exact .more (next_source rows rest row) ih

theorem Yields.limit {limit_ offset currentRow : ℕ} (h : Yields child xs) :
    Yields (.limit child limit_ offset currentRow) (xs.take (limit_-currentRow)) := by
  obtain ⟨last,hdrains,hlast⟩ := h
  induction hdrains generalizing currentRow with
  | done hdone =>
    rw [List.take_nil]
    by_cases hc : currentRow < limit_
    · exact ⟨_,.done ((next_limit_iff hc).mpr ⟨none,_,hdone,rfl⟩),
        (next_limit_iff hc).mpr ⟨none,_,hlast,rfl⟩⟩
    · exact .done (next_limit_of_le (Nat.not_lt.mp hc))
  | @more _ mid _ row xs hmore _ ih =>
    by_cases hc : currentRow < limit_
    · have hrest : Yields (.limit mid limit_ offset (currentRow+1))
          (xs.take (limit_-(currentRow+1))) := ih hlast
      rw [show limit_-currentRow = limit_-(currentRow+1)+1 by omega,List.take_succ_cons]
      exact .more ((next_limit_iff hc).mpr ⟨some row,mid,hmore,rfl⟩) hrest
    · rw [Nat.sub_eq_zero_of_le (Nat.not_lt.mp hc),List.take_zero]
      exact .done (next_limit_of_le (Nat.not_lt.mp hc))

/-- Skipping an offset leaves the rows behind it. -/
theorem Yields.skip (offset : ℕ) (h : Yields op rows) :
    ∃ op', Returns (fun n => skip offset n op) op' ∧ Yields op' (rows.drop offset) := by
  induction offset generalizing op rows with
  | zero => exact ⟨op,⟨0,rfl⟩,h⟩
  | succ offset ih =>
    obtain ⟨last,hdrains,hlast⟩ := h
    cases hdrains with
    | done hdone =>
      obtain ⟨n,hn⟩ := hdone
      exact ⟨last,⟨n,Option.bind_eq_some_iff.mpr ⟨_,hn,rfl⟩⟩,.done hlast⟩
    | more hmore hrest =>
      obtain ⟨op',⟨m,hm⟩,hyields⟩ := ih ⟨last,hrest,hlast⟩
      obtain ⟨n,hn⟩ := hmore
      have hnext := (keeps_next _).mono (le_max_left n m) hn
      have hskip := (keeps_skip _ _).mono (le_max_right n m) hm
      exact ⟨op',⟨max n m,Option.bind_eq_some_iff.mpr ⟨_,hnext,hskip⟩⟩,hyields⟩

theorem yields_sort (child : ExecutorOperator) (keys : List Bool) (rows : List Row) (index : ℕ) :
    Yields (.sort child keys rows index) (rows.drop index) := by
  induction hleft : rows.length-index generalizing index with
  | zero =>
    have hge : rows.length ≤ index := by omega
    rw [List.drop_eq_nil_of_le hge]
    exact .done (next_sort_of_ge hge)
  | succ n ih =>
    have hlt : index < rows.length := by omega
    rw [List.drop_eq_getElem_cons hlt]
    exact .more (next_sort_of_lt hlt) (ih (index+1) (by omega))

/-- The rows with the current left row come before those that follow it. -/
theorem Yields.joinCurrent {index : ℕ} (hrow : row ≠ [])
    (h : Yields (.join left right condition joinType algorithm [] rows rows.length) ys) :
    Yields (.join left right condition joinType algorithm row rows index)
      ((rows.drop index).map (row++·)++ys) := by
  induction hleft : rows.length-index generalizing index with
  | zero =>
    have hge : rows.length ≤ index := by omega
    rw [List.drop_eq_nil_of_le hge]
    exact h.of_next fun r hr => next_join_of_ge hrow hge hr
  | succ n ih =>
    have hlt : index < rows.length := by omega
    rw [List.drop_eq_getElem_cons hlt]
    exact .more (next_join_of_lt hrow hlt) (ih (by omega))

/-- All pairs of a left and a right row, joined, but an empty left row meets only one right row. -/
def joinRows (left right : List Row) : List Row :=
  left.flatMap fun l => if l = [] then right.take 1 else right.map (l++·)

theorem joinRows_eq_crossProduct {left : List Row} (h : ∀ row ∈ left, row ≠ []) (right : List Row) :
    joinRows left right = JoinOperator.crossProduct left right :=
  List.flatMap_congr fun l hl => if_neg (h l hl)

theorem joinRows_cons (row : Row) (left right : List Row) : joinRows (row::left) right =
    (if row = [] then right.take 1 else right.map (row++·))++joinRows left right := rfl

theorem joinRows_nil_right (left : List Row) : joinRows left [] = [] := by
  simp [joinRows]

theorem Yields.join {index : ℕ} (h : Yields left xs) :
    Yields (.join left right condition joinType algorithm [] rows index) (joinRows xs rows) := by
  obtain ⟨last,hdrains,hlast⟩ := h
  induction hdrains generalizing index with
  | done hdone => exact ⟨_,.done (next_join_done hdone),next_join_done hlast⟩
  | @more left mid _ row xs hmore _ ih =>
    cases rows with
    | nil =>
      rw [joinRows_nil_right]
      have hrest : Yields (.join mid right condition joinType algorithm [] [] 0)
          (joinRows xs []) := ih hlast
      rw [joinRows_nil_right] at hrest
      exact hrest.of_next fun r hr => next_join_of_nil hmore hr
    | cons first rows =>
      have hnext : Next (.join left right condition joinType algorithm [] (first::rows) index)
          (some (row++first),.join mid right condition joinType algorithm row (first::rows) 1) :=
        next_join_first hmore (List.length_pos_of_ne_nil (List.cons_ne_nil first rows))
      by_cases hrow : row = []
      · subst hrow
        exact .more hnext (ih hlast)
      · rw [joinRows_cons,if_neg hrow]
        exact .more hnext (.joinCurrent hrow (ih hlast))

end Yields

section Rewind

variable {op op' : ExecutorOperator} {o : Option Row}

/-- A rewind goes through no sequential scan, whose iterator it would leave where it is. -/
def Restartable : ExecutorOperator → Prop
  | .null | .source _ | .indexScan _ _ _ | .sort _ _ _ _ => True
  | .seqScan _ _ _ => False
  | .filter child _ | .project child _ | .limit child _ _ _ => child.Restartable
  | .join left _ _ _ _ _ _ _ => left.Restartable

/-- One call changes nothing of what a rewind goes back to. -/
def SameRewind (op op' : ExecutorOperator) : Prop :=
  op'.rewind = op.rewind ∧ op'.Restartable

theorem sameRewind_joinLeft {loop : ExecutorOperator → Option (Option Row × ExecutorOperator)}
    {left right : ExecutorOperator} {condition : Option ASTNode} {joinType : JoinType}
    {algorithm : JoinAlgorithm} {leftRow : Row} {rightRows : List Row} {rightIndex : ℕ}
    (hloop : ∀ op, op.Restartable → loop op = some (o,op') → SameRewind op op')
    (hleft : left.Restartable)
    (h : joinLeft loop left right condition joinType algorithm leftRow rightRows rightIndex =
      some (o,op')) :
    SameRewind (.join left right condition joinType algorithm leftRow rightRows rightIndex) op' := by
  rw [joinLeft] at h
  split at h
  · obtain ⟨-,rfl⟩ := Prod.mk.inj (Option.some.inj h)
    exact ⟨rfl,hleft⟩
  · exact hloop (.join left right condition joinType algorithm [] rightRows rightRows.length) hleft h

theorem rewind_source {s s' : RowSource} {row : Row} (h : s.next = some (row,s')) :
    s'.rewind = s.rewind := by
  rw [RowSource.next] at h
  split at h
  · cases h
  · obtain ⟨-,rfl⟩ := Prod.mk.inj (Option.some.inj h)
    rfl

theorem Restartable.next {n : ℕ} (hop : op.Restartable) (h : next n op = some (o,op')) :
    SameRewind op op' := by
  induction n generalizing op o op' with
  | zero => cases h
  | succ n ih =>
    cases op with
    | null => cases h
    | indexScan tableName indexName filter_ => cases h
    | seqScan tableName filter_ it => exact absurd hop id
    | source s =>
      rw [next_source_succ] at h
      split at h
      · obtain ⟨-,rfl⟩ := Prod.mk.inj (Option.some.inj h)
        exact ⟨rfl,trivial⟩
      · next row s' hs =>
        obtain ⟨-,rfl⟩ := Prod.mk.inj (Option.some.inj h)
        exact ⟨congrArg ExecutorOperator.source (rewind_source hs),trivial⟩
    | sort child keys sortedRows currentIndex =>
      rw [next_sort_succ] at h
      split at h <;> obtain ⟨-,rfl⟩ := Prod.mk.inj (Option.some.inj h) <;> exact ⟨rfl,trivial⟩
    | filter child condition =>
      have hchild : child.Restartable := hop
      obtain ⟨⟨row,child'⟩,hnext,hrest⟩ := Option.bind_eq_some_iff.mp h
      obtain ⟨hsame,hkept⟩ := ih hchild hnext
      have hop' : op' = .filter child' condition := by
        cases row <;> exact (Prod.mk.inj (Option.some.inj hrest)).2.symm
      subst hop'
      exact ⟨congrArg (ExecutorOperator.filter · condition) hsame,hkept⟩
    | project child expressions =>
      have hchild : child.Restartable := hop
      obtain ⟨⟨row,child'⟩,hnext,hrest⟩ := Option.bind_eq_some_iff.mp h
      obtain ⟨hsame,hkept⟩ := ih hchild hnext
      have hop' : op' = .project child' expressions := by
        cases row <;> exact (Prod.mk.inj (Option.some.inj hrest)).2.symm
      subst hop'
      exact ⟨congrArg (ExecutorOperator.project · expressions) hsame,hkept⟩
    | limit child limit_ offset currentRow =>
      have hchild : child.Restartable := hop
      rw [next_limit_succ] at h
      split at h
      · obtain ⟨-,rfl⟩ := Prod.mk.inj (Option.some.inj h)
        exact ⟨rfl,hchild⟩
      · obtain ⟨⟨row,child'⟩,hnext,hrest⟩ := Option.bind_eq_some_iff.mp h
        obtain ⟨hsame,hkept⟩ := ih hchild hnext
        have hop' : ∃ count, op' = .limit child' limit_ offset count := by
          cases row <;> exact ⟨_,(Prod.mk.inj (Option.some.inj hrest)).2.symm⟩
        obtain ⟨count,rfl⟩ := hop'
        exact ⟨congrArg (ExecutorOperator.limit · limit_ offset 0) hsame,hkept⟩
    | join left right condition joinType algorithm currentLeftRow rightRows rightIndex =>
      have hleft : left.Restartable := hop
      rw [next_join_succ] at h
      split at h
      · obtain ⟨⟨row,left'⟩,hnext,hrest⟩ := Option.bind_eq_some_iff.mp h
        obtain ⟨hsame,hkept⟩ := ih hleft hnext
        have hback := congrArg
          (ExecutorOperator.join · right.rewind condition joinType algorithm [] rightRows 0) hsame
        cases row with
        | none =>
          obtain ⟨-,rfl⟩ := Prod.mk.inj (Option.some.inj hrest)
          exact ⟨hback,hkept⟩
        | some leftRow =>
          obtain ⟨hsame',hkept'⟩ := sameRewind_joinLeft (fun _ hop h => ih hop h) hkept hrest
          exact ⟨hsame'.trans hback,hkept'⟩
      · exact sameRewind_joinLeft (fun _ hop h => ih hop h) hleft h

theorem Restartable.of_next (hop : op.Restartable) (h : Next op (o,op')) : SameRewind op op' := by
  obtain ⟨n,hn⟩ := h
  exact hop.next hn

theorem Restartable.of_reaches (hop : op.Restartable) (h : Reaches Next op op') :
    SameRewind op op' := by
  induction h with
  | refl => exact ⟨rfl,hop⟩
  | tail _ hstep ih =>
    obtain ⟨hsame,hkept⟩ := ih
    obtain ⟨o,ho⟩ := hstep
    obtain ⟨hsame',hkept'⟩ := hkept.of_next ho
    exact ⟨hsame'.trans hsame,hkept'⟩

theorem Restartable.of_skip {offset : ℕ} (hop : op.Restartable)
    (h : Returns (fun n => skip offset n op) op') : SameRewind op op' := by
  obtain ⟨n,hn⟩ := h
  induction offset generalizing op with
  | zero =>
    obtain rfl := Option.some.inj hn
    exact ⟨rfl,hop⟩
  | succ offset ih =>
    obtain ⟨⟨o,mid⟩,hnext,hrest⟩ := Option.bind_eq_some_iff.mp hn
    obtain ⟨hsame,hkept⟩ := hop.next hnext
    cases o with
    | none =>
      obtain rfl := Option.some.inj hrest
      exact ⟨hsame,hkept⟩
    | some row =>
      obtain ⟨hsame',hkept'⟩ := ih hkept hrest
      exact ⟨hsame'.trans hsame,hkept'⟩

end Rewind

section Sources

/-- The join operator over sources as a tree. -/
def ofJoin (j : JoinOperator) : ExecutorOperator :=
  .join (.source j.left) (.source j.right) j.condition j.joinType j.algorithm j.currentLeftRow
    j.rightRows j.rightIndex

theorem next_of_source_none {s : RowSource} (h : s.next = none) :
    Next (.source s) (none,.source s) :=
  next_of_eq (by rw [next_source_succ,h])

theorem joinLeft_ofJoin (loop : ExecutorOperator → Option (Option Row × ExecutorOperator))
    (j : JoinOperator) :
    joinLeft loop (.source j.left) (.source j.right) j.condition j.joinType j.algorithm
        j.currentLeftRow j.rightRows j.rightIndex =
      match j.matchRight j.rightIndex with
      | some (rightRow,index) =>
        some (some (j.currentLeftRow++rightRow),ofJoin { j with rightIndex := index })
      | none => loop (ofJoin { j with currentLeftRow := [], rightIndex := j.rightRows.length }) := by
  by_cases h : j.rightIndex < j.rightRows.length
  · rw [joinLeft_of_lt h,JoinOperator.matchRight_of_lt j h]
    rfl
  · rw [joinLeft_of_ge (Nat.not_lt.mp h),JoinOperator.matchRight_of_ge j h]
    rfl

/-- What `next` does with the left row that it fetches. -/
theorem next_ofJoin_of_fetchLeft {j j' : JoinOperator} (h : j.fetchLeft = some j') (n : ℕ) :
    next (n+2) (ofJoin j) =
      joinLeft (next (n+1)) (.source j'.left) (.source j'.right) j'.condition j'.joinType
        j'.algorithm j'.currentLeftRow j'.rightRows j'.rightIndex := by
  rw [JoinOperator.fetchLeft] at h
  split at h
  case isTrue hnil =>
    split at h
    · cases h
    · next row left hleft =>
      obtain rfl := Option.some.inj h
      simp [ofJoin,next_join_succ,next_source_succ,hnil,hleft]
  case isFalse hrow =>
    obtain rfl := Option.some.inj h
    simp [ofJoin,next_join_succ,hrow]

theorem rest_of_next_none {s : RowSource} (h : s.next = none) : s.rest = [] := by
  rw [RowSource.next] at h
  split at h
  · assumption
  · cases h

theorem fetchLeft_none {j : JoinOperator} (h : j.fetchLeft = none) :
    j.currentLeftRow = [] ∧ j.left.next = none := by
  rw [JoinOperator.fetchLeft] at h
  split at h
  case isTrue hnil =>
    cases hleft : j.left.next with
    | none => exact ⟨hnil,rfl⟩
    | some found => simp [hleft] at h
  case isFalse => cases h

/-- Over sources a join does in the tree what it does alone. -/
theorem next_ofJoin (j : JoinOperator) : Next (ofJoin j) (j.next.1,ofJoin j.next.2) := by
  induction j using JoinOperator.next.induct with
  | case1 j hfetch =>
    obtain ⟨hnil,hleft⟩ := fetchLeft_none hfetch
    have hrest := rest_of_next_none hleft
    rw [JoinOperator.next_of_nil hnil hrest,ofJoin,hnil]
    exact next_join_done (next_of_source_none hleft)
  | case2 j j' hfetch rightRow index hmatch =>
    have hrun := next_ofJoin_of_fetchLeft hfetch 0
    rw [joinLeft_ofJoin,hmatch] at hrun
    rw [JoinOperator.next_of_fetchLeft hfetch,hmatch]
    exact ⟨2,hrun⟩
  | case3 j j' hfetch hmatch ih =>
    obtain ⟨n,hn⟩ := ih
    have hrun := next_ofJoin_of_fetchLeft hfetch n
    rw [joinLeft_ofJoin,hmatch] at hrun
    rw [JoinOperator.next_of_fetchLeft hfetch,hmatch]
    exact ⟨n+2,hrun.trans ((keeps_next _).mono (Nat.le_succ n) hn)⟩

end Sources

end ExecutorOperator

open ExecutorOperator

/-- Trees of limits, sorts and hash joins without a condition over children with finite outputs. -/
inductive OperatorTree
  | leaf (rows : List Row)
  | limit (limit offset : ℕ) (child : OperatorTree)
  | sort (keys : List Bool) (child : OperatorTree)
  | join (joinType : JoinType) (left right : OperatorTree)

namespace OperatorTree

/-- The operators as they are constructed. -/
def build : OperatorTree → ExecutorOperator
  | .leaf rows => .source (.new rows)
  | .limit limit_ offset child => .limit child.build limit_ offset 0
  | .sort keys child => .sort child.build keys [] 0
  | .join joinType left right => .join left.build right.build none joinType .HASH [] [] 0

/-- The list of a tree. -/
def rows (context : ExecutorContext) : OperatorTree → List Row
  | .leaf rows => rows
  | .limit limit_ offset child => ((child.rows context).drop offset).take limit_
  | .sort keys child => context.stdSort (compareRows keys) (child.rows context)
  | .join _ left right => joinRows (left.rows context) (right.rows context)

/-- The tree that a rewind goes back to: the limits that it goes through do not skip their offsets
again. It stops at a sort, and the right rows of a join stay loaded. -/
def withoutOffsets : OperatorTree → OperatorTree
  | .leaf rows => .leaf rows
  | .limit limit_ _ child => .limit limit_ 0 child.withoutOffsets
  | .sort keys child => .sort keys child
  | .join joinType left right => .join joinType left.withoutOffsets right

variable {context : ExecutorContext}

/-- An opened tree gives its list, and after a rewind the list without the offsets. -/
theorem exists_opens (context : ExecutorContext) (t : OperatorTree) :
    ∃ op, Opens context t.build .ok op ∧ op.Restartable ∧ Yields op (t.rows context) ∧
      Yields op.rewind (t.withoutOffsets.rows context) := by
  induction t with
  | leaf rows =>
    exact ⟨_,opens_source _,trivial,yields_source rows rows,yields_source rows rows⟩
  | limit limit_ offset child ih =>
    obtain ⟨op,hopens,hrestart,hrows,hagain⟩ := ih
    obtain ⟨op',hskip,hbehind⟩ := hrows.skip offset
    obtain ⟨hsame,hkept⟩ := hrestart.of_skip hskip
    refine ⟨_,opens_limit_iff.mpr ⟨op,op',hopens,hskip,rfl⟩,hkept,hbehind.limit,?_⟩
    rw [ExecutorOperator.rewind,hsame]
    exact hagain.limit
  | sort keys child ih =>
    obtain ⟨op,hopens,-,⟨op',hdrains,hend⟩,-⟩ := ih
    exact ⟨_,opens_sort_iff.mpr ⟨op,_,op',hopens,hdrains,rfl⟩,trivial,yields_sort op' keys _ 0,
      yields_sort op' keys _ 0⟩
  | join joinType left right ihleft ihright =>
    obtain ⟨opl,hopensl,hrestart,hrowsl,hagainl⟩ := ihleft
    obtain ⟨opr,hopensr,-,⟨opr',hdrains,hend⟩,-⟩ := ihright
    exact ⟨_,opens_join hopensl hopensr hdrains,hrestart,hrowsl.join,hagainl.join⟩

/-- The rows of the leaves are not empty. -/
def NonEmptyRows : OperatorTree → Prop
  | .leaf rows => ∀ row ∈ rows, row ≠ []
  | .limit _ _ child | .sort _ child => child.NonEmptyRows
  | .join _ left right => left.NonEmptyRows ∧ right.NonEmptyRows

/-- A limit takes and drops, and a join puts all pairs together. -/
def list (context : ExecutorContext) : OperatorTree → List Row
  | .leaf rows => rows
  | .limit limit_ offset child => ((child.list context).drop offset).take limit_
  | .sort keys child => context.stdSort (compareRows keys) (child.list context)
  | .join _ left right => (left.list context).flatMap fun x => (right.list context).map (x++·)

theorem NonEmptyRows.rows {t : OperatorTree} (h : t.NonEmptyRows) :
    (∀ row ∈ t.rows context, row ≠ []) ∧ t.rows context = t.list context := by
  induction t with
  | leaf rows => exact ⟨h,rfl⟩
  | limit limit_ offset child ih =>
    obtain ⟨hrows,hlist⟩ := ih h
    refine ⟨fun row hrow => hrows row ?_,by rw [OperatorTree.rows,OperatorTree.list,hlist]⟩
    exact List.mem_of_mem_drop (List.mem_of_mem_take hrow)
  | sort keys child ih =>
    obtain ⟨hrows,hlist⟩ := ih h
    refine ⟨fun row hrow => hrows row ?_,by rw [OperatorTree.rows,OperatorTree.list,hlist]⟩
    exact (context.perm _ _).mem_iff.mp hrow
  | join joinType left right ihleft ihright =>
    obtain ⟨hleft,hlistleft⟩ := ihleft h.1
    obtain ⟨-,hlistright⟩ := ihright h.2
    have hcross := joinRows_eq_crossProduct hleft (right.rows context)
    have hlist : (OperatorTree.join joinType left right).rows context =
        (OperatorTree.join joinType left right).list context := by
      rw [OperatorTree.rows,hcross,JoinOperator.crossProduct,OperatorTree.list,hlistleft,hlistright]
    refine ⟨fun row hrow => ?_,hlist⟩
    rw [OperatorTree.rows,hcross] at hrow
    obtain ⟨x,hx,hrow⟩ := List.mem_flatMap.mp hrow
    obtain ⟨y,-,rfl⟩ := List.mem_map.mp hrow
    exact fun hnil => hleft x hx (List.append_eq_nil_iff.mp hnil).1

/-- Opening a tree succeeds, and the calls of `next` give its list. -/
theorem yields_list (t : OperatorTree) (h : t.NonEmptyRows) (context : ExecutorContext) :
    ∃ op, Opens context t.build .ok op ∧ Yields op (t.list context) := by
  obtain ⟨op,hopens,-,hrows,-⟩ := exists_opens context t
  rw [h.rows.2] at hrows
  exact ⟨op,hopens,hrows⟩

/-- A context whose sort leaves a list as it is. -/
def plainContext : ExecutorContext := ⟨fun _ => true,fun _ rows => rows,fun _ rows => .refl rows⟩

/-- A limit over a join, and a limit below it on its right. -/
theorem yields_list_limit_join :
    ∃ op, Opens plainContext (OperatorTree.limit 2 1 (.join .INNER
      (.leaf [[Value.ofInt 1],[Value.ofInt 2]])
      (.limit 2 0 (.leaf [[Value.ofInt 3],[Value.ofInt 4],[Value.ofInt 5]])))).build .ok op ∧
      Yields op [[Value.ofInt 1,Value.ofInt 4],[Value.ofInt 2,Value.ofInt 3]] :=
  yields_list (.limit 2 1 (.join .INNER (.leaf [[Value.ofInt 1],[Value.ofInt 2]])
    (.limit 2 0 (.leaf [[Value.ofInt 3],[Value.ofInt 4],[Value.ofInt 5]])))) (by simp [NonEmptyRows])
    plainContext

/-- After `open` and any number of calls of `next`, a rewind leads back to the first pass. -/
def Restarts (context : ExecutorContext) (t : OperatorTree) : Prop :=
  ∃ op rows, Opens context t.build .ok op ∧ Yields op rows ∧
    ∀ op', Reaches Next op op' → Yields op'.rewind rows

theorem Restarts.rows_eq {t : OperatorTree} (h : t.Restarts context) :
    t.withoutOffsets.rows context = t.rows context := by
  obtain ⟨op,hopens,-,hrows,hagain⟩ := exists_opens context t
  obtain ⟨op',rows,hopens',hrows',hrewind⟩ := h
  obtain ⟨-,rfl⟩ := hopens.unique hopens'
  rw [hagain.unique (hrewind op .refl),hrows.unique hrows']

/-- A rewind restarts the stream of a tree exactly if the offsets that it does not skip again make
no difference to the tree's list. -/
theorem restarts_iff (context : ExecutorContext) (t : OperatorTree) :
    t.Restarts context ↔ t.withoutOffsets.rows context = t.rows context := by
  constructor
  · exact Restarts.rows_eq
  · intro h
    obtain ⟨op,hopens,hrestart,hrows,hagain⟩ := exists_opens context t
    refine ⟨op,_,hopens,hrows,fun op' hreaches => ?_⟩
    rwa [(hrestart.of_reaches hreaches).1,← h]

/-- No limit that a rewind goes through has an offset. -/
def NoOffsets : OperatorTree → Prop
  | .leaf _ | .sort _ _ => True
  | .limit _ offset child => offset = 0 ∧ child.NoOffsets
  | .join _ left _ => left.NoOffsets

theorem NoOffsets.withoutOffsets {t : OperatorTree} (h : t.NoOffsets) : t.withoutOffsets = t := by
  induction t with
  | leaf rows => rfl
  | sort keys child _ => rfl
  | limit limit_ offset child ih =>
    obtain ⟨rfl,hchild⟩ := h
    rw [OperatorTree.withoutOffsets,ih hchild]
  | join joinType left right ihleft _ => rw [OperatorTree.withoutOffsets,ihleft h]

/-- `LIMIT 1 OFFSET 1` over two rows. -/
theorem not_restarts_offset :
    ¬(OperatorTree.limit 1 1 (.leaf [[Value.ofInt 1],[Value.ofInt 2]])).Restarts plainContext := by
  intro h
  exact absurd h.rows_eq (by decide)

end OperatorTree

end OrangeSQL
