import OrangeSQL.Catalog
import OrangeSQL.JoinOperator
import OrangeSQL.TableScan
import OrangeSQL.Library.PullStreams

/-! The tree of operators of the executor with their private state. `next` and `open` run on fuel:
the loops of a join, of a sort and of a filter end only if their children do. -/
namespace OrangeSQL

open PullStreams

/-- What the operators use of their context, and `std::sort`, which permutes a list. -/
structure ExecutorContext where
  hasTable : Text → Bool
  stdSort : (Row → Row → Bool) → List Row → List Row
  perm : ∀ less rows, (stdSort less rows).Perm rows

/-- `null` is a null pointer, on which a call has no result. A `source` stands for any operator with
a finite output. A sort key has only its direction. -/
inductive ExecutorOperator
  | null
  | source (s : RowSource)
  | seqScan (tableName : Text) (filter : Option ASTNode) (iterator : TableIterator)
  | indexScan (tableName indexName : Text) (filter : Option ASTNode)
  | filter (child : ExecutorOperator) (condition : ASTNode)
  | project (child : ExecutorOperator) (expressions : List ASTNode)
  | sort (child : ExecutorOperator) (keys : List Bool) (sortedRows : List Row) (currentIndex : ℕ)
  | limit (child : ExecutorOperator) (limit offset currentRow : ℕ)
  | join (left right : ExecutorOperator) (condition : Option ASTNode) (joinType : JoinType)
    (algorithm : JoinAlgorithm) (currentLeftRow : Row) (rightRows : List Row) (rightIndex : ℕ)

namespace TableIterator

/-- `operator++` on an iterator without a table, whose page is never loaded. -/
def incrementNull (it : TableIterator) : TableIterator :=
  if it.pageId ≠ invalidPageId then { it with pageId := invalidPageId, slot := (it.slot+1)%2^16 }
  else it

theorem increment_of_page_none (t : Table) (fuel : ℕ) {it : TableIterator} (h : it.page = none) :
    it.increment t (fuel+2) = some it.incrementNull := by
  rw [increment,incrementNull]
  split
  case isTrue hid =>
    simp [advanceToNextValid,onRecord,nextPageId,h,hid]
  case isFalse => rfl

end TableIterator

namespace ExecutorOperator

/-- A scan, a filter and a sort leave out the evaluation of their expressions. -/
def evaluateFilter (_row : Row) : Bool := true

def evaluateCondition (_row : Row) : Bool := true

def evaluateExpression (_expr : ASTNode) (_row : Row) : Value := .null

def compareRows (keys : List Bool) (_a _b : Row) : Bool :=
  match keys with
  | [] => false
  | ascending::keys =>
    let cmp : Int := 0
    if cmp < 0 then ascending
    else if cmp > 0 then !ascending
    else compareRows keys _a _b

/-- Both ways out of the source's function return true. -/
def evaluateJoinCondition (condition : Option ASTNode) (_leftRow _rightRow : Row) : Bool :=
  match condition with
  | none => true
  | some _ => true

/-- The inner loop of a join's `next` over the right rows from `index` on. -/
def matchRight (condition : Option ASTNode) (leftRow : Row) (index : ℕ) :
    List Row → Option (Row × ℕ)
  | [] => none
  | rightRow::rows =>
    if evaluateJoinCondition condition leftRow rightRow then some (rightRow,index+1)
    else matchRight condition leftRow (index+1) rows

/-- A pass of a join's loop with a current left row; `loop` is what follows. -/
def joinLeft (loop : ExecutorOperator → Option (Option Row × ExecutorOperator))
    (left right : ExecutorOperator) (condition : Option ASTNode) (joinType : JoinType)
    (algorithm : JoinAlgorithm) (leftRow : Row) (rightRows : List Row) (rightIndex : ℕ) :
    Option (Option Row × ExecutorOperator) :=
  match matchRight condition leftRow rightIndex (rightRows.drop rightIndex) with
  | some (rightRow,index) =>
    some (some (leftRow++rightRow),
      .join left right condition joinType algorithm leftRow rightRows index)
  | none =>
    loop (.join left right condition joinType algorithm [] rightRows rightRows.length)

/-- The next row, or `NOT_FOUND`, which leaves the row argument as it is. -/
def next : ℕ → ExecutorOperator → Option (Option Row × ExecutorOperator)
  | 0, _ => none
  | _+1, .null => none
  | _+1, .source s =>
    match s.next with
    | none => some (none,.source s)
    | some (row,s) => some (some row,.source s)
  | n+1, .seqScan tableName filter_ it =>
    if it.equals ⟨invalidPageId,0,none⟩ then some (none,.seqScan tableName filter_ it)
    else
      let values := it.deref.2
      if filter_.isSome ∧ !evaluateFilter values then
        next n (.seqScan tableName filter_ it.incrementNull)
      else some (some values,.seqScan tableName filter_ it.incrementNull)
  | _+1, .indexScan _ _ _ => none
  | n+1, .filter child condition => do
    match ← next n child with
    | (none,child) => some (none,.filter child condition)
    | (some row,child) =>
      if evaluateCondition row then some (some row,.filter child condition)
      else next n (.filter child condition)
  | n+1, .project child expressions => do
    match ← next n child with
    | (none,child) => some (none,.project child expressions)
    | (some childRow,child) =>
      some (some (expressions.map fun e => evaluateExpression e childRow),
        .project child expressions)
  | _+1, .sort child keys sortedRows currentIndex =>
    if h : currentIndex < sortedRows.length then
      some (some (sortedRows.get ⟨currentIndex,h⟩),.sort child keys sortedRows (currentIndex+1))
    else some (none,.sort child keys sortedRows currentIndex)
  | n+1, .limit child limit_ offset currentRow =>
    if limit_ ≤ currentRow then some (none,.limit child limit_ offset currentRow)
    else do
      match ← next n child with
      | (none,child) => some (none,.limit child limit_ offset currentRow)
      | (some row,child) => some (some row,.limit child limit_ offset (currentRow+1))
  | n+1, .join left right condition joinType algorithm currentLeftRow rightRows rightIndex =>
    if currentLeftRow = [] then do
      match ← next n left with
      | (none,left) =>
        some (none,.join left right condition joinType algorithm [] rightRows rightIndex)
      | (some leftRow,left) =>
        joinLeft (next n) left right condition joinType algorithm leftRow rightRows 0
    else joinLeft (next n) left right condition joinType algorithm currentLeftRow rightRows rightIndex

/-- The loop of a sort and of a join over a child: its rows until `next` is not OK. -/
def drain : ℕ → ExecutorOperator → Option (List Row × ExecutorOperator)
  | 0, _ => none
  | n+1, op => do
    match ← next n op with
    | (none,op) => some ([],op)
    | (some row,op) =>
      let (rows,op) ← drain n op
      some (row::rows,op)

/-- The loop of a limit over the rows of the offset. -/
def skip : ℕ → ℕ → ExecutorOperator → Option ExecutorOperator
  | 0, _, op => some op
  | offset+1, n, op => do
    match ← next n op with
    | (none,op) => some op
    | (some _,op) => skip offset n op

/-- The iterator of a sequential scan does not move, and that of an index scan has no index. -/
def rewind : ExecutorOperator → ExecutorOperator
  | .null => .null
  | .source s => .source s.rewind
  | .seqScan tableName filter_ it => .seqScan tableName filter_ it
  | .indexScan _ _ _ => .null
  | .filter child condition => .filter child.rewind condition
  | .project child expressions => .project child.rewind expressions
  | .sort child keys sortedRows _ => .sort child keys sortedRows 0
  | .limit child limit_ offset _ => .limit child.rewind limit_ offset 0
  | .join left right condition joinType algorithm _ rightRows _ =>
    .join left.rewind right.rewind condition joinType algorithm [] rightRows 0

/-- A child that does not open ends the opening with its status. -/
def «open» (context : ExecutorContext) : ℕ → ExecutorOperator → Option (Status × ExecutorOperator)
  | 0, _ => none
  | _+1, .null => none
  | _+1, .source s => some (.ok,.source s.open)
  | _+1, .seqScan tableName filter_ it =>
    if context.hasTable tableName then some (.ok,.seqScan tableName filter_ ⟨0,0,none⟩)
    else some (.notFound,.seqScan tableName filter_ it)
  | _+1, .indexScan tableName indexName filter_ =>
    if context.hasTable tableName then some (.ok,.indexScan tableName indexName filter_)
    else some (.notFound,.indexScan tableName indexName filter_)
  | n+1, .filter child condition => do
    let (status,child) ← «open» context n child
    some (status,.filter child condition)
  | n+1, .project child expressions => do
    let (status,child) ← «open» context n child
    some (status,.project child expressions)
  | n+1, .sort child keys sortedRows currentIndex => do
    let (status,child) ← «open» context n child
    if status ≠ .ok then some (status,.sort child keys sortedRows currentIndex)
    else
      let (rows,child) ← drain n child
      some (.ok,.sort child keys (context.stdSort (compareRows keys) (sortedRows++rows)) 0)
  | n+1, .limit child limit_ offset currentRow => do
    let (status,child) ← «open» context n child
    if status ≠ .ok then some (status,.limit child limit_ offset currentRow)
    else
      let child ← skip offset n child
      some (.ok,.limit child limit_ offset currentRow)
  | n+1, .join left right condition joinType algorithm currentLeftRow rightRows rightIndex => do
    let (status,left) ← «open» context n left
    if status ≠ .ok then
      some (status,.join left right condition joinType algorithm currentLeftRow rightRows rightIndex)
    else
      let (status,right) ← «open» context n right
      if status ≠ .ok then
        some (status,
          .join left right condition joinType algorithm currentLeftRow rightRows rightIndex)
      else if algorithm = .HASH then
        let (rows,right) ← drain n right
        some (.ok,.join left right.rewind condition joinType algorithm currentLeftRow
          (rightRows++rows) rightIndex)
      else
        some (.ok,
          .join left right condition joinType algorithm currentLeftRow rightRows rightIndex)

section Equations

variable {n : ℕ} {child left right : ExecutorOperator}

theorem next_source_succ {s : RowSource} : next (n+1) (.source s) =
    match s.next with
    | none => some (none,.source s)
    | some (row,s) => some (some row,.source s) := rfl

theorem next_sort_succ {keys : List Bool} {rows : List Row} {index : ℕ} :
    next (n+1) (.sort child keys rows index) =
      if h : index < rows.length then
        some (some (rows.get ⟨index,h⟩),.sort child keys rows (index+1))
      else some (none,.sort child keys rows index) := rfl

theorem next_limit_succ {limit_ offset currentRow : ℕ} :
    next (n+1) (.limit child limit_ offset currentRow) =
      if limit_ ≤ currentRow then some (none,.limit child limit_ offset currentRow)
      else next n child >>= fun x =>
        match x with
        | (none,child) => some (none,.limit child limit_ offset currentRow)
        | (some row,child) => some (some row,.limit child limit_ offset (currentRow+1)) := rfl

theorem next_join_succ {condition : Option ASTNode} {joinType : JoinType}
    {algorithm : JoinAlgorithm} {leftRow : Row} {rightRows : List Row} {rightIndex : ℕ} :
    next (n+1) (.join left right condition joinType algorithm leftRow rightRows rightIndex) =
      if leftRow = [] then next n left >>= fun x =>
        match x with
        | (none,left) =>
          some (none,.join left right condition joinType algorithm [] rightRows rightIndex)
        | (some leftRow,left) =>
          joinLeft (next n) left right condition joinType algorithm leftRow rightRows 0
      else joinLeft (next n) left right condition joinType algorithm leftRow rightRows rightIndex :=
  rfl

/-- No row is filtered out. -/
theorem next_seqScan (n : ℕ) (tableName : Text) (filter_ : Option ASTNode) (it : TableIterator) :
    next (n+1) (.seqScan tableName filter_ it) =
      if it.equals ⟨invalidPageId,0,none⟩ then some (none,.seqScan tableName filter_ it)
      else some (some it.deref.2,.seqScan tableName filter_ it.incrementNull) := by
  have hstep : next (n+1) (.seqScan tableName filter_ it) =
      if it.equals ⟨invalidPageId,0,none⟩ then some (none,.seqScan tableName filter_ it)
      else if filter_.isSome ∧ !evaluateFilter it.deref.2 then
        next n (.seqScan tableName filter_ it.incrementNull)
      else some (some it.deref.2,.seqScan tableName filter_ it.incrementNull) := rfl
  rw [hstep]
  simp [evaluateFilter]

end Equations

section Fuel

theorem matchRight_eq (condition : Option ASTNode) (leftRow : Row) (index : ℕ) (rows : List Row) :
    matchRight condition leftRow index rows = rows.head?.map fun row => (row,index+1) := by
  cases rows with
  | nil => rfl
  | cons row rows => cases condition <;> rfl

theorem joinLeft_le {f g : ExecutorOperator → Option (Option Row × ExecutorOperator)}
    (h : ∀ op, Le (f op) (g op)) (left right : ExecutorOperator) (condition : Option ASTNode)
    (joinType : JoinType) (algorithm : JoinAlgorithm) (leftRow : Row) (rightRows : List Row)
    (rightIndex : ℕ) :
    Le (joinLeft f left right condition joinType algorithm leftRow rightRows rightIndex)
      (joinLeft g left right condition joinType algorithm leftRow rightRows rightIndex) := by
  unfold joinLeft
  cases matchRight condition leftRow rightIndex (rightRows.drop rightIndex) with
  | none => exact h _
  | some found => exact Le.refl _

theorem next_le (n : ℕ) (op : ExecutorOperator) : Le (next n op) (next (n+1) op) := by
  induction n generalizing op with
  | zero => exact nofun
  | succ n ih =>
    cases op with
    | null => exact Le.refl _
    | source s => exact Le.refl _
    | indexScan tableName indexName filter_ => exact Le.refl _
    | sort child keys sortedRows currentIndex => exact Le.refl _
    | seqScan tableName filter_ it =>
      rw [next_seqScan,next_seqScan]
      exact Le.refl _
    | filter child condition => exact (ih child).bind fun _ => Le.refl _
    | project child expressions =>
      exact (ih child).bind fun ⟨row,_⟩ => by cases row <;> exact Le.refl _
    | limit child limit_ offset currentRow =>
      simp only [next_limit_succ]
      split_ifs
      · exact Le.refl _
      · exact (ih child).bind fun ⟨row,_⟩ => by cases row <;> exact Le.refl _
    | join left right condition joinType algorithm currentLeftRow rightRows rightIndex =>
      simp only [next_join_succ]
      split_ifs
      · refine (ih left).bind fun ⟨row,left⟩ => ?_
        cases row with
        | none => exact Le.refl _
        | some row => exact joinLeft_le ih _ _ _ _ _ _ _ _
      · exact joinLeft_le ih _ _ _ _ _ _ _ _

theorem keeps_next (op : ExecutorOperator) : Keeps fun n => next n op := fun n => next_le n op

theorem keeps_drain (op : ExecutorOperator) : Keeps fun n => drain n op := by
  intro n
  induction n generalizing op with
  | zero => exact nofun
  | succ n ih =>
    refine (next_le n op).bind fun ⟨row,op⟩ => ?_
    cases row with
    | none => exact Le.refl _
    | some row => exact (ih op).bind fun _ => Le.refl _

theorem keeps_skip (offset : ℕ) (op : ExecutorOperator) : Keeps fun n => skip offset n op := by
  intro n
  induction offset generalizing op with
  | zero => exact Le.refl _
  | succ offset ih =>
    refine (next_le n op).bind fun ⟨row,op⟩ => ?_
    cases row with
    | none => exact Le.refl _
    | some row => exact ih op

theorem keeps_open (context : ExecutorContext) (op : ExecutorOperator) :
    Keeps fun n => op.open context n := by
  intro n
  induction n generalizing op with
  | zero => exact nofun
  | succ n ih =>
    cases op with
    | null => exact Le.refl _
    | source s => exact Le.refl _
    | seqScan tableName filter_ it => exact Le.refl _
    | indexScan tableName indexName filter_ => exact Le.refl _
    | filter child condition => exact (ih child).bind fun _ => Le.refl _
    | project child expressions => exact (ih child).bind fun _ => Le.refl _
    | sort child keys sortedRows currentIndex =>
      refine (ih child).bind fun ⟨status,child⟩ => ?_
      dsimp only
      split_ifs
      · exact Le.refl _
      · exact (keeps_drain child n).bind fun _ => Le.refl _
    | limit child limit_ offset currentRow =>
      refine (ih child).bind fun ⟨status,child⟩ => ?_
      dsimp only
      split_ifs
      · exact Le.refl _
      · exact (keeps_skip offset child n).bind fun _ => Le.refl _
    | join left right condition joinType algorithm currentLeftRow rightRows rightIndex =>
      refine (ih left).bind fun ⟨status,left⟩ => ?_
      by_cases hleft : status = .ok
      · simp only [hleft,ne_eq,not_true_eq_false,if_false]
        refine (ih right).bind fun ⟨status,right⟩ => ?_
        by_cases hhash : algorithm = .HASH
        · simp only [hhash,if_true]
          split_ifs
          · exact (keeps_drain right n).bind fun _ => Le.refl _
          · exact Le.refl _
        · simp only [hhash,if_false]
          exact Le.refl _
      · simp only [hleft,ne_eq,not_false_eq_true,if_true]
        exact Le.refl _

end Fuel

/-- `next` ends with this result. -/
def Next (op : ExecutorOperator) (result : Option Row × ExecutorOperator) : Prop :=
  Returns (fun n => next n op) result

/-- `open` ends with this status and leaves the operator so. -/
def Opens (context : ExecutorContext) (op : ExecutorOperator) (status : Status)
    (op' : ExecutorOperator) : Prop :=
  Returns (fun n => op.open context n) (status,op')

section Next

variable {child child' left left' right : ExecutorOperator} {r : Option Row × ExecutorOperator}
  {condition : Option ASTNode} {joinType : JoinType} {algorithm : JoinAlgorithm}
  {rows : List Row} {keys : List Bool} {row : Row} {limit_ offset currentRow index : ℕ}

theorem Next.unique {op : ExecutorOperator} {r r' : Option Row × ExecutorOperator}
    (h : Next op r) (h' : Next op r') : r = r' :=
  Returns.unique (keeps_next op) h h'

theorem next_of_eq {op : ExecutorOperator} (h : next 1 op = some r) : Next op r := ⟨1,h⟩

theorem next_source (rows : List Row) (rest : List Row) (row : Row) :
    Next (.source ⟨rows,row::rest⟩) (some row,.source ⟨rows,rest⟩) :=
  next_of_eq rfl

theorem next_source_nil (rows : List Row) :
    Next (.source ⟨rows,[]⟩) (none,.source ⟨rows,[]⟩) :=
  next_of_eq rfl

theorem next_limit_of_le (h : limit_ ≤ currentRow) :
    Next (.limit child limit_ offset currentRow) (none,.limit child limit_ offset currentRow) :=
  next_of_eq (by rw [next_limit_succ,if_pos h])

/-- Below the limit, the rows are those of the child. -/
theorem next_limit_iff (h : currentRow < limit_) :
    Next (.limit child limit_ offset currentRow) r ↔ ∃ row child', Next child (row,child') ∧
      r = (row,.limit child' limit_ offset (if row.isSome then currentRow+1 else currentRow)) := by
  rw [Next,← returns_succ (keeps_next _)]
  simp only [next_limit_succ,if_neg (Nat.not_le.mpr h)]
  refine (returns_bind (keeps_next child) fun _ _ => Le.refl _).trans ?_
  constructor
  · rintro ⟨⟨row,child'⟩,hnext,hr⟩
    refine ⟨row,child',hnext,?_⟩
    cases row <;> exact (returns_some.mp hr).symm
  · rintro ⟨row,child',hnext,rfl⟩
    cases row <;> exact ⟨_,hnext,returns_some.mpr rfl⟩

theorem next_project_iff {expressions : List ASTNode} :
    Next (.project child expressions) r ↔ ∃ row child', Next child (row,child') ∧
      r = (row.map fun childRow => expressions.map fun e => evaluateExpression e childRow,
        .project child' expressions) := by
  rw [Next,← returns_succ (keeps_next _)]
  refine (returns_bind (keeps_next child) fun _ _ => Le.refl _).trans ?_
  constructor
  · rintro ⟨⟨row,child'⟩,hnext,hr⟩
    refine ⟨row,child',hnext,?_⟩
    cases row <;> exact (returns_some.mp hr).symm
  · rintro ⟨row,child',hnext,rfl⟩
    cases row <;> exact ⟨_,hnext,returns_some.mpr rfl⟩

theorem next_sort_of_lt (h : index < rows.length) :
    Next (.sort child keys rows index) (some (rows.get ⟨index,h⟩),.sort child keys rows (index+1)) :=
  next_of_eq (by rw [next_sort_succ,dif_pos h])

theorem next_sort_of_ge (h : rows.length ≤ index) :
    Next (.sort child keys rows index) (none,.sort child keys rows index) :=
  next_of_eq (by rw [next_sort_succ,dif_neg (Nat.not_lt.mpr h)])

/-- A right row that is left is joined to the left row. -/
theorem joinLeft_of_lt {loop : ExecutorOperator → Option (Option Row × ExecutorOperator)}
    (h : index < rows.length) :
    joinLeft loop left right condition joinType algorithm row rows index =
      some (some (row++rows.get ⟨index,h⟩),
        .join left right condition joinType algorithm row rows (index+1)) := by
  rw [joinLeft,matchRight_eq,List.drop_eq_getElem_cons h]
  rfl

theorem joinLeft_of_ge {loop : ExecutorOperator → Option (Option Row × ExecutorOperator)}
    (h : rows.length ≤ index) :
    joinLeft loop left right condition joinType algorithm row rows index =
      loop (.join left right condition joinType algorithm [] rows rows.length) := by
  rw [joinLeft,matchRight_eq,List.drop_eq_nil_of_le h]
  rfl

theorem next_join_done (h : Next left (none,left')) :
    Next (.join left right condition joinType algorithm [] rows index)
      (none,.join left' right condition joinType algorithm [] rows index) := by
  obtain ⟨n,hn⟩ := h
  refine ⟨n+1,?_⟩
  simp only at hn
  simp [next_join_succ,hn]

/-- The first right row behind the next left row. -/
theorem next_join_first (h : Next left (some row,left')) (hrows : 0 < rows.length) :
    Next (.join left right condition joinType algorithm [] rows index)
      (some (row++rows.get ⟨0,hrows⟩),
        .join left' right condition joinType algorithm row rows 1) := by
  obtain ⟨n,hn⟩ := h
  refine ⟨n+1,?_⟩
  simp only at hn
  simp [next_join_succ,hn,joinLeft_of_lt hrows]

theorem next_join_of_lt (hrow : row ≠ []) (h : index < rows.length) :
    Next (.join left right condition joinType algorithm row rows index)
      (some (row++rows.get ⟨index,h⟩),
        .join left right condition joinType algorithm row rows (index+1)) :=
  next_of_eq (by rw [next_join_succ,if_neg hrow,joinLeft_of_lt h])

/-- Without a right row that is left, the left row is given up. -/
theorem next_join_of_ge (hrow : row ≠ []) (h : rows.length ≤ index)
    (hnext : Next (.join left right condition joinType algorithm [] rows rows.length) r) :
    Next (.join left right condition joinType algorithm row rows index) r := by
  obtain ⟨n,hn⟩ := hnext
  refine ⟨n+1,?_⟩
  simp only at hn
  simp [next_join_succ,hrow,joinLeft_of_ge h,hn]

/-- Without right rows at all, every left row is. -/
theorem next_join_of_nil (h : Next left (some row,left'))
    (hnext : Next (.join left' right condition joinType algorithm [] [] 0) r) :
    Next (.join left right condition joinType algorithm [] [] index) r := by
  obtain ⟨n,hn⟩ := h
  obtain ⟨m,hm⟩ := hnext
  refine ⟨max n m+1,?_⟩
  have hleft := (keeps_next left).mono (le_max_left n m) hn
  have hloop := (keeps_next _).mono (le_max_right n m) hm
  have hnil : joinLeft (next (max n m)) left' right condition joinType algorithm row [] 0 =
      next (max n m) (.join left' right condition joinType algorithm [] [] 0) :=
    joinLeft_of_ge (Nat.le_refl 0)
  simp [next_join_succ,hleft,hnil,hloop]

end Next

section Opens

variable {context : ExecutorContext} {op op' child child' left left' right right' : ExecutorOperator}
  {rows rightRows : List Row} {keys : List Bool} {offset : ℕ} {status : Status}

theorem Opens.unique {status' : Status} {op'' : ExecutorOperator}
    (h : Opens context op status op') (h' : Opens context op status' op'') :
    status = status' ∧ op' = op'' :=
  Prod.mk.inj (Returns.unique (keeps_open context op) h h')

theorem returns_drain_iff :
    Returns (fun n => drain n op) (rows,op') ↔ Drains Next op rows op' := by
  constructor
  · rintro ⟨n,hn⟩
    induction n generalizing op rows with
    | zero => cases hn
    | succ n ih =>
      obtain ⟨⟨row,mid⟩,hnext,hrest⟩ := Option.bind_eq_some_iff.mp hn
      cases row with
      | none =>
        obtain ⟨rfl,rfl⟩ := Prod.mk.inj (Option.some.inj hrest)
        exact .done ⟨n,hnext⟩
      | some row =>
        obtain ⟨⟨rows',op''⟩,hdrain,hrows⟩ := Option.bind_eq_some_iff.mp hrest
        obtain ⟨rfl,rfl⟩ := Prod.mk.inj (Option.some.inj hrows)
        exact .more ⟨n,hnext⟩ (ih hdrain)
  · intro h
    induction h with
    | done hdone =>
      obtain ⟨n,hn⟩ := hdone
      refine ⟨n+1,?_⟩
      exact Option.bind_eq_some_iff.mpr ⟨_,hn,rfl⟩
    | @more op mid _ row rows hmore _ ih =>
      obtain ⟨n,hn⟩ := hmore
      obtain ⟨m,hm⟩ := ih
      refine ⟨max n m+1,?_⟩
      have hnext := (keeps_next op).mono (le_max_left n m) hn
      have hdrain := (keeps_drain mid).mono (le_max_right n m) hm
      exact Option.bind_eq_some_iff.mpr ⟨_,hnext,Option.bind_eq_some_iff.mpr ⟨_,hdrain,rfl⟩⟩

theorem opens_source (s : RowSource) : Opens context (.source s) .ok (.source s.open) := ⟨1,rfl⟩

theorem opens_project_iff {expressions : List ASTNode} :
    Opens context (.project child expressions) status op ↔
      ∃ child', Opens context child status child' ∧ op = .project child' expressions := by
  rw [Opens,← returns_succ (keeps_open context _)]
  refine (returns_bind (keeps_open context child) fun _ _ => Le.refl _).trans ?_
  constructor
  · rintro ⟨⟨status',child'⟩,hopen,hop⟩
    obtain ⟨rfl,rfl⟩ := Prod.mk.inj (returns_some.mp hop)
    exact ⟨child',hopen,rfl⟩
  · rintro ⟨child',hopen,rfl⟩
    exact ⟨_,hopen,returns_some.mpr rfl⟩

/-- What follows the opening of a child runs only if that was OK. -/
theorem returns_open_iff {α : Type} (failed : Status → ExecutorOperator → α)
    {g : ExecutorOperator → ℕ → Option α} {a : α} (hg : ∀ child, Keeps (g child)) :
    Returns (fun n => child.open context n >>= fun x =>
        if x.1 ≠ .ok then some (failed x.1 x.2) else g x.2 n) a ↔
      (∃ status child', status ≠ .ok ∧ Opens context child status child' ∧
        failed status child' = a) ∨
      ∃ child', Opens context child .ok child' ∧ Returns (g child') a := by
  have hkeeps : ∀ x : Status × ExecutorOperator, Keeps fun n =>
      if x.1 ≠ .ok then some (failed x.1 x.2) else g x.2 n := by
    intro x n
    dsimp only
    split_ifs
    · exact Le.refl _
    · exact hg x.2 n
  refine (returns_bind (keeps_open context child) hkeeps).trans ?_
  constructor
  · rintro ⟨⟨status,child'⟩,hopen,ha⟩
    by_cases hs : status = .ok
    · subst hs
      simp only [ne_eq,not_true_eq_false,if_false] at ha
      exact Or.inr ⟨child',hopen,ha⟩
    · simp only [ne_eq,hs,not_false_eq_true,if_true] at ha
      exact Or.inl ⟨status,child',hs,hopen,returns_some.mp ha⟩
  · rintro (⟨status,child',hs,hopen,ha⟩ | ⟨child',hopen,ha⟩)
    · refine ⟨_,hopen,?_⟩
      simp only [ne_eq,hs,not_false_eq_true,if_true]
      exact returns_some.mpr ha
    · refine ⟨_,hopen,?_⟩
      simpa only [ne_eq,not_true_eq_false,if_false] using ha

/-- A sort is open when its child was opened and all its rows were read. -/
theorem opens_sort_iff {index : ℕ} :
    Opens context (.sort child keys rows index) .ok op ↔
      ∃ child' read child'', Opens context child .ok child' ∧ Drains Next child' read child'' ∧
        op = .sort child'' keys (context.stdSort (compareRows keys) (rows++read)) 0 := by
  rw [Opens,← returns_succ (keeps_open context _)]
  have hdrain : ∀ child, Keeps fun n => drain n child >>= fun x =>
      some (Status.ok,
        sort x.2 keys (context.stdSort (compareRows keys) (rows++x.1)) 0) :=
    fun child n => (keeps_drain child n).bind fun _ => Le.refl _
  refine (returns_open_iff (fun status child => (status,.sort child keys rows index))
    hdrain).trans ?_
  constructor
  · rintro (⟨status,child',hs,-,hop⟩ | ⟨child',hopen,hop⟩)
    · exact absurd (Prod.mk.inj hop).1 hs
    · obtain ⟨⟨read,child''⟩,hread,hop⟩ :=
        (returns_bind (keeps_drain child') fun _ _ => Le.refl _).mp hop
      exact ⟨child',read,child'',hopen,returns_drain_iff.mp hread,
        (Prod.mk.inj (returns_some.mp hop)).2.symm⟩
  · rintro ⟨child',read,child'',hopen,hread,rfl⟩
    refine Or.inr ⟨child',hopen,(returns_bind (keeps_drain child') fun _ _ => Le.refl _).mpr ?_⟩
    exact ⟨_,returns_drain_iff.mpr hread,returns_some.mpr rfl⟩

/-- A limit is open when its child was opened and the rows of the offset were read. -/
theorem opens_limit_iff {limit_ currentRow : ℕ} :
    Opens context (.limit child limit_ offset currentRow) .ok op ↔
      ∃ child' child'', Opens context child .ok child' ∧
        Returns (fun n => skip offset n child') child'' ∧
        op = .limit child'' limit_ offset currentRow := by
  rw [Opens,← returns_succ (keeps_open context _)]
  have hskip : ∀ child, Keeps fun n => skip offset n child >>= fun child =>
      some (Status.ok,limit child limit_ offset currentRow) :=
    fun child n => (keeps_skip offset child n).bind fun _ => Le.refl _
  refine (returns_open_iff (fun status child => (status,.limit child limit_ offset currentRow))
    hskip).trans ?_
  constructor
  · rintro (⟨status,child',hs,-,hop⟩ | ⟨child',hopen,hop⟩)
    · exact absurd (Prod.mk.inj hop).1 hs
    · obtain ⟨child'',hread,hop⟩ :=
        (returns_bind (keeps_skip offset child') fun _ _ => Le.refl _).mp hop
      exact ⟨child',child'',hopen,hread,(Prod.mk.inj (returns_some.mp hop)).2.symm⟩
  · rintro ⟨child',child'',hopen,hread,rfl⟩
    refine Or.inr ⟨child',hopen,(returns_bind (keeps_skip offset child') fun _ _ => Le.refl _).mpr ?_⟩
    exact ⟨_,hread,returns_some.mpr rfl⟩

/-- A hash join is open when both children were opened and the rows of the right one were read. -/
theorem opens_join {condition : Option ASTNode} {joinType : JoinType} {row : Row} {index : ℕ}
    {read : List Row} (hleft : Opens context left .ok left') (hright : Opens context right .ok right')
    (hread : Drains Next right' read op') :
    Opens context (.join left right condition joinType .HASH row rightRows index) .ok
      (.join left' op'.rewind condition joinType .HASH row (rightRows++read) index) := by
  obtain ⟨n,hn⟩ := hleft
  obtain ⟨m,hm⟩ := hright
  obtain ⟨k,hk⟩ := returns_drain_iff.mpr hread
  have hl := (keeps_open context left).mono (show n ≤ max n (max m k) by omega) hn
  have hr := (keeps_open context right).mono (show m ≤ max n (max m k) by omega) hm
  have hd := (keeps_drain right').mono (show k ≤ max n (max m k) by omega) hk
  refine ⟨max n (max m k)+1,?_⟩
  simp [«open»,hl,hr,hd]

end Opens

end ExecutorOperator

end OrangeSQL
