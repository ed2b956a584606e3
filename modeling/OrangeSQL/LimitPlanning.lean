import OrangeSQL.QueryPlans
import OrangeSQL.OperatorTrees
import OrangeSQL.StatementReading

/-! LIMIT and OFFSET from the parser to the rows of the operators. The projection has no
expressions, so all rows of a statement are empty and only their number depends on the limit. -/
namespace OrangeSQL

open PullStreams Parsing

namespace ExecutorOperator

/-- After `open` and `i` calls of `next` that return rows, the next call returns this row. -/
def RowAt (context : ExecutorContext) (op : ExecutorOperator) (i : ℕ) (row : Row) : Prop :=
  ∃ op', Opens context op .ok op' ∧ Gives Next op' i row

section Rows

variable {context : ExecutorContext} {op child : ExecutorOperator} {limit_ currentRow i : ℕ}
  {row : Row} {rows : List Row}

theorem gives_limit_iff {offset : ℕ} :
    Gives Next (.limit child limit_ offset currentRow) i row ↔
      i+currentRow < limit_ ∧ Gives Next child i row := by
  constructor
  · intro h
    generalize hop : ExecutorOperator.limit child limit_ offset currentRow = op at h
    induction h generalizing child currentRow with
    | zero hmore =>
      subst hop
      by_cases hc : currentRow < limit_
      · obtain ⟨row,child',hnext,hrow⟩ := (next_limit_iff hc).mp hmore
        cases hrow
        exact ⟨by omega,.zero hnext⟩
      · cases hmore.unique (next_limit_of_le (Nat.not_lt.mp hc))
    | succ hmore _ ih =>
      subst hop
      by_cases hc : currentRow < limit_
      · obtain ⟨row,child',hnext,hrow⟩ := (next_limit_iff hc).mp hmore
        cases hrow
        obtain ⟨hlt,hrest⟩ := ih rfl
        simp only [Option.isSome_some,if_true] at hlt
        exact ⟨by omega,.succ hnext hrest⟩
      · cases hmore.unique (next_limit_of_le (Nat.not_lt.mp hc))
  · rintro ⟨hlt,h⟩
    induction h generalizing currentRow with
    | zero hmore => exact .zero ((next_limit_iff (by omega)).mpr ⟨_,_,hmore,rfl⟩)
    | succ hmore _ ih =>
      refine .succ ((next_limit_iff (by omega)).mpr ⟨_,_,hmore,rfl⟩) (ih ?_)
      simp only [Option.isSome_some,if_true]
      omega

/-- A projection without expressions returns an empty row for each row of its child. -/
theorem next_project_some {op' : ExecutorOperator}
    (h : Next (.project child []) (some row,op')) :
    row = [] ∧ ∃ childRow child', Next child (some childRow,child') ∧ op' = .project child' [] := by
  obtain ⟨childRow,child',hnext,hr⟩ := next_project_iff.mp h
  obtain ⟨hrow,rfl⟩ := Prod.mk.inj hr
  cases childRow with
  | none => cases hrow
  | some childRow =>
    obtain rfl := Option.some.inj hrow
    exact ⟨rfl,childRow,child',hnext,rfl⟩

theorem next_project_none {op' : ExecutorOperator} (h : Next (.project child []) (none,op')) :
    ∃ child', Next child (none,child') ∧ op' = .project child' [] := by
  obtain ⟨childRow,child',hnext,hr⟩ := next_project_iff.mp h
  obtain ⟨hrow,rfl⟩ := Prod.mk.inj hr
  cases childRow with
  | none => exact ⟨child',hnext,rfl⟩
  | some childRow => cases hrow

theorem gives_project_iff :
    Gives Next (.project child []) i row ↔ row = [] ∧ ∃ childRow, Gives Next child i childRow := by
  constructor
  · intro h
    generalize hop : ExecutorOperator.project child [] = op at h
    induction h generalizing child with
    | zero hmore =>
      subst hop
      obtain ⟨hrow,childRow,_,hnext,-⟩ := next_project_some hmore
      exact ⟨hrow,childRow,.zero hnext⟩
    | succ hmore _ ih =>
      subst hop
      obtain ⟨-,_,_,hnext,rfl⟩ := next_project_some hmore
      obtain ⟨hrow,childRow,hrest⟩ := ih rfl
      exact ⟨hrow,childRow,.succ hnext hrest⟩
  · rintro ⟨rfl,childRow,h⟩
    induction h with
    | zero hmore => exact .zero (next_project_iff.mpr ⟨_,_,hmore,rfl⟩)
    | succ hmore _ ih => exact .succ (next_project_iff.mpr ⟨_,_,hmore,rfl⟩) ih

theorem drains_project_iff {op' : ExecutorOperator} :
    Drains Next (.project child []) rows op' ↔ ∃ read child', Drains Next child read child' ∧
      rows = List.replicate read.length [] ∧ op' = .project child' [] := by
  constructor
  · intro h
    generalize hop : ExecutorOperator.project child [] = op at h
    induction h generalizing child with
    | done hdone =>
      subst hop
      obtain ⟨child',hnext,rfl⟩ := next_project_none hdone
      exact ⟨[],child',.done hnext,rfl,rfl⟩
    | more hmore _ ih =>
      subst hop
      obtain ⟨rfl,childRow,_,hnext,rfl⟩ := next_project_some hmore
      obtain ⟨read,child',hread,rfl,hend⟩ := ih rfl
      exact ⟨childRow::read,child',.more hnext hread,rfl,hend⟩
  · rintro ⟨read,child',hread,rfl,rfl⟩
    induction hread with
    | done hdone => exact .done (next_project_iff.mpr ⟨none,_,hdone,rfl⟩)
    | more hmore _ ih => exact .more (next_project_iff.mpr ⟨_,_,hmore,rfl⟩) ih

theorem rowAt_project_iff :
    RowAt context (.project child []) i row ↔
      row = [] ∧ ∃ childRow, RowAt context child i childRow := by
  constructor
  · rintro ⟨op,hopen,hgives⟩
    obtain ⟨child',hchild,rfl⟩ := opens_project_iff.mp hopen
    obtain ⟨hrow,childRow,h⟩ := gives_project_iff.mp hgives
    exact ⟨hrow,childRow,child',hchild,h⟩
  · rintro ⟨rfl,childRow,child',hchild,h⟩
    exact ⟨_,opens_project_iff.mpr ⟨child',hchild,rfl⟩,gives_project_iff.mpr ⟨rfl,childRow,h⟩⟩

/-- A limit without an offset lets the first rows through. -/
theorem rowAt_limit_iff :
    RowAt context (.limit child limit_ 0 0) i row ↔ i < limit_ ∧ RowAt context child i row := by
  constructor
  · rintro ⟨op,hopen,hgives⟩
    obtain ⟨child',_,hchild,⟨n,hn⟩,rfl⟩ := opens_limit_iff.mp hopen
    obtain rfl := Option.some.inj hn
    obtain ⟨hlt,h⟩ := gives_limit_iff.mp hgives
    exact ⟨by omega,child',hchild,h⟩
  · rintro ⟨hlt,child',hchild,h⟩
    exact ⟨_,opens_limit_iff.mpr ⟨child',child',hchild,⟨0,rfl⟩,rfl⟩,
      gives_limit_iff.mpr ⟨by omega,h⟩⟩

/-- A sort over the projection returns as many rows as are read to the end below it. -/
theorem rowAt_sort_project_iff {keys : List Bool} :
    RowAt context (.sort (.project child []) keys [] 0) i row ↔ row = [] ∧
      ∃ child' read child'', Opens context child .ok child' ∧ Drains Next child' read child'' ∧
        i < read.length := by
  have hunique : ∀ op r r', Next op r → Next op r' → r = r' := fun _ _ _ => Next.unique
  have hsorted : ∀ (op : ExecutorOperator) (n : ℕ), Gives Next (.sort op keys
      (context.stdSort (compareRows keys) ([]++List.replicate n [])) 0) i row ↔
        row = [] ∧ i < n := by
    intro op n
    have hperm := context.perm (compareRows keys) ([]++List.replicate n ([] : Row))
    rw [List.nil_append] at hperm ⊢
    obtain ⟨last,hdrains,-⟩ := yields_sort op keys
      (context.stdSort (compareRows keys) (List.replicate n [])) 0
    rw [hdrains.gives_iff hunique,List.drop_zero,List.perm_replicate.mp hperm]
    rw [List.getElem?_replicate]
    split_ifs with hi
    · simp [hi,eq_comm]
    · simp [hi]
  constructor
  · rintro ⟨op,hopen,hgives⟩
    obtain ⟨op',read,_,hproject,hdrains,rfl⟩ := opens_sort_iff.mp hopen
    obtain ⟨child',hchild,rfl⟩ := opens_project_iff.mp hproject
    obtain ⟨read,child'',hread,rfl,rfl⟩ := drains_project_iff.mp hdrains
    obtain ⟨hrow,hi⟩ := (hsorted _ _).mp hgives
    exact ⟨hrow,child',read,child'',hchild,hread,hi⟩
  · rintro ⟨rfl,child',read,child'',hchild,hread,hi⟩
    have hproject : Opens context (.project child []) .ok (.project child' []) :=
      opens_project_iff.mpr ⟨child',hchild,rfl⟩
    have hdrains := drains_project_iff.mpr ⟨read,child'',hread,rfl,rfl⟩
    exact ⟨_,opens_sort_iff.mpr ⟨_,_,_,hproject,hdrains,rfl⟩,(hsorted _ _).mpr ⟨rfl,hi⟩⟩

end Rows

end ExecutorOperator

open ExecutorOperator QueryExecutor SQLParser

/-- A statement's scan returns a row number `i`, and below an ORDER BY it comes to its end. -/
def Scanned (context : ExecutorContext) (scan : ExecutorOperator) (orderBy : Option OrderByNode)
    (i : ℕ) : Prop :=
  match orderBy with
  | none => ∃ row, RowAt context scan i row
  | some _ => ∃ op read op', Opens context scan .ok op ∧ Drains Next op read op' ∧ i < read.length

/-- The operators of a statement without LIMIT. -/
def unlimited (scan : ExecutorOperator) : Option OrderByNode → ExecutorOperator
  | none => .project scan []
  | some orderBy => .sort (.project scan []) (orderBy.items.map fun item => item.ascending) [] 0

section Plans

variable {context : ExecutorContext} {o : QueryOptimizer} {scans : Scans} {select : SelectNode}
  {scan : ExecutorOperator} {orderBy : Option OrderByNode} {i j n m : ℕ} {row : Row}

theorem rowAt_unlimited_iff :
    RowAt context (unlimited scan orderBy) i row ↔ row = [] ∧ Scanned context scan orderBy i := by
  cases orderBy with
  | none => exact rowAt_project_iff
  | some orderBy => exact rowAt_sort_project_iff

theorem Scanned.before (h : Scanned context scan orderBy i) (hj : j ≤ i) :
    Scanned context scan orderBy j := by
  cases orderBy with
  | none =>
    obtain ⟨row,op,hopen,hgives⟩ := h
    obtain ⟨row,hgives⟩ := hgives.before hj
    exact ⟨row,op,hopen,hgives⟩
  | some orderBy =>
    obtain ⟨op,read,op',hopen,hdrains,hi⟩ := h
    exact ⟨op,read,op',hopen,hdrains,hj.trans_lt hi⟩

/-- The operators of a SELECT without joins. Its offset does not occur in them. -/
theorem buildPlan_optimize (h : select.joins = []) :
    buildPlan scans (o.optimize select) =
      match select.limit with
      | none => unlimited (buildPlan scans (o.sourceNode select)) select.orderBy
      | some l =>
        if 0 < l.limit then
          .limit (unlimited (buildPlan scans (o.sourceNode select)) select.orderBy)
            l.limit.toInt.toNat 0 0
        else unlimited (buildPlan scans (o.sourceNode select)) select.orderBy := by
  have hsort : buildPlan scans (QueryOptimizer.sortNode
      (.node .PROJECT (o.sourceNode select) .null [] [] none [] 0) select.orderBy) =
      unlimited (buildPlan scans (o.sourceNode select)) select.orderBy := by
    cases select.orderBy with
    | none => rfl
    | some orderBy => simp [QueryOptimizer.sortNode,buildPlan,unlimited]
  rw [QueryOptimizer.optimize_eq h,QueryOptimizer.logicalOptimization,h]
  cases select.limit with
  | none => exact hsort
  | some l =>
    dsimp only [QueryOptimizer.limitNode]
    split_ifs
    · exact congrArg (ExecutorOperator.limit · l.limit.toInt.toNat 0 0) hsort
    · exact hsort

end Plans

/-- LIMIT n OFFSET m, or LIMIT m, n. -/
inductive LimitForm
  | OFFSET | COMMA
  deriving DecidableEq, Repr

def limitTokens (n m : ℕ) : LimitForm → List Lexeme
  | .OFFSET => [keyword .LIMIT "LIMIT",⟨.INTEGER,Nat.toDigits 10 n⟩,keyword .OFFSET "OFFSET",
      ⟨.INTEGER,Nat.toDigits 10 m⟩]
  | .COMMA => [keyword .LIMIT "LIMIT",⟨.INTEGER,Nat.toDigits 10 m⟩,comma,
      ⟨.INTEGER,Nat.toDigits 10 n⟩]

section Limits

variable {n m : ℕ} {rest rest' : List Lexeme} {form : LimitForm} {l : LimitNode}

theorem parses_count_toDigits (hn : n < 2147483648) (old : Int32) (rest : List Lexeme) :
    Parses (parseCount old) (⟨.INTEGER,Nat.toDigits 10 n⟩::rest) (Int32.ofInt n) rest := by
  apply parses_ifMatch (by rfl)
  apply (parses_consume (by rfl)).bind
  rw [liftStoi,stoi_toDigits n hn]
  exact Parses.pure _ _

theorem count_of_parses {old v : Int32}
    (h : Parses (parseCount old) (⟨.INTEGER,Nat.toDigits 10 n⟩::rest) v rest') :
    n < 2147483648 ∧ rest' = rest := by
  by_cases hn : n < 2147483648
  · exact ⟨hn,((h.unique (parses_count_toDigits hn old rest)).2)⟩
  · obtain ⟨_,_,hmatch,h⟩ := h.of_bind
    obtain ⟨rfl,rfl⟩ := hmatch.unique (parses_isMatch (by rfl))
    obtain ⟨token,_,hconsume,h⟩ := h.of_bind
    obtain ⟨rfl,rfl⟩ := hconsume.unique (parses_consume (by rfl))
    change Parses (liftStoi (Nat.toDigits 10 n)) _ _ _ at h
    rw [liftStoi,stoi_toDigits_of_le n (Nat.not_lt.mp hn)] at h
    cases h

theorem parses_limitTokens (hn : n < 2147483648) (hm : m < 2147483648) (rest : List Lexeme) :
    Parses parseLimit (limitTokens n m form++rest) ⟨Int32.ofInt n,Int32.ofInt m⟩ rest := by
  cases form with
  | OFFSET =>
    apply (parses_consume (by rfl)).bind
    apply (parses_count_toDigits hn (-1) _).bind
    apply parses_ifAccept (by rfl)
    exact (parses_count_toDigits hm 0 rest).bind (Parses.pure _ _)
  | COMMA =>
    apply (parses_consume (by rfl)).bind
    apply (parses_count_toDigits hm (-1) _).bind
    apply parses_ifAccept_not (by simp [comma])
    apply parses_ifAccept (by rfl)
    exact (parses_count_toDigits hn _ rest).bind (Parses.pure _ _)

theorem lt_of_parses_limitTokens (h : Parses parseLimit (limitTokens n m form++rest) l rest') :
    n < 2147483648 ∧ m < 2147483648 := by
  obtain ⟨_,_,hconsume,h⟩ := h.of_bind
  cases form with
  | OFFSET =>
    obtain ⟨rfl,rfl⟩ := hconsume.unique (parses_consume (by rfl))
    obtain ⟨_,_,hcount,h⟩ := h.of_bind
    obtain ⟨hn,rfl⟩ := count_of_parses hcount
    obtain ⟨_,_,haccept,h⟩ := h.of_bind
    obtain ⟨rfl,rfl⟩ := haccept.unique (parses_accept (by rfl))
    obtain ⟨_,_,hcount',_⟩ := h.of_bind
    exact ⟨hn,(count_of_parses hcount').1⟩
  | COMMA =>
    obtain ⟨rfl,rfl⟩ := hconsume.unique (parses_consume (by rfl))
    obtain ⟨_,_,hcount,h⟩ := h.of_bind
    obtain ⟨hm,rfl⟩ := count_of_parses hcount
    obtain ⟨_,_,haccept,h⟩ := h.of_bind
    obtain ⟨rfl,rfl⟩ := haccept.unique (parses_accept_not (by simp [comma]))
    obtain ⟨_,_,haccept',h⟩ := h.of_bind
    obtain ⟨rfl,rfl⟩ := haccept'.unique (parses_accept (by rfl))
    obtain ⟨_,_,hcount',_⟩ := h.of_bind
    exact ⟨(count_of_parses hcount').1,hm⟩

end Limits

/-- Cutting a set of positions closed downwards to a window shows the positions at its start. -/
theorem window_iff {S : ℕ → Prop} (hS : ∀ i j, S i → j ≤ i → S j) {n m : ℕ} (hn : 0 < n) :
    (∀ i, i < n ∧ S i ↔ i < n ∧ S (m+i)) ↔ (S 0 → m = 0 ∨ S (m+n-1)) := by
  constructor
  · intro h hzero
    by_cases hm : m = 0
    · exact Or.inl hm
    · have hall : ∀ i, i < n → S (m+i) := by
        intro i
        induction i with
        | zero => exact fun hi => ((h 0).mp ⟨hi,hzero⟩).2
        | succ i ih =>
          intro hi
          have hbefore : S (i+1) := hS _ _ (ih (by omega)) (by omega)
          exact ((h (i+1)).mp ⟨hi,hbefore⟩).2
      refine Or.inr ?_
      rw [show m+n-1 = m+(n-1) by omega]
      exact hall (n-1) (by omega)
  · intro h i
    refine and_congr_right fun hi => ?_
    constructor
    · intro hSi
      rcases h (hS i 0 hSi (Nat.zero_le i)) with rfl | hlast
      · rwa [Nat.zero_add]
      · exact hS _ _ hlast (by omega)
    · exact fun hSi => hS _ _ hSi (by omega)

section Keeps

variable {context : ExecutorContext} {o : QueryOptimizer} {scans : Scans} {select : SelectNode}
  {n m : ℕ} {form : LimitForm}

/-- The limit is parsed, and the operators return the rows m … m+n-1 of the statement without it. -/
def KeepsLimit (context : ExecutorContext) (o : QueryOptimizer) (scans : Scans)
    (select : SelectNode) (form : LimitForm) (n m : ℕ) : Prop :=
  ∃ l, (∀ rest, Parses parseLimit (limitTokens n m form++rest) l rest) ∧
    ∀ i row, RowAt context (buildPlan scans (o.optimize { select with limit := some l })) i row ↔
      i < n ∧ RowAt context (buildPlan scans (o.optimize { select with limit := none })) (m+i) row

theorem toInt_ofInt_natCast (hn : n < 2147483648) : (Int32.ofInt n).toInt = n :=
  Int32.toInt_ofInt_of_le (by omega) (by norm_num; omega)

/-- The window of the rows that the operators of a statement return under its limit. -/
theorem rows_limited_iff (hjoins : select.joins = []) (hn : n < 2147483648) (offset : Int32) :
    (∀ i row, RowAt context (buildPlan scans (o.optimize
        { select with limit := some ⟨Int32.ofInt n,offset⟩ })) i row ↔
      i < n ∧ RowAt context (buildPlan scans (o.optimize { select with limit := none })) (m+i) row) ↔
    (Scanned context (buildPlan scans (o.sourceNode select)) select.orderBy 0 →
      0 < n ∧ (m = 0 ∨
        Scanned context (buildPlan scans (o.sourceNode select)) select.orderBy (m+n-1))) := by
  have hlimited := @buildPlan_optimize o scans
    { select with limit := some ⟨Int32.ofInt n,offset⟩ } hjoins
  have hunlimited := @buildPlan_optimize o scans { select with limit := none } hjoins
  have hcast := toInt_ofInt_natCast hn
  set scan := buildPlan scans (o.sourceNode select) with hscan
  have hsource : ∀ limit, buildPlan scans (o.sourceNode { select with limit := limit }) = scan :=
    fun _ => rfl
  simp only [hsource] at hlimited hunlimited
  rw [hunlimited]
  by_cases hpos : 0 < n
  · have hlt : 0 < Int32.ofInt n := by
      rw [Int32.lt_iff_toInt_lt,hcast]
      simpa using hpos
    rw [if_pos hlt,hcast,Int.toNat_natCast] at hlimited
    rw [hlimited]
    have hwindow := @window_iff (Scanned context scan select.orderBy) (fun _ _ h hj => h.before hj)
      n m hpos
    have hrows : (∀ i row, RowAt context (.limit (unlimited scan select.orderBy) n 0 0) i row ↔
        i < n ∧ RowAt context (unlimited scan select.orderBy) (m+i) row) ↔
        ∀ i, i < n ∧ Scanned context scan select.orderBy i ↔
          i < n ∧ Scanned context scan select.orderBy (m+i) := by
      simp only [rowAt_limit_iff,rowAt_unlimited_iff]
      constructor
      · intro h i
        simpa using h i []
      · intro h i row
        have hi := h i
        tauto
    rw [hrows,hwindow]
    simp only [hpos,true_and]
  · obtain rfl : n = 0 := by omega
    have hnot : ¬0 < Int32.ofInt ((0 : ℕ) : ℤ) := by decide
    rw [if_neg hnot] at hlimited
    rw [hlimited]
    constructor
    · intro h hzero
      exact absurd ((h 0 []).mp (rowAt_unlimited_iff.mpr ⟨rfl,hzero⟩)).1 (lt_irrefl 0)
    · intro h i row
      constructor
      · intro hrow
        have hzero := (rowAt_unlimited_iff.mp hrow).2.before (Nat.zero_le i)
        exact absurd (h hzero).1 (lt_irrefl 0)
      · rintro ⟨hi,-⟩
        exact absurd hi (Nat.not_lt_zero i)

theorem KeepsLimit.scanned (h : KeepsLimit context o scans select form n m)
    (hjoins : select.joins = []) :
    n < 2147483648 ∧ m < 2147483648 ∧
      (Scanned context (buildPlan scans (o.sourceNode select)) select.orderBy 0 →
        0 < n ∧ (m = 0 ∨
          Scanned context (buildPlan scans (o.sourceNode select)) select.orderBy (m+n-1))) := by
  obtain ⟨l,hparses,hrows⟩ := h
  obtain ⟨hn,hm⟩ := lt_of_parses_limitTokens (hparses [])
  obtain ⟨rfl,-⟩ := (hparses []).unique (parses_limitTokens hn hm [])
  exact ⟨hn,hm,(rows_limited_iff hjoins hn _).mp hrows⟩

theorem keepsLimit_of_scanned (hjoins : select.joins = []) (hn : n < 2147483648)
    (hm : m < 2147483648)
    (h : Scanned context (buildPlan scans (o.sourceNode select)) select.orderBy 0 →
      0 < n ∧ (m = 0 ∨
        Scanned context (buildPlan scans (o.sourceNode select)) select.orderBy (m+n-1))) :
    KeepsLimit context o scans select form n m :=
  ⟨_,parses_limitTokens hn hm,(rows_limited_iff hjoins hn _).mpr h⟩

/-- A statement keeps its limit exactly if both numbers are read and, where its scan returns a row
at all, the limit is not zero and either no offset is given or the scan returns all rows up to the
end of the window. -/
theorem keepsLimit_iff (hjoins : select.joins = []) :
    KeepsLimit context o scans select form n m ↔ n < 2147483648 ∧ m < 2147483648 ∧
      (Scanned context (buildPlan scans (o.sourceNode select)) select.orderBy 0 →
        0 < n ∧ (m = 0 ∨
          Scanned context (buildPlan scans (o.sourceNode select)) select.orderBy (m+n-1))) := by
  constructor
  · exact fun h => h.scanned hjoins
  · rintro ⟨hn,hm,hscanned⟩
    exact keepsLimit_of_scanned hjoins hn hm hscanned

/-- The iterator of a sequential scan has no table: it never reaches the end, and all its rows are
empty. -/
theorem rowAt_seqScan {tableName : Text} (h : context.hasTable tableName = true)
    (filterCondition : Option ASTNode) (it : TableIterator) (i : ℕ) :
    RowAt context (.seqScan tableName filterCondition it) i [] := by
  have hfirst : Next (.seqScan tableName filterCondition ⟨0,0,none⟩)
      (some [],.seqScan tableName filterCondition ⟨invalidPageId,1,none⟩) :=
    next_of_eq (by rw [next_seqScan]; rfl)
  have hagain : Next (.seqScan tableName filterCondition ⟨invalidPageId,1,none⟩)
      (some [],.seqScan tableName filterCondition ⟨invalidPageId,1,none⟩) :=
    next_of_eq (by rw [next_seqScan]; rfl)
  have hbehind : ∀ i, Gives Next (.seqScan tableName filterCondition ⟨invalidPageId,1,none⟩) i [] := by
    intro i
    induction i with
    | zero => exact .zero hagain
    | succ i ih => exact .succ hagain ih
  refine ⟨.seqScan tableName filterCondition ⟨0,0,none⟩,⟨1,by simp [ExecutorOperator.open,h]⟩,?_⟩
  cases i with
  | zero => exact .zero hfirst
  | succ i => exact .succ hfirst (hbehind i)

/-- Over the endless scan of the executor a statement without WHERE and ORDER BY keeps every limit
but zero. -/
theorem keepsLimit_seqScan_iff {table : TableRef} {tables : List TableRef}
    (hjoins : select.joins = []) (hwhere : select.whereClause = none)
    (horder : select.orderBy = none) (htables : select.fromTables = table::tables)
    (htable : context.hasTable table.tableName = true) :
    KeepsLimit context o QueryExecutor.scans select form n m ↔
      n < 2147483648 ∧ m < 2147483648 ∧ 0 < n := by
  have hscan : buildPlan QueryExecutor.scans (o.sourceNode select) =
      .seqScan table.tableName none ⟨invalidPageId,0,none⟩ := by
    rw [QueryOptimizer.sourceNode,htables]
    dsimp only
    rw [hwhere]
    rfl
  have hscanned : ∀ i, Scanned context (buildPlan QueryExecutor.scans (o.sourceNode select))
      select.orderBy i := by
    intro i
    rw [hscan,horder]
    exact ⟨[],rowAt_seqScan htable _ _ i⟩
  constructor
  · intro h
    obtain ⟨hn,hm,hrows⟩ := h.scanned hjoins
    exact ⟨hn,hm,(hrows (hscanned 0)).1⟩
  · rintro ⟨hn,hm,hpos⟩
    exact keepsLimit_of_scanned hjoins hn hm fun _ => ⟨hpos,Or.inr (hscanned _)⟩

/-- An optimizer that finds no index. -/
def plainOptimizer : QueryOptimizer :=
  ⟨fun _ _ => [],fun _ _ _ => false,fun _ => 0,fun _ _ => false,.NORMAL,2,fun _ => true⟩

/-- Every scan returns this one row. -/
def oneRow : Scans :=
  ⟨fun _ _ => .source (.new [[Value.ofInt 1]]),fun _ _ _ => .source (.new [[Value.ofInt 1]])⟩

theorem not_rowAt_oneRow (row : Row) :
    ¬RowAt context (.source (.new [[Value.ofInt 1]])) 1 row := by
  rintro ⟨op,hopen,hgives⟩
  obtain ⟨-,rfl⟩ := hopen.unique (opens_source _)
  obtain ⟨_,hdrains,-⟩ := yields_source [[Value.ofInt 1]] [[Value.ofInt 1]]
  have hunique : ∀ op r r', Next op r → Next op r' → r = r' := fun _ _ _ => Next.unique
  cases (hdrains.gives_iff hunique).mp hgives

/-- `SELECT * FROM T LIMIT 1 OFFSET 0` over one row. -/
theorem keepsLimit_one_row : KeepsLimit OperatorTree.plainContext plainOptimizer oneRow
    (selectAll 'T') .OFFSET 1 0 := by
  have hjoins : (selectAll 'T').joins = [] := rfl
  exact (keepsLimit_iff hjoins).mpr ⟨by decide,by decide,fun _ => ⟨by decide,Or.inl rfl⟩⟩

/-- `SELECT * FROM T LIMIT 0 OFFSET 0`, and `LIMIT 1 OFFSET 1` over one row. -/
theorem limit_not_kept :
    ¬KeepsLimit OperatorTree.plainContext plainOptimizer QueryExecutor.scans (selectAll 'T')
      .OFFSET 0 0 ∧
    ¬KeepsLimit OperatorTree.plainContext plainOptimizer oneRow (selectAll 'T') .OFFSET 1 1 := by
  constructor
  · intro h
    have hscanned : Scanned OperatorTree.plainContext
        (.seqScan ['T'] none ⟨invalidPageId,0,none⟩) none 0 := ⟨[],rowAt_seqScan rfl _ _ 0⟩
    exact absurd ((h.scanned rfl).2.2 hscanned).1 (lt_irrefl 0)
  · intro h
    have hscanned : Scanned OperatorTree.plainContext
        (.source (.new [[Value.ofInt 1]])) none 0 :=
      ⟨_,_,opens_source _,.zero (next_source _ [] _)⟩
    rcases ((h.scanned rfl).2.2 hscanned).2 with hm | ⟨row,hrow⟩
    · cases hm
    · exact not_rowAt_oneRow row hrow

end Keeps

end OrangeSQL
