import OrangeSQL.StatementPrinting

/-! The proof that `parseStatement` inverts the printing of statements. Each clause of a SELECT is
recognised by its first token, and the clauses stand in the order of their ranks. -/
namespace OrangeSQL

open Parsing

namespace SQLParser

/-- The place of the clause that a token begins; the end of a SELECT comes last. -/
def clauseRank : TokenType → ℕ
  | .JOIN | .INNER | .LEFT | .RIGHT | .FULL | .CROSS => 1
  | .WHERE => 2
  | .GROUP => 3
  | .HAVING => 4
  | .ORDER => 5
  | .LIMIT => 6
  | .UNION | .INTERSECT | .EXCEPT => 7
  | .RPAREN | .END_OF_FILE => 8
  | _ => 0

/-- What follows begins with a clause of rank `k` or above. -/
def Follows (k : ℕ) (rest : List Lexeme) : Prop := k ≤ clauseRank (headType rest)

/-- The tokens that `pr` prints for `x` are read back by `parseExpression`. -/
def Reparses (stod : Text → Option UInt64) (pr : ASTNode → List Lexeme) (x : ASTNode) : Prop :=
  ∀ n, (pr x).length ≤ n → ∀ rest, Stops 1 rest →
    Parses (parseExpression (calls stod n)) (pr x++rest) x rest

section

variable {k : ℕ} {rest : List Lexeme}

theorem Follows.mono {k' : ℕ} (h : Follows k rest) (hk : k' ≤ k) : Follows k' rest :=
  hk.trans h

theorem Follows.ne {t : TokenType} (h : Follows k rest) (ht : clauseRank t < k) :
    headType rest ≠ t := by
  intro heq
  rw [Follows,heq] at h
  omega

theorem continuation_of_clauseRank (t : TokenType) (h : 1 ≤ clauseRank t) : continuation t < 1 := by
  cases t <;> first | exact Nat.zero_lt_one | cases h

theorem Follows.stops (h : Follows k rest) (hk : 1 ≤ k) : Stops 1 rest :=
  continuation_of_clauseRank _ (hk.trans h)

end

section

variable {α : Type} {item : SQLParser α} {render : α → List Lexeme} {rest : List Lexeme}

theorem length_le_commaSeparated (list : List (List Lexeme)) :
    list.length ≤ (commaSeparated list).length+1 := by
  fun_induction commaSeparated list with
  | case1 => simp
  | case2 => simp
  | case3 ts us list ih =>
    simp only [List.length_cons,List.length_append] at ih ⊢
    omega

theorem length_le_of_mem_commaSeparated {ts : List Lexeme} {list : List (List Lexeme)}
    (h : ts ∈ list) : ts.length ≤ (commaSeparated list).length := by
  fun_induction commaSeparated list with
  | case1 => simp at h
  | case2 us => simp_all
  | case3 us vs list ih =>
    rw [List.length_append,List.length_cons]
    rcases List.mem_cons.mp h with rfl | h
    · omega
    · have hh := ih h
      omega

theorem commaSeparated_cons_cons (ts us : List Lexeme) (list : List (List Lexeme)) :
    commaSeparated (ts::us::list)++rest = ts++comma::(commaSeparated (us::list)++rest) := by
  simp [commaSeparated]

/-- A list with commas in `n` tokens, when each item of at most `n` tokens is read before a
comma and before what follows. -/
theorem parses_commaList {xs : List α} {fuel n : ℕ} (P : TokenType → Prop) (hne : xs ≠ [])
    (hn : (commaSeparated (xs.map render)).length ≤ n) (hf : n < fuel)
    (hitem : ∀ a ∈ xs, (render a).length ≤ n → ∀ rest, P (headType rest) →
      Parses item (render a++rest) a rest)
    (hc : P .COMMA) (hP : P (headType rest)) (hcomma : headType rest ≠ .COMMA) :
    Parses (commaList fuel item) (commaSeparated (xs.map render)++rest) xs rest := by
  have hlen := length_le_commaSeparated (xs.map render)
  rw [List.length_map] at hlen
  have hread : ∀ a ∈ xs, ∀ rest, P (headType rest) → Parses item (render a++rest) a rest :=
    fun a ha => hitem a ha
      ((length_le_of_mem_commaSeparated (List.mem_map_of_mem ha)).trans hn)
  have hgo : ∀ (xs list : List α) (fuel : ℕ), xs ≠ [] → xs.length ≤ fuel →
      (∀ a ∈ xs, ∀ rest, P (headType rest) → Parses item (render a++rest) a rest) →
      Parses (Parser.loop fuel (fun list => do
        let a ← item
        if ← accept .COMMA then return .inl (list++[a]) else return .inr (list++[a])) list)
        (commaSeparated (xs.map render)++rest) (list++xs) rest := by
    intro xs
    induction xs with
    | nil =>
      intro _ _ h
      exact absurd rfl h
    | cons a xs ih =>
      intro list fuel _ hf hitem
      obtain ⟨fuel,rfl⟩ := Nat.exists_eq_add_of_le' (show 1 ≤ fuel by simp at hf; omega)
      cases xs with
      | nil =>
        apply Parses.loop_stop
        apply (hitem a (by simp) rest hP).bind
        exact parses_ifAccept_not hcomma (Parses.pure _ _)
      | cons b xs =>
        have hh := ih (list++[a]) fuel (by simp) (by simpa using hf)
          fun b hb => hitem b (List.mem_cons_of_mem a hb)
        rw [List.append_assoc] at hh
        simp only [List.map_cons] at hh ⊢
        rw [commaSeparated_cons_cons]
        refine Parses.loop_next ?_ hh
        apply (hitem a (by simp) (comma::_) hc).bind
        exact parses_ifAccept (by rfl) (Parses.pure _ _)
  exact hgo xs [] fuel hne (by omega) hread

end

section

variable {rest : List Lexeme} {c : Calls}

theorem inParentheses_append (ts rest : List Lexeme) :
    inParentheses ts++rest = ⟨.LPAREN,['(']⟩::(ts++⟨.RPAREN,[')']⟩::rest) := by
  simp [inParentheses]

theorem length_inParentheses (ts : List Lexeme) : (inParentheses ts).length = ts.length+2 := by
  simp [inParentheses]

theorem parses_alias (aliasName : Text) (has : headType rest ≠ .AS)
    (hid : headType rest ≠ .IDENTIFIER) :
    Parses parseAlias (printAlias aliasName++rest) aliasName rest := by
  rw [printAlias]
  split
  case isTrue h =>
    subst h
    apply parses_ifAccept_not (by exact has)
    exact parses_ifMatch_not (by exact hid) (Parses.pure _ _)
  case isFalse h =>
    apply parses_ifAccept (by rfl)
    exact (parses_consume (by rfl)).bind (Parses.pure _ _)

theorem parses_columnList {columns : List Text} (hne : columns ≠ [])
    (hf : (printColumnList columns).length ≤ c.fuel) :
    Parses (parseColumnList c) (printColumnList columns++rest) columns rest := by
  rw [printColumnList,length_inParentheses] at hf
  rw [printColumnList,inParentheses_append]
  apply (parses_expectNext (by rfl)).bind
  have hlist : Parses (parseIdentifierList c)
      (commaSeparated (columns.map fun name => [identifier name])++⟨.RPAREN,[')']⟩::rest) columns
      (⟨.RPAREN,[')']⟩::rest) := by
    apply parses_commaList (fun _ => True) hne le_rfl (by omega) _ trivial trivial (by simp)
    intro name _ _ rest _
    exact (parses_consume (by rfl)).bind (Parses.pure _ _)
  apply hlist.bind
  exact (parses_expectNext (by rfl)).bind (Parses.pure _ _)

theorem parses_joinType {t : JoinType} (ht : t ≠ .NATURAL) :
    Parses parseJoinType (printJoinType t++keyword .JOIN "JOIN"::rest) t
      (keyword .JOIN "JOIN"::rest) := by
  cases t with
  | NATURAL => exact absurd rfl ht
  | _ => rfl

/-- A count is read back by `std::stoi`. -/
theorem parses_count {v : Int32} (hv : 0 ≤ v.toInt) (old : Int32) :
    Parses (parseCount old) (printCount v::rest) v rest := by
  have hlt : v.toInt.toNat < 2147483648 := by
    have hh := v.toInt_lt
    omega
  have hof : Int32.ofInt v.toInt.toNat = v := by
    rw [Int.toNat_of_nonneg hv]
    exact Int32.ofInt_toInt v
  apply parses_ifMatch (by rfl)
  apply (parses_consume (by rfl)).bind
  have hstoi : stoi (printCount v).text = .ok v := by
    rw [printCount,stoi_toDigits _ hlt,hof]
  rw [liftStoi,hstoi]
  exact Parses.pure _ _

theorem parses_limit {l : LimitNode} (h : 0 ≤ l.limit.toInt ∧ 0 ≤ l.offset.toInt) :
    Parses parseLimit (printLimit l++rest) l rest := by
  apply (parses_consume (by rfl)).bind
  apply (parses_count h.1 (-1)).bind
  apply parses_ifAccept (by rfl)
  exact (parses_count h.2 0).bind (Parses.pure _ _)

end

/-- Tokens that begin no expression, among them the end. -/
def beginsNone (t : TokenType) : Prop := t = .STAR ∨ t = .DISTINCT ∨ t = .ALL ∨ t = .END_OF_FILE

section

variable {c : Calls} {ts rest : List Lexeme} {x : ASTNode}

theorem not_parses_primary (h : beginsNone (headType ts)) : ¬ Parses (parsePrimary c) ts x rest := by
  have hrun : parsePrimary c ts = (error "Expressão inválida" : SQLParser ASTNode) ts := by
    rw [parsePrimary,Parser.bind_run (currentToken_run ts)]
    have hpeek : peekToken ts = ⟨[],some (.ok (ts.tail.headD endOfFile,ts))⟩ := rfl
    rw [Parser.bind_run hpeek]
    rcases h with h | h | h | h <;> rw [headType] at h <;> simp only [h] <;> rfl
  rw [Parses,hrun]
  exact fun hh => by cases hh

theorem not_parses_unary (h : beginsNone (headType ts)) (m : ℕ) :
    ¬ Parses (parseUnaryWith c m) ts x rest := by
  intro hp
  cases m with
  | zero => cases hp
  | succ m =>
    obtain ⟨op,mid,hop,hbody⟩ := hp.of_bind
    have hnone : Parses (operatorIn [(.PLUS,.PLUS),(.MINUS,.MINUS),(.NOT,.NOT)]) ts none ts := by
      apply parses_operatorIn_none
      rcases h with h | h | h | h <;> rw [h] <;> rfl
    obtain ⟨rfl,rfl⟩ := hop.unique hnone
    exact not_parses_primary h hbody

theorem parses_operand {fuel : ℕ} {operator : SQLParser (Option Operator)}
    {operand : SQLParser ASTNode} (h : Parses (leftAssociative fuel operator operand) ts x rest) :
    ∃ y mid, Parses operand ts y mid := by
  obtain ⟨y,mid,hy,-⟩ := h.of_bind
  exact ⟨y,mid,hy⟩

theorem not_parses_expression (h : beginsNone (headType ts)) :
    ¬ Parses (parseExpression c) ts x rest := by
  intro hor
  obtain ⟨_,_,hand⟩ := parses_operand hor
  obtain ⟨_,_,heq⟩ := parses_operand hand
  obtain ⟨_,_,heq,-⟩ := heq.of_bind
  obtain ⟨_,_,hrel⟩ := parses_operand heq
  obtain ⟨_,_,hadd⟩ := parses_operand hrel
  obtain ⟨_,_,hmul⟩ := parses_operand hadd
  obtain ⟨_,_,hun⟩ := parses_operand hmul
  exact not_parses_unary h _ hun

end

section

variable {stod : Text → Option UInt64} {pr : ASTNode → List Lexeme} {x : ASTNode}

theorem Reparses.start (h : Reparses stod pr x) : ¬ beginsNone (headType (pr x)) := by
  intro hb
  have hh := h _ le_rfl [] (by exact Nat.zero_lt_one)
  rw [List.append_nil] at hh
  exact not_parses_expression hb hh

theorem Reparses.ne_nil (h : Reparses stod pr x) : pr x ≠ [] := by
  intro heq
  apply h.start
  rw [heq]
  exact .inr (.inr (.inr rfl))

theorem Reparses.head_ne (h : Reparses stod pr x) {t : TokenType} (ht : beginsNone t)
    (rest : List Lexeme) : headType (pr x++rest) ≠ t := by
  rw [headType_append h.ne_nil]
  rintro rfl
  exact h.start ht

end

/-- The recursive calls of `c` read back every tree of at most `n` tokens. -/
structure Reads (stod : Text → Option UInt64) (pr : ASTNode → List Lexeme) (c : Calls) (n : ℕ) :
    Prop where
  fuel : n < c.fuel
  expression : ∀ x, Reparses stod pr x → (pr x).length ≤ n → ∀ rest, Stops 1 rest →
    Parses c.expression (pr x++rest) x rest
  select : ∀ s, s.Printable (Reparses stod pr) → (printSelect pr s).length ≤ n →
    ∀ rest, Follows 8 rest → Parses c.select (printSelect pr s++rest) s rest

section

variable {α : Type} {render : α → List Lexeme} {t : TokenType} {rest : List Lexeme} {o : Option α}

theorem parses_optional {p : SQLParser α} {n : ℕ}
    (hhead : ∀ a rest, headType (render a++rest) = t) (hn : (printOptional render o).length ≤ n)
    (hread : ∀ a, o = some a → (render a).length ≤ n → Parses p (render a++rest) a rest)
    (hne : headType rest ≠ t) : Parses (optional t p) (printOptional render o++rest) o rest := by
  cases o with
  | none => exact parses_ifMatch_not hne (Parses.pure _ _)
  | some a => exact parses_ifMatch (hhead a rest) ((hread a rfl hn).bind (Parses.pure _ _))

theorem follows_optional (o : Option α) {k : ℕ} (hhead : ∀ a rest, headType (render a++rest) = t)
    (ht : k ≤ clauseRank t) (hrest : Follows (k+1) rest) :
    Follows k (printOptional render o++rest) := by
  cases o with
  | none => exact hrest.mono (by omega)
  | some a =>
    change k ≤ clauseRank (headType (render a++rest))
    rw [hhead]
    exact ht

end

section

variable {stod : Text → Option UInt64} {pr : ASTNode → List Lexeme} {c : Calls} {n : ℕ}
  {rest : List Lexeme}

theorem Reads.expressions (h : Reads stod pr c n) {xs : List ASTNode} (hne : xs ≠ [])
    (hx : ∀ x ∈ xs, Reparses stod pr x) (hn : (commaSeparated (xs.map pr)).length ≤ n)
    (hrest : Stops 1 rest) (hcomma : headType rest ≠ .COMMA) :
    Parses (commaList c.fuel c.expression) (commaSeparated (xs.map pr)++rest) xs rest := by
  apply parses_commaList (fun t => continuation t < 1) hne hn h.fuel _ (by decide) hrest hcomma
  intro x hmem hl rest hrest
  exact h.expression x (hx x hmem) hl rest hrest

theorem Reads.whereClause (h : Reads stod pr c n) {w : WhereClause}
    (hw : Reparses stod pr w.condition) (hn : (printWhere pr w).length ≤ n)
    (hrest : Stops 1 rest) : Parses (parseWhere c) (printWhere pr w++rest) w rest := by
  obtain ⟨condition⟩ := w
  rw [printWhere,List.length_cons] at hn
  apply (parses_consume (by rfl)).bind
  exact (h.expression _ hw (by omega) rest hrest).bind (Parses.pure _ _)

theorem Reads.optionalWhere (h : Reads stod pr c n) {o : Option WhereClause}
    (hw : ∀ w, o = some w → Reparses stod pr w.condition)
    (hn : (printOptional (printWhere pr) o).length ≤ n) (hrest : Follows 3 rest) :
    Parses (optional .WHERE (parseWhere c)) (printOptional (printWhere pr) o++rest) o rest :=
  parses_optional (fun _ _ => rfl) hn
    (fun w hsome hn => h.whereClause (hw w hsome) hn (hrest.stops (by decide)))
    (hrest.ne (by decide))

theorem Reads.having (h : Reads stod pr c n) {o : Option WhereClause}
    (hw : ∀ w, o = some w → Reparses stod pr w.condition)
    (hn : (printOptional (printHaving pr) o).length ≤ n) (hrest : Stops 1 rest)
    (hne : headType rest ≠ .HAVING) :
    Parses (parseHaving c) (printOptional (printHaving pr) o++rest) o rest := by
  cases o with
  | none => exact parses_ifAccept_not hne (Parses.pure _ _)
  | some w =>
    obtain ⟨condition⟩ := w
    rw [printOptional,printHaving,List.length_cons] at hn
    apply parses_ifAccept (by rfl)
    have he := h.expression _ (hw ⟨condition⟩ rfl) (by omega) rest hrest
    exact (he.bind (Parses.pure (⟨condition⟩ : WhereClause) _)).bind (Parses.pure _ _)

theorem Reads.groupBy (h : Reads stod pr c n) {g : GroupByNode}
    (hg : g.columns ≠ [] ∧ ∀ x ∈ g.columns, Reparses stod pr x)
    (hn : (printGroupBy pr g).length ≤ n) (hrest : Stops 1 rest)
    (hcomma : headType rest ≠ .COMMA) :
    Parses (parseGroupBy c) (printGroupBy pr g++rest) g rest := by
  obtain ⟨columns⟩ := g
  rw [printGroupBy,List.length_cons,List.length_cons] at hn
  apply (parses_consume (by rfl)).bind
  apply (parses_expectNext (by rfl)).bind
  exact (h.expressions hg.1 hg.2 (by omega) hrest hcomma).bind (Parses.pure _ _)

theorem Reads.orderByItem (h : Reads stod pr c n) {i : OrderByItem}
    (hi : Reparses stod pr i.expr) (hn : (printOrderByItem pr i).length ≤ n) :
    Parses (parseOrderByItem c) (printOrderByItem pr i++rest) i rest := by
  obtain ⟨expr,ascending⟩ := i
  rw [printOrderByItem,List.length_append] at hn
  rw [printOrderByItem,List.append_assoc]
  cases ascending with
  | true =>
    apply (h.expression _ hi (by omega) (keyword .ASC "ASC"::rest) (by exact Nat.zero_lt_one)).bind
    exact parses_ifAccept (by rfl) (Parses.pure _ _)
  | false =>
    apply (h.expression _ hi (by omega) (keyword .DESC "DESC"::rest)
      (by exact Nat.zero_lt_one)).bind
    apply parses_ifAccept_not (by simp [keyword])
    exact parses_ifAccept (by rfl) (Parses.pure _ _)

theorem Reads.orderBy (h : Reads stod pr c n) {o : OrderByNode}
    (ho : o.items ≠ [] ∧ ∀ i ∈ o.items, Reparses stod pr i.expr)
    (hn : (printOrderBy pr o).length ≤ n) (hcomma : headType rest ≠ .COMMA) :
    Parses (parseOrderBy c) (printOrderBy pr o++rest) o rest := by
  obtain ⟨items⟩ := o
  rw [printOrderBy,List.length_cons,List.length_cons] at hn
  apply (parses_consume (by rfl)).bind
  apply (parses_expectNext (by rfl)).bind
  have hlist : Parses (commaList c.fuel (parseOrderByItem c))
      (commaSeparated (items.map (printOrderByItem pr))++rest) items rest := by
    apply parses_commaList (n := n) (fun _ => True) ho.1 (by omega) h.fuel _ trivial trivial hcomma
    intro i hi hl rest _
    exact h.orderByItem (ho.2 i hi) hl
  exact hlist.bind (Parses.pure _ _)

theorem printSelectItem_cases (pr : ASTNode → List Lexeme) (x : ASTNode) :
    x = starNode ∧ printSelectItem pr x = [⟨.STAR,['*']⟩] ∨
      x ≠ starNode ∧ printSelectItem pr x = pr x := by
  cases x with
  | literal v =>
    by_cases hv : v = .ofText ['*']
    · exact .inl ⟨by rw [hv,starNode],by rw [printSelectItem,if_pos hv]⟩
    · exact .inr ⟨by simpa [starNode] using hv,by rw [printSelectItem,if_neg hv]⟩
  | _ => exact .inr ⟨by simp [starNode],rfl⟩

theorem selectItem_start {x : ASTNode} (hx : x = starNode ∨ Reparses stod pr x) :
    printSelectItem pr x ≠ [] ∧ headType (printSelectItem pr x) ≠ .DISTINCT ∧
      headType (printSelectItem pr x) ≠ .ALL := by
  rcases printSelectItem_cases pr x with ⟨-,heq⟩ | ⟨hne,heq⟩
  · rw [heq]
    decide
  · have hr := hx.resolve_left hne
    rw [heq]
    refine ⟨hr.ne_nil,?_,?_⟩
    · intro hd
      exact hr.start (.inr (.inl hd))
    · intro ha
      exact hr.start (.inr (.inr (.inl ha)))

theorem Reads.selectItem (h : Reads stod pr c n) {x : ASTNode}
    (hx : x = starNode ∨ Reparses stod pr x) (hn : (printSelectItem pr x).length ≤ n)
    (hrest : Stops 1 rest) (has : headType rest ≠ .AS) (hid : headType rest ≠ .IDENTIFIER) :
    Parses (parseSelectItem c) (printSelectItem pr x++rest) x rest := by
  rcases printSelectItem_cases pr x with ⟨rfl,heq⟩ | ⟨hne,heq⟩
  · rw [heq]
    exact parses_ifAccept (by rfl) (Parses.pure _ _)
  · have hr := hx.resolve_left hne
    rw [heq] at hn ⊢
    apply parses_ifAccept_not (hr.head_ne (.inl rfl) rest)
    apply (h.expression x hr hn rest hrest).bind
    exact (parses_alias [] has hid).bind (Parses.pure _ _)

theorem Reads.selectList (h : Reads stod pr c n) {xs : List ASTNode} (hne : xs ≠ [])
    (hx : ∀ x ∈ xs, x = starNode ∨ Reparses stod pr x)
    (hn : (commaSeparated (xs.map (printSelectItem pr))).length ≤ n) :
    Parses (parseSelectList c)
      (commaSeparated (xs.map (printSelectItem pr))++keyword .FROM "FROM"::rest) xs
      (keyword .FROM "FROM"::rest) := by
  apply parses_commaList (fun t => continuation t < 1 ∧ t ≠ .AS ∧ t ≠ .IDENTIFIER) hne hn h.fuel _
    (by decide) (by simp [keyword,continuation]) (by simp [keyword])
  rintro x hmem hl rest ⟨hrest,has,hid⟩
  exact h.selectItem (hx x hmem) hl hrest has hid

theorem headType_commaSeparated {ts : List Lexeme} (hts : ts ≠ []) (list : List (List Lexeme))
    (rest : List Lexeme) : headType (commaSeparated (ts::list)++rest) = headType ts := by
  cases list with
  | nil => exact headType_append hts rest
  | cons us list => rw [commaSeparated_cons_cons,headType_append hts]

/-- DISTINCT is read where it is printed, as the select list begins with neither DISTINCT nor
ALL. -/
theorem parses_distinct (distinct : Bool) {xs : List ASTNode} (hne : xs ≠ [])
    (hx : ∀ x ∈ xs, x = starNode ∨ Reparses stod pr x) :
    Parses parseDistinct ((if distinct then [keyword .DISTINCT "DISTINCT"] else [])++
      (commaSeparated (xs.map (printSelectItem pr))++rest)) distinct
      (commaSeparated (xs.map (printSelectItem pr))++rest) := by
  cases distinct with
  | true => exact parses_ifAccept (by rfl) (Parses.pure _ _)
  | false =>
    obtain ⟨x,xs,rfl⟩ := List.exists_cons_of_ne_nil hne
    obtain ⟨hnil,hd,ha⟩ := selectItem_start (hx x (by simp))
    have hhead := headType_commaSeparated hnil (xs.map (printSelectItem pr)) rest
    apply parses_ifAccept_not
    · rw [← hhead] at hd
      exact hd
    · rw [← hhead] at ha
      exact (parses_accept_not ha).bind (Parses.pure _ _)

theorem Reads.tableRef (h : Reads stod pr c n) {t : TableRef}
    (ht : t.tableName = [] ∨ t.subquery = none)
    (hq : ∀ q, t.subquery = some q → q.Printable (Reparses stod pr))
    (hn : (printTable pr t).length ≤ n) (has : headType rest ≠ .AS)
    (hid : headType rest ≠ .IDENTIFIER) :
    Parses (parseTableRef c) (printTable pr t++rest) t rest := by
  obtain ⟨tableName,aliasName,subquery⟩ := t
  cases subquery with
  | none =>
    apply parses_ifAccept_not (by simp [printTable,identifier])
    rw [printTable]
    apply (parses_consume (by rfl)).bind
    exact (parses_alias aliasName has hid).bind (Parses.pure _ _)
  | some q =>
    obtain rfl : tableName = [] := ht.resolve_right (by simp)
    rw [printTable,List.length_append,length_inParentheses] at hn
    rw [printTable,List.append_assoc,inParentheses_append]
    apply parses_ifAccept (by rfl)
    apply (h.select q (hq q rfl) (by omega) _ (by exact le_rfl)).bind
    apply (parses_expectNext (by rfl)).bind
    exact (parses_alias aliasName has hid).bind (Parses.pure _ _)

theorem printTables_eq (pr : ASTNode → List Lexeme) (tables : List TableRef) :
    printTables pr tables = tables.map (printTable pr) := by
  induction tables with
  | nil => rfl
  | cons t tables ih => rw [printTables,ih,List.map_cons]

theorem Reads.fromTables (h : Reads stod pr c n) {tables : List TableRef} (hne : tables ≠ [])
    (ht : ∀ t ∈ tables, t.tableName = [] ∨ t.subquery = none)
    (hq : ∀ t ∈ tables, ∀ q, t.subquery = some q → q.Printable (Reparses stod pr))
    (hn : (commaSeparated (printTables pr tables)).length ≤ n) (hrest : Follows 1 rest) :
    Parses (parseFrom c) (keyword .FROM "FROM"::(commaSeparated (printTables pr tables)++rest))
      tables rest := by
  rw [printTables_eq] at hn ⊢
  apply parses_ifAccept (by rfl)
  apply parses_commaList (fun t => t ≠ .AS ∧ t ≠ .IDENTIFIER) hne hn h.fuel _ (by decide)
    ⟨hrest.ne (by decide),hrest.ne (by decide)⟩ (hrest.ne (by decide))
  rintro t hmem hl rest ⟨has,hid⟩
  exact h.tableRef (ht t hmem) (hq t hmem) hl has hid

theorem Reads.join (h : Reads stod pr c n) {j : JoinClause} (hj : j.Printable (Reparses stod pr))
    (hn : (printJoin pr j).length ≤ n) (hrest : Follows 1 rest) :
    Parses (parseJoin c) (printJoin pr j++rest) j rest := by
  have hf := h.fuel
  obtain ⟨type,table,aliasName,condition,columns⟩ := j
  have heq : printJoin pr ⟨type,table,aliasName,condition,columns⟩++rest =
      printJoinType type++keyword .JOIN "JOIN"::identifier table::(printAlias aliasName++
        (printJoinCondition pr condition columns++rest)) := by
    simp [printJoin]
  simp only [printJoin,List.length_append,List.length_cons] at hn
  rw [heq]
  apply (parses_joinType hj.type).bind
  apply (parses_expectNext (by rfl)).bind
  apply (parses_consume (by rfl)).bind
  cases condition with
  | some x =>
    obtain rfl : columns = [] := hj.either.resolve_left (by simp)
    rw [printJoinCondition,List.length_cons] at hn
    rw [printJoinCondition]
    apply (parses_alias aliasName (by simp [keyword]) (by simp [keyword])).bind
    apply parses_ifAccept (by rfl)
    have he := h.expression x (hj.condition x rfl) (by omega) rest (hrest.stops le_rfl)
    exact he.bind (Parses.pure _ _)
  | none =>
    cases columns with
    | nil =>
      rw [printJoinCondition]
      apply (parses_alias aliasName (hrest.ne (by decide)) (hrest.ne (by decide))).bind
      apply parses_ifAccept_not (by exact hrest.ne (by decide))
      exact parses_ifAccept_not (by exact hrest.ne (by decide)) (Parses.pure _ _)
    | cons name columns =>
      rw [printJoinCondition,List.length_cons] at hn
      · rw [printJoinCondition]
        · apply (parses_alias aliasName (by simp [keyword]) (by simp [keyword])).bind
          apply parses_ifAccept_not (by simp [keyword])
          apply parses_ifAccept (by rfl)
          exact (parses_columnList (by simp) (by omega)).bind (Parses.pure _ _)
        · simp
      · simp

theorem join_start (pr : ASTNode → List Lexeme) {j : JoinClause} (hj : j.type ≠ .NATURAL)
    (rest : List Lexeme) :
    headType (printJoin pr j++rest) ∈ joinKeywords ∧
      clauseRank (headType (printJoin pr j++rest)) = 1 := by
  rw [printJoin]
  cases ht : j.type with
  | NATURAL => exact absurd ht hj
  | _ => exact ⟨by simp [printJoinType,keyword,joinKeywords],rfl⟩

theorem follows_joins {joins : List JoinClause}
    (hj : ∀ j ∈ joins, j.Printable (Reparses stod pr)) (hrest : Follows 2 rest) :
    Follows 1 (joins.flatMap (printJoin pr)++rest) := by
  cases joins with
  | nil => exact hrest.mono (by decide)
  | cons j joins =>
    rw [List.flatMap_cons,List.append_assoc,Follows]
    rw [(join_start pr (hj j (by simp)).type _).2]

theorem Reads.joins (h : Reads stod pr c n) {joins : List JoinClause}
    (hj : ∀ j ∈ joins, j.Printable (Reparses stod pr))
    (hn : (joins.flatMap (printJoin pr)).length ≤ n) (hrest : Follows 2 rest) :
    Parses (whileAny c.fuel joinKeywords (parseJoin c)) (joins.flatMap (printJoin pr)++rest) joins
      rest := by
  have hf := h.fuel
  have hgo : ∀ (joins list : List JoinClause) (fuel : ℕ),
      (∀ j ∈ joins, j.Printable (Reparses stod pr)) →
      (joins.flatMap (printJoin pr)).length ≤ n →
      (joins.flatMap (printJoin pr)).length < fuel →
      Parses (Parser.loop fuel (fun list => do
        if ← matchAny joinKeywords then
          let a ← parseJoin c
          return .inl (list++[a])
        else return .inr list) list) (joins.flatMap (printJoin pr)++rest) (list++joins) rest := by
    intro joins
    induction joins with
    | nil =>
      intro list fuel _ _ hfuel
      obtain ⟨fuel,rfl⟩ := Nat.exists_eq_add_of_lt hfuel
      have hm : Parses (matchAny joinKeywords) rest false rest := by
        have hnot : headType rest ∉ joinKeywords := by
          intro hmem
          have hk : ∀ t ∈ joinKeywords, clauseRank t < 2 := by decide
          exact hrest.ne (hk _ hmem) rfl
        rw [← decide_eq_false hnot]
        exact rfl
      rw [List.append_nil]
      exact Parses.loop_stop (hm.bind (Parses.pure _ _))
    | cons j joins ih =>
      intro list fuel hj hn hfuel
      obtain ⟨fuel,rfl⟩ := Nat.exists_eq_add_of_le' (show 1 ≤ fuel by omega)
      rw [List.flatMap_cons,List.length_append] at hn hfuel
      have hpos : 0 < (printJoin pr j).length := by simp [printJoin]
      have hh := ih (list++[j]) fuel (fun i hi => hj i (List.mem_cons_of_mem j hi)) (by omega)
        (by omega)
      have hstart := (join_start pr (hj j (by simp)).type
        (joins.flatMap (printJoin pr)++rest)).1
      have hm : Parses (matchAny joinKeywords)
          (printJoin pr j++(joins.flatMap (printJoin pr)++rest)) true
          (printJoin pr j++(joins.flatMap (printJoin pr)++rest)) := by
        rw [← decide_eq_true hstart]
        exact rfl
      have hread := h.join (hj j (by simp)) (by omega)
        (follows_joins (fun i hi => hj i (List.mem_cons_of_mem j hi)) hrest)
      rw [List.append_assoc] at hh
      rw [List.flatMap_cons,List.append_assoc]
      exact Parses.loop_next (hm.bind (hread.bind (Parses.pure _ _))) hh
  exact hgo joins [] c.fuel hj hn (by omega)

theorem select_start (pr : ASTNode → List Lexeme) (s : SelectNode) (rest : List Lexeme) :
    headType (printSelect pr s++rest) = .SELECT := by
  cases s
  rw [printSelect]
  rfl

theorem follows_setOperation (pr : ASTNode → List Lexeme) {op : SetOperation}
    {operand : Option SelectNode} (hop : op = .NONE ↔ operand = none) (hrest : Follows 8 rest) :
    Follows 7 (printSetOperation op++(printOperand pr operand++rest)) := by
  cases op with
  | NONE =>
    obtain rfl := hop.mp rfl
    rw [printOperand]
    exact hrest.mono (by decide)
  | _ => exact le_rfl

theorem headType_of_parseSelect {ts : List Lexeme} {q : SelectNode}
    (h : Parses (parseSelect c) ts q rest) : headType ts = .SELECT := by
  obtain ⟨_,_,hconsume,_⟩ := h.of_bind
  exact headType_of_consume hconsume

/-- The operation and the SELECT behind it. -/
theorem parses_setOperation {op : SetOperation} {ts : List Lexeme} {q : SelectNode}
    (hop : op ≠ .NONE) (hselect : Parses c.select ts q rest) (hhead : headType ts = .SELECT) :
    Parses (parseSetOperation c) (printSetOperation op++ts) (op,some q) rest := by
  have hall : headType ts ≠ .ALL := by
    rw [hhead]
    decide
  cases op with
  | NONE => exact absurd rfl hop
  | UNION =>
    apply parses_ifAccept (by rfl)
    apply (parses_accept_not hall).bind
    exact hselect.bind (Parses.pure _ _)
  | UNION_ALL =>
    apply parses_ifAccept (by rfl)
    apply (parses_accept (by rfl)).bind
    exact hselect.bind (Parses.pure _ _)
  | INTERSECT =>
    apply parses_ifAccept_not (by simp [printSetOperation,keyword])
    apply parses_ifAccept (by rfl)
    apply (parses_accept_not hall).bind
    exact hselect.bind (Parses.pure _ _)
  | EXCEPT =>
    apply parses_ifAccept_not (by simp [printSetOperation,keyword])
    apply parses_ifAccept_not (by simp [printSetOperation,keyword])
    apply parses_ifAccept (by rfl)
    apply (parses_accept_not hall).bind
    exact hselect.bind (Parses.pure _ _)

theorem parses_setOperation_none (hrest : Follows 8 rest) :
    Parses (parseSetOperation c) rest (.NONE,none) rest := by
  apply parses_ifAccept_not (by exact hrest.ne (by decide))
  apply parses_ifAccept_not (by exact hrest.ne (by decide))
  exact parses_ifAccept_not (by exact hrest.ne (by decide)) (Parses.pure _ _)

theorem Reads.setOperation (h : Reads stod pr c n) {op : SetOperation}
    {operand : Option SelectNode} (hop : op = .NONE ↔ operand = none)
    (hq : ∀ q, operand = some q → q.Printable (Reparses stod pr))
    (hn : (printOperand pr operand).length ≤ n) (hrest : Follows 8 rest) :
    Parses (parseSetOperation c) (printSetOperation op++(printOperand pr operand++rest))
      (op,operand) rest := by
  cases operand with
  | none =>
    obtain rfl := hop.mpr rfl
    exact parses_setOperation_none hrest
  | some q =>
    have hselect := h.select q (hq q rfl) hn rest hrest
    have hne : op ≠ .NONE := fun hnone => nomatch hop.mp hnone
    rw [printOperand]
    exact parses_setOperation hne hselect (select_start pr q rest)

/-- The part of `parseSelect` before the set operation. -/
def parseBody (c : Calls) : SQLParser SelectNode := do
  let _ ← consume .SELECT
  let distinct ← parseDistinct
  let selectList ← parseSelectList c
  let fromTables ← parseFrom c
  let joins ← whileAny c.fuel joinKeywords (parseJoin c)
  let whereClause ← optional .WHERE (parseWhere c)
  let groupBy ← optional .GROUP (parseGroupBy c)
  let having ← parseHaving c
  let orderBy ← optional .ORDER (parseOrderBy c)
  let limit ← optional .LIMIT parseLimit
  return ⟨distinct,selectList,fromTables,joins,whereClause,groupBy,having,orderBy,limit,.NONE,none⟩

theorem parses_select_of_body {ts mid : List Lexeme} {b : SelectNode} {op : SetOperation}
    {operand : Option SelectNode} (hbody : Parses (parseBody c) ts b mid)
    (hop : Parses (parseSetOperation c) mid (op,operand) rest) :
    b.body = b ∧
      Parses (parseSelect c) ts { b with setOperation := op, setOperand := operand } rest := by
  obtain ⟨_,_,hselect,h⟩ := hbody.of_bind
  obtain ⟨_,_,hdistinct,h⟩ := h.of_bind
  obtain ⟨_,_,hlist,h⟩ := h.of_bind
  obtain ⟨_,_,hfrom,h⟩ := h.of_bind
  obtain ⟨_,_,hjoins,h⟩ := h.of_bind
  obtain ⟨_,_,hwhere,h⟩ := h.of_bind
  obtain ⟨_,_,hgroup,h⟩ := h.of_bind
  obtain ⟨_,_,hhaving,h⟩ := h.of_bind
  obtain ⟨_,_,horder,h⟩ := h.of_bind
  obtain ⟨_,_,hlimit,h⟩ := h.of_bind
  obtain ⟨rfl,rfl⟩ := h.unique (Parses.pure _ _)
  exact ⟨rfl,hselect.bind (hdistinct.bind (hlist.bind (hfrom.bind (hjoins.bind (hwhere.bind
    (hgroup.bind (hhaving.bind (horder.bind (hlimit.bind
      (hop.bind (Parses.pure _ _)))))))))))⟩

/-- The clauses are read one after the other, each ended by the first token of a later one. -/
theorem Reads.selectBody (h : Reads stod pr c n) {s : SelectNode}
    (hs : s.Printable (Reparses stod pr)) (hn : (printSelect pr s.body).length ≤ n+1)
    (hrest : Follows 7 rest) : Parses (parseBody c) (printSelect pr s.body++rest) s.body rest := by
  obtain ⟨s,hlist,hitems,htables,htable,hsub,hjoins,hwhere,hgroup,hhaving,horder,hlimit,-,-⟩ := hs
  obtain ⟨distinct,selectList,fromTables,joins,whereClause,groupBy,having,orderBy,limit,_,_⟩ := s
  dsimp only [SelectNode.body] at *
  simp only [printSelect,printSetOperation,printOperand,List.length_cons,List.length_append] at hn
  have h6 := follows_optional limit (fun l rest => (rfl : headType (printLimit l++rest) = .LIMIT))
    le_rfl hrest
  have h5 := follows_optional orderBy
    (fun o rest => (rfl : headType (printOrderBy pr o++rest) = .ORDER)) le_rfl h6
  have h4 := follows_optional having
    (fun w rest => (rfl : headType (printHaving pr w++rest) = .HAVING)) le_rfl h5
  have h3 := follows_optional groupBy
    (fun g rest => (rfl : headType (printGroupBy pr g++rest) = .GROUP)) le_rfl h4
  have h2 := follows_optional whereClause
    (fun w rest => (rfl : headType (printWhere pr w++rest) = .WHERE)) le_rfl h3
  have h1 := follows_joins hjoins h2
  simp only [printSelect,printSetOperation,printOperand,List.cons_append,List.append_assoc,
    List.nil_append]
  apply (parses_consume (by rfl)).bind
  apply (parses_distinct distinct hlist hitems).bind
  apply (h.selectList hlist hitems (by omega)).bind
  apply (h.fromTables htables htable hsub (by omega) h1).bind
  apply (h.joins hjoins (by omega) h2).bind
  have hg := parses_optional (fun g rest => (rfl : headType (printGroupBy pr g++rest) = .GROUP))
    (by omega) (fun g hg hn => h.groupBy (hgroup g hg) hn (h4.stops (by decide))
      (h4.ne (by decide))) (h4.ne (by decide))
  have ho := parses_optional (fun o rest => (rfl : headType (printOrderBy pr o++rest) = .ORDER))
    (by omega) (fun o ho hn => h.orderBy (horder o ho) hn (h6.ne (by decide)))
    (h6.ne (by decide))
  have hl := parses_optional (fun l rest => (rfl : headType (printLimit l++rest) = .LIMIT))
    le_rfl (fun l hl _ => parses_limit (hlimit l hl)) (hrest.ne (by decide))
  apply (h.optionalWhere hwhere (by omega) h3).bind
  apply hg.bind
  apply (h.having hhaving (by omega) (h5.stops (by decide)) (h5.ne (by decide))).bind
  apply ho.bind
  exact hl.bind (Parses.pure _ _)

/-- A SELECT, when its recursive calls read everything that is shorter. -/
theorem Reads.selectNode (h : Reads stod pr c n) {s : SelectNode}
    (hs : s.Printable (Reparses stod pr)) (hn : (printSelect pr s).length ≤ n+1)
    (hrest : Follows 8 rest) : Parses (parseSelect c) (printSelect pr s++rest) s rest := by
  cases hs with
  | intro s hlist hitems htables htable hsub hjoins hwhere hgroup hhaving horder hlimit hop hoperand =>
    have hs : s.Printable (Reparses stod pr) := .intro s hlist hitems htables htable hsub hjoins
      hwhere hgroup hhaving horder hlimit hop hoperand
    have hpos := length_printSelect_pos pr s.body
    rw [printSelect_eq,List.length_append,List.length_append] at hn
    have hbody := h.selectBody hs (by omega) (follows_setOperation pr hop hrest)
    have hselect := parses_select_of_body hbody (h.setOperation hop hoperand (by omega) hrest)
    have hnode : { s.body with setOperation := s.setOperation, setOperand := s.setOperand } = s := by
      cases s
      rfl
    rw [printSelect_eq,List.append_assoc,List.append_assoc]
    exact hnode ▸ hselect.2

/-- `calls` ties the recursion: the calls inside `n` levels read what has at most `n` tokens. -/
theorem reads_calls (stod : Text → Option UInt64) (pr : ASTNode → List Lexeme) (n : ℕ) :
    Reads stod pr (calls stod (n+1)) n := by
  induction n with
  | zero =>
    refine ⟨by rw [calls_fuel]; omega,fun x hx hn => hx 0 hn,?_⟩
    intro s _ hn
    cases s
    simp [printSelect] at hn
  | succ n ih =>
    refine ⟨by rw [calls_fuel]; omega,fun x hx hn => hx (n+1) hn,?_⟩
    intro s hs hn rest hrest
    exact ih.selectNode hs hn hrest

theorem Reads.row (h : Reads stod pr c n) {row : List ASTNode}
    (hr : row ≠ [] ∧ ∀ x ∈ row, Reparses stod pr x)
    (hn : (inParentheses (commaSeparated (row.map pr))).length ≤ n) :
    Parses (parseRow c) (inParentheses (commaSeparated (row.map pr))++rest) row rest := by
  rw [length_inParentheses] at hn
  rw [inParentheses_append]
  apply (parses_expectNext (by rfl)).bind
  apply (h.expressions hr.1 hr.2 (by omega) (by exact Nat.zero_lt_one) (by simp)).bind
  exact (parses_expectNext (by rfl)).bind (Parses.pure _ _)

theorem parses_columns {columns : List Text} (hn : (printColumnList columns).length ≤ c.fuel)
    (hrest : headType rest ≠ .LPAREN) :
    Parses (optional .LPAREN (parseColumnList c))
      ((if columns = [] then [] else printColumnList columns)++rest)
      (if columns = [] then none else some columns) rest := by
  by_cases hc : columns = []
  · rw [if_pos hc,if_pos hc]
    exact parses_ifMatch_not hrest (Parses.pure _ _)
  · rw [if_neg hc,if_neg hc]
    exact parses_ifMatch (by rfl) ((parses_columnList hc hn).bind (Parses.pure _ _))

theorem Reads.insert (h : Reads stod pr c n) {i : InsertNode} (hi : i.Printable (Reparses stod pr))
    (hn : (printInsert pr i).length ≤ n+1) (hcomma : headType rest ≠ .COMMA) :
    Parses (parseInsert c) (printInsert pr i++rest) i rest := by
  have hf := h.fuel
  obtain ⟨table,columns,values,select⟩ := i
  obtain ⟨hvalues,hrows,rfl⟩ := hi
  dsimp only at *
  simp only [printInsert,List.length_cons,List.length_append] at hn
  simp only [printInsert,List.cons_append,List.append_assoc]
  have hlist : Parses (parseValuesList c) (commaSeparated (values.map
      fun row => inParentheses (commaSeparated (row.map pr)))++rest) values rest := by
    apply parses_commaList (n := n) (fun _ => True) hvalues (by omega) h.fuel _ trivial trivial hcomma
    intro row hrow hl rest _
    exact h.row (hrows row hrow) hl
  have hc : (printColumnList columns).length ≤ c.fuel := by
    by_cases hc : columns = []
    · rw [hc]
      change 2 ≤ c.fuel
      omega
    · rw [if_neg hc] at hn
      omega
  have hd : (if columns = [] then none else some columns).getD [] = columns := by
    by_cases hc : columns = []
    · rw [if_pos hc,hc]
      rfl
    · rw [if_neg hc]
      rfl
  apply (parses_consume (by rfl)).bind
  apply (parses_expectNext (by rfl)).bind
  apply (parses_consume (by rfl)).bind
  apply (parses_columns hc (by simp [keyword])).bind
  apply parses_ifAccept (by rfl)
  rw [hd]
  exact hlist.bind (Parses.pure _ _)

theorem Reads.assignment (h : Reads stod pr c n) {a : Assignment} (ha : Reparses stod pr a.value)
    (hn : (printAssignment pr a).length ≤ n) (hrest : Stops 1 rest) :
    Parses (parseAssignment c) (printAssignment pr a++rest) a rest := by
  rw [printAssignment,List.length_cons,List.length_cons] at hn
  apply (parses_consume (by rfl)).bind
  apply (parses_expectNext (by rfl)).bind
  exact (h.expression _ ha (by omega) rest hrest).bind (Parses.pure _ _)

theorem Reads.update (h : Reads stod pr c n) {u : UpdateNode} (hu : u.Printable (Reparses stod pr))
    (hn : (printUpdate pr u).length ≤ n+1) (hrest : Follows 3 rest) :
    Parses (parseUpdate c) (printUpdate pr u++rest) u rest := by
  obtain ⟨table,assignments,whereClause⟩ := u
  obtain ⟨hassignments,hvalues,hwhere⟩ := hu
  dsimp only at *
  simp only [printUpdate,List.length_cons,List.length_append] at hn
  simp only [printUpdate,List.cons_append,List.append_assoc]
  have h2 := follows_optional whereClause
    (fun w rest => (rfl : headType (printWhere pr w++rest) = .WHERE)) le_rfl hrest
  have hlist : Parses (commaList c.fuel (parseAssignment c)) (commaSeparated
      (assignments.map (printAssignment pr))++(printOptional (printWhere pr) whereClause++rest))
      assignments (printOptional (printWhere pr) whereClause++rest) := by
    apply parses_commaList (n := n) (fun t => continuation t < 1) hassignments (by omega) h.fuel _
      (by decide) (h2.stops (by decide)) (h2.ne (by decide))
    intro a hmem hl rest hrest
    exact h.assignment (hvalues a hmem) hl hrest
  apply (parses_consume (by rfl)).bind
  apply (parses_consume (by rfl)).bind
  apply (parses_expectNext (by rfl)).bind
  apply hlist.bind
  exact (h.optionalWhere hwhere (by omega) hrest).bind (Parses.pure _ _)

theorem Reads.delete (h : Reads stod pr c n) {d : DeleteNode} (hd : d.Printable (Reparses stod pr))
    (hn : (printDelete pr d).length ≤ n+1) (hrest : Follows 3 rest) :
    Parses (parseDelete c) (printDelete pr d++rest) d rest := by
  obtain ⟨table,whereClause⟩ := d
  obtain ⟨hwhere⟩ := hd
  dsimp only at *
  simp only [printDelete,List.length_cons] at hn
  apply (parses_consume (by rfl)).bind
  apply (parses_expectNext (by rfl)).bind
  apply (parses_consume (by rfl)).bind
  exact (h.optionalWhere hwhere (by omega) hrest).bind (Parses.pure _ _)

theorem Reads.statement (h : Reads stod pr c n) {s : Statement}
    (hs : s.Printable (Reparses stod pr)) (hn : (printStatement pr s).length ≤ n+1)
    (hrest : Follows 8 rest) : Parses (parseStatement c) (printStatement pr s++rest) s rest := by
  apply parses_currentToken.bind
  cases s with
  | select s =>
    have hhead : ((printSelect pr s++rest).headD endOfFile).type = .SELECT :=
      select_start pr s rest
    rw [printStatement,hhead]
    exact (h.selectNode hs hn hrest).bind (Parses.pure _ _)
  | insert i => exact (h.insert hs hn (hrest.ne (by decide))).bind (Parses.pure _ _)
  | update u => exact (h.update hs hn (hrest.mono (by decide))).bind (Parses.pure _ _)
  | delete d => exact (h.delete hs hn (hrest.mono (by decide))).bind (Parses.pure _ _)
  | _ => exact hs.elim

end

theorem parseStatement_print (stod : Text → Option UInt64) (pr : ASTNode → List Lexeme)
    (s : Statement) (hs : s.Printable (Reparses stod pr)) (n : ℕ)
    (hn : (printStatement pr s).length ≤ n) (rest : List Lexeme)
    (hrest : headType rest = .END_OF_FILE) :
    Parses (parseStatement (calls stod n)) (printStatement pr s++rest) s rest := by
  have hpos : 0 < (printStatement pr s).length := by
    cases s with
    | select s =>
      cases s
      simp [printStatement,printSelect]
    | insert | update | delete => exact Nat.succ_pos _
    | _ => exact hs.elim
  obtain ⟨n,rfl⟩ := Nat.exists_eq_add_of_le' (show 1 ≤ n by omega)
  refine (reads_calls stod pr n).statement hs hn ?_
  rw [Follows,hrest]
  decide

theorem reparses_toNode (stod : Text → Option UInt64) (e : Expr) :
    Reparses stod printNode e.toNode := by
  intro n hn rest hrest
  obtain ⟨e',hof,hnode⟩ := e.ofNode_toNode
  have hprint : printNode e.toNode = e'.print := by rw [printNode,hof]
  rw [hprint] at hn ⊢
  rw [← hnode]
  exact parses_expression stod e' hn hrest

/-- `SELECT * FROM t`. -/
def selectAll (t : Char) : SelectNode :=
  ⟨false,[starNode],[⟨[t],[],none⟩],[],none,none,none,none,none,.NONE,none⟩

/-- `SELECT a, * FROM (SELECT * FROM t) AS q, t WHERE a==1 UNION ALL ...`, with the inner SELECT
again behind UNION ALL. -/
theorem parseStatement_print_union :
    let inner : SelectNode := ⟨false,[starNode],[⟨['t'],[],none⟩],[],none,none,none,none,none,
      .NONE,none⟩
    let outer : SelectNode := ⟨false,[(Expr.column ['a']).toNode,starNode],
      [⟨[],['q'],some inner⟩,⟨['t'],[],none⟩],[],
      some ⟨(Expr.binary .eq (.column ['a']) (.integer 1)).toNode⟩,none,none,none,none,
      .UNION_ALL,some inner⟩
    Parses (parseStatement (calls (fun _ => none) 40)) (printStatement printNode (.select outer))
      (.select outer) [] := by
  intro inner outer
  have hinner : inner.Printable (Reparses (fun _ => none) printNode) := by
    constructor <;> simp [inner]
  have houter : outer.Printable (Reparses (fun _ => none) printNode) := by
    constructor <;> simp [outer,reparses_toNode,hinner]
  have hh := parseStatement_print (fun _ => none) printNode (.select outer) houter 40 (by decide) []
    rfl
  rwa [List.append_nil] at hh

end SQLParser

end OrangeSQL
