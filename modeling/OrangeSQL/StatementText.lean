import OrangeSQL.StatementReading
import OrangeSQL.TokenText

/-! Statements as text. What is printed of a statement, its tokens one blank apart, is parsed to the
statement again. -/
namespace OrangeSQL

open Parsing

section Tokens

/-- Names and strings, which the printing takes over as they are, and tokens. -/
def Fixed (ts : List Lexeme) : Prop :=
  ∀ l ∈ ts, l.type = .IDENTIFIER ∨ l.type = .STRING ∨ IsToken l

variable {l : Lexeme} {ts us : List Lexeme}

theorem fixed_nil : Fixed [] := List.forall_mem_nil _

theorem Fixed.cons (h : l.type = .IDENTIFIER ∨ l.type = .STRING ∨ IsToken l) (hts : Fixed ts) :
    Fixed (l::ts) :=
  List.forall_mem_cons.mpr ⟨h,hts⟩

theorem Fixed.append (hts : Fixed ts) (hus : Fixed us) : Fixed (ts++us) :=
  List.forall_mem_append.mpr ⟨hts,hus⟩

theorem Fixed.token (h : IsToken l) (hts : Fixed ts) : Fixed (l::ts) := hts.cons (Or.inr (Or.inr h))

theorem Fixed.identifier (name : Text) (hts : Fixed ts) : Fixed (identifier name::ts) :=
  hts.cons (Or.inl rfl)

/-- The lexer knows each keyword. -/
theorem isToken_of_keyword {t : TokenType} {word : Text} (h : (word,t) ∈ keywords) :
    IsToken ⟨t,word⟩ := by
  have hread : ∀ e ∈ keywords, (⟨e.2,e.1⟩ : Lexeme) ∈ lexemes e.1 := by decide +kernel
  have hmem := hread _ h
  rw [lexemes_eq] at hmem
  exact isToken_lexemesOf _ (isUpper_toUpper word) _ hmem

theorem Fixed.keyword {t : TokenType} {text : String} (h : (text.toList,t) ∈ keywords)
    (hts : Fixed ts) : Fixed (keyword t text::ts) :=
  hts.token (isToken_of_keyword h)

theorem isToken_digits (n : ℕ) : IsToken ⟨.INTEGER,Nat.toDigits 10 n⟩ := by
  have hnumber : IsToken ⟨if ([] : Text) = [] ∧ ([] : Text) = [] then .INTEGER else .FLOAT,
      Nat.toDigits 10 n++[]++[]⟩ :=
    .number Nat.toDigits_ne_nil (fun c hc => isDigit_of_mem_toDigits hc) (Or.inl rfl) (Or.inl rfl)
  simpa using hnumber

theorem Fixed.inParentheses (hts : Fixed ts) : Fixed (inParentheses ts) :=
  (hts.append (fixed_nil.token (.oneCharacter (by decide)))).token (.oneCharacter (by decide))

theorem fixed_commaSeparated {list : List (List Lexeme)} (h : ∀ ts ∈ list, Fixed ts) :
    Fixed (commaSeparated list) := by
  fun_induction commaSeparated list with
  | case1 => exact fixed_nil
  | case2 ts => exact h ts List.mem_cons_self
  | case3 ts us list ih =>
    exact (h ts List.mem_cons_self).append
      ((ih fun ts hts => h ts (List.mem_cons_of_mem _ hts)).token (.oneCharacter (by decide)))

theorem fixed_commaSeparated_map {α : Type} {render : α → List Lexeme} (xs : List α)
    (h : ∀ x ∈ xs, Fixed (render x)) : Fixed (commaSeparated (xs.map render)) :=
  fixed_commaSeparated (List.forall_mem_map.mpr h)

theorem fixed_printOptional {α : Type} {render : α → List Lexeme} (o : Option α)
    (h : ∀ a, Fixed (render a)) : Fixed (printOptional render o) := by
  cases o with
  | none => exact fixed_nil
  | some a => exact h a

end Tokens

section Printing

/-- The tokens of the operators. -/
theorem fixed_operator (op : BinaryOp) : Fixed op.tokens := by
  cases op with
  | or | and | like => exact fixed_nil.token (isToken_of_keyword (by decide))
  | notLike => exact (fixed_nil.token (isToken_of_keyword (by decide))).token (isToken_of_keyword (by decide))
  | eq | ne | le | ge | concat => exact fixed_nil.token (.twoCharacters (by decide))
  | _ => exact fixed_nil.token (.oneCharacter (by decide))

theorem fixed_printExpr (e : Expr) : Fixed e.print := by
  have hoperand : ∀ (b : Prop) [Decidable b] (ts : List Lexeme), Fixed ts →
      Fixed (if b then inParentheses ts else ts) := by
    intro b _ ts hts
    split
    · exact hts.inParentheses
    · exact hts
  induction e with
  | integer n => exact fixed_nil.token (isToken_digits n)
  | string text => exact fixed_nil.cons (Or.inr (Or.inl rfl))
  | boolean v => cases v <;> exact fixed_nil.token (isToken_of_keyword (by decide))
  | null => exact fixed_nil.token (isToken_of_keyword (by decide))
  | column name => exact fixed_nil.identifier name
  | tableColumn table name =>
    exact ((fixed_nil.identifier name).token (.oneCharacter (by decide))).identifier table
  | unary op e ih =>
    refine (hoperand _ _ ih).token ?_
    cases op with
    | not => exact isToken_of_keyword (by decide)
    | _ => exact .oneCharacter (by decide)
  | binary op left right ihl ihr =>
    exact ((hoperand _ _ ihl).append (fixed_operator op)).append (hoperand _ _ ihr)

theorem fixed_printNode (x : ASTNode) : Fixed (printNode x) := by
  unfold printNode
  split
  · exact fixed_printExpr _
  · exact fixed_nil

theorem fixed_printAlias (aliasName : Text) : Fixed (printAlias aliasName) := by
  unfold printAlias
  split
  · exact fixed_nil
  · exact (fixed_nil.identifier aliasName).keyword (by decide)

theorem fixed_printColumnList (columns : List Text) : Fixed (printColumnList columns) :=
  (fixed_commaSeparated_map columns fun name _ => fixed_nil.identifier name).inParentheses

theorem fixed_printJoinType (t : JoinType) : Fixed (printJoinType t) := by
  cases t with
  | NATURAL => exact fixed_nil
  | _ => exact fixed_nil.keyword (by decide)

theorem fixed_printLimit (l : LimitNode) : Fixed (printLimit l) :=
  ((((fixed_nil.token (isToken_digits _)).keyword (by decide)).token (isToken_digits _)).keyword
    (by decide))

theorem fixed_printSetOperation (o : SetOperation) : Fixed (printSetOperation o) := by
  cases o with
  | NONE => exact fixed_nil
  | UNION_ALL => exact (fixed_nil.keyword (by decide)).keyword (by decide)
  | _ => exact fixed_nil.keyword (by decide)

variable {pr : ASTNode → List Lexeme}

theorem fixed_printSelectItem (hpr : ∀ x, Fixed (pr x)) (x : ASTNode) : Fixed (printSelectItem pr x) := by
  unfold printSelectItem
  split
  · split
    · exact fixed_nil.token (.oneCharacter (by decide))
    · exact hpr _
  · exact hpr _

theorem fixed_printJoinCondition (hpr : ∀ x, Fixed (pr x)) (condition : Option ASTNode)
    (columns : List Text) : Fixed (printJoinCondition pr condition columns) := by
  cases condition with
  | some x => exact (hpr x).keyword (by decide)
  | none =>
    cases columns with
    | nil => exact fixed_nil
    | cons name columns => exact (fixed_printColumnList (name::columns)).keyword (by decide)

theorem fixed_printJoin (hpr : ∀ x, Fixed (pr x)) (j : JoinClause) : Fixed (printJoin pr j) :=
  (fixed_printJoinType j.type).append
    ((((fixed_printAlias j.aliasName).append
      (fixed_printJoinCondition hpr j.condition j.usingColumns)).identifier j.table).keyword (by decide))

theorem fixed_printWhere (hpr : ∀ x, Fixed (pr x)) (w : WhereClause) : Fixed (printWhere pr w) :=
  (hpr w.condition).keyword (by decide)

theorem fixed_printHaving (hpr : ∀ x, Fixed (pr x)) (w : WhereClause) : Fixed (printHaving pr w) :=
  (hpr w.condition).keyword (by decide)

theorem fixed_printAssignment (hpr : ∀ x, Fixed (pr x)) (a : Assignment) :
    Fixed (printAssignment pr a) :=
  ((hpr a.value).token (.oneCharacter (by decide))).identifier a.column

theorem fixed_printGroupBy (hpr : ∀ x, Fixed (pr x)) (g : GroupByNode) : Fixed (printGroupBy pr g) :=
  ((fixed_commaSeparated_map g.columns fun x _ => hpr x).keyword (by decide)).keyword (by decide)

theorem fixed_printOrderBy (hpr : ∀ x, Fixed (pr x)) (o : OrderByNode) : Fixed (printOrderBy pr o) := by
  refine ((fixed_commaSeparated_map o.items fun i _ => (hpr i.expr).append ?_).keyword
    (by decide)).keyword (by decide)
  split
  · exact fixed_nil.keyword (by decide)
  · exact fixed_nil.keyword (by decide)

theorem fixed_printTables {tables : List TableRef}
    (h : ∀ t ∈ tables, ∀ q, t.subquery = some q → Fixed (printSelect pr q)) :
    ∀ ts ∈ printTables pr tables, Fixed ts := by
  induction tables with
  | nil => exact List.forall_mem_nil _
  | cons t tables ih =>
    refine List.forall_mem_cons.mpr ⟨?_,ih fun u hu => h u (List.mem_cons_of_mem t hu)⟩
    obtain ⟨tableName,aliasName,subquery⟩ := t
    cases subquery with
    | none => exact (fixed_printAlias aliasName).identifier tableName
    | some q =>
      exact (h _ List.mem_cons_self q rfl).inParentheses.append (fixed_printAlias aliasName)

/-- The clauses of a SELECT, its sub-selects and its set operand. -/
theorem fixed_printSelect {good : ASTNode → Prop} (hpr : ∀ x, Fixed (pr x)) {s : SelectNode}
    (hs : s.Printable good) : Fixed (printSelect pr s) := by
  induction hs with
  | intro s _ _ _ _ _ _ _ _ _ _ _ _ _ ihqueries ihoperand =>
    obtain ⟨distinct,selectList,fromTables,joins,whereClause,groupBy,having,orderBy,limit,setOperation,
      setOperand⟩ := s
    have hdistinct : Fixed (if distinct then [keyword .DISTINCT "DISTINCT"] else []) := by
      cases distinct with
      | false => exact fixed_nil
      | true => exact fixed_nil.keyword (by decide)
    have hjoins : Fixed (joins.flatMap (printJoin pr)) := by
      intro l hl
      obtain ⟨j,_,hl⟩ := List.mem_flatMap.mp hl
      exact fixed_printJoin hpr j l hl
    have hoperand : Fixed (printOperand pr setOperand) := by
      cases setOperand with
      | none => exact fixed_nil
      | some q => exact ihoperand q rfl
    have htail := (fixed_printOptional orderBy (fixed_printOrderBy hpr)).append
      ((fixed_printOptional limit fixed_printLimit).append
        ((fixed_printSetOperation setOperation).append hoperand))
    have hclauses := (fixed_printOptional whereClause (fixed_printWhere hpr)).append
      ((fixed_printOptional groupBy (fixed_printGroupBy hpr)).append
        ((fixed_printOptional having (fixed_printHaving hpr)).append htail))
    rw [printSelect]
    exact (hdistinct.append ((fixed_commaSeparated_map selectList fun x _ =>
      fixed_printSelectItem hpr x).append (((fixed_commaSeparated (fixed_printTables ihqueries)).append
        (hjoins.append hclauses)).keyword (by decide)))).keyword (by decide)

theorem fixed_printStatement {good : ASTNode → Prop} (hpr : ∀ x, Fixed (pr x)) {s : Statement}
    (hs : s.Printable good) : Fixed (printStatement pr s) := by
  cases s with
  | select s => exact fixed_printSelect hpr hs
  | insert i =>
    have hcolumns : Fixed (if i.columns = [] then [] else printColumnList i.columns) := by
      split
      · exact fixed_nil
      · exact fixed_printColumnList i.columns
    have hrows := fixed_commaSeparated_map i.values fun row _ =>
      (fixed_commaSeparated_map row fun x _ => hpr x).inParentheses
    exact (((hcolumns.append (hrows.keyword (by decide))).identifier i.table).keyword
      (by decide)).keyword (by decide)
  | update u =>
    have hassignments := fixed_commaSeparated_map u.assignments fun a _ => fixed_printAssignment hpr a
    exact (((hassignments.append (fixed_printOptional u.whereClause (fixed_printWhere hpr))).keyword
      (by decide)).identifier u.table).keyword (by decide)
  | delete d =>
    exact (((fixed_printOptional d.whereClause (fixed_printWhere hpr)).identifier d.table).keyword
      (by decide)).keyword (by decide)
  | _ => exact hs.elim

end Printing

section Expressions

variable {good good' : ASTNode → Prop}

theorem SelectNode.Printable.mono (h : ∀ x, good x → good' x) {s : SelectNode}
    (hs : s.Printable good) : s.Printable good' := by
  induction hs with
  | intro s hlist hitems htables htable _ hjoins hwhere hgroup hhaving horder hlimit hoperation _
      ihqueries ihoperand =>
    refine .intro s hlist (fun x hx => (hitems x hx).imp_right (h x)) htables htable ihqueries ?_
      (fun w hw => h _ (hwhere w hw)) ?_ (fun w hw => h _ (hhaving w hw)) ?_ hlimit hoperation ihoperand
    · exact fun j hj => ⟨(hjoins j hj).type,fun x hx => h x ((hjoins j hj).condition x hx),
        (hjoins j hj).either⟩
    · exact fun g hg => ⟨(hgroup g hg).1,fun x hx => h x ((hgroup g hg).2 x hx)⟩
    · exact fun o ho => ⟨(horder o ho).1,fun i hi => h _ ((horder o ho).2 i hi)⟩

theorem Statement.Printable.mono (h : ∀ x, good x → good' x) {s : Statement} (hs : s.Printable good) :
    s.Printable good' := by
  cases s with
  | select s => exact SelectNode.Printable.mono h hs
  | insert i =>
    exact ⟨hs.values,fun row hrow => ⟨(hs.rows row hrow).1,fun x hx => h x ((hs.rows row hrow).2 x hx)⟩,
      hs.select⟩
  | update u =>
    exact ⟨hs.assignments,fun a ha => h _ (hs.values a ha),fun w hw => h _ (hs.whereClause w hw)⟩
  | delete d => exact ⟨fun w hw => h _ (hs.whereClause w hw)⟩
  | _ => exact hs.elim

/-- The trees of the expressions that are printed. -/
def IsExpr (x : ASTNode) : Prop := ∃ e : Expr, e.toNode = x

end Expressions

namespace SQLParser

/-- A SELECT, INSERT, UPDATE or DELETE whose names are names of the lexer and whose strings have no
lower-case letter is parsed from its text, by the lexer and the parser together. -/
theorem parse_text (stod : Text → Option UInt64) (s : Statement) (hs : s.Printable IsExpr)
    (hnames : ∀ l ∈ printStatement printNode s, l.type = .IDENTIFIER ∨ l.type = .STRING → IsToken l)
    (n : ℕ) (hn : (printStatement printNode s).length ≤ n+1) :
    (parse stod (n+1) (writeLexemes (printStatement printNode s))).result = some (.ok (s,[])) := by
  have htokens : ∀ l ∈ printStatement printNode s, IsToken l := by
    intro l hl
    rcases fixed_printStatement fixed_printNode hs l hl with h | h | h
    · exact hnames l hl (Or.inl h)
    · exact hnames l hl (Or.inr h)
    · exact h
  have hexpressions : ∀ x, IsExpr x → Reparses stod printNode x := by
    rintro x ⟨e,rfl⟩
    exact reparses_toNode stod e
  have hend : Follows 8 [] := by
    rw [Follows,headType_nil]
    decide
  have hread := (reads_calls stod printNode n).statement (hs.mono hexpressions) hn hend
  rw [List.append_nil] at hread
  rw [parse,lexemes_writeLexemes htokens]
  exact hread.bind ((parses_isMatch headType_nil).bind (Parses.pure _ _))

theorem parse_text_delete :
    (parse (fun _ => none) 8 "DELETE FROM T WHERE A == 'IT\\'S' ".toList).result =
      some (.ok (.delete ⟨['T'],some ⟨(Expr.binary .eq (.column ['A'])
        (.string "IT'S".toList)).toNode⟩⟩,[])) := by
  have hwhere : ∀ w, (some ⟨(Expr.binary .eq (.column ['A']) (.string "IT'S".toList)).toNode⟩ :
      Option WhereClause) = some w → IsExpr w.condition := by
    rintro w hw
    exact ⟨_,congrArg WhereClause.condition (Option.some.inj hw)⟩
  have hname : ∀ c, isIdentifierStart c → ¬ c.isLower → keywords.lookup [c] = none →
      IsToken ⟨.IDENTIFIER,[c]⟩ := by
    intro c hstart hlower hnone
    have hword : IsToken ⟨(keywords.lookup [c]).getD .IDENTIFIER,[c]⟩ :=
      .word hstart (List.forall_mem_nil _) (isUpper_cons.mpr ⟨hlower,List.forall_mem_nil _⟩)
    rwa [hnone] at hword
  refine parse_text (fun _ => none) (.delete ⟨['T'],some ⟨_⟩⟩) ⟨hwhere⟩ ?_ 7 (by decide)
  have hprint : printStatement printNode (.delete ⟨['T'],some ⟨(Expr.binary .eq (.column ['A'])
      (.string "IT'S".toList)).toNode⟩⟩) = [⟨.DELETE,"DELETE".toList⟩,⟨.FROM,"FROM".toList⟩,
      ⟨.IDENTIFIER,['T']⟩,⟨.WHERE,"WHERE".toList⟩,⟨.IDENTIFIER,['A']⟩,⟨.EQ,"==".toList⟩,
      ⟨.STRING,"IT'S".toList⟩] := by decide
  rw [hprint]
  intro l hl ht
  simp only [List.mem_cons,List.not_mem_nil,or_false] at hl
  rcases hl with rfl | rfl | rfl | rfl | rfl | rfl | rfl
  · exact absurd ht (by decide)
  · exact absurd ht (by decide)
  · exact hname 'T' (by decide) (by decide) (by decide)
  · exact absurd ht (by decide)
  · exact hname 'A' (by decide) (by decide) (by decide)
  · exact absurd ht (by decide)
  · exact .string (by simp [IsUpper])

end SQLParser

end OrangeSQL
