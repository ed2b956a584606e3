import OrangeSQL.ExpressionReading
import OrangeSQL.Trivia

/-! The text of an equality, as `operatorToString` writes it, read by the lexer and the parser. The
one takes `=` for an assignment, the other wants `==`. -/
namespace OrangeSQL

open Parsing SQLParser

/-- With a blank behind it the text is read as these tokens, and the lexer goes on behind it. -/
def Renders (s : Text) (ts : List Lexeme) : Prop :=
  ∀ t, lexemes (s++ ' '::t) = ts++lexemes t

section Texts

variable {s : Text}

/-- A text of one token, whatever follows its blank. -/
theorem renders_of_reads {l : Lexeme} (h : Reads (s.map Char.toUpper) [' '] l) :
    Renders s [l] := by
  intro t
  have hspace : Whitespace [' '] := by decide
  have hreads : Reads (s.map Char.toUpper) (' '::t.map Char.toUpper) l :=
    reads_local h (Or.inl rfl) _
  have hskip : lexemesOf (' '::t.map Char.toUpper) = lexemesOf (t.map Char.toUpper) :=
    lexemesOf_congr (afterTrivia_whitespace hspace _)
  have hupper : (s++ ' '::t).map Char.toUpper = s.map Char.toUpper++ ' '::t.map Char.toUpper := by
    rw [List.map_append,List.map_cons]
    rfl
  rw [lexemes_eq,hupper,lexemesOf_of_reads hreads,hskip,lexemes_eq,List.singleton_append]

theorem renders_operatorToString_eq : Renders (operatorToString .EQ) [⟨.ASSIGN,['=']⟩] :=
  renders_of_reads (by unfold Reads; decide)

theorem renders_where : Renders ['W','H','E','R','E'] [⟨.WHERE,['W','H','E','R','E']⟩] :=
  renders_of_reads (by unfold Reads; decide)

end Texts

/-- The texts of two operands around the one of the operator. -/
def equalityText (sa sb : Text) : Text := sa++ ' '::(operatorToString .EQ++ ' '::sb)

def conditionText (sa sb : Text) : Text := ['W','H','E','R','E']++ ' '::equalityText sa sb

/-- With this fuel the text is read as an equality of these operands, as an expression or as a
condition, whatever is left behind it. -/
def ReadsEquality (stod : Text → Option UInt64) (n : ℕ) (sa sb : Text) (a b : ASTNode) : Prop :=
  (∃ rest, Parses (parseExpression (calls stod n)) (lexemes (equalityText sa sb))
    (.binary .EQ a (some b)) rest) ∨
  ∃ rest, Parses (parseWhere (calls stod n)) (lexemes (conditionText sa sb))
    ⟨.binary .EQ a (some b)⟩ rest

section Equality

variable {stod : Text → Option UInt64} {sa : Text} {ta : List Lexeme} {a : ASTNode}

theorem lexemes_equalityText (h : Renders sa ta) (sb : Text) :
    lexemes (equalityText sa sb) = ta++⟨.ASSIGN,['=']⟩::lexemes sb := by
  rw [equalityText,h,renders_operatorToString_eq,List.singleton_append]

theorem lexemes_conditionText (h : Renders sa ta) (sb : Text) :
    lexemes (conditionText sa sb) =
      ⟨.WHERE,['W','H','E','R','E']⟩::(ta++⟨.ASSIGN,['=']⟩::lexemes sb) := by
  rw [conditionText,renders_where,List.singleton_append,lexemes_equalityText h]

/-- The left operand is all that is read. -/
theorem parses_equalityText (ha : ReadAs stod 4 ta a) (ts : List Lexeme) (n : ℕ)
    (hn : ta.length ≤ n) :
    Parses (parseExpression (calls stod n)) (ta++⟨.ASSIGN,['=']⟩::ts) a (⟨.ASSIGN,['=']⟩::ts) :=
  ha.of_le (k := 1) (by decide) le_rfl (by decide) n hn _ Nat.zero_lt_one

theorem ne_equality (a : ASTNode) (right : Option ASTNode) : a ≠ .binary .EQ a right := by
  intro h
  have hsize := congrArg sizeOf h
  simp only [ASTNode.binary.sizeOf_spec] at hsize
  omega

/-- No left operand makes the text an equality, whatever stands on the right. -/
theorem not_readsEquality (stod : Text → Option UInt64) {sa : Text} {ta : List Lexeme} {a : ASTNode}
    (htext : Renders sa ta) (ha : ReadAs stod 4 ta a) (sb : Text) (b : ASTNode) (n : ℕ)
    (hn : (lexemes (conditionText sa sb)).length ≤ n) : ¬ReadsEquality stod n sa sb a b := by
  rw [lexemes_conditionText htext,List.length_cons,List.length_append] at hn
  rintro (⟨rest,hexpression⟩ | ⟨rest,hwhere⟩)
  · rw [lexemes_equalityText htext] at hexpression
    have hread := parses_equalityText ha (lexemes sb) n (by omega)
    exact ne_equality a _ (hread.unique hexpression).1
  · rw [lexemes_conditionText htext] at hwhere
    obtain ⟨n,rfl⟩ := Nat.exists_eq_add_of_le' (show 1 ≤ n by omega)
    have hcondition : Parses (parseWhere (calls stod (n+1)))
        (⟨.WHERE,['W','H','E','R','E']⟩::(ta++⟨.ASSIGN,['=']⟩::lexemes sb)) ⟨a⟩
        (⟨.ASSIGN,['=']⟩::lexemes sb) := by
      apply (parses_consume (by rfl)).bind
      exact (parses_equalityText ha (lexemes sb) n (by omega)).bind (Parses.pure _ _)
    exact ne_equality a _ (WhereClause.mk.inj (hcondition.unique hwhere).1)

/-- The operand `x` in lower case, compared with 1. -/
theorem not_readsEquality_x :
    ¬ReadsEquality (fun _ => none) 10 ['x'] ['1'] (.columnRef [] ['X']) (.literal (.ofInt 1)) := by
  have htext : Renders ['x'] [identifier ['X']] := renders_of_reads (by unfold Reads; decide)
  have hread : ReadAs (fun _ => none) 4 [identifier ['X']] (.columnRef [] ['X']) :=
    readAs_print (e := .column ['X']) _ (by decide) (by decide) (by decide)
  have hlength : (lexemes (conditionText ['x'] ['1'])).length ≤ 10 := by
    rw [lexemes_conditionText htext]
    decide
  exact not_readsEquality _ htext hread ['1'] _ 10 hlength

/-- Both operands are texts of expressions that are read, and their equality is not. -/
theorem equality_not_read :
    Renders ['X'] [identifier ['X']] ∧ Renders ['Y'] [identifier ['Y']] ∧
    ReadAs (fun _ => none) 4 [identifier ['X']] (.columnRef [] ['X']) ∧
    ReadAs (fun _ => none) 4 [identifier ['Y']] (.columnRef [] ['Y']) ∧
    ¬ReadsEquality (fun _ => none) 10 ['X'] ['Y'] (.columnRef [] ['X']) (.columnRef [] ['Y']) := by
  refine ⟨renders_of_reads (by unfold Reads; decide),renders_of_reads (by unfold Reads; decide),
    readAs_print (e := .column ['X']) _ (by decide) (by decide) (by decide),
    readAs_print (e := .column ['Y']) _ (by decide) (by decide) (by decide),?_⟩
  rintro (⟨rest,hexpression⟩ | ⟨rest,hwhere⟩)
  · have hread : Parses (parseExpression (calls (fun _ => none) 10))
        (lexemes (equalityText ['X'] ['Y'])) (.columnRef [] ['X'])
        [⟨.ASSIGN,['=']⟩,identifier ['Y']] := rfl
    cases (hread.unique hexpression).1
  · have hread : Parses (parseWhere (calls (fun _ => none) 10))
        (lexemes (conditionText ['X'] ['Y'])) ⟨.columnRef [] ['X']⟩
        [⟨.ASSIGN,['=']⟩,identifier ['Y']] := rfl
    cases (hread.unique hwhere).1

end Equality

end OrangeSQL
