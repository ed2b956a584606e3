import OrangeSQL.ExpressionReading
import OrangeSQL.StatementReading

/-! The predicates BETWEEN and IN, with NOT and without, behind an operand. A NOT there belongs to
LIKE, and the lower bound of a BETWEEN takes in the AND behind it. -/
namespace OrangeSQL

open Parsing

namespace SQLParser

section Last

variable {table : List (TokenType × Operator)} {operand : SQLParser ASTNode} {fuel : ℕ}
  {ts rest : List Lexeme} {x a : ASTNode}

theorem operatorIn_none (h : Parses (operatorIn table) ts none rest) :
    rest = ts ∧ table.lookup (headType ts) = none := by
  cases hlook : table.lookup (headType ts) with
  | none => exact ⟨(h.unique (parses_operatorIn_none hlook)).2,rfl⟩
  | some op =>
    obtain ⟨token,mid,htoken,hbody⟩ := h.of_bind
    obtain ⟨rfl,rfl⟩ := htoken.unique parses_currentToken
    have hsome : table.lookup (mid.headD endOfFile).type = some op := hlook
    rw [hsome] at hbody
    obtain ⟨_,_,_,hpure⟩ := hbody.of_bind
    cases (hpure.unique (Parses.pure _ _)).1

/-- What a loop over operators of a table leaves begins with none of them. -/
theorem loop_leaves (h : Parses (Parser.loop fuel (binaryRound (operatorIn table) operand) x) ts a rest) :
    table.lookup (headType rest) = none ∧ (rest = ts ∨ ∃ ts' y, Parses operand ts' y rest) := by
  induction fuel generalizing ts x with
  | zero => cases h
  | succ fuel ih =>
    obtain ⟨next,mid,hround,hloop⟩ := h.of_bind
    obtain ⟨op,behind,hop,hbody⟩ := hround.of_bind
    cases op with
    | none =>
      obtain ⟨rfl,rfl⟩ := hbody.unique (Parses.pure _ _)
      obtain ⟨rfl,rfl⟩ := hloop.unique (Parses.pure _ _)
      obtain ⟨rfl,hlook⟩ := operatorIn_none hop
      exact ⟨hlook,Or.inl rfl⟩
    | some op =>
      obtain ⟨right,mid',hright,hnext⟩ := hbody.of_bind
      obtain ⟨rfl,rfl⟩ := hnext.unique (Parses.pure _ _)
      obtain ⟨hlook,rfl | hlast⟩ := ih hloop
      · exact ⟨hlook,Or.inr ⟨behind,right,hright⟩⟩
      · exact ⟨hlook,Or.inr hlast⟩

theorem leftAssociative_leaves (h : Parses (leftAssociative fuel (operatorIn table) operand) ts a rest) :
    table.lookup (headType rest) = none ∧ ∃ ts' y, Parses operand ts' y rest := by
  obtain ⟨x,mid,hx,hloop⟩ := h.of_bind
  obtain ⟨hlook,rfl | hlast⟩ := loop_leaves hloop
  · exact ⟨hlook,ts,x,hx⟩
  · exact ⟨hlook,hlast⟩

/-- An expression takes in every AND that follows it. -/
theorem headType_ne_and {c : Calls} (h : Parses (parseExpression c) ts a rest) :
    headType rest ≠ .AND := by
  obtain ⟨_,ts',y,hand⟩ := leftAssociative_leaves h
  obtain ⟨hlook,_⟩ := leftAssociative_leaves hand
  intro hhead
  rw [hhead] at hlook
  cases hlook

end Last

inductive Predicate
  | BETWEEN | NOT_BETWEEN | IN | NOT_IN
  deriving DecidableEq, Repr

namespace Predicate

def operator : Predicate → Operator
  | BETWEEN => .BETWEEN
  | NOT_BETWEEN => .NOT_BETWEEN
  | IN => .IN
  | NOT_IN => .NOT_IN

/-- The tokens behind the operand, for those of the bounds or of the SELECT. -/
def tokens (lo hi s : List Lexeme) : Predicate → List Lexeme
  | BETWEEN => keyword .BETWEEN "BETWEEN"::(lo++keyword .AND "AND"::hi)
  | NOT_BETWEEN => keyword .NOT "NOT"::keyword .BETWEEN "BETWEEN"::(lo++keyword .AND "AND"::hi)
  | IN => keyword .IN "IN"::inParentheses s
  | NOT_IN => keyword .NOT "NOT"::keyword .IN "IN"::inParentheses s

end Predicate

/-- The parser reads the tokens as the SELECT, before everything that ends one. -/
def ReadsSelect (stod : Text → Option UInt64) (ts : List Lexeme) (s : SelectNode) : Prop :=
  ∀ n, ts.length ≤ n → ∀ rest, Follows 8 rest → Parses (parseSelect (calls stod n)) (ts++rest) s rest

theorem readsSelect_print (stod : Text → Option UInt64) {s : SelectNode}
    (hs : s.Printable (Reparses stod printNode)) : ReadsSelect stod (printSelect printNode s) s :=
  fun n hn rest hrest => (reads_calls stod printNode n).select s hs hn rest hrest

section Predicates

variable {stod : Text → Option UInt64} {n : ℕ} {te ts lo hi rest rest' : List Lexeme}
  {e x left : ASTNode}

/-- A BETWEEN wants an AND behind an expression, and there is none. -/
theorem not_parses_between (h : Parses (parseBetween (calls stod n) left)
    (keyword .BETWEEN "BETWEEN"::ts) x rest) : False := by
  obtain ⟨token,_,htoken,h⟩ := h.of_bind
  obtain ⟨rfl,rfl⟩ := htoken.unique parses_currentToken
  obtain ⟨next,_,hnext,h⟩ := h.of_bind
  obtain ⟨rfl,rfl⟩ := hnext.unique parses_peekToken
  rw [if_pos (show ((keyword .BETWEEN "BETWEEN"::ts).headD endOfFile).type = .BETWEEN ∨ _ from
    Or.inl rfl)] at h
  obtain ⟨negated,mid,hnot,h⟩ := h.of_bind
  obtain ⟨rfl,rfl⟩ := hnot.unique (parses_accept_not (by simp [keyword]))
  obtain ⟨_,mid',hbetween,h⟩ := h.of_bind
  obtain ⟨lower,mid'',hlower,h⟩ := h.of_bind
  obtain ⟨_,_,hand,_⟩ := h.of_bind
  have hhead := headType_of_expectNext hand
  cases n with
  | zero => cases hlower
  | succ n => exact headType_ne_and hlower hhead

/-- Nothing comes between a relational expression and a NOT that does not belong to LIKE. -/
theorem not_parses_relational (he : Parses (parseAdditive (calls stod n)) ts e
    (keyword .NOT "NOT"::rest)) (hlike : headType rest ≠ .LIKE) :
    ¬Parses (parseRelational (calls stod n)) ts x rest' := by
  intro h
  obtain ⟨left,mid,hleft,hloop⟩ := h.of_bind
  obtain ⟨rfl,rfl⟩ := hleft.unique he
  rw [calls_fuel] at hloop
  obtain ⟨_,_,hround,_⟩ := hloop.of_bind
  obtain ⟨_,_,hop,_⟩ := hround.of_bind
  obtain ⟨found,_,hnot,hthen⟩ := hop.of_bind
  obtain ⟨rfl,rfl⟩ := hnot.unique (parses_accept (by rfl))
  obtain ⟨_,_,hexpect,_⟩ := hthen.of_bind
  exact hlike (headType_of_expectNext hexpect)

/-- What an expression begins with is read at the level of equality. -/
theorem exists_equality {c : Calls} (h : Parses (parseExpression c) ts x rest) :
    ∃ y mid, Parses (parseEquality c) ts y mid := by
  obtain ⟨_,_,hand,_⟩ := h.of_bind
  obtain ⟨y,mid,hequality,_⟩ := hand.of_bind
  exact ⟨y,mid,hequality⟩

theorem exists_relational {c : Calls} (h : Parses (parseEquality c) ts x rest) :
    ∃ y mid, Parses (parseRelational c) ts y mid := by
  obtain ⟨_,_,hchain,_⟩ := h.of_bind
  obtain ⟨y,mid,hrelational,_⟩ := hchain.of_bind
  exact ⟨y,mid,hrelational⟩

/-- The chain of equalities ends with its first operand where another token follows. -/
theorem parses_equalities (he : ReadAs stod 5 te e) (hn : te.length ≤ n) (hrest : Stops 4 rest)
    (hop : List.lookup (headType rest) [(TokenType.EQ,Operator.EQ),(.NE,.NE)] = none) :
    Parses (leftAssociative (calls stod n).fuel (operatorIn [(.EQ,.EQ),(.NE,.NE)])
      (parseRelational (calls stod n))) (te++rest) e rest := by
  have hrelational : Parses (parseRelational (calls stod n)) (te++rest) e rest :=
    he.of_le (k := 4) (by decide) (by decide) (by decide) n hn rest hrest
  apply hrelational.bind
  rw [calls_fuel]
  exact Parses.loop_stop ((parses_operatorIn_none hop).bind (Parses.pure _ _))

/-- A predicate other than IN is not read at all. -/
theorem not_parses_predicate (he : ReadAs stod 5 te e) (hn : te.length ≤ n) {p : Predicate}
    (hp : p ≠ .IN) (lo hi ts : List Lexeme) :
    ¬Parses (parseExpression (calls stod n)) (te++(p.tokens lo hi ts++rest)) x rest' := by
  intro h
  obtain ⟨y,mid,hequality⟩ := exists_equality h
  have hnot : ∀ us, headType us ≠ .LIKE →
      ¬Parses (parseEquality (calls stod n)) (te++keyword .NOT "NOT"::us) y mid := by
    intro us hus hread
    obtain ⟨z,mid',hrelational⟩ := exists_relational hread
    have hfive : Stops 5 (keyword .NOT "NOT"::us) := Nat.lt_succ_self 4
    exact not_parses_relational (he n hn _ hfive) hus hrelational
  cases p with
  | IN => exact hp rfl
  | NOT_BETWEEN => exact hnot _ (by simp [keyword]) hequality
  | NOT_IN => exact hnot _ (by simp [keyword]) hequality
  | BETWEEN =>
    obtain ⟨left,_,hchain,htail⟩ := hequality.of_bind
    have hhead : headType (Predicate.tokens lo hi ts .BETWEEN++rest) = .BETWEEN := rfl
    have hfour : Stops 4 (Predicate.tokens lo hi ts .BETWEEN++rest) := Nat.lt_succ_self 3
    obtain ⟨rfl,rfl⟩ := hchain.unique (parses_equalities he hn hfour rfl)
    obtain ⟨_,_,hisnull,htail⟩ := htail.of_bind
    obtain ⟨rfl,rfl⟩ := hisnull.unique (parses_isNull_not (by simp [hhead]))
    obtain ⟨_,_,hin,hbetween⟩ := htail.of_bind
    obtain ⟨rfl,rfl⟩ := hin.unique (parses_in_not (by simp [hhead]) (by simp [hhead]))
    exact not_parses_between hbetween

/-- IN with a SELECT is. -/
theorem parses_in {s : SelectNode} (he : ReadAs stod 5 te e) (hs : ReadsSelect stod ts s)
    (hn : (te++keyword .IN "IN"::inParentheses ts).length ≤ n) (hrest : Stops 1 rest) :
    Parses (parseExpression (calls stod n)) (te++keyword .IN "IN"::(inParentheses ts++rest))
      (.binary .IN e (some (.select s))) rest := by
  simp only [List.length_append,List.length_cons,length_inParentheses] at hn
  obtain ⟨n,rfl⟩ := Nat.exists_eq_add_of_le' (show 1 ≤ n by omega)
  have hselect : Parses (parseSelect (calls stod n)) (ts++(⟨.RPAREN,[')']⟩::rest)) s
      (⟨.RPAREN,[')']⟩::rest) := hs n (by omega) _ le_rfl
  have hin : Parses (parseIn (calls stod (n+1)) e)
      (keyword .IN "IN"::(inParentheses ts++rest)) (.binary .IN e (some (.select s))) rest := by
    rw [inParentheses_append]
    apply parses_currentToken.bind
    apply parses_peekToken.bind
    rw [if_pos (Or.inl (by rfl))]
    apply (parses_accept_not (by simp [keyword])).bind
    apply (parses_expectNext (by rfl)).bind
    apply (parses_expectNext (by rfl)).bind
    have hoptional : Parses (optional .SELECT (parseSelect (calls stod n)))
        (ts++(⟨.RPAREN,[')']⟩::rest)) (some s) (⟨.RPAREN,[')']⟩::rest) :=
      parses_ifMatch (headType_of_parseSelect hselect) (hselect.bind (Parses.pure _ _))
    apply Parses.bind hoptional
    exact (parses_expectNext (by rfl)).bind (Parses.pure _ _)
  have hfour : Stops 4 (keyword .IN "IN"::(inParentheses ts++rest)) := Nat.lt_succ_self 3
  have hequality : Parses (parseEquality (calls stod (n+1)))
      (te++keyword .IN "IN"::(inParentheses ts++rest)) (.binary .IN e (some (.select s))) rest := by
    apply (parses_equalities he (by omega) hfour rfl).bind
    apply (parses_isNull_not (by simp [keyword])).bind
    exact hin.bind (parses_between_not (hrest.ne (by decide)) (hrest.ne (by decide)))
  exact parses_level_of_le (j := 3) (k := 1) (by decide) le_rfl (by decide)
    (by rw [calls_fuel]; omega) hequality hrest

/-- The tokens are read, before everything that does not go on with them, as a node of the
predicate's operator with the operand on its left. -/
def Accepted (stod : Text → Option UInt64) (p : Predicate) (te lo hi ts : List Lexeme)
    (e : ASTNode) : Prop :=
  ∀ n, (te++p.tokens lo hi ts).length ≤ n → ∀ rest, Stops 1 rest → ∃ right,
    Parses (parseExpression (calls stod n)) (te++(p.tokens lo hi ts++rest))
      (.binary p.operator e right) rest

/-- Of the four predicates only IN is accepted, whatever the bounds and the SELECT are. -/
theorem accepted_iff {s : SelectNode} (he : ReadAs stod 5 te e) (hs : ReadsSelect stod ts s)
    (p : Predicate) (lo hi : List Lexeme) : Accepted stod p te lo hi ts e ↔ p = .IN := by
  constructor
  · intro h
    by_contra hp
    obtain ⟨right,hread⟩ := h _ le_rfl [] (by exact Nat.zero_lt_one)
    exact not_parses_predicate he (by simp) hp lo hi ts hread
  · rintro rfl n hn rest hrest
    exact ⟨_,parses_in he hs hn hrest⟩

/-- `X IN (SELECT * FROM T)`. -/
theorem accepted_in_table :
    Accepted (fun _ => none) .IN [identifier ['X']] [] []
      (printSelect printNode ⟨false,[starNode],[⟨['T'],[],none⟩],[],none,none,none,none,none,.NONE,
        none⟩) (.columnRef [] ['X']) := by
  have hselect : SelectNode.Printable (Reparses (fun _ => none) printNode)
      ⟨false,[starNode],[⟨['T'],[],none⟩],[],none,none,none,none,none,.NONE,none⟩ := by
    constructor <;> simp
  exact (accepted_iff (readAs_print (e := .column ['X']) _ (by decide) (by decide) (by decide))
    (readsSelect_print _ hselect) .IN [] []).mpr rfl

/-- `X BETWEEN 1 AND 2`, and `X NOT BETWEEN 1 AND 2`. -/
theorem between_not_accepted :
    ReadAs (fun _ => none) 5 [identifier ['X']] (.columnRef [] ['X']) ∧
    ¬Accepted (fun _ => none) .BETWEEN [identifier ['X']] [⟨.INTEGER,['1']⟩] [⟨.INTEGER,['2']⟩] []
      (.columnRef [] ['X']) ∧
    ¬Accepted (fun _ => none) .NOT_BETWEEN [identifier ['X']] [⟨.INTEGER,['1']⟩]
      [⟨.INTEGER,['2']⟩] [] (.columnRef [] ['X']) := by
  have hread : ReadAs (fun _ => none) 5 [identifier ['X']] (.columnRef [] ['X']) :=
    readAs_print (e := .column ['X']) _ (by decide) (by decide) (by decide)
  refine ⟨hread,fun h => ?_,fun h => ?_⟩
  · obtain ⟨right,h⟩ := h 9 (by decide) [] (by exact Nat.zero_lt_one)
    exact not_parses_predicate hread (by decide) (by decide) _ _ _ h
  · obtain ⟨right,h⟩ := h 9 (by decide) [] (by exact Nat.zero_lt_one)
    exact not_parses_predicate hread (by decide) (by decide) _ _ _ h

end Predicates

end SQLParser

end OrangeSQL
