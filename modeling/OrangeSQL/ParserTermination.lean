import OrangeSQL.ParserSteps

/-! When the parser returns. Every loop and every recursive call takes a token, except the loop
that skips a CASE expression: without an END it stays at the end of the input for ever. -/
namespace OrangeSQL

open Parsing

namespace SQLParser

/-- What stands behind a CASE has no END. -/
def Endless (behind : List Lexeme) : Prop := ∀ t ∈ behind, t.type ≠ .END

/-- The tokens begin with a CASE, and `behind` follows it. -/
def CaseSite (ts behind : List Lexeme) : Prop := ∃ t, ts = t::behind ∧ t.type = .CASE

/-- Parsers that return on fewer than `m` tokens unless they enter an endless CASE. -/
abbrev Returns {α : Type} (m : ℕ) (w : α → ℕ) (p q : SQLParser α) : Prop :=
  Ends Endless CaseSite m w p q

/-- The same on given tokens. -/
abbrev ReturnsAt {α : Type} (w : α → ℕ) (p q : SQLParser α) (ts : List Lexeme) : Prop :=
  EndsAt Endless CaseSite w p q ts

variable {α : Type} {m : ℕ} {w : α → ℕ} {v : α → ℕ} {t : TokenType}

theorem returns_currentToken : Returns m (fun _ => 0) currentToken currentToken :=
  Ends.remaining.bind fun _ => Ends.pure rfl

theorem returns_peekToken : Returns m (fun _ => 0) peekToken peekToken :=
  Ends.remaining.bind fun _ => Ends.pure rfl

theorem returns_error (message : String) :
    Returns m w (error message) (error message : SQLParser α) :=
  Ends.remaining.bind fun _ => Ends.fail _

theorem returns_isMatch : Returns m (fun _ => 0) (isMatch t) (isMatch t) :=
  returns_currentToken.bind fun _ => Ends.pure rfl

theorem returns_matchAny (types : List TokenType) :
    Returns m (fun _ => 0) (matchAny types) (matchAny types) :=
  returns_currentToken.bind fun _ => Ends.pure rfl

theorem endsAt_expect_fail {ts : List Lexeme} (h : (ts.headD endOfFile).type ≠ t)
    {w : Unit → ℕ} : ReturnsAt w (expect t) (expect t) ts := by
  have hr := Parser.bind_run (currentToken_run ts) (fun token =>
    if token.type = t then pure () else
      error s!"Esperado {t.ctorIdx}, encontrado '{String.ofList token.text}'")
  rw [if_neg h] at hr
  have he : Returns (ts.length+1) w (error _) (error _) := returns_error
    s!"Esperado {t.ctorIdx}, encontrado '{String.ofList (ts.headD endOfFile).text}'"
  exact (he ts (by omega)).congr hr hr

theorem headD_type_ne_nil {ts : List Lexeme} (ht : t ≠ .END_OF_FILE)
    (h : (ts.headD endOfFile).type = t) : ts.tail.length+1 = ts.length := by
  cases ts with
  | nil => exact absurd h.symm ht
  | cons a ts => simp

theorem returns_expectNext (ht : t ≠ .END_OF_FILE) :
    Returns m (fun _ => 1) (expectNext t) (expectNext t) := by
  intro ts hts
  by_cases h : (ts.headD endOfFile).type = t
  · exact EndsAt.of_ok (expectNext_run h) (List.tail_suffix _) (headD_type_ne_nil ht h).le
  · apply (endsAt_expect_fail (w:=fun _ => 1) h).bind
    intro _ rest hrest
    exact EndsAt.of_ok rfl (List.tail_suffix _) (by simp)

theorem returns_consume (ht : t ≠ .END_OF_FILE) :
    Returns m (fun _ => 1) (consume t) (consume t) := by
  intro ts hts
  by_cases h : (ts.headD endOfFile).type = t
  · exact EndsAt.of_ok (consume_run h) (List.tail_suffix _) (headD_type_ne_nil ht h).le
  · apply EndsAt.step (currentToken_run ts) List.suffix_rfl
    apply (endsAt_expect_fail (w:=fun _ => 1) h).bind
    intro _ rest hrest
    apply EndsAt.step rfl (List.tail_suffix _)
    exact EndsAt.pure (by simp)

theorem returns_accept (ht : t ≠ .END_OF_FILE) : Returns m Bool.toNat (accept t) (accept t) := by
  intro ts hts
  by_cases h : (ts.headD endOfFile).type = t
  · have hr := accept_run t ts
    rw [if_pos h] at hr
    exact EndsAt.of_ok hr (List.tail_suffix _) (headD_type_ne_nil ht h).le
  · have hr := accept_run t ts
    rw [if_neg h] at hr
    exact EndsAt.of_ok hr List.suffix_rfl (by simp)

/-- A branch that is taken when a token is skipped. -/
theorem returns_ifAccept (ht : t ≠ .END_OF_FILE) {p q p' q' : SQLParser α}
    (h : Returns (m-1) (fun a => w a-1) p q) (h' : Returns m w p' q') :
    Returns m w (do if ← accept t then p else p') (do if ← accept t then q else q') := by
  apply (returns_accept ht).bind
  intro b
  cases b with
  | true => exact h
  | false => exact h'

theorem returns_ifMatch {p q p' q' : SQLParser α} (h : Returns m w p q)
    (h' : Returns m w p' q') :
    Returns m w (do if ← isMatch t then p else p') (do if ← isMatch t then q else q') := by
  apply returns_isMatch.bind
  intro b
  cases b with
  | true => exact h
  | false => exact h'

theorem returns_optional {p q : SQLParser α} (h : Returns m w p q) :
    Returns m (fun _ => 0) (optional t p) (optional t q) :=
  returns_ifMatch (h.bind fun _ => Ends.pure (by omega)) (Ends.pure rfl)

theorem returns_acceptThen (ht : t ≠ .END_OF_FILE) {p q : SQLParser α}
    (h : Returns (m-1) w p q) : Returns m (fun _ => 0) (acceptThen t p) (acceptThen t q) :=
  returns_ifAccept ht (h.bind fun _ => Ends.pure (by omega)) (Ends.pure rfl)

theorem returns_commaList {fuel fuel' : ℕ} (hf : m ≤ fuel) (hf' : m ≤ fuel')
    {p q : SQLParser α} (h : Returns m (fun _ => 1) p q) :
    Returns m (fun _ => 1) (commaList fuel p) (commaList fuel' q) := by
  apply Ends.loop [] hf hf'
  intro list
  apply h.bind
  intro a
  apply (returns_accept (by decide)).bind
  intro b
  cases b <;> exact Ends.pure rfl

theorem returns_whileAny {fuel fuel' : ℕ} (hf : m ≤ fuel) (hf' : m ≤ fuel')
    {types : List TokenType} {p q : SQLParser α} (h : Returns m (fun _ => 1) p q) :
    Returns m (fun _ => 0) (whileAny fuel types p) (whileAny fuel' types q) := by
  apply Ends.loop [] hf hf'
  intro list
  apply (returns_matchAny types).bind
  intro b
  cases b with
  | true => exact h.bind fun _ => Ends.pure rfl
  | false => exact Ends.pure rfl

/-- An operator that is read takes a token. -/
def operatorWeight (op : Option Operator) : ℕ := op.isSome.toNat

theorem returns_operatorIn {table : List (TokenType × Operator)}
    (ht : table.lookup .END_OF_FILE = none) :
    Returns m operatorWeight (operatorIn table) (operatorIn table) := by
  intro ts hts
  apply EndsAt.step (currentToken_run ts) List.suffix_rfl
  cases hl : table.lookup (ts.headD endOfFile).type with
  | none => exact EndsAt.pure (by simp [operatorWeight])
  | some op =>
    have hne : ts.tail.length+1 = ts.length := by
      apply headD_type_ne_nil _ rfl
      intro he
      rw [he,ht] at hl
      cases hl
    have hn : nextToken ts = ⟨[],some (.ok ((),ts.tail))⟩ := rfl
    apply EndsAt.step hn (List.tail_suffix _)
    exact EndsAt.pure (by simp [operatorWeight]; omega)

theorem returns_leftAssociative {fuel fuel' : ℕ} (hf : m ≤ fuel) (hf' : m ≤ fuel')
    {operator : SQLParser (Option Operator)} {p q : SQLParser ASTNode}
    (ho : Returns m operatorWeight operator operator) (h : Returns m (fun _ => 1) p q) :
    Returns m (fun _ => 1) (leftAssociative fuel operator p)
      (leftAssociative fuel' operator q) := by
  apply h.bind
  intro left
  apply Ends.loop left (by omega) (by omega)
  intro left
  apply (ho.mono (by omega) fun _ => le_rfl).bind
  intro op
  cases op with
  | none => exact Ends.pure rfl
  | some op => exact (h.mono (by omega) fun _ => le_rfl).bind fun _ => Ends.pure rfl

/-- Call records whose procedures return on fewer than `m` tokens, with fuel for one more. -/
structure GoodCalls (m : ℕ) (c c' : Calls) : Prop where
  fuel : m+1 ≤ c.fuel
  fuel' : m+1 ≤ c'.fuel
  stod : c.stod = c'.stod
  expression : Returns m (fun _ => 1) c.expression c'.expression
  select : Returns m (fun _ => 1) c.select c'.select

/-- A round of the loop that looks for END. -/
def caseRound : Unit → SQLParser (Unit ⊕ Unit) := fun _ => do
  if ← isMatch .END then return .inr ()
  else
    nextToken
    return .inl ()

theorem caseRound_end {ts : List Lexeme} (h : (ts.headD endOfFile).type = .END) :
    caseRound () ts = ⟨[],some (.ok (.inr (),ts))⟩ := by
  rw [caseRound,Parser.bind_run (isMatch_run .END ts),h]
  rfl

theorem caseRound_next {ts : List Lexeme} (h : (ts.headD endOfFile).type ≠ .END) :
    caseRound () ts = ⟨[],some (.ok (.inl (),ts.tail))⟩ := by
  rw [caseRound,Parser.bind_run (isMatch_run .END ts),decide_eq_false h]
  rfl

/-- Without an END the loop is never left, whatever its fuel. -/
theorem caseLoop_endless (n : ℕ) {ts : List Lexeme} (h : Endless ts) :
    Parser.loop n caseRound () ts = ⟨[],none⟩ := by
  induction n generalizing ts with
  | zero => rfl
  | succ n ih =>
    have hh : (ts.headD endOfFile).type ≠ .END := by
      cases ts with
      | nil => decide
      | cons t ts => exact h t (by simp)
    have ht : Endless ts.tail := fun t ht => h t (List.mem_of_mem_tail ht)
    rw [Parser.loop,Parser.bind_run (caseRound_next hh)]
    exact ih ht

/-- With an END it is left there, if there is fuel for all tokens. -/
theorem caseLoop_end {ts : List Lexeme} (h : ¬ Endless ts) :
    ∃ rest, (∀ n, ts.length < n →
        Parser.loop n caseRound () ts = ⟨[],some (.ok ((),rest))⟩) ∧
      (rest.headD endOfFile).type = .END ∧ rest <:+ ts := by
  induction ts with
  | nil => exact absurd (by simp [Endless]) h
  | cons t ts ih =>
    by_cases hh : ((t::ts).headD endOfFile).type = .END
    · refine ⟨t::ts,?_,hh,List.suffix_rfl⟩
      intro n hn
      obtain ⟨n,rfl⟩ := Nat.exists_eq_add_of_le' (show 1 ≤ n by omega)
      rw [Parser.loop,Parser.bind_run (caseRound_end hh)]
      rfl
    · have ht : ¬ Endless ts := by
        intro he
        apply h
        simp only [Endless,List.mem_cons,forall_eq_or_imp]
        exact ⟨hh,he⟩
      obtain ⟨rest,hr,he,hl⟩ := ih ht
      refine ⟨rest,?_,he,hl.trans (List.suffix_cons t ts)⟩
      intro n hn
      obtain ⟨n,rfl⟩ := Nat.exists_eq_add_of_le' (show 1 ≤ n by omega)
      rw [Parser.loop,Parser.bind_run (caseRound_next hh)]
      exact hr n (by simpa using hn)

theorem skipCase_run (c : Calls) (ts : List Lexeme) :
    skipCase c ts = ⟨ts.tail :: ((do Parser.loop c.fuel caseRound (); expectNext .END :
      SQLParser Unit) ts.tail).events,((do Parser.loop c.fuel caseRound (); expectNext .END :
      SQLParser Unit) ts.tail).result⟩ := by
  have hn : nextToken ts = ⟨[],some (.ok ((),ts.tail))⟩ := rfl
  have hb : (Parser.remaining : SQLParser _) ts.tail = ⟨[],some (.ok (ts.tail,ts.tail))⟩ := rfl
  have he : (Parser.emit ts.tail : SQLParser _) ts.tail = ⟨[ts.tail],some (.ok ((),ts.tail))⟩ := rfl
  rw [skipCase,Parser.bind_run hn,Parser.bind_run hb,Parser.bind_run_events he]
  rfl

theorem endsAt_skipCase {c c' : Calls} (h : GoodCalls m c c') {ts : List Lexeme}
    (hts : ts.length < m+1) (hcase : (ts.headD endOfFile).type = .CASE) :
    ReturnsAt (fun _ => 0) (skipCase c) (skipCase c') ts := by
  have hsite : CaseSite ts ts.tail := by
    cases ts with
    | nil => cases hcase
    | cons t ts => exact ⟨t,rfl,hcase⟩
  have hlen : ts.tail.length ≤ ts.length := by simp
  have hf := h.fuel
  have hf' := h.fuel'
  by_cases he : Endless ts.tail
  · have hr : ∀ c, skipCase c ts = ⟨[ts.tail],none⟩ := by
      intro c
      rw [skipCase_run,Parser.bind_run_none (caseLoop_endless c.fuel he)]
    refine ⟨by rw [hr,hr],by simp [hr,he],?_,?_,?_⟩
    · simpa [hr] using ⟨ts,List.suffix_rfl,hsite⟩
    · simp [Parses,hr]
    · simp [Parses,hr]
  · obtain ⟨rest,hl,hend,hrest⟩ := caseLoop_end he
    have hr : ∀ c : Calls, m+1 ≤ c.fuel →
        skipCase c ts = ⟨[ts.tail],some (.ok ((),rest.tail))⟩ := by
      intro c hc
      rw [skipCase_run,Parser.bind_run (hl c.fuel (by omega)),expectNext_run hend]
    have hread : ∀ a rest', Parses (skipCase c) ts a rest' → rest.tail = rest' := by
      intro a rest' hp
      simpa [Parses,hr c hf] using hp
    have hsuffix : rest.tail <:+ ts :=
      (List.tail_suffix rest).trans (hrest.trans (List.tail_suffix ts))
    refine ⟨by rw [hr c hf,hr c' hf'],by simp [hr c hf,he],?_,?_,?_⟩
    · simpa [hr c hf] using ⟨ts,List.suffix_rfl,hsite⟩
    · intro a rest' hp
      rw [← hread a rest' hp]
      exact hsuffix
    · intro a rest' hp
      rw [← hread a rest' hp]
      exact hsuffix.length_le

theorem endsAt_current {ts : List Lexeme} {f g : Lexeme → SQLParser α}
    (h : ReturnsAt w (f (ts.headD endOfFile)) (g (ts.headD endOfFile)) ts) :
    ReturnsAt w (currentToken >>= f) (currentToken >>= g) ts :=
  h.congr (Parser.bind_run (currentToken_run ts) f) (Parser.bind_run (currentToken_run ts) g)

theorem endsAt_peek {ts : List Lexeme} {f g : Lexeme → SQLParser α}
    (h : ∀ next, ReturnsAt w (f next) (g next) ts) :
    ReturnsAt w (peekToken >>= f) (peekToken >>= g) ts := by
  have hr : peekToken ts = ⟨[],some (.ok (ts.tail.headD endOfFile,ts))⟩ := rfl
  exact (h _).congr (Parser.bind_run hr f) (Parser.bind_run hr g)

theorem endsAt_next {ts : List Lexeme} {p q : SQLParser α} (ht : t ≠ .END_OF_FILE)
    (hts : (ts.headD endOfFile).type = t)
    (h : ReturnsAt (fun a => w a-1) p q ts.tail) :
    ReturnsAt w (nextToken >>= fun _ => p) (nextToken >>= fun _ => q) ts := by
  have hl := headD_type_ne_nil ht hts
  have hr : nextToken ts = ⟨[],some (.ok ((),ts.tail))⟩ := rfl
  apply EndsAt.step hr (List.tail_suffix _)
  exact h.mono fun a => by omega

section

variable {c c' : Calls}

theorem returns_parseColumnRef :
    Returns m (fun _ => 1) parseColumnRef parseColumnRef := by
  apply (returns_consume (by decide)).bind
  intro first
  apply returns_ifAccept (by decide)
  · exact (returns_consume (by decide)).bind fun _ => Ends.pure (by omega)
  · exact Ends.pure (by omega)

theorem returns_parseParenthesised (h : GoodCalls m c c') :
    Returns m (fun _ => 0) (parseParenthesised c) (parseParenthesised c') := by
  apply returns_ifMatch
  · apply h.select.bind
    intro node
    exact (returns_expectNext (by decide)).bind fun _ => Ends.pure (by omega)
  · apply h.expression.bind
    intro node
    exact (returns_expectNext (by decide)).bind fun _ => Ends.pure (by omega)

theorem returns_parseFunctionCall (h : GoodCalls m c c') :
    Returns (m+1) (fun _ => 1) (parseFunctionCall c) (parseFunctionCall c') := by
  have hf := h.fuel
  have hf' := h.fuel'
  apply (returns_consume (by decide)).bind
  intro name
  apply (returns_consume (by decide)).bind
  intro _
  apply returns_ifMatch
  · exact (returns_expectNext (by decide)).bind fun _ => Ends.pure (by omega)
  · apply (returns_commaList (by omega) (by omega)
      (h.expression.mono (by omega) fun _ => le_rfl)).bind
    intro arguments
    exact (returns_expectNext (by decide)).bind fun _ => Ends.pure (by omega)

theorem returns_parsePrimary (h : GoodCalls m c c') :
    Returns (m+1) (fun _ => 1) (parsePrimary c) (parsePrimary c') := by
  intro ts hts
  have htail : ts.tail.length < m+1 := by
    rw [List.length_tail]
    omega
  apply endsAt_current
  apply endsAt_peek
  intro next
  refine EndsAt.ite (fun ht => ?_) fun _ => ?_
  · cases stoi (ts.headD endOfFile).text with
    | ok v => exact endsAt_next (by decide) ht (EndsAt.pure (by omega))
    | error e => exact EndsAt.fail e
  refine EndsAt.ite (fun ht => ?_) fun _ => ?_
  · rw [← h.stod]
    cases c.stod (ts.headD endOfFile).text with
    | some v => exact endsAt_next (by decide) ht (EndsAt.pure (by omega))
    | none => exact EndsAt.fail _
  refine EndsAt.ite (fun ht => endsAt_next (by decide) ht (EndsAt.pure (by omega))) fun _ => ?_
  refine EndsAt.ite (fun ht => endsAt_next (by decide) ht (EndsAt.pure (by omega))) fun _ => ?_
  refine EndsAt.ite (fun ht => endsAt_next (by decide) ht (EndsAt.pure (by omega))) fun _ => ?_
  refine EndsAt.ite (fun _ => returns_parseColumnRef ts hts) fun _ => ?_
  refine EndsAt.ite (fun _ => returns_parseFunctionCall h ts hts) fun _ => ?_
  refine EndsAt.ite (fun ht => ?_) fun _ => ?_
  · have hl := headD_type_ne_nil (by decide) ht
    exact endsAt_next (by decide) ht (returns_parseParenthesised h ts.tail (by omega))
  refine EndsAt.ite (fun ht => ?_) fun _ => returns_error _ ts hts
  apply (endsAt_skipCase h hts ht).bind
  intro _ rest hrest
  exact returns_error _ rest (Nat.lt_succ_self _)

theorem returns_parseUnaryWith (h : GoodCalls m c c') {k n n' : ℕ} (hk : k ≤ m+1) (hn : k ≤ n)
    (hn' : k ≤ n') :
    Returns k (fun _ => 1) (parseUnaryWith c n) (parseUnaryWith c' n') := by
  induction k generalizing n n' with
  | zero =>
    intro ts hts
    omega
  | succ k ih =>
    obtain ⟨n,rfl⟩ := Nat.exists_eq_add_of_le' (show 1 ≤ n by omega)
    obtain ⟨n',rfl⟩ := Nat.exists_eq_add_of_le' (show 1 ≤ n' by omega)
    apply (returns_operatorIn (by decide)).bind
    intro op
    cases op with
    | some op =>
      have hh := ih (show k ≤ m+1 by omega) (show k ≤ n by omega) (show k ≤ n' by omega)
      exact hh.bind fun _ => Ends.pure (by simp [operatorWeight])
    | none => exact (returns_parsePrimary h).mono hk fun _ => le_rfl

theorem returns_parseUnary (h : GoodCalls m c c') :
    Returns (m+1) (fun _ => 1) (parseUnary c) (parseUnary c') :=
  returns_parseUnaryWith h le_rfl h.fuel h.fuel'

theorem returns_parseMultiplicative (h : GoodCalls m c c') :
    Returns (m+1) (fun _ => 1) (parseMultiplicative c) (parseMultiplicative c') :=
  returns_leftAssociative h.fuel h.fuel' (returns_operatorIn (by decide)) (returns_parseUnary h)

theorem returns_parseAdditive (h : GoodCalls m c c') :
    Returns (m+1) (fun _ => 1) (parseAdditive c) (parseAdditive c') :=
  returns_leftAssociative h.fuel h.fuel' (returns_operatorIn (by decide))
    (returns_parseMultiplicative h)

theorem returns_relationalOperator :
    Returns m operatorWeight relationalOperator relationalOperator := by
  apply returns_ifAccept (by decide)
  · exact (returns_expectNext (by decide)).bind fun _ => Ends.pure (by simp [operatorWeight])
  · exact returns_operatorIn (by decide)

theorem returns_parseRelational (h : GoodCalls m c c') :
    Returns (m+1) (fun _ => 1) (parseRelational c) (parseRelational c') :=
  returns_leftAssociative h.fuel h.fuel' returns_relationalOperator (returns_parseAdditive h)

theorem returns_parseIsNull (left : ASTNode) :
    Returns m (fun _ => 0) (parseIsNull left) (parseIsNull left) := by
  apply returns_ifAccept (by decide)
  · apply (returns_accept (by decide)).bind
    intro negated
    exact (returns_expectNext (by decide)).bind fun _ => Ends.pure (by omega)
  · exact Ends.pure (by omega)

theorem returns_parseIn (h : GoodCalls m c c') (left : ASTNode) :
    Returns m (fun _ => 0) (parseIn c left) (parseIn c' left) := by
  apply returns_currentToken.bind
  intro token
  apply returns_peekToken.bind
  intro next
  apply Ends.ite
  · apply (returns_accept (by decide)).bind
    intro negated
    apply (returns_expectNext (by decide)).bind
    intro _
    apply (returns_expectNext (by decide)).bind
    intro _
    apply (returns_optional (h.select.mono (by omega) fun _ => le_rfl)).bind
    intro right
    exact (returns_expectNext (by decide)).bind fun _ => Ends.pure (by omega)
  · exact Ends.pure (by omega)

theorem returns_parseBetween (h : GoodCalls m c c') (left : ASTNode) :
    Returns m (fun _ => 0) (parseBetween c left) (parseBetween c' left) := by
  apply returns_currentToken.bind
  intro token
  apply returns_peekToken.bind
  intro next
  apply Ends.ite
  · apply (returns_accept (by decide)).bind
    intro negated
    apply (returns_expectNext (by decide)).bind
    intro _
    apply (h.expression.mono (by omega) fun _ => le_rfl).bind
    intro lower
    apply (returns_expectNext (by decide)).bind
    intro _
    apply (h.expression.mono (by omega) fun _ => le_rfl).bind
    intro upper
    exact Ends.pure (by omega)
  · exact Ends.pure (by omega)

theorem returns_parseEquality (h : GoodCalls m c c') :
    Returns (m+1) (fun _ => 1) (parseEquality c) (parseEquality c') := by
  apply (returns_leftAssociative h.fuel h.fuel' (returns_operatorIn (by decide))
    (returns_parseRelational h)).bind
  intro left
  apply (returns_parseIsNull left).bind
  intro left
  apply ((returns_parseIn h left).mono (by omega) fun _ => le_rfl).bind
  intro left
  exact (returns_parseBetween h left).mono (by omega) fun _ => by omega

theorem returns_parseLogicalAnd (h : GoodCalls m c c') :
    Returns (m+1) (fun _ => 1) (parseLogicalAnd c) (parseLogicalAnd c') :=
  returns_leftAssociative h.fuel h.fuel' (returns_operatorIn (by decide)) (returns_parseEquality h)

theorem returns_parseExpression (h : GoodCalls m c c') :
    Returns (m+1) (fun _ => 1) (parseExpression c) (parseExpression c') :=
  returns_leftAssociative h.fuel h.fuel' (returns_operatorIn (by decide))
    (returns_parseLogicalAnd h)

theorem returns_parseWhere (h : GoodCalls m c c') :
    Returns (m+1) (fun _ => 1) (parseWhere c) (parseWhere c') := by
  apply (returns_consume (by decide)).bind
  intro _
  exact h.expression.bind fun _ => Ends.pure (by omega)

theorem returns_parseOrderByItem (h : GoodCalls m c c') :
    Returns m (fun _ => 1) (parseOrderByItem c) (parseOrderByItem c') := by
  apply h.expression.bind
  intro expr
  apply returns_ifAccept (by decide)
  · exact Ends.pure (by omega)
  · exact returns_ifAccept (by decide) (Ends.pure (by omega)) (Ends.pure (by omega))

theorem returns_parseOrderBy (h : GoodCalls m c c') :
    Returns (m+1) (fun _ => 1) (parseOrderBy c) (parseOrderBy c') := by
  have hf := h.fuel
  have hf' := h.fuel'
  apply (returns_consume (by decide)).bind
  intro _
  apply (returns_expectNext (by decide)).bind
  intro _
  apply (returns_commaList (by omega) (by omega)
    ((returns_parseOrderByItem h).mono (by omega) fun _ => le_rfl)).bind
  intro items
  exact Ends.pure (by omega)

theorem returns_parseGroupBy (h : GoodCalls m c c') :
    Returns (m+1) (fun _ => 1) (parseGroupBy c) (parseGroupBy c') := by
  have hf := h.fuel
  have hf' := h.fuel'
  apply (returns_consume (by decide)).bind
  intro _
  apply (returns_expectNext (by decide)).bind
  intro _
  apply (returns_commaList (by omega) (by omega)
    (h.expression.mono (by omega) fun _ => le_rfl)).bind
  intro columns
  exact Ends.pure (by omega)

theorem returns_liftStoi (text : Text) :
    Returns m (fun _ => 0) (liftStoi text) (liftStoi text) := by
  unfold liftStoi
  cases stoi text with
  | ok v => exact Ends.pure rfl
  | error e => exact Ends.fail e

theorem returns_parseCount (old : Int32) :
    Returns m (fun _ => 0) (parseCount old) (parseCount old) := by
  apply returns_ifMatch
  · apply (returns_consume (by decide)).bind
    intro token
    exact (returns_liftStoi token.text).mono le_rfl fun _ => by omega
  · exact Ends.pure (by omega)

theorem returns_parseLimit : Returns m (fun _ => 1) parseLimit parseLimit := by
  apply (returns_consume (by decide)).bind
  intro _
  apply (returns_parseCount (-1)).bind
  intro limit
  apply returns_ifAccept (by decide)
  · exact (returns_parseCount 0).bind fun _ => Ends.pure (by omega)
  apply returns_ifAccept (by decide)
  · exact (returns_parseCount limit).bind fun _ => Ends.pure (by omega)
  · exact Ends.pure (by omega)

theorem returns_nextToken : Returns m (fun _ => 0) nextToken nextToken := Ends.advance

theorem returns_parseJoinType : Returns m (fun _ => 0) parseJoinType parseJoinType := by
  have hskip : ∀ k (type : JoinType), Returns k (fun _ => 0)
      (do nextToken; let _ ← accept .OUTER; return type)
      (do nextToken; let _ ← accept .OUTER; return type) := by
    intro k type
    apply returns_nextToken.bind
    intro _
    exact (returns_accept (by decide)).bind fun _ => Ends.pure (by omega)
  apply returns_currentToken.bind
  intro token
  split
  · exact returns_nextToken.bind fun _ => Ends.pure (by omega)
  · exact hskip _ _
  · exact hskip _ _
  · exact hskip _ _
  · exact returns_nextToken.bind fun _ => Ends.pure (by omega)
  · exact Ends.pure (by omega)

theorem returns_parseAlias : Returns m (fun _ => 0) parseAlias parseAlias := by
  apply returns_ifAccept (by decide)
  · exact (returns_consume (by decide)).bind fun _ => Ends.pure (by omega)
  apply returns_ifMatch
  · exact (returns_consume (by decide)).bind fun _ => Ends.pure (by omega)
  · exact Ends.pure (by omega)

theorem returns_parseIdentifier : Returns m (fun _ => 1) parseIdentifier parseIdentifier :=
  (returns_consume (by decide)).bind fun _ => Ends.pure (by omega)

theorem returns_parseColumnList (h : GoodCalls m c c') :
    Returns (m+1) (fun _ => 1) (parseColumnList c) (parseColumnList c') := by
  have hf := h.fuel
  have hf' := h.fuel'
  apply (returns_expectNext (by decide)).bind
  intro _
  apply (returns_commaList (by omega) (by omega) returns_parseIdentifier).bind
  intro columns
  exact (returns_expectNext (by decide)).bind fun _ => Ends.pure (by omega)

theorem returns_parseJoin (h : GoodCalls m c c') :
    Returns (m+1) (fun _ => 1) (parseJoin c) (parseJoin c') := by
  apply returns_parseJoinType.bind
  intro type
  apply (returns_expectNext (by decide)).bind
  intro _
  apply (returns_consume (by decide)).bind
  intro table
  apply returns_parseAlias.bind
  intro aliasName
  apply returns_ifAccept (by decide)
  · exact (h.expression.mono (by omega) fun _ => le_rfl).bind fun _ => Ends.pure (by omega)
  apply returns_ifAccept (by decide)
  · exact ((returns_parseColumnList h).mono (by omega) fun _ => le_rfl).bind
      fun _ => Ends.pure (by omega)
  · exact Ends.pure (by omega)

theorem returns_parseSelectItem (h : GoodCalls m c c') :
    Returns m (fun _ => 1) (parseSelectItem c) (parseSelectItem c') := by
  apply returns_ifAccept (by decide)
  · exact Ends.pure (by omega)
  · apply h.expression.bind
    intro expr
    exact returns_parseAlias.bind fun _ => Ends.pure (by omega)

theorem returns_parseSelectList (h : GoodCalls m c c') :
    Returns m (fun _ => 1) (parseSelectList c) (parseSelectList c') := by
  have hf := h.fuel
  have hf' := h.fuel'
  exact returns_commaList (by omega) (by omega) (returns_parseSelectItem h)

theorem returns_parseExpressionList (h : GoodCalls m c c') :
    Returns m (fun _ => 1) (parseExpressionList c) (parseExpressionList c') := by
  have hf := h.fuel
  have hf' := h.fuel'
  exact returns_commaList (by omega) (by omega) h.expression

theorem returns_parseRow (h : GoodCalls m c c') :
    Returns (m+1) (fun _ => 1) (parseRow c) (parseRow c') := by
  apply (returns_expectNext (by decide)).bind
  intro _
  apply (returns_parseExpressionList h).bind
  intro row
  exact (returns_expectNext (by decide)).bind fun _ => Ends.pure (by omega)

theorem returns_parseValuesList (h : GoodCalls m c c') :
    Returns (m+1) (fun _ => 1) (parseValuesList c) (parseValuesList c') :=
  returns_commaList h.fuel h.fuel' (returns_parseRow h)

theorem returns_parseTableRef (h : GoodCalls m c c') :
    Returns (m+1) (fun _ => 1) (parseTableRef c) (parseTableRef c') := by
  apply returns_ifAccept (by decide)
  · apply h.select.bind
    intro subquery
    apply (returns_expectNext (by decide)).bind
    intro _
    exact returns_parseAlias.bind fun _ => Ends.pure (by omega)
  · apply (returns_consume (by decide)).bind
    intro table
    exact returns_parseAlias.bind fun _ => Ends.pure (by omega)

theorem returns_parseDistinct : Returns m (fun _ => 0) parseDistinct parseDistinct := by
  apply returns_ifAccept (by decide)
  · exact Ends.pure (by omega)
  · exact (returns_accept (by decide)).bind fun _ => Ends.pure (by omega)

theorem returns_parseSetOperation (h : GoodCalls m c c') :
    Returns (m+1) (fun _ => 0) (parseSetOperation c) (parseSetOperation c') := by
  have hoperand : ∀ f : Bool → SetOperation, Returns m (fun _ => 0)
      (do let all ← accept .ALL; let operand ← c.select; return (f all,some operand))
      (do let all ← accept .ALL; let operand ← c'.select; return (f all,some operand)) := by
    intro f
    apply (returns_accept (by decide)).bind
    intro all
    exact (h.select.mono (by omega) fun _ => le_rfl).bind fun _ => Ends.pure (by omega)
  apply returns_ifAccept (by decide) ((hoperand _).mono le_rfl fun _ => by omega)
  apply returns_ifAccept (by decide) ((hoperand _).mono le_rfl fun _ => by omega)
  apply returns_ifAccept (by decide) ((hoperand _).mono le_rfl fun _ => by omega)
  exact Ends.pure (by omega)

theorem returns_parseFrom (h : GoodCalls m c c') :
    Returns (m+1) (fun _ => 0) (parseFrom c) (parseFrom c') := by
  have hf := h.fuel
  have hf' := h.fuel'
  apply returns_ifAccept (by decide)
  · have hh := returns_commaList (m:=m+1) hf hf' (returns_parseTableRef h)
    exact hh.mono (by omega) fun _ => by omega
  · exact returns_error _

theorem returns_parseHaving (h : GoodCalls m c c') :
    Returns (m+1) (fun _ => 0) (parseHaving c) (parseHaving c') := by
  have hh : Returns m (fun _ => 0) (do let condition ← c.expression; return ⟨condition⟩)
      (do let condition ← c'.expression; return (⟨condition⟩ : WhereClause)) :=
    h.expression.bind fun _ => Ends.pure (by omega)
  exact returns_acceptThen (by decide) hh

theorem returns_parseSelect (h : GoodCalls m c c') :
    Returns (m+1) (fun _ => 1) (parseSelect c) (parseSelect c') := by
  have hf := h.fuel
  have hf' := h.fuel'
  apply (returns_consume (by decide)).bind
  intro _
  apply returns_parseDistinct.bind
  intro distinct
  apply ((returns_parseSelectList h).mono (by omega) fun _ => le_rfl).bind
  intro selectList
  apply ((returns_parseFrom h).mono (by omega) fun _ => le_rfl).bind
  intro fromTables
  apply (returns_whileAny (by omega) (by omega)
    ((returns_parseJoin h).mono (by omega) fun _ => le_rfl)).bind
  intro joins
  apply (returns_optional ((returns_parseWhere h).mono (by omega) fun _ => le_rfl)).bind
  intro whereClause
  apply (returns_optional ((returns_parseGroupBy h).mono (by omega) fun _ => le_rfl)).bind
  intro groupBy
  apply ((returns_parseHaving h).mono (by omega) fun _ => le_rfl).bind
  intro having
  apply (returns_optional ((returns_parseOrderBy h).mono (by omega) fun _ => le_rfl)).bind
  intro orderBy
  apply (returns_optional returns_parseLimit).bind
  intro limit
  apply ((returns_parseSetOperation h).mono (by omega) fun _ => le_rfl).bind
  intro set
  exact Ends.pure (by omega)

theorem returns_parseInsert (h : GoodCalls m c c') :
    Returns (m+1) (fun _ => 1) (parseInsert c) (parseInsert c') := by
  apply (returns_consume (by decide)).bind
  intro _
  apply (returns_expectNext (by decide)).bind
  intro _
  apply (returns_consume (by decide)).bind
  intro table
  apply (returns_optional ((returns_parseColumnList h).mono (by omega) fun _ => le_rfl)).bind
  intro columns
  apply returns_ifAccept (by decide)
  · exact ((returns_parseValuesList h).mono (by omega) fun _ => le_rfl).bind
      fun _ => Ends.pure (by omega)
  apply returns_ifMatch
  · exact (h.select.mono (by omega) fun _ => le_rfl).bind fun _ => Ends.pure (by omega)
  · exact returns_error _

theorem returns_parseAssignment (h : GoodCalls m c c') :
    Returns (m+1) (fun _ => 1) (parseAssignment c) (parseAssignment c') := by
  apply (returns_consume (by decide)).bind
  intro column
  apply (returns_expectNext (by decide)).bind
  intro _
  exact (h.expression.mono (by omega) fun _ => le_rfl).bind fun _ => Ends.pure (by omega)

theorem returns_parseUpdate (h : GoodCalls m c c') :
    Returns (m+1) (fun _ => 1) (parseUpdate c) (parseUpdate c') := by
  have hf := h.fuel
  have hf' := h.fuel'
  apply (returns_consume (by decide)).bind
  intro _
  apply (returns_consume (by decide)).bind
  intro table
  apply (returns_expectNext (by decide)).bind
  intro _
  apply (returns_commaList (by omega) (by omega)
    ((returns_parseAssignment h).mono (by omega) fun _ => le_rfl)).bind
  intro assignments
  apply (returns_optional ((returns_parseWhere h).mono (by omega) fun _ => le_rfl)).bind
  intro whereClause
  exact Ends.pure (by omega)

theorem returns_parseDelete (h : GoodCalls m c c') :
    Returns (m+1) (fun _ => 1) (parseDelete c) (parseDelete c') := by
  apply (returns_consume (by decide)).bind
  intro _
  apply (returns_expectNext (by decide)).bind
  intro _
  apply (returns_consume (by decide)).bind
  intro table
  apply (returns_optional ((returns_parseWhere h).mono (by omega) fun _ => le_rfl)).bind
  intro whereClause
  exact Ends.pure (by omega)

theorem returns_parseDataType : Returns m (fun _ => 0) parseDataType parseDataType := by
  have hlength : ∀ k, Returns k (fun _ => 0)
      (do let _ ← accept .INTEGER; expectNext .RPAREN)
      (do let _ ← accept .INTEGER; expectNext .RPAREN) := by
    intro k
    apply (returns_accept (by decide)).bind
    intro _
    exact (returns_expectNext (by decide)).mono le_rfl fun _ => by omega
  apply returns_ifMatch _ (returns_error _)
  apply (returns_consume (by decide)).bind
  intro token
  apply Ends.ite (Ends.pure (by omega))
  apply Ends.ite (Ends.pure (by omega))
  apply Ends.ite
  · exact (returns_acceptThen (by decide) (hlength _)).bind fun _ => Ends.pure (by omega)
  apply Ends.ite (Ends.pure (by omega))
  apply Ends.ite (Ends.pure (by omega))
  apply Ends.ite (Ends.pure (by omega))
  exact returns_error _

theorem returns_acceptNotNull : Returns m Bool.toNat acceptNotNull acceptNotNull := by
  intro ts hts
  apply endsAt_current
  apply endsAt_peek
  intro next
  refine EndsAt.ite (fun ht => ?_) fun _ => EndsAt.pure rfl
  apply endsAt_next (by decide) ht.1
  exact (returns_nextToken.bind fun _ => Ends.pure rfl) ts.tail (Nat.lt_succ_self _)

theorem returns_parseColumnConstraints (hf : m ≤ c.fuel) (hf' : m ≤ c'.fuel)
    (column : ColumnDef) : Returns m (fun _ => 0) (parseColumnConstraints c column)
      (parseColumnConstraints c' column) := by
  apply Ends.loop column hf hf'
  intro column
  apply returns_acceptNotNull.bind
  intro b
  cases b with
  | true => exact Ends.pure (by simp)
  | false =>
    apply returns_ifAccept (by decide) (Ends.pure (by simp))
    apply returns_ifAccept (by decide)
    · exact (returns_expectNext (by decide)).bind fun _ => Ends.pure (by simp)
    apply returns_ifAccept (by decide) (Ends.pure (by simp))
    apply returns_ifAccept (by decide)
    · exact returns_nextToken.bind fun _ => Ends.pure (by simp)
    · exact Ends.pure (by simp)

theorem returns_parseColumnDef (hf : m ≤ c.fuel) (hf' : m ≤ c'.fuel) :
    Returns m (fun _ => 1) (parseColumnDef c) (parseColumnDef c') := by
  apply (returns_consume (by decide)).bind
  intro name
  apply returns_parseDataType.bind
  intro type
  exact (returns_parseColumnConstraints hf hf' _).mono (by omega) fun _ => by omega

theorem returns_parseTableElement (h : GoodCalls m c c') :
    Returns (m+1) (fun _ => 1) (parseTableElement c) (parseTableElement c') := by
  have hcolumns : ∀ k, k ≤ m+1 →
      Returns k (fun _ => 1) (parseColumnList c) (parseColumnList c') :=
    fun k hk => (returns_parseColumnList h).mono hk fun _ => le_rfl
  apply returns_ifAccept (by decide)
  · apply (returns_expectNext (by decide)).bind
    intro _
    exact (hcolumns _ (by omega)).bind fun _ => Ends.pure (by omega)
  apply returns_ifAccept (by decide)
  · apply (returns_expectNext (by decide)).bind
    intro _
    apply (hcolumns _ (by omega)).bind
    intro columns
    apply (returns_expectNext (by decide)).bind
    intro _
    apply (returns_consume (by decide)).bind
    intro refTable
    exact (hcolumns _ (by omega)).bind fun _ => Ends.pure (by omega)
  apply returns_ifAccept (by decide)
  · exact (hcolumns _ (by omega)).bind fun _ => Ends.pure (by omega)
  apply returns_ifAccept (by decide)
  · apply (returns_expectNext (by decide)).bind
    intro _
    exact (returns_expectNext (by decide)).bind fun _ => Ends.pure (by omega)
  exact (returns_parseColumnDef h.fuel h.fuel').bind fun _ => Ends.pure (by omega)

theorem returns_parseCreateTable (h : GoodCalls m c c') :
    Returns (m+1) (fun _ => 1) (parseCreateTable c) (parseCreateTable c') := by
  have hf := h.fuel
  have hf' := h.fuel'
  apply (returns_consume (by decide)).bind
  intro _
  apply (returns_consume (by decide)).bind
  intro table
  apply (returns_expectNext (by decide)).bind
  intro _
  apply (returns_commaList (by omega) (by omega)
    ((returns_parseTableElement h).mono (by omega) fun _ => le_rfl)).bind
  intro elements
  exact (returns_expectNext (by decide)).bind fun _ => Ends.pure (by omega)

theorem returns_parseCreateIndex (h : GoodCalls m c c') :
    Returns (m+1) (fun _ => 1) (parseCreateIndex c) (parseCreateIndex c') := by
  apply (returns_consume (by decide)).bind
  intro _
  apply (returns_accept (by decide)).bind
  intro unique
  apply (returns_consume (by decide)).bind
  intro index
  apply (returns_expectNext (by decide)).bind
  intro _
  apply (returns_consume (by decide)).bind
  intro table
  exact ((returns_parseColumnList h).mono (by omega) fun _ => le_rfl).bind
    fun _ => Ends.pure (by omega)

theorem returns_parseDropTable : Returns m (fun _ => 0) parseDropTable parseDropTable := by
  apply (returns_consume (by decide)).bind
  intro _
  exact (returns_consume (by decide)).bind fun _ => Ends.pure (by omega)

theorem returns_parseTransaction (ht : t ≠ .END_OF_FILE) :
    Returns m (fun _ => 0) (parseTransaction t) (parseTransaction t) := by
  apply (returns_consume ht).bind
  intro _
  apply (returns_accept (by decide)).bind
  intro _
  exact (returns_optional (returns_consume (by decide))).bind fun _ => Ends.pure (by omega)

theorem returns_map {β : Type} {p q : SQLParser α} (h : Returns m w p q) (f : α → β) :
    Returns m (fun _ => 0) (f <$> p) (f <$> q) :=
  h.bind fun _ => Ends.pure (by omega)

theorem returns_parseStatement (h : GoodCalls m c c') :
    Returns (m+1) (fun _ => 0) (parseStatement c) (parseStatement c') := by
  apply returns_currentToken.bind
  intro token
  split
  · exact returns_map (returns_parseSelect h) _
  · exact returns_map (returns_parseInsert h) _
  · exact returns_map (returns_parseUpdate h) _
  · exact returns_map (returns_parseDelete h) _
  · apply returns_nextToken.bind
    intro _
    apply returns_ifMatch
    · exact (returns_parseCreateTable h).bind fun _ => Ends.pure (by omega)
    apply returns_ifMatch
    · exact (returns_parseCreateIndex h).bind fun _ => Ends.pure (by omega)
    · exact returns_error _
  · apply returns_nextToken.bind
    intro _
    apply returns_ifMatch
    · exact returns_parseDropTable.bind fun _ => Ends.pure (by omega)
    · exact returns_error _
  · exact returns_map (returns_parseTransaction (by decide)) _
  · exact returns_map (returns_parseTransaction (by decide)) _
  · exact returns_map (returns_parseTransaction (by decide)) _
  · exact returns_error _

theorem returns_parseAll (h : GoodCalls m c c') :
    Returns (m+1) (fun _ => 0) (parseAll c) (parseAll c') := by
  apply (returns_parseStatement h).bind
  intro stmt
  exact returns_ifMatch (Ends.pure (by omega)) (returns_error _)

end

/-- Tying the recursion keeps the call records good, as every call within a call has fewer
tokens. -/
theorem goodCalls (stod : Text → Option UInt64) {m n n' : ℕ} (hn : m ≤ n) (hn' : m ≤ n') :
    GoodCalls m (calls stod n) (calls stod n') := by
  induction m generalizing n n' with
  | zero =>
    have hfuel : ∀ k, 0+1 ≤ (calls stod k).fuel := by
      intro k
      cases k <;> simp [calls]
    have hstod : ∀ k, (calls stod k).stod = stod := by
      intro k
      cases k <;> rfl
    exact ⟨hfuel n,hfuel n',by rw [hstod,hstod],fun ts hts => by omega,fun ts hts => by omega⟩
  | succ m ih =>
    obtain ⟨n,rfl⟩ := Nat.exists_eq_add_of_le' (show 1 ≤ n by omega)
    obtain ⟨n',rfl⟩ := Nat.exists_eq_add_of_le' (show 1 ≤ n' by omega)
    have hh := ih (show m ≤ n by omega) (show m ≤ n' by omega)
    exact ⟨by simp [calls]; omega,by simp [calls]; omega,rfl,returns_parseExpression hh,
      returns_parseSelect hh⟩

/-- The parse returns a tree or throws: from some fuel on it is never out of fuel. -/
def Terminates (stod : Text → Option UInt64) (query : Text) : Prop :=
  ∃ N, ∀ n, N ≤ n → (parse stod n query).result.isSome

/-- What stands behind each CASE that the parse of a query enters. -/
def casesEntered (stod : Text → Option UInt64) (query : Text) : List (List Lexeme) :=
  (parse stod (lexemes query).length query).events

theorem parse_eq_of_le (stod : Text → Option UInt64) {n : ℕ} {query : Text}
    (hn : (lexemes query).length ≤ n) :
    parse stod n query = parse stod (lexemes query).length query :=
  (returns_parseAll (goodCalls stod hn le_rfl) (lexemes query) (Nat.lt_succ_self _)).same

theorem parse_none_iff (stod : Text → Option UInt64) (query : Text) :
    (parse stod (lexemes query).length query).result = none ↔
      ∃ behind ∈ casesEntered stod query, Endless behind :=
  (returns_parseAll (goodCalls stod le_rfl le_rfl) (lexemes query) (Nat.lt_succ_self _)).none_iff

/-- A CASE that is entered is one of the query. -/
theorem exists_case_of_entered {stod : Text → Option UInt64} {query : Text}
    {behind : List Lexeme} (h : behind ∈ casesEntered stod query) :
    ∃ t, t.type = .CASE ∧ t::behind <:+ lexemes query := by
  have hh := returns_parseAll (goodCalls stod le_rfl le_rfl) (lexemes query) (Nat.lt_succ_self _)
  obtain ⟨site,hsuffix,t,rfl,ht⟩ := hh.met behind h
  exact ⟨t,ht,hsuffix⟩

/-- A parse terminates exactly when each CASE that it enters has an END behind it, and so it
does when each CASE of the query has one. -/
theorem parse_terminates_iff (stod : Text → Option UInt64) (query : Text) :
    (Terminates stod query ↔
        ∀ behind ∈ casesEntered stod query, ∃ t ∈ behind, t.type = .END) ∧
      ((∀ t behind, t.type = .CASE → t::behind <:+ lexemes query → ∃ t ∈ behind, t.type = .END) →
        Terminates stod query) := by
  have hn := parse_none_iff stod query
  have hsome : Terminates stod query ↔
      (parse stod (lexemes query).length query).result ≠ none := by
    constructor
    · intro ⟨N,hN⟩ hnone
      have hh := hN (max N (lexemes query).length) (le_max_left _ _)
      rw [parse_eq_of_le stod (le_max_right _ _),hnone] at hh
      simp at hh
    · intro hne
      refine ⟨(lexemes query).length,?_⟩
      intro n hle
      rw [parse_eq_of_le stod hle,Option.isSome_iff_ne_none]
      exact hne
  have hiff : Terminates stod query ↔
      ∀ behind ∈ casesEntered stod query, ∃ t ∈ behind, t.type = .END := by
    rw [hsome,ne_eq,hn]
    simp [Endless]
  refine ⟨hiff,fun hall => hiff.mpr ?_⟩
  intro behind hb
  obtain ⟨t,ht,hsuffix⟩ := exists_case_of_entered hb
  exact hall t behind ht hsuffix

/-- The parse of SELECT CASE never returns. -/
theorem parse_select_case_runs_forever :
    ¬ Terminates (fun _ => none) "SELECT CASE".toList := by
  intro ⟨N,hN⟩
  have hh := hN (max N (lexemes "SELECT CASE".toList).length) (le_max_left _ _)
  rw [parse_eq_of_le _ (le_max_right _ _)] at hh
  revert hh
  decide

end SQLParser

end OrangeSQL
