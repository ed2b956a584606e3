import OrangeSQL.SqlParser

/-! What the small procedures of the parser do on given tokens. A lemma `parses_f` says that `f`
succeeds on them, what it returns and what it leaves. -/
namespace OrangeSQL

open Parsing

namespace SQLParser

variable {t : TokenType}

theorem currentToken_run (ts : List Lexeme) :
    currentToken ts = ⟨[],some (.ok (ts.headD endOfFile,ts))⟩ := rfl

theorem isMatch_run (t : TokenType) (ts : List Lexeme) :
    isMatch t ts = ⟨[],some (.ok (decide ((ts.headD endOfFile).type = t),ts))⟩ := rfl

theorem accept_run (t : TokenType) (ts : List Lexeme) :
    accept t ts = ⟨[],some (.ok (if (ts.headD endOfFile).type = t then (true,ts.tail)
      else (false,ts)))⟩ := by
  rw [accept,Parser.bind_run (isMatch_run t ts)]
  by_cases h : (ts.headD endOfFile).type = t
  · simp only [h,decide_true,if_true]
    rfl
  · simp only [h,decide_false,if_false]
    rfl

theorem expect_run {ts : List Lexeme} (h : (ts.headD endOfFile).type = t) :
    expect t ts = ⟨[],some (.ok ((),ts))⟩ := by
  rw [expect,Parser.bind_run (currentToken_run ts),if_pos h]
  rfl

theorem expectNext_run {ts : List Lexeme} (h : (ts.headD endOfFile).type = t) :
    expectNext t ts = ⟨[],some (.ok ((),ts.tail))⟩ := by
  rw [expectNext,Parser.bind_run (expect_run h)]
  rfl

theorem consume_run {ts : List Lexeme} (h : (ts.headD endOfFile).type = t) :
    consume t ts = ⟨[],some (.ok (ts.headD endOfFile,ts.tail))⟩ := by
  rw [consume,Parser.bind_run (currentToken_run ts),Parser.bind_run (expect_run h)]
  rfl

theorem parses_of_run {α : Type} {p : SQLParser α} {ts rest : List Lexeme} {a : α}
    (h : p ts = ⟨[],some (.ok (a,rest))⟩) : Parses p ts a rest := by
  rw [Parses,h]

/-- The type of the current token. -/
def headType (ts : List Lexeme) : TokenType := (ts.headD endOfFile).type

@[simp] theorem headType_cons (l : Lexeme) (ts : List Lexeme) : headType (l::ts) = l.type := rfl

@[simp] theorem headType_nil : headType [] = .END_OF_FILE := rfl

section

variable {ts rest : List Lexeme} {l : Lexeme}

theorem parses_accept (h : l.type = t) : Parses (accept t) (l::ts) true ts := by
  apply parses_of_run
  rw [accept_run,if_pos (by exact h)]
  rfl

theorem parses_accept_not (h : headType ts ≠ t) : Parses (accept t) ts false ts := by
  apply parses_of_run
  rw [accept_run,if_neg (by exact h)]

theorem parses_isMatch (h : headType ts = t) : Parses (isMatch t) ts true ts := by
  apply parses_of_run
  rw [isMatch_run,decide_eq_true (by exact h)]

theorem parses_isMatch_not (h : headType ts ≠ t) : Parses (isMatch t) ts false ts := by
  apply parses_of_run
  rw [isMatch_run,decide_eq_false (by exact h)]

theorem parses_expectNext (h : l.type = t) : Parses (expectNext t) (l::ts) () ts :=
  parses_of_run (@expectNext_run t (l::ts) h)

theorem parses_consume (h : l.type = t) : Parses (consume t) (l::ts) l ts :=
  parses_of_run (@consume_run t (l::ts) h)

theorem parses_ifAccept {α : Type} {p q : SQLParser α} {a : α} (h : l.type = t)
    (hp : Parses p ts a rest) : Parses (do if ← accept t then p else q) (l::ts) a rest :=
  (parses_accept h).bind hp

theorem parses_ifAccept_not {α : Type} {p q : SQLParser α} {a : α} (h : headType ts ≠ t)
    (hq : Parses q ts a rest) : Parses (do if ← accept t then p else q) ts a rest :=
  (parses_accept_not h).bind hq

theorem parses_ifMatch {α : Type} {p q : SQLParser α} {a : α} (h : headType ts = t)
    (hp : Parses p ts a rest) : Parses (do if ← isMatch t then p else q) ts a rest :=
  (parses_isMatch h).bind hp

theorem parses_ifMatch_not {α : Type} {p q : SQLParser α} {a : α} (h : headType ts ≠ t)
    (hq : Parses q ts a rest) : Parses (do if ← isMatch t then p else q) ts a rest :=
  (parses_isMatch_not h).bind hq

theorem parses_currentToken : Parses currentToken ts (ts.headD endOfFile) ts := rfl

theorem parses_peekToken : Parses peekToken ts (ts.tail.headD endOfFile) ts := rfl

theorem parses_nextToken : Parses nextToken (l::ts) () ts := rfl

theorem headType_of_expect {u : Unit} (h : Parses (expect t) ts u rest) : headType ts = t := by
  by_contra hne
  obtain ⟨token,mid,htoken,hcheck⟩ := h.of_bind
  obtain ⟨rfl,rfl⟩ := htoken.unique parses_currentToken
  rw [if_neg (show ¬(mid.headD endOfFile).type = t from hne)] at hcheck
  cases hcheck

theorem headType_of_expectNext {u : Unit} (h : Parses (expectNext t) ts u rest) :
    headType ts = t := by
  obtain ⟨_,_,hexpect,_⟩ := h.of_bind
  exact headType_of_expect hexpect

theorem headType_of_consume (h : Parses (consume t) ts l rest) : headType ts = t := by
  obtain ⟨token,mid,htoken,h⟩ := h.of_bind
  obtain ⟨rfl,rfl⟩ := htoken.unique parses_currentToken
  obtain ⟨_,_,hexpect,_⟩ := h.of_bind
  exact headType_of_expect hexpect

end

end SQLParser

end OrangeSQL
