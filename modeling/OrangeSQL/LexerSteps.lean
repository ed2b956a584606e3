import OrangeSQL.Lexer
import OrangeSQL.Library.PrefixReader

/-! What one call of `nextToken` reads, as a function of the characters that are left. -/
namespace OrangeSQL

open PrefixReader

/-- What is left behind the whitespace and the comment that a call skips. -/
def afterTrivia (text : Text) : Text :=
  (text.dropWhile isspace).drop (commentLength (text.dropWhile isspace))

/-- The lexeme at the front of a text and the number of its characters there. -/
def scan : Text → Lexeme × ℕ
  | [] => (⟨.END_OF_FILE,[]⟩,0)
  | c :: text =>
    if isIdentifierStart c then
      (identifierAt (c::text),(identifierAt (c::text)).text.length)
    else if c.isDigit then (numberAt (c::text),(numberAt (c::text)).text.length)
    else if c = '\'' ∨ c = '"' then
      (⟨.STRING,(stringBody c text).1⟩,(stringBody c text).2+1)
    else (operatorOf c text.head?,(operatorOf c text.head?).text.length)

/-- The lexemes of at most `n` calls on a text. -/
def readLexemes : ℕ → Text → List Lexeme
  | 0, _ => []
  | n+1, text =>
    if afterTrivia text = [] then []
    else (scan (afterTrivia text)).1 ::
      readLexemes n ((afterTrivia text).drop (scan (afterTrivia text)).2)

def lexemesOf (text : Text) : List Lexeme := readLexemes (text.length+1) text

namespace Lexer

@[simp] theorem rest_advance (lx : Lexer) : lx.advance.rest = lx.rest.drop 1 := by
  unfold advance
  split
  · next h => simp [h]
  · next c rest h => split <;> simp [h]

@[simp] theorem rest_iterate_advance (n : ℕ) (lx : Lexer) :
    (advance^[n] lx).rest = lx.rest.drop n := by
  induction n with
  | zero => simp
  | succ n ih => rw [Function.iterate_succ_apply',rest_advance,ih,List.drop_drop]

theorem rest_skip (lx : Lexer) :
    lx.skipWhitespace.skipComment.rest = afterTrivia lx.rest := by
  have hw : lx.skipWhitespace.rest = lx.rest.dropWhile isspace := by
    rw [skipWhitespace,rest_iterate_advance,drop_length_takeWhile]
  rw [skipComment,rest_iterate_advance,hw,afterTrivia]

@[simp] theorem lexeme_tokenAt (start : Lexer) (l : Lexeme) :
    (start.tokenAt l).lexeme = l := rfl

theorem nextToken_eq (lx : Lexer) :
    lx.nextToken.1.lexeme = (scan (afterTrivia lx.rest)).1 ∧
      lx.nextToken.2.rest = (afterTrivia lx.rest).drop (scan (afterTrivia lx.rest)).2 := by
  rw [← rest_skip]
  cases hr : lx.skipWhitespace.skipComment.rest with
  | nil => simp [nextToken,hr,scan]
  | cons c text =>
    simp only [nextToken,hr,scan]
    split
    · simp [readIdentifier,hr]
    · split
      · simp [readNumber,hr]
      · split
        · simp [readString,hr]
        · simp [readOperator,hr]

end Lexer

theorem identifierAt_text {c : Char} (hc : isIdentifierStart c) (text : Text) :
    ∃ word, (identifierAt (c::text)).text = c::word := by
  have hp : isIdentifierPart c := by
    simp only [isIdentifierStart,isIdentifierPart,Char.isAlphanum,Bool.or_eq_true,
      decide_eq_true_eq] at hc ⊢
    tauto
  exact ⟨_,List.takeWhile_cons_of_pos hp⟩

theorem numberAt_text {c : Char} (hc : c.isDigit) (text : Text) :
    ∃ digits, (numberAt (c::text)).text = c::digits := by
  simp only [numberAt,List.takeWhile_cons_of_pos hc]
  exact ⟨_,rfl⟩

theorem operatorOf_text (c : Char) (d : Option Char) :
    (operatorOf c d).text = [c] ∨ ∃ e, d = some e ∧ (operatorOf c d).text = [c,e] := by
  unfold operatorOf
  split
  · next op hop =>
    have hh := List.find?_some hop
    simp only [decide_eq_true_eq] at hh
    exact .inr ⟨op.2.1,hh.2,by rw [hh.1]⟩
  · exact .inl rfl

theorem scan_length_pos {text : Text} (ht : text ≠ []) : 0 < (scan text).2 := by
  cases text with
  | nil => exact absurd rfl ht
  | cons c text =>
    simp only [scan]
    split
    · next hc =>
      have hh := identifierAt_text hc text
      obtain ⟨word,hw⟩ := hh
      simp [hw]
    · split
      · next hc =>
        have hh := numberAt_text hc text
        obtain ⟨digits,hd⟩ := hh
        simp [hd]
      · split
        · simp
        · rcases operatorOf_text c text.head? with h | ⟨e,-,h⟩ <;> simp [h]

theorem lookup_ne {β : Type*} [BEq β] [LawfulBEq β] (table : List (β × TokenType)) (t : TokenType)
    (ht : ∀ e ∈ table, e.2 ≠ t) (k : β) : table.lookup k ≠ some t := by
  intro h
  have hh := List.lookup_eq_some_iff.mp h
  obtain ⟨l₁,l₂,rfl,-⟩ := hh
  exact ht (k,t) (by simp) rfl

theorem scan_type_ne {text : Text} (ht : text ≠ []) :
    (scan text).1.type ≠ .END_OF_FILE := by
  cases text with
  | nil => exact absurd rfl ht
  | cons c text =>
    simp only [scan]
    split
    · have hk := lookup_ne keywords .END_OF_FILE (by decide)
        ((c::text).takeWhile isIdentifierPart)
      simp only [identifierAt]
      cases hw : keywords.lookup ((c::text).takeWhile isIdentifierPart) with
      | none => simp
      | some t =>
        rw [hw] at hk
        simpa using hk
    · split
      · simp only [numberAt]
        split <;> simp
      · split
        · simp
        · have hk := lookup_ne oneCharacterOperators .END_OF_FILE (by decide) c
          unfold operatorOf
          split
          · next op hop =>
            have hm := List.mem_of_find?_eq_some hop
            have hall : ∀ op ∈ twoCharacterOperators, op.2.2 ≠ TokenType.END_OF_FILE := by decide
            exact hall op hm
          · cases hw : oneCharacterOperators.lookup c with
            | none => simp
            | some t =>
              rw [hw] at hk
              simpa using hk

theorem length_afterTrivia_le (text : Text) : (afterTrivia text).length ≤ text.length := by
  have hw : (text.dropWhile isspace).length ≤ text.length :=
    (List.dropWhile_sublist isspace).length_le
  simp only [afterTrivia,List.length_drop]
  omega

/-- A call that returns a token leaves fewer characters. -/
theorem length_drop_scan_lt {text : Text} (ht : afterTrivia text ≠ []) :
    ((afterTrivia text).drop (scan (afterTrivia text)).2).length < text.length := by
  have hp := scan_length_pos ht
  have hl := length_afterTrivia_le text
  have hne : 0 < (afterTrivia text).length := List.length_pos_iff.mpr ht
  simp only [List.length_drop]
  omega

theorem map_lexeme_tokens (n : ℕ) (lx : Lexer) :
    (lx.tokens n).map Token.lexeme = readLexemes n lx.rest := by
  induction n generalizing lx with
  | zero => rfl
  | succ n ih =>
    have hh := lx.nextToken_eq
    have ht : lx.nextToken.1.type = (scan (afterTrivia lx.rest)).1.type :=
      congrArg Lexeme.type hh.1
    by_cases he : afterTrivia lx.rest = []
    · simp [Lexer.tokens,readLexemes,ht,he,scan]
    · have hne := scan_type_ne he
      rw [← ht] at hne
      simp [Lexer.tokens,readLexemes,he,hne,hh.1,ih,hh.2]

/-- More calls than there are characters read no further lexeme. -/
theorem readLexemes_eq_of_lt {n m : ℕ} {text : Text} (hn : text.length < n)
    (hm : text.length < m) : readLexemes n text = readLexemes m text := by
  induction n generalizing m text with
  | zero => omega
  | succ n ih =>
    cases m with
    | zero => omega
    | succ m =>
      by_cases he : afterTrivia text = []
      · simp [readLexemes,he]
      · have hl := length_drop_scan_lt he
        simp only [readLexemes,he,if_false]
        rw [@ih m _ (by omega) (by omega)]

theorem lexemes_eq (input : Text) : lexemes input = lexemesOf (input.map Char.toUpper) := by
  rw [lexemes,map_lexeme_tokens,lexemesOf,List.length_map,Lexer.new]

theorem lexemesOf_nil_of {text : Text} (ht : afterTrivia text = []) : lexemesOf text = [] := by
  simp [lexemesOf,readLexemes,ht]

theorem lexemesOf_cons_of {text : Text} (ht : afterTrivia text ≠ []) :
    lexemesOf text = (scan (afterTrivia text)).1 ::
      lexemesOf ((afterTrivia text).drop (scan (afterTrivia text)).2) := by
  have hl := length_drop_scan_lt ht
  rw [lexemesOf,readLexemes,if_neg ht,lexemesOf,
    readLexemes_eq_of_lt hl (Nat.lt_succ_self _)]

/-- The lexemes depend only on what a call finds behind whitespace and comment. -/
theorem lexemesOf_congr {text text' : Text} (h : afterTrivia text = afterTrivia text') :
    lexemesOf text = lexemesOf text' := by
  by_cases ht : afterTrivia text = []
  · rw [lexemesOf_nil_of ht,lexemesOf_nil_of (h.symm.trans ht)]
  · have ht' : afterTrivia text' ≠ [] := h ▸ ht
    rw [lexemesOf_cons_of ht,lexemesOf_cons_of ht',h]

end OrangeSQL
