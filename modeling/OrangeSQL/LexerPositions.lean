import OrangeSQL.LexerSteps

/-! Where the lexer stands in its input. Every call of `nextToken` is a number of calls of
`advance`, which keeps line and column; it moves on as long as there is a token. -/
namespace OrangeSQL

namespace Lexer

/-- What `nextToken` returns; the three members that it moves are set back. -/
def peekToken (lx : Lexer) : Token × Lexer :=
  let (token,after) := lx.nextToken
  (token,{ after with rest := lx.rest, line := lx.line, column := lx.column })

/-- Back to the first character of the input, which the constructor has turned into upper case. -/
def reset (input : Text) (_ : Lexer) : Lexer := ⟨input.map Char.toUpper,1,1⟩

/-- `pos_`, for a lexer on the input. -/
def pos (input : Text) (lx : Lexer) : ℕ := input.length-lx.rest.length

end Lexer

inductive LexerCall
  | nextToken | peekToken | reset
  deriving DecidableEq, Repr

namespace Lexer

def call (input : Text) (lx : Lexer) : LexerCall → Lexer
  | .nextToken => lx.nextToken.2
  | .peekToken => lx.peekToken.2
  | .reset => lx.reset input

/-- The lexer after some calls. -/
def after (input : Text) (calls : List LexerCall) : Lexer := calls.foldl (call input) (new input)

/-- The line and the column of a character, for the text before it. -/
def lineAfter (text : Text) : ℕ := 1+text.count '\n'
def columnAfter (text : Text) : ℕ := 1+(text.reverse.takeWhile (· ≠ '\n')).length

/-- The lexer is somewhere in the text `upper` and has the line and the column of that place. -/
def Located (upper : Text) (lx : Lexer) : Prop :=
  ∃ before, upper = before++lx.rest ∧ lx.line = lineAfter before ∧ lx.column = columnAfter before

section Located

variable {input upper : Text} {lx : Lexer}

theorem located_start (upper : Text) : Located upper ⟨upper,1,1⟩ := ⟨[],rfl,rfl,rfl⟩

theorem Located.advance (h : Located upper lx) : Located upper lx.advance := by
  obtain ⟨rest,line,column⟩ := lx
  obtain ⟨before,htext,hline,hcolumn⟩ := h
  cases rest with
  | nil => exact ⟨before,htext,hline,hcolumn⟩
  | cons c rest =>
    simp only at htext hline hcolumn
    have htext' : upper = before++[c]++rest := by rw [htext]; simp
    unfold Lexer.advance
    by_cases hc : c = '\n'
    · refine ⟨before++[c],?_,?_,?_⟩
      · simpa [hc] using htext'
      · simp [hc,hline,lineAfter,Nat.add_assoc]
      · simp [hc,columnAfter]
    · refine ⟨before++[c],?_,?_,?_⟩
      · simpa [hc] using htext'
      · simp [hc,hline,lineAfter]
      · simp [hc,hcolumn,columnAfter,Nat.add_assoc]

theorem Located.iterate (h : Located upper lx) (n : ℕ) : Located upper (Lexer.advance^[n] lx) := by
  induction n with
  | zero => exact h
  | succ n ih =>
    rw [Function.iterate_succ_apply']
    exact ih.advance

/-- Every path through `nextToken` consists of calls of `advance`. -/
theorem nextToken_iterate (lx : Lexer) : ∃ n, lx.nextToken.2 = Lexer.advance^[n] lx := by
  have hskip : lx.skipWhitespace.skipComment =
      Lexer.advance^[commentLength lx.skipWhitespace.rest+(lx.rest.takeWhile isspace).length] lx := by
    rw [Function.iterate_add_apply]
    rfl
  have hmore : ∀ k, ∃ n, Lexer.advance^[k] lx.skipWhitespace.skipComment = Lexer.advance^[n] lx := by
    intro k
    rw [hskip,← Function.iterate_add_apply]
    exact ⟨_,rfl⟩
  cases hr : lx.skipWhitespace.skipComment.rest with
  | nil =>
    simp only [nextToken,hr]
    exact hmore 0
  | cons c rest =>
    simp only [nextToken,hr]
    split_ifs
    · exact hmore _
    · exact hmore _
    · exact hmore ((stringBody c lx.skipWhitespace.skipComment.advance.rest).2+1)
    · exact hmore _

theorem Located.nextToken (h : Located upper lx) : Located upper lx.nextToken.2 := by
  obtain ⟨n,hn⟩ := lx.nextToken_iterate
  rw [hn]
  exact h.iterate n

theorem located_after (input : Text) (calls : List LexerCall) :
    Located (input.map Char.toUpper) (after input calls) := by
  induction calls using List.reverseRecOn with
  | nil => exact located_start _
  | append_singleton calls c ih =>
    rw [after,List.foldl_append]
    cases c with
    | nextToken => exact ih.nextToken
    | peekToken => exact ih
    | reset => exact located_start _

/-- A located lexer has all it needs to know of its place in `pos_`. -/
theorem Located.place (h : Located (input.map Char.toUpper) lx) :
    lx.rest.length+pos input lx = input.length ∧
      lx.line = lineAfter ((input.map Char.toUpper).take (pos input lx)) ∧
      lx.column = columnAfter ((input.map Char.toUpper).take (pos input lx)) := by
  obtain ⟨before,htext,hline,hcolumn⟩ := h
  have hlength : input.length = before.length+lx.rest.length := by
    rw [← List.length_map (f := Char.toUpper),htext,List.length_append]
  have hpos : pos input lx = before.length := by
    unfold pos
    omega
  rw [hpos,htext,List.take_left]
  exact ⟨by omega,hline,hcolumn⟩

end Located

section Progress

variable {lx : Lexer}

/-- At the end there is no token, elsewhere there is one and fewer characters are left. -/
theorem nextToken_cases (lx : Lexer) :
    lx.nextToken.1.type = .END_OF_FILE ∧ lx.nextToken.2.rest = [] ∨
      lx.nextToken.1.type ≠ .END_OF_FILE ∧ lx.nextToken.2.rest.length < lx.rest.length := by
  obtain ⟨htoken,hrest⟩ := lx.nextToken_eq
  have htype : lx.nextToken.1.type = (scan (afterTrivia lx.rest)).1.type :=
    congrArg Lexeme.type htoken
  rw [htype,hrest]
  by_cases ht : afterTrivia lx.rest = []
  · exact Or.inl (by rw [ht]; exact ⟨rfl,rfl⟩)
  · exact Or.inr ⟨scan_type_ne ht,length_drop_scan_lt ht⟩

theorem nextToken_of_rest_nil (h : lx.rest = []) :
    lx.nextToken.1.type = .END_OF_FILE ∧ lx.nextToken.2.rest = [] := by
  rcases lx.nextToken_cases with hend | ⟨_,hlt⟩
  · exact hend
  · rw [h] at hlt
    exact absurd hlt (Nat.not_lt_zero _)

/-- The lexer after `n` tokens more. -/
def afterTokens (n : ℕ) (lx : Lexer) : Lexer := (fun lx => (Lexer.nextToken lx).2)^[n] lx

theorem rest_afterTokens_of_nil (h : lx.rest = []) (n : ℕ) : (lx.afterTokens n).rest = [] := by
  induction n with
  | zero => exact h
  | succ n ih =>
    rw [afterTokens,Function.iterate_succ_apply']
    exact (nextToken_of_rest_nil ih).2

/-- After at most as many calls as there are characters, every call returns END_OF_FILE. -/
theorem exists_end (lx : Lexer) :
    ∃ n ≤ lx.rest.length, ∀ m, n ≤ m → (lx.afterTokens m).nextToken.1.type = .END_OF_FILE := by
  induction hlength : lx.rest.length using Nat.strong_induction_on generalizing lx with
  | _ length ih =>
    rcases lx.nextToken_cases with ⟨hend,hrest⟩ | ⟨_,hlt⟩
    · refine ⟨0,Nat.zero_le _,fun m _ => ?_⟩
      cases m with
      | zero => exact hend
      | succ m =>
        rw [afterTokens,Function.iterate_succ_apply]
        exact (nextToken_of_rest_nil (rest_afterTokens_of_nil hrest m)).1
    · rw [hlength] at hlt
      obtain ⟨n,hn,hall⟩ := ih _ hlt lx.nextToken.2 rfl
      refine ⟨n+1,by omega,fun m hm => ?_⟩
      obtain ⟨m,rfl⟩ := Nat.exists_eq_add_of_le' (show 1 ≤ m by omega)
      rw [afterTokens,Function.iterate_succ_apply]
      exact hall m (by omega)

end Progress

/-- A lexer on the input moves on until it returns END_OF_FILE, has the line and the column of its
place, and looks one token ahead without moving. -/
structure Tracks (input : Text) (lx : Lexer) : Prop where
  inside : pos input lx ≤ input.length
  progress :
    lx.nextToken.1.type = .END_OF_FILE ∧ pos input lx.nextToken.2 = input.length ∨
      lx.nextToken.1.type ≠ .END_OF_FILE ∧ pos input lx < pos input lx.nextToken.2 ∧
      pos input lx.nextToken.2 ≤ input.length
  ends : ∃ n ≤ input.length, ∀ m, n ≤ m → (lx.afterTokens m).nextToken.1.type = .END_OF_FILE
  line : lx.line = lineAfter ((input.map Char.toUpper).take (pos input lx))
  column : lx.column = columnAfter ((input.map Char.toUpper).take (pos input lx))
  peek : lx.peekToken.1 = lx.nextToken.1 ∧ pos input lx.peekToken.2 = pos input lx ∧
    lx.peekToken.2.line = lx.line ∧ lx.peekToken.2.column = lx.column

/-- So does every lexer, whatever was called on it before. -/
theorem tracks_after (input : Text) (calls : List LexerCall) : Tracks input (after input calls) := by
  have hlocated := located_after input calls
  generalize after input calls = lx at hlocated
  obtain ⟨hplace,hline,hcolumn⟩ := hlocated.place
  obtain ⟨hplace',_,_⟩ := hlocated.nextToken.place
  refine ⟨by omega,?_,?_,hline,hcolumn,rfl,rfl,rfl,rfl⟩
  · rcases lx.nextToken_cases with ⟨hend,hrest⟩ | ⟨hmore,hlt⟩
    · rw [hrest,List.length_nil,Nat.zero_add] at hplace'
      exact Or.inl ⟨hend,hplace'⟩
    · exact Or.inr ⟨hmore,by omega,by omega⟩
  · obtain ⟨n,hn,hall⟩ := lx.exists_end
    exact ⟨n,by omega,hall⟩

end Lexer

end OrangeSQL
