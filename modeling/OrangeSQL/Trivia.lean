import OrangeSQL.LexerLocality
import OrangeSQL.StringLiterals

/-! Whitespace and comments between tokens. A call of `nextToken` skips whitespace once and then
at most one comment, so whitespace may be inserted anywhere between two tokens, and a comment
only in front of a token that nothing precedes. -/
namespace OrangeSQL

def Whitespace (w : Text) : Prop := ∀ c ∈ w, isspace c

instance (w : Text) : Decidable (Whitespace w) := List.decidableBAll _ w

/-- Sequences of whitespace, of line comments that a newline ends and of block comments. -/
inductive Trivia : Text → Prop
  | nil : Trivia []
  | space {c w} : isspace c → Trivia w → Trivia (c::w)
  | line {m body w} : m = '-' ∨ m = '/' → '\n' ∉ body → Trivia w →
      Trivia (m::m::(body ++ '\n'::w))
  | block {body w} : ¬ ['*','/'] <:+: body → Trivia w →
      Trivia ('/' :: '*'::(body ++ '*' :: '/'::w))

/-- `a++b` is cut between two of its tokens: `a` ends with a token and whitespace `u` behind
it, and in `b` there is a further token. -/
def Boundary (a b : Text) : Prop :=
  ∃ k u, 0 < k ∧ k < (lexemes (a++b)).length ∧ Whitespace u ∧
    ((fun lx => (Lexer.nextToken lx).2)^[k] (Lexer.new (a++b))).rest = u++b.map Char.toUpper

/-- What is left after `k` calls. -/
def restAfter : ℕ → Text → Text
  | 0, text => text
  | k+1, text => restAfter k ((afterTrivia text).drop (scan (afterTrivia text)).2)

theorem rest_iterate_nextToken (k : ℕ) (lx : Lexer) :
    ((fun lx => (Lexer.nextToken lx).2)^[k] lx).rest = restAfter k lx.rest := by
  induction k generalizing lx with
  | zero => rfl
  | succ k ih => rw [Function.iterate_succ_apply,ih,lx.nextToken_eq.2,restAfter]

theorem restAfter_of_reads {s rest : Text} {l : Lexeme} (h : Reads s rest l) (k : ℕ) :
    restAfter (k+1) (s++rest) = restAfter k rest := by
  rw [restAfter,h.2.2]

theorem mayFollow_right {p s rest : Text} {c : Char} (h : MayFollow (p++s) rest c) :
    MayFollow s rest c := by
  cases s with
  | nil => rcases h with h | h | h <;> simp_all [MayFollow]
  | cons a s =>
    rwa [MayFollow,List.getLast?_append_of_ne_nil (p) (by simp : a::s ≠ [])] at h

theorem ne_nil_of_lt_length {k : ℕ} {text : Text} (hk : k < (lexemesOf text).length) :
    text ≠ [] := by
  rintro rfl
  simp [lexemesOf,readLexemes,afterTrivia,commentLength] at hk

/-- What stands behind the first `k` tokens can be replaced by another text that begins with a
character that may follow them. -/
theorem lexemesOf_replace {k : ℕ} {text : Text} (hk : k < (lexemesOf text).length) :
    ∃ s, text = s++restAfter k text ∧ restAfter k text ≠ [] ∧
      ∀ c t, MayFollow s (restAfter k text) c →
        lexemesOf (s++c::t) = (lexemesOf text).take k ++ lexemesOf (c::t) := by
  induction k generalizing text with
  | zero => exact ⟨[],rfl,ne_nil_of_lt_length hk,fun c t _ => rfl⟩
  | succ k ih =>
    have hne : afterTrivia text ≠ [] := by
      intro he
      simp [lexemesOf_nil_of he] at hk
    obtain ⟨p,rest,l,rfl,hp⟩ := exists_reads hne
    have hl := lexemesOf_of_reads hp
    have hkr : k < (lexemesOf rest).length := by simpa [hl] using hk
    obtain ⟨s,hs,hrest,hrep⟩ := ih hkr
    rw [restAfter_of_reads hp]
    refine ⟨p++s,by rw [List.append_assoc,← hs],hrest,?_⟩
    intro c t hc
    obtain ⟨d,rest',rfl⟩ := List.exists_cons_of_ne_nil (ne_nil_of_lt_length hkr)
    have hread : Reads p (s++c::t) l := by
      cases s with
      | nil =>
        rw [List.append_nil,← List.nil_append (restAfter k _),← hs] at hc
        exact reads_local hp hc t
      | cons a s =>
        have ha : d = a := by
          have hh := congrArg List.head? hs
          simpa using hh
        exact reads_local hp (.inl (by simp [ha])) (s++c::t)
    rw [List.append_assoc,lexemesOf_of_reads hread,hl,hrep c t (mayFollow_right hc)]
    rfl

/-- A text cut at a boundary, in the upper case that the lexer reads: the tokens before the
cut, and what may stand behind them. -/
theorem boundary_cases {a b : Text} (h : Boundary a b) :
    ∃ s u first, a.map Char.toUpper = s++u ∧ Whitespace u ∧ u++b.map Char.toUpper ≠ [] ∧
      lexemes (a++b) = first++lexemesOf (u++b.map Char.toUpper) ∧
      ∀ c t, MayFollow s (u++b.map Char.toUpper) c →
        lexemesOf (s++c::t) = first++lexemesOf (c::t) := by
  obtain ⟨k,u,-,hk,hu,hrest⟩ := h
  rw [rest_iterate_nextToken,Lexer.new] at hrest
  rw [lexemes_eq] at hk
  obtain ⟨s,hs,hne,hrep⟩ := lexemesOf_replace hk
  rw [hrest] at hs hrep hne
  obtain ⟨c,t,hct⟩ := List.exists_cons_of_ne_nil hne
  have ha : a.map Char.toUpper = s++u := by
    rw [List.map_append,← List.append_assoc] at hs
    exact List.append_cancel_right hs
  have hl := hrep c t (.inl (by simp [hct]))
  rw [← hct,← hs] at hl
  exact ⟨s,u,_,ha,hu,hne,(lexemes_eq _).trans hl,hrep⟩

theorem afterTrivia_whitespace {w : Text} (hw : Whitespace w) (t : Text) :
    afterTrivia (w++t) = afterTrivia t := by
  rw [afterTrivia,List.dropWhile_append_of_pos hw,afterTrivia]

/-- An insertion that begins like trivia and that a call skips leaves the tokens alone. -/
theorem lexemes_insert {a b w : Text} (h : Boundary a b)
    (hw : ∀ c, (w.map Char.toUpper).head? = some c →
      isspace c ∨ c = '/' ∧ (a.map Char.toUpper).getLast? ≠ some '/')
    (hskip : afterTrivia (w.map Char.toUpper++b.map Char.toUpper) =
      afterTrivia (b.map Char.toUpper)) :
    lexemes (a++w++b) = lexemes (a++b) := by
  obtain ⟨s,u,first,ha,hu,hne,hl,hrep⟩ := boundary_cases h
  rw [lexemes_eq,List.map_append,List.map_append,hl]
  rw [ha] at hw ⊢
  generalize w.map Char.toUpper = w at hw hskip
  generalize b.map Char.toUpper = b at hskip hrep hne
  have hnew : lexemesOf (u++w++b) = lexemesOf (u++b) := by
    apply lexemesOf_congr
    rw [List.append_assoc,afterTrivia_whitespace hu,afterTrivia_whitespace hu,hskip]
  rw [← hnew,List.append_assoc,List.append_assoc,List.append_assoc]
  have hne' : u++(w++b) ≠ [] := by
    intro he
    simp_all
  obtain ⟨c,t,hct⟩ := List.exists_cons_of_ne_nil hne'
  have hc : MayFollow s (u++b) c := by
    cases u with
    | cons d u =>
      simp only [List.cons_append,List.cons.injEq] at hct
      exact .inl (by simp [hct.1])
    | nil =>
      cases w with
      | nil =>
        simp only [List.nil_append] at hct
        exact .inl (by simp [hct])
      | cons d w =>
        simp only [List.nil_append,List.cons_append,List.cons.injEq] at hct
        have hh := hw c (by simp [hct.1])
        rw [List.append_nil] at hh
        exact .inr hh
  rw [hct]
  exact hrep c t hc

theorem toUpper_of_isspace {c : Char} (hc : isspace c) : c.toUpper = c := by
  rcases isStop_cases (show isStop c by simp [isStop,hc]) with
    rfl | rfl | rfl | rfl | rfl | rfl | rfl <;> decide

theorem map_toUpper_of_whitespace {w : Text} (hw : Whitespace w) :
    w.map Char.toUpper = w := by
  induction w with
  | nil => rfl
  | cons c w ih =>
    have hc := toUpper_of_isspace (hw c (by simp))
    have ht := ih fun d hd => hw d (by simp [hd])
    rw [List.map_cons,hc,ht]

theorem whitespace_of_map_toUpper {w : Text} (h : Whitespace (w.map Char.toUpper)) :
    Whitespace w := by
  intro c hc
  have hs := h c.toUpper (List.mem_map_of_mem hc)
  have hu : ¬ c.toUpper.isUpper := by
    rcases isStop_cases (show isStop c.toUpper by simp [isStop,hs]) with
      h | h | h | h | h | h | h <;> rw [h] <;> decide
  rwa [← toUpper_eq_imp rfl hu] at hs

theorem not_mem_map_toUpper {c : Char} (hc : ¬ c.isUpper) {body : Text} (h : c ∉ body) :
    c ∉ body.map Char.toUpper := by
  intro hm
  obtain ⟨d,hd,hdc⟩ := List.mem_map.mp hm
  rw [toUpper_eq_imp hdc hc] at hd
  exact h hd

theorem not_infix_map_toUpper {body : Text} (h : ¬ ['*','/'] <:+: body) :
    ¬ ['*','/'] <:+: body.map Char.toUpper := by
  rintro ⟨x,y,hxy⟩
  obtain ⟨t,y',rfl,ht,-⟩ := List.map_eq_append_iff.mp hxy.symm
  obtain ⟨x',m,rfl,-,hm⟩ := List.map_eq_append_iff.mp ht
  apply h
  have hme : m = ['*','/'] := by
    match m with
    | [] => simp at hm
    | [c] => simp at hm
    | [c,d] =>
      simp only [List.map_cons,List.map_nil,List.cons.injEq,and_true] at hm
      rw [toUpper_eq_imp hm.1 (by decide),toUpper_eq_imp hm.2 (by decide)]
    | _ :: _ :: _ :: _ => simp at hm
  exact ⟨x',y',by rw [hme]⟩

/-- The lexer reads trivia in upper case, and that is trivia again. -/
theorem trivia_map_toUpper {w : Text} (hw : Trivia w) : Trivia (w.map Char.toUpper) := by
  induction hw with
  | nil => exact .nil
  | space hc hw ih =>
    rw [List.map_cons,toUpper_of_isspace hc]
    exact .space hc ih
  | @line m body w hm hb hw ih =>
    have hu : m.toUpper = m := by rcases hm with rfl | rfl <;> decide
    have hn : '\n'.toUpper = '\n' := by decide
    simp only [List.map_cons,List.map_append,hu,hn]
    exact .line hm (not_mem_map_toUpper (by decide) hb) ih
  | @block body w hb hw ih =>
    have hs : '/'.toUpper = '/' ∧ '*'.toUpper = '*' := by decide
    simp only [List.map_cons,List.map_append,hs]
    exact .block (not_infix_map_toUpper hb) ih

theorem blockLength_closed {body : Text} (hb : ¬ ['*','/'] <:+: body) (t : Text) :
    blockLength (body ++ '*' :: '/'::t) = body.length+2 := by
  induction body with
  | nil => simp [blockLength]
  | cons c body ih =>
    have hb' : ¬ ['*','/'] <:+: body := fun h => hb (h.trans (List.infix_cons (List.infix_refl _)))
    have hh := ih hb'
    cases body with
    | nil => simp_all [blockLength]
    | cons d body =>
      have hcd : ¬ (c = '*' ∧ d = '/') := by
        rintro ⟨rfl,rfl⟩
        exact hb ⟨[],body,rfl⟩
      simp only [List.cons_append,blockLength,if_neg hcd,List.length_cons] at hh ⊢
      rw [hh]

theorem afterTrivia_line {m : Char} (hm : m = '-' ∨ m = '/') {body : Text} (hb : '\n' ∉ body)
    (t : Text) : afterTrivia (m::m::(body ++ '\n'::t)) = '\n'::t := by
  have hs : (m::m::(body ++ '\n'::t)).dropWhile isspace = m::m::(body ++ '\n'::t) := by
    rcases hm with rfl | rfl <;> exact List.dropWhile_cons_of_neg (by decide)
  have ht : (m::m::(body ++ '\n'::t)).takeWhile (· ≠ '\n') = m::m::body := by
    have hall : ∀ c ∈ m::m::body, (decide (c ≠ '\n')) = true := by
      intro c hc
      have hne : c ≠ '\n' := by
        rintro rfl
        rcases hm with rfl | rfl <;> simp_all
      simpa using hne
    exact PrefixReader.takeWhile_append_stop hall (by decide) t
  have hl : m = '-' ∧ m = '-' ∨ m = '/' ∧ m = '/' := by simpa using hm
  rw [afterTrivia,hs,commentLength,if_pos hl,ht]
  simp

theorem afterTrivia_block {body : Text} (hb : ¬ ['*','/'] <:+: body) (t : Text) :
    afterTrivia ('/' :: '*'::(body ++ '*' :: '/'::t)) = t := by
  have hs : ('/' :: '*'::(body ++ '*' :: '/'::t)).dropWhile isspace =
      '/' :: '*'::(body ++ '*' :: '/'::t) := List.dropWhile_cons_of_neg (by decide)
  rw [afterTrivia,hs]
  simp [commentLength,blockLength_closed hb]

/-- Trivia that is not whitespace begins with a comment behind some whitespace, and the call
that skips the comment then stands on whitespace, a dash or a slash. -/
theorem afterTrivia_of_comment {w : Text} (hw : Trivia w) (hc : ¬ Whitespace w) :
    ∃ c t, afterTrivia (w++[' ','Y']) = c::t ∧ (isspace c ∨ c = '-' ∨ c = '/') := by
  induction hw with
  | nil => exact absurd (by simp [Whitespace]) hc
  | @space c w hs hw ih =>
    have hw' : ¬ Whitespace w := by
      intro h
      exact hc (by simpa [Whitespace,hs] using h)
    have hh := afterTrivia_whitespace (w:=[c]) (by simpa [Whitespace] using hs) (w++[' ','Y'])
    rw [List.cons_append,List.nil_append] at hh
    rw [List.cons_append,hh]
    exact ih hw'
  | @line m body w hm hb hw ih =>
    have hh := afterTrivia_line hm hb (w++[' ','Y'])
    exact ⟨'\n',_,by simpa using hh,.inl (by decide)⟩
  | @block body w hb hw ih =>
    have hh := afterTrivia_block hb (w++[' ','Y'])
    have hhead : ∃ c t, w++[' ','Y'] = c::t ∧ (isspace c ∨ c = '-' ∨ c = '/') := by
      cases hw with
      | nil => exact ⟨' ',['Y'],rfl,.inl (by decide)⟩
      | @space c w hs hw => exact ⟨c,_,rfl,.inl hs⟩
      | @line m body w hm hb hw => exact ⟨m,_,rfl,.inr hm⟩
      | @block body w hb hw => exact ⟨'/',_,rfl,.inr (.inr rfl)⟩
    obtain ⟨c,t,ht,hc⟩ := hhead
    exact ⟨c,t,by rw [← ht,← hh]; simp,hc⟩

theorem scan_of_punctuation {c : Char} (hc : isspace c ∨ c = '-' ∨ c = '/') (t : Text) :
    (scan (c::t)).1.text.head? = some c := by
  have hn : ¬ isIdentifierStart c ∧ ¬ c.isDigit ∧ ¬ (c = '\'' ∨ c = '"') := by
    rcases hc with hc | rfl | rfl
    · rcases isStop_cases (show isStop c by simp [isStop,hc]) with
        rfl | rfl | rfl | rfl | rfl | rfl | rfl <;> decide
    · decide
    · decide
  rw [scan,if_neg hn.1,if_neg hn.2.1,if_neg hn.2.2]
  rcases operatorOf_text c t.head? with h | ⟨e,-,h⟩ <;> simp [h]

theorem lexemesOf_behind_x {c : Char} (hc : ¬ isIdentifierPart c) (t : Text) :
    lexemesOf ('X'::c::t) = ⟨.IDENTIFIER,['X']⟩ :: lexemesOf (c::t) := by
  have hx : afterTrivia ('X'::c::t) = 'X'::c::t := by
    simp [afterTrivia,isspace,commentLength]
  have hw : ('X'::c::t).takeWhile isIdentifierPart = ['X'] := by
    rw [List.takeWhile_cons_of_pos (by decide),List.takeWhile_cons_of_neg (by simpa using hc)]
  have hi : identifierAt ('X'::c::t) = ⟨.IDENTIFIER,['X']⟩ := by
    rw [identifierAt,hw]
    decide
  have hs : scan ('X'::c::t) = (⟨.IDENTIFIER,['X']⟩,1) := by
    rw [scan,if_pos (by decide),hi]
    rfl
  rw [lexemesOf_cons_of (by simp [hx]),hx,hs]
  rfl

/-- Between `X` and ` Y` no comment can be inserted. -/
theorem lexemes_insert_comment_ne {w : Text} (hw : Trivia w) (hc : ¬ Whitespace w) :
    lexemes (['X']++w++[' ','Y']) ≠ lexemes (['X']++[' ','Y']) := by
  have hxy : lexemes (['X']++[' ','Y']) = [⟨.IDENTIFIER,['X']⟩,⟨.IDENTIFIER,['Y']⟩] := by decide
  have hu := trivia_map_toUpper hw
  have hmap : (['X']++w++[' ','Y']).map Char.toUpper = 'X'::(w.map Char.toUpper++[' ','Y']) := by
    have hy : 'X'.toUpper = 'X' ∧ ' '.toUpper = ' ' ∧ 'Y'.toUpper = 'Y' := by decide
    simp [hy]
  rw [lexemes_eq,hmap,hxy]
  have hcu : ¬ Whitespace (w.map Char.toUpper) := by
    intro h
    exact hc (whitespace_of_map_toUpper h)
  generalize w.map Char.toUpper = w at hu hcu
  obtain ⟨c,t,hct,hpart⟩ : ∃ c t, w = c::t ∧ ¬ isIdentifierPart c := by
    cases hu with
    | nil => exact absurd (by simp [Whitespace]) hcu
    | @space c w hs hw => exact ⟨c,_,rfl,not_part_of_isStop c (by simp [isStop,hs])⟩
    | @line m body w hm hb hw =>
      exact ⟨m,_,rfl,by rcases hm with rfl | rfl <;> decide⟩
    | @block body w hb hw => exact ⟨'/',_,rfl,by decide⟩
  obtain ⟨d,t',hd,hpunct⟩ := afterTrivia_of_comment hu hcu
  have hne : afterTrivia (w++[' ','Y']) ≠ [] := by simp [hd]
  have hl := lexemesOf_cons_of hne
  rw [hd] at hl
  intro he
  rw [hct,List.cons_append,lexemesOf_behind_x hpart,← List.cons_append,← hct,hl] at he
  simp only [List.cons.injEq,true_and] at he
  have hhead := scan_of_punctuation hpunct t'
  rw [he.1] at hhead
  simp only [List.head?_cons,Option.some.injEq] at hhead
  subst hhead
  revert hpunct
  decide

/-- Nothing is skipped in front of the first token of `b`. -/
def StartsWithToken (b : Text) : Prop :=
  afterTrivia (b.map Char.toUpper) = b.map Char.toUpper

/-- What `nextToken` skips at one go between `a` and `b` without reading `a` differently:
whitespace, or whitespace and one block comment directly in front of a token. -/
inductive SkippedAtOnce (a b : Text) : Text → Prop
  | spaces {w} : Whitespace w → SkippedAtOnce a b w
  | comment {u body} : Whitespace u → ¬ ['*','/'] <:+: body → StartsWithToken b →
      (u = [] → a.getLast? ≠ some '/') → SkippedAtOnce a b (u ++ '/' :: '*'::(body++['*','/']))

theorem lexemes_of_skippedAtOnce {a b w : Text} (h : Boundary a b) (hw : SkippedAtOnce a b w) :
    lexemes (a++w++b) = lexemes (a++b) := by
  cases hw with
  | spaces hw =>
    apply lexemes_insert h
    · rw [map_toUpper_of_whitespace hw]
      intro c hc
      exact .inl (hw c (List.mem_of_head? hc))
    · rw [map_toUpper_of_whitespace hw,afterTrivia_whitespace hw]
  | @comment u body hu hb hst hlast =>
    have hs : '/'.toUpper = '/' ∧ '*'.toUpper = '*' := by decide
    apply lexemes_insert h
    · intro c hc
      cases u with
      | cons d u =>
        have hd := hu d (by simp)
        have hcd : d.toUpper = c := by simpa using hc
        rw [toUpper_of_isspace hd] at hcd
        exact .inl (hcd ▸ hd)
      | nil =>
        have hcd : '/' = c := by simpa [hs] using hc
        refine .inr ⟨hcd.symm,?_⟩
        rw [List.getLast?_map]
        intro he
        obtain ⟨e,he,hes⟩ := Option.map_eq_some_iff.mp he
        rw [toUpper_eq_imp hes (by decide)] at he
        exact hlast rfl he
    · simp only [List.map_append,List.map_cons,List.map_nil,map_toUpper_of_whitespace hu,hs,
        List.append_assoc,List.cons_append,List.nil_append]
      rw [afterTrivia_whitespace hu,afterTrivia_block (not_infix_map_toUpper hb),hst]

/-- What is skipped at one go can be inserted at a boundary, and whitespace is the only trivia
that can be inserted at every boundary. -/
theorem insertion_insignificant_iff {w : Text} (hw : Trivia w) :
    (∀ a b, Boundary a b → SkippedAtOnce a b w → lexemes (a++w++b) = lexemes (a++b)) ∧
      ((∀ a b, Boundary a b → lexemes (a++w++b) = lexemes (a++b)) ↔ Whitespace w) := by
  refine ⟨fun a b h hs => lexemes_of_skippedAtOnce h hs,?_,?_⟩
  · intro h
    by_contra hc
    have hb : Boundary ['X'] [' ','Y'] := ⟨1,[],by decide,by decide,by decide,by decide⟩
    exact lexemes_insert_comment_ne hw hc (h _ _ hb)
  · intro h a b hb
    exact lexemes_of_skippedAtOnce hb (.spaces h)

theorem insertion_insignificant_iff_block_comment :
    lexemes (['A']++['/','*','c','*','/']++['+','B']) = lexemes (['A']++['+','B']) := by
  have hc : ¬ ['*','/'] <:+: ['c'] := by decide
  have hw : Trivia ['/','*','c','*','/'] := .block hc .nil
  have hb : Boundary ['A'] ['+','B'] := ⟨1,[],by decide,by decide,by decide,by decide⟩
  have hs : SkippedAtOnce ['A'] ['+','B'] ['/','*','c','*','/'] :=
    @SkippedAtOnce.comment _ _ [] ['c'] (by decide) hc (by unfold StartsWithToken; decide)
      (by decide)
  exact (insertion_insignificant_iff hw).1 _ _ hb hs

/-- A line comment between two tokens gives a token for the newline that ends it. -/
theorem insertion_not_insignificant :
    Trivia ['-','-','c','\n'] ∧ Boundary ['A'] [' ','B'] ∧
      lexemes (['A']++['-','-','c','\n']++[' ','B']) ≠ lexemes (['A']++[' ','B']) :=
  ⟨@Trivia.line '-' ['c'] [] (.inl rfl) (by decide) .nil,⟨1,[],by decide,by decide,by decide,by decide⟩,
    by decide⟩

end OrangeSQL
