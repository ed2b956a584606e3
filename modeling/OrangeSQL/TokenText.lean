import OrangeSQL.StringLiterals
import OrangeSQL.Trivia

/-! The tokens of the language and their text. Every sequence of tokens that the lexer returns is
returned for the text in which the tokens stand one blank apart. -/
namespace OrangeSQL

open PrefixReader

section Grammar

def IsDigits (s : Text) : Prop := ∀ c ∈ s, c.isDigit
def IsUpper (s : Text) : Prop := ∀ c ∈ s, ¬ c.isLower

def IsFraction (s : Text) : Prop := s = [] ∨ ∃ digits, IsDigits digits ∧ s = '.'::digits

def IsSign (s : Text) : Prop := s = [] ∨ s = ['+'] ∨ s = ['-']

def IsExponent (s : Text) : Prop :=
  s = [] ∨ ∃ sign digits, IsSign sign ∧ IsDigits digits ∧ s = 'E'::(sign++digits)

/-- The characters with which nothing but an operator begins. -/
def isOperatorStart (c : Char) : Bool :=
  !isIdentifierStart c && !c.isDigit && c ≠ '\'' && c ≠ '"'

/-- The tokens: a word and whether it is a keyword, a number, a string, an operator, and each character
that begins none of them. -/
inductive IsToken : Lexeme → Prop
  | word {c : Char} {word : Text} (hstart : isIdentifierStart c)
      (hparts : ∀ d ∈ word, isIdentifierPart d) (hupper : IsUpper (c::word)) :
      IsToken ⟨(keywords.lookup (c::word)).getD .IDENTIFIER,c::word⟩
  | number {whole fraction exponent : Text} (hne : whole ≠ []) (hwhole : IsDigits whole)
      (hfraction : IsFraction fraction) (hexponent : IsExponent exponent) :
      IsToken ⟨if fraction = [] ∧ exponent = [] then .INTEGER else .FLOAT,whole++fraction++exponent⟩
  | string {s : Text} (hupper : IsUpper s) : IsToken ⟨.STRING,s⟩
  | twoCharacters {c d : Char} {t : TokenType} (h : (c,d,t) ∈ twoCharacterOperators) :
      IsToken ⟨t,[c,d]⟩
  | oneCharacter {c : Char} {t : TokenType} (h : (c,t) ∈ oneCharacterOperators) : IsToken ⟨t,[c]⟩
  | unknown {c : Char} (hstart : isOperatorStart c) (hnone : oneCharacterOperators.lookup c = none) :
      IsToken ⟨.UNKNOWN,[c]⟩

/-- A lexeme as text. The empty comment keeps a blank that is a token of its own from being skipped. -/
def Lexeme.write (l : Lexeme) : Text :=
  match l.type with
  | .STRING => quoted .single (fun _ => false) l.text
  | .UNKNOWN => '/' :: '*' :: '*' :: '/'::l.text
  | _ => l.text

def writeLexemes (ls : List Lexeme) : Text := ls.flatMap fun l => l.write++[' ']

end Grammar

section Reading

variable {c : Char} {s t : Text} {l : Lexeme}

theorem isIdentifierPart_of_start (h : isIdentifierStart c) : isIdentifierPart c := by
  simp only [isIdentifierStart,isIdentifierPart,Char.isAlphanum,Bool.or_eq_true,decide_eq_true_eq] at h ⊢
  tauto

theorem takeWhile_digits (hs : IsDigits s) (ht : ∀ d, t.head? = some d → ¬ d.isDigit) :
    (s++t).takeWhile Char.isDigit = s := by
  cases t with
  | nil =>
    rw [List.append_nil]
    exact List.takeWhile_eq_self_iff.mpr hs
  | cons d t => exact takeWhile_append_stop hs (ht d rfl) t

theorem takeWhile_digits_blank (hs : IsDigits s) (t : Text) :
    (s ++ ' '::t).takeWhile Char.isDigit = s :=
  takeWhile_append_stop hs (by decide) t

theorem fractionAt_append (hs : IsFraction s)
    (ht : ∀ d, t.head? = some d → ¬ d.isDigit ∧ d ≠ '.') : fractionAt (s++t) = s := by
  rcases hs with rfl | ⟨digits,hdigits,rfl⟩
  · cases t with
    | nil => rfl
    | cons d t => simp [fractionAt,(ht d rfl).2]
  · simp only [List.cons_append,fractionAt,if_true]
    rw [takeWhile_digits hdigits fun d hd => (ht d hd).1]

theorem signAt_append (hs : IsSign s) {digits : Text} (hdigits : IsDigits digits) (t : Text) :
    signAt (s++(digits ++ ' '::t)) = s := by
  rcases hs with rfl | rfl | rfl
  · cases digits with
    | nil => simp [signAt]
    | cons d digits =>
      have hd := plain_of_isDigit (hdigits d List.mem_cons_self)
      simp [signAt,hd.2.1,hd.2.2]
  · rfl
  · rfl

theorem exponentAt_append (hs : IsExponent s) (t : Text) : exponentAt (s ++ ' '::t) = s := by
  rcases hs with rfl | ⟨sign,digits,hsign,hdigits,rfl⟩
  · simp [exponentAt]
  · rw [List.cons_append,List.append_assoc,exponentAt,if_pos (Or.inr rfl),
      signAt_append hsign hdigits,List.drop_left,takeWhile_digits_blank hdigits]

theorem numberAt_append {whole fraction exponent : Text} (hwhole : IsDigits whole)
    (hfraction : IsFraction fraction) (hexponent : IsExponent exponent) (t : Text) :
    numberAt (whole++fraction++exponent ++ ' '::t) =
      ⟨if fraction = [] ∧ exponent = [] then .INTEGER else .FLOAT,whole++fraction++exponent⟩ := by
  have hafter : ∀ d, (exponent ++ ' '::t).head? = some d → ¬ d.isDigit ∧ d ≠ '.' := by
    intro d hd
    rcases hexponent with rfl | ⟨sign,digits,_,_,rfl⟩
    · obtain rfl := Option.some.inj hd
      decide
    · obtain rfl := Option.some.inj hd
      decide
  have hbehind : ∀ d, (fraction++(exponent ++ ' '::t)).head? = some d → ¬ d.isDigit := by
    intro d hd
    rcases hfraction with rfl | ⟨digits,_,rfl⟩
    · exact (hafter d hd).1
    · obtain rfl := Option.some.inj hd
      decide
  have htake := takeWhile_digits hwhole hbehind
  have hdrop : (whole++(fraction++(exponent ++ ' '::t))).drop (whole.length+fraction.length) =
      exponent ++ ' '::t := by
    rw [← List.append_assoc,← List.length_append,List.drop_left]
  simp only [numberAt,List.append_assoc,htake,List.drop_left,fractionAt_append hfraction hafter,hdrop,
    exponentAt_append hexponent]

/-- What the loop of `readString` reads of the text of a string. -/
theorem stringBody_quoted (s t : Text) : stringBody '\'' (escape .single (fun _ => false) s++ '\''::t) =
    (s,(escape .single (fun _ => false) s).length+1) := by
  induction s with
  | nil => cases t <;> simp [escape,stringBody]
  | cons c s ih =>
    by_cases hm : c = '\'' ∨ c = '\\'
    · have he : escape .single (fun _ => false) (c::s) =
          '\\' :: c::escape .single (fun _ => false) s := by
        simp [escape,Quote.char,hm]
      simp [he,stringBody,ih]
    · have he : escape .single (fun _ => false) (c::s) = c::escape .single (fun _ => false) s := by
        simp [escape,Quote.char,hm]
      obtain ⟨hq,hb⟩ := not_or.mp hm
      have hne : escape .single (fun _ => false) s++ '\''::t ≠ [] := by simp
      obtain ⟨d,text,hd⟩ := List.exists_cons_of_ne_nil hne
      rw [he,List.cons_append,hd,stringBody,if_neg hq,if_neg hb,← hd,ih]
      simp

theorem write_of_ne (hstring : l.type ≠ .STRING) (hunknown : l.type ≠ .UNKNOWN) : l.write = l.text := by
  unfold Lexeme.write
  split
  · contradiction
  · contradiction
  · rfl

theorem afterTrivia_plain (hspace : ¬ isspace c) (hcomment : commentLength (c::t) = 0) :
    afterTrivia (c::t) = c::t := by
  rw [afterTrivia,List.dropWhile_cons_of_neg hspace,hcomment]
  rfl

theorem afterTrivia_of_ne (hspace : ¬ isspace c) (hminus : c ≠ '-') (hslash : c ≠ '/') :
    afterTrivia (c::t) = c::t := by
  refine afterTrivia_plain hspace ?_
  cases t with
  | nil => rfl
  | cons d t => simp [commentLength,hminus,hslash]

theorem reads_of {rest q : Text} (ha : afterTrivia (s++rest) = q++rest) (hne : q ≠ [])
    (hs : scan (q++rest) = (l,q.length)) : Reads s rest l := by
  rw [Reads,ha,hs]
  exact ⟨by simp [hne],rfl,List.drop_left⟩

end Reading

section Writing

variable {c : Char} {s t : Text} {l : Lexeme}

theorem not_blank_of_start (h : isIdentifierStart c) : ¬ isspace c ∧ c ≠ '-' ∧ c ≠ '/' := by
  refine ⟨fun hs => ?_,?_,?_⟩
  · exact not_part_of_isStop c (by simp [isStop,hs]) (isIdentifierPart_of_start h)
  · rintro rfl
    revert h
    decide
  · rintro rfl
    revert h
    decide

theorem not_blank_of_isDigit (h : c.isDigit) : ¬ isspace c ∧ c ≠ '-' ∧ c ≠ '/' := by
  obtain ⟨hspace,_,hminus⟩ := plain_of_isDigit h
  refine ⟨by simp [hspace],hminus,?_⟩
  rintro rfl
  revert h
  decide

theorem toNat_of_isDigit (h : c.isDigit) : 48 ≤ c.toNat ∧ c.toNat ≤ 57 := by
  simpa [Char.isDigit,UInt32.le_iff_toNat_le,← Char.toNat_val] using h

theorem isAlpha_eq (c : Char) : c.isAlpha = (c.isUpper || c.isLower) := rfl

theorem not_start_of_isDigit (h : c.isDigit) : ¬ isIdentifierStart c := by
  have hdigit := toNat_of_isDigit h
  intro hs
  simp only [isIdentifierStart,isAlpha_eq,Bool.or_eq_true,isUpper_iff,isLower_iff,
    decide_eq_true_eq] at hs
  rcases hs with (hupper | hlower) | rfl
  · omega
  · omega
  · revert h
    decide

theorem reads_word {word : Text} (hstart : isIdentifierStart c) (hparts : ∀ d ∈ word, isIdentifierPart d)
    (t : Text) : Reads (c::word) (' '::t) ⟨(keywords.lookup (c::word)).getD .IDENTIFIER,c::word⟩ := by
  obtain ⟨hspace,hminus,hslash⟩ := not_blank_of_start hstart
  refine reads_of (q := c::word) (afterTrivia_of_ne hspace hminus hslash) (List.cons_ne_nil _ _) ?_
  have htake : ((c::word) ++ ' '::t).takeWhile isIdentifierPart = c::word := by
    refine takeWhile_append_stop (fun d hd => ?_) (by decide) t
    rcases List.mem_cons.mp hd with rfl | hd
    · exact isIdentifierPart_of_start hstart
    · exact hparts d hd
  rw [List.cons_append,scan,if_pos hstart,← List.cons_append,identifierAt,htake]

theorem reads_number {whole fraction exponent : Text} (hne : whole ≠ []) (hwhole : IsDigits whole)
    (hfraction : IsFraction fraction) (hexponent : IsExponent exponent) (t : Text) :
    Reads (whole++fraction++exponent) (' '::t)
      ⟨if fraction = [] ∧ exponent = [] then .INTEGER else .FLOAT,whole++fraction++exponent⟩ := by
  have hnumber := numberAt_append hwhole hfraction hexponent t
  obtain ⟨c,digits,rfl⟩ := List.exists_cons_of_ne_nil hne
  have hc := hwhole c List.mem_cons_self
  obtain ⟨hspace,hminus,hslash⟩ := not_blank_of_isDigit hc
  refine reads_of (q := c::digits++fraction++exponent) (afterTrivia_of_ne hspace hminus hslash) (by simp) ?_
  simp only [List.cons_append] at hnumber ⊢
  rw [scan,if_neg (not_start_of_isDigit hc),if_pos hc,hnumber]

theorem reads_string (s t : Text) : Reads (quoted .single (fun _ => false) s) (' '::t) ⟨.STRING,s⟩ := by
  have hbody := stringBody_quoted s (' '::t)
  have htext : quoted .single (fun _ => false) s ++ ' '::t =
      '\'' :: (escape .single (fun _ => false) s++ '\'' :: ' '::t) := by
    simp [quoted,Quote.char]
  refine reads_of (q := quoted .single (fun _ => false) s) ?_ (by simp [quoted]) ?_
  · rw [htext]
    exact afterTrivia_of_ne (by decide) (by decide) (by decide)
  · have hc : ¬ isIdentifierStart '\'' ∧ ¬ '\''.isDigit := by decide
    rw [htext,scan,if_neg hc.1,if_neg hc.2,if_pos (Or.inl rfl),hbody]
    simp [quoted]

theorem reads_unknown (hstart : isOperatorStart c) (hnone : oneCharacterOperators.lookup c = none)
    (t : Text) : Reads ('/' :: '*' :: '*' :: '/'::[c]) (' '::t) ⟨.UNKNOWN,[c]⟩ := by
  have hempty : ¬ ['*','/'] <:+: ([] : Text) := by simp
  have hopen := afterTrivia_block hempty (c :: ' '::t)
  refine reads_of (q := [c]) hopen (List.cons_ne_nil _ _) ?_
  simp only [isOperatorStart,Bool.and_eq_true,Bool.not_eq_true',decide_eq_true_eq] at hstart
  obtain ⟨⟨⟨hidentifier,hdigit⟩,hsingle⟩,hdouble⟩ := hstart
  have hnotwo : twoCharacterOperators.find? (fun op => op.1 = c ∧ some ' ' = some op.2.1) = none := by
    rw [List.find?_eq_none]
    simp [twoCharacterOperators]
  have hoperator : operatorOf c (some ' ') = ⟨.UNKNOWN,[c]⟩ := by
    rw [operatorOf,hnotwo,hnone]
    rfl
  rw [List.singleton_append,scan,hidentifier,hdigit,if_neg (not_or.mpr ⟨hsingle,hdouble⟩)]
  simp [hoperator]

theorem reads_oneCharacter {t : TokenType} (h : (c,t) ∈ oneCharacterOperators) (rest : Text) :
    Reads [c] (' '::rest) ⟨t,[c]⟩ := by
  simp only [oneCharacterOperators,List.mem_cons,Prod.mk.injEq,List.not_mem_nil,or_false] at h
  rcases h with ⟨rfl,rfl⟩ | ⟨rfl,rfl⟩ | ⟨rfl,rfl⟩ | ⟨rfl,rfl⟩ | ⟨rfl,rfl⟩ | ⟨rfl,rfl⟩ | ⟨rfl,rfl⟩ |
    ⟨rfl,rfl⟩ | ⟨rfl,rfl⟩ | ⟨rfl,rfl⟩ | ⟨rfl,rfl⟩ | ⟨rfl,rfl⟩ | ⟨rfl,rfl⟩ <;>
  exact ⟨List.cons_ne_nil _ _,rfl,rfl⟩

theorem reads_twoCharacters {d : Char} {t : TokenType} (h : (c,d,t) ∈ twoCharacterOperators)
    (rest : Text) : Reads [c,d] (' '::rest) ⟨t,[c,d]⟩ := by
  simp only [twoCharacterOperators,List.mem_cons,Prod.mk.injEq,List.not_mem_nil,or_false] at h
  rcases h with ⟨rfl,rfl,rfl⟩ | ⟨rfl,rfl,rfl⟩ | ⟨rfl,rfl,rfl⟩ | ⟨rfl,rfl,rfl⟩ | ⟨rfl,rfl,rfl⟩ |
    ⟨rfl,rfl,rfl⟩ <;>
  exact ⟨List.cons_ne_nil _ _,rfl,rfl⟩

/-- A token stands for itself in the text. -/
theorem reads_write (h : IsToken l) (t : Text) : Reads l.write (' '::t) l := by
  cases h with
  | @word c word hstart hparts _ =>
    have hne : ∀ t, (∀ e ∈ keywords, e.2 ≠ t) → t ≠ .IDENTIFIER →
        (keywords.lookup (c::word)).getD .IDENTIFIER ≠ t := by
      intro t ht hid
      have hk := lookup_ne keywords t ht (c::word)
      cases hl : keywords.lookup (c::word) with
      | none => exact hid.symm
      | some u =>
        rw [hl] at hk
        exact fun heq => hk (congrArg some heq)
    rw [write_of_ne (hne .STRING (by decide) (by decide)) (hne .UNKNOWN (by decide) (by decide))]
    exact reads_word hstart hparts t
  | @number whole fraction exponent hne hwhole hfraction hexponent =>
    have hkind : ∀ t, t ≠ .INTEGER → t ≠ .FLOAT →
        (if fraction = [] ∧ exponent = [] then TokenType.INTEGER else .FLOAT) ≠ t := by
      intro t hinteger hfloat
      split_ifs
      · exact hinteger.symm
      · exact hfloat.symm
    rw [write_of_ne (hkind .STRING (by decide) (by decide)) (hkind .UNKNOWN (by decide) (by decide))]
    exact reads_number hne hwhole hfraction hexponent t
  | string _ => exact reads_string _ t
  | twoCharacters h =>
    have hkind : ∀ op ∈ twoCharacterOperators, op.2.2 ≠ TokenType.STRING ∧ op.2.2 ≠ .UNKNOWN := by decide
    rw [write_of_ne (hkind _ h).1 (hkind _ h).2]
    exact reads_twoCharacters h t
  | oneCharacter h =>
    have hkind : ∀ op ∈ oneCharacterOperators, op.2 ≠ TokenType.STRING ∧ op.2 ≠ .UNKNOWN := by decide
    rw [write_of_ne (hkind _ h).1 (hkind _ h).2]
    exact reads_oneCharacter h t
  | unknown hstart hnone => exact reads_unknown hstart hnone t

theorem lexemesOf_blank (t : Text) : lexemesOf (' '::t) = lexemesOf t :=
  lexemesOf_congr (afterTrivia_whitespace (w := [' ']) (by simp [Whitespace,isspace]) t)

theorem lexemesOf_writeLexemes {ls : List Lexeme} (h : ∀ l ∈ ls, IsToken l) :
    lexemesOf (writeLexemes ls) = ls := by
  induction ls with
  | nil => rfl
  | cons l ls ih =>
    have hwrite : writeLexemes (l::ls) = l.write ++ ' '::writeLexemes ls := by simp [writeLexemes]
    rw [hwrite,lexemesOf_of_reads (reads_write (h l List.mem_cons_self) _),lexemesOf_blank,
      ih fun l hl => h l (List.mem_cons_of_mem _ hl)]

end Writing

section Lexing

variable {c : Char} {s t : Text} {l : Lexeme}

theorem isUpper_toUpper (s : Text) : IsUpper (s.map Char.toUpper) := by
  intro c hc
  obtain ⟨d,_,rfl⟩ := List.mem_map.mp hc
  by_cases hd : d.isLower
  · have hsum := toNat_toUpper_of_isLower hd
    have hbounds := (isLower_iff d).mp hd
    rw [isLower_iff]
    omega
  · rwa [toUpper_of_not_isLower hd]

theorem map_toUpper_of_isUpper (h : IsUpper s) : s.map Char.toUpper = s :=
  (List.map_congr_left fun c hc => toUpper_of_not_isLower (h c hc)).trans (List.map_id s)

theorem IsUpper.of_sublist (h : IsUpper t) (hs : s.Sublist t) : IsUpper s :=
  fun c hc => h c (hs.subset hc)

theorem isFraction_fractionAt (s : Text) : IsFraction (fractionAt s) := by
  cases s with
  | nil => exact Or.inl rfl
  | cons c s =>
    rw [fractionAt]
    split_ifs with hc
    · exact Or.inr ⟨_,fun d hd => List.mem_takeWhile_imp hd,by rw [hc]⟩
    · exact Or.inl rfl

theorem isSign_signAt (s : Text) : IsSign (signAt s) := by
  cases s with
  | nil => exact Or.inl rfl
  | cons c s =>
    rw [signAt]
    split_ifs with hc
    · rcases hc with rfl | rfl
      · exact Or.inr (Or.inl rfl)
      · exact Or.inr (Or.inr rfl)
    · exact Or.inl rfl

theorem isExponent_exponentAt (h : IsUpper s) : IsExponent (exponentAt s) := by
  cases s with
  | nil => exact Or.inl rfl
  | cons c s =>
    rw [exponentAt]
    split_ifs with hc
    · refine Or.inr ⟨signAt s,(s.drop (signAt s).length).takeWhile Char.isDigit,isSign_signAt s,
        fun d hd => List.mem_takeWhile_imp hd,?_⟩
      rcases hc with rfl | rfl
      · exact absurd (by decide) (h 'e' List.mem_cons_self)
      · rfl
    · exact Or.inl rfl

theorem isUpper_stringBody (q : Char) (h : IsUpper s) : IsUpper (stringBody q s).1 := by
  fun_induction stringBody q s <;> simp_all [IsUpper]

/-- What one call returns is a token. -/
theorem isToken_scan (h : IsUpper (c::s)) : IsToken (scan (c::s)).1 := by
  rw [scan]
  split_ifs with hstart hdigit hquote
  · rw [identifierAt,List.takeWhile_cons_of_pos (isIdentifierPart_of_start hstart)]
    refine .word hstart (fun d hd => List.mem_takeWhile_imp hd) (h.of_sublist ?_)
    exact (List.takeWhile_sublist _).cons_cons c
  · refine .number ?_ (fun d hd => List.mem_takeWhile_imp hd) (isFraction_fractionAt _)
      (isExponent_exponentAt (h.of_sublist (List.drop_sublist _ _)))
    rw [List.takeWhile_cons_of_pos hdigit]
    exact List.cons_ne_nil _ _
  · exact .string (isUpper_stringBody c fun d hd => h d (List.mem_cons_of_mem c hd))
  · have hoperator : isOperatorStart c := by
      simp only [isOperatorStart]
      simp_all
    dsimp only
    unfold operatorOf
    split
    · next op hop =>
      exact .twoCharacters (List.mem_of_find?_eq_some hop)
    · cases hone : oneCharacterOperators.lookup c with
      | none => exact .unknown hoperator hone
      | some t =>
        obtain ⟨first,rest,htable,_⟩ := List.lookup_eq_some_iff.mp hone
        exact .oneCharacter (by rw [htable]; simp)

theorem isToken_lexemesOf (n : ℕ) (h : IsUpper t) : ∀ l ∈ readLexemes n t, IsToken l := by
  induction n generalizing t with
  | zero => simp [readLexemes]
  | succ n ih =>
    have hfound : IsUpper (afterTrivia t) := h.of_sublist (afterTrivia_suffix t).sublist
    intro l hl
    rw [readLexemes] at hl
    split_ifs at hl with hend
    · exact absurd hl List.not_mem_nil
    · rcases List.mem_cons.mp hl with rfl | hl
      · obtain ⟨c,s,hcs⟩ := List.exists_cons_of_ne_nil hend
        rw [hcs] at hfound ⊢
        exact isToken_scan hfound
      · exact ih (hfound.of_sublist (List.drop_sublist _ _)) l hl

theorem isUpper_cons : IsUpper (c::s) ↔ ¬ c.isLower ∧ IsUpper s := List.forall_mem_cons

theorem isUpper_append : IsUpper (s++t) ↔ IsUpper s ∧ IsUpper t := List.forall_mem_append

theorem IsDigits.isUpper (h : IsDigits s) : IsUpper s := by
  intro c hc hlower
  have hbounds := (isLower_iff c).mp hlower
  have hdigit := toNat_of_isDigit (h c hc)
  omega

theorem IsSign.isUpper (h : IsSign s) : IsUpper s := by
  rcases h with rfl | rfl | rfl <;> simp [IsUpper]

theorem IsFraction.isUpper (h : IsFraction s) : IsUpper s := by
  rcases h with rfl | ⟨digits,hdigits,rfl⟩
  · simp [IsUpper]
  · exact isUpper_cons.mpr ⟨by decide,hdigits.isUpper⟩

theorem IsExponent.isUpper (h : IsExponent s) : IsUpper s := by
  rcases h with rfl | ⟨sign,digits,hsign,hdigits,rfl⟩
  · simp [IsUpper]
  · exact isUpper_cons.mpr ⟨by decide,isUpper_append.mpr ⟨hsign.isUpper,hdigits.isUpper⟩⟩

theorem isUpper_escape (h : IsUpper s) : IsUpper (escape .single (fun _ => false) s) := by
  intro c hc
  obtain ⟨d,hd,hc⟩ := List.mem_flatMap.mp hc
  have hmem : c = '\\' ∨ c = d := by
    split at hc
    · simpa using hc
    · exact Or.inr (List.mem_singleton.mp hc)
  rcases hmem with rfl | rfl
  · decide
  · exact h _ hd

/-- The lexer has turned all of its input into upper case. -/
theorem isUpper_text (h : IsToken l) : IsUpper l.text := by
  cases h with
  | word _ _ hupper => exact hupper
  | number _ hwhole hfraction hexponent =>
    exact isUpper_append.mpr ⟨isUpper_append.mpr ⟨hwhole.isUpper,hfraction.isUpper⟩,hexponent.isUpper⟩
  | string hupper => exact hupper
  | twoCharacters h =>
    have htable : (twoCharacterOperators.all fun op => !op.1.isLower && !op.2.1.isLower) = true := by
      decide
    have hop := List.all_eq_true.mp htable _ h
    rw [Bool.and_eq_true,Bool.not_eq_true',Bool.not_eq_true'] at hop
    exact isUpper_cons.mpr ⟨by simp [hop.1],isUpper_cons.mpr ⟨by simp [hop.2],List.forall_mem_nil _⟩⟩
  | oneCharacter h =>
    have htable : (oneCharacterOperators.all fun op => !op.1.isLower) = true := by decide
    have hop := List.all_eq_true.mp htable _ h
    rw [Bool.not_eq_true'] at hop
    exact isUpper_cons.mpr ⟨by simp [hop],List.forall_mem_nil _⟩
  | @unknown c hstart _ =>
    intro d hd hlower
    rw [List.mem_singleton.mp hd] at hlower
    simp [isOperatorStart,isIdentifierStart,isAlpha_eq,hlower] at hstart

theorem isUpper_write (h : IsToken l) : IsUpper l.write := by
  have htext := isUpper_text h
  have hquote : ¬ '\''.isLower := by decide
  have hslash : ¬ '/'.isLower := by decide
  have hstar : ¬ '*'.isLower := by decide
  unfold Lexeme.write
  split
  · have hend : IsUpper [Quote.single.char] := isUpper_cons.mpr ⟨hquote,List.forall_mem_nil _⟩
    exact isUpper_cons.mpr ⟨hquote,isUpper_append.mpr ⟨isUpper_escape htext,hend⟩⟩
  · simp only [isUpper_cons]
    exact ⟨hslash,hstar,hstar,hslash,htext⟩
  · exact htext

theorem lexemes_writeLexemes {ls : List Lexeme} (h : ∀ l ∈ ls, IsToken l) :
    lexemes (writeLexemes ls) = ls := by
  have hupper : IsUpper (writeLexemes ls) := by
    intro c hc
    obtain ⟨l,hl,hc⟩ := List.mem_flatMap.mp hc
    rcases List.mem_append.mp hc with hc | hc
    · exact isUpper_write (h l hl) c hc
    · rw [List.mem_singleton.mp hc]
      decide
  rw [lexemes_eq,map_toUpper_of_isUpper hupper,lexemesOf_writeLexemes h]

/-- The lexer returns the sequences of tokens and no others, and each of them for the text that has its
tokens one blank apart. -/
theorem lexemes_exactly (ls : List Lexeme) :
    ((∃ input, lexemes input = ls) ↔ ∀ l ∈ ls, IsToken l) ∧
    ∀ input, lexemes (writeLexemes (lexemes input)) = lexemes input := by
  have htokens : ∀ input, ∀ l ∈ lexemes input, IsToken l := by
    intro input
    rw [lexemes_eq]
    exact isToken_lexemesOf _ (isUpper_toUpper input)
  refine ⟨⟨?_,fun h => ⟨_,lexemes_writeLexemes h⟩⟩,fun input => lexemes_writeLexemes (htokens input)⟩
  rintro ⟨input,rfl⟩
  exact htokens input

end Lexing

end OrangeSQL
