import OrangeSQL.LexerSteps

/-! A call of `nextToken` looks at one character behind what it reads. The token stays the same
when that character is left alone, or becomes whitespace, or a slash that no slash precedes. -/
namespace OrangeSQL

open PrefixReader

/-- Characters that end every token and stand in no operator of two characters. -/
def isStop (c : Char) : Bool := isspace c ∨ c = '/'

theorem isStop_cases {c : Char} (hc : isStop c) :
    c = ' ' ∨ c = '\t' ∨ c = '\n' ∨ c = '\x0b' ∨ c = '\x0c' ∨ c = '\r' ∨ c = '/' := by
  simp only [isStop,isspace,Bool.decide_or,Bool.or_eq_true,decide_eq_true_eq] at hc
  tauto

theorem not_part_of_isStop (c : Char) (hc : isStop c) : ¬ isIdentifierPart c := by
  rcases isStop_cases hc with rfl | rfl | rfl | rfl | rfl | rfl | rfl <;> decide

theorem not_digit_of_isStop (c : Char) (hc : isStop c) : ¬ c.isDigit := by
  rcases isStop_cases hc with rfl | rfl | rfl | rfl | rfl | rfl | rfl <;> decide

def isPoint (c : Char) : Bool := c = '.'
def isExponentMark (c : Char) : Bool := c = 'e' ∨ c = 'E'
def isSign (c : Char) : Bool := c = '+' ∨ c = '-'

theorem fractionAt_eq : fractionAt = guarded isPoint (List.takeWhile Char.isDigit) := by
  funext text
  cases text with
  | nil => rfl
  | cons c text => simp [fractionAt,guarded,isPoint]

theorem signAt_eq : signAt = guarded isSign (fun _ => []) := by
  funext text
  cases text with
  | nil => rfl
  | cons c text => simp [signAt,guarded,isSign]

theorem exponentAt_eq :
    exponentAt = guarded isExponentMark (followedBy signAt (List.takeWhile Char.isDigit)) := by
  funext text
  cases text with
  | nil => rfl
  | cons c text => simp [exponentAt,guarded,isExponentMark,followedBy]

/-- The text of a number, read piece by piece. -/
def numberText : Text → Text :=
  followedBy (followedBy (List.takeWhile Char.isDigit) fractionAt) exponentAt

theorem numberText_eq (text : Text) : (numberAt text).text = numberText text := by
  simp [numberAt,numberText,followedBy,List.append_assoc]

theorem reader_numberText : Reader numberText := by
  have hd : Reader (List.takeWhile Char.isDigit) := reader_takeWhile
  have hs : Reader signAt := signAt_eq ▸ reader_guarded reader_nothing
  have hf : Reader fractionAt := fractionAt_eq ▸ reader_guarded hd
  have he : Reader exponentAt := exponentAt_eq ▸ reader_guarded (reader_followedBy hs hd)
  exact reader_followedBy (reader_followedBy hd hf) he

theorem local_numberText : Local isStop numberText := by
  have hd : Local isStop (List.takeWhile Char.isDigit) := local_takeWhile not_digit_of_isStop
  have hs : Local isStop signAt := by
    rw [signAt_eq]
    apply local_guarded local_nothing
    intro c hc
    rcases isStop_cases hc with rfl | rfl | rfl | rfl | rfl | rfl | rfl <;> decide
  have hf : Local isStop fractionAt := by
    rw [fractionAt_eq]
    apply local_guarded hd
    intro c hc
    rcases isStop_cases hc with rfl | rfl | rfl | rfl | rfl | rfl | rfl <;> decide
  have he : Local isStop exponentAt := by
    rw [exponentAt_eq]
    apply local_guarded (local_followedBy hs hd)
    intro c hc
    rcases isStop_cases hc with rfl | rfl | rfl | rfl | rfl | rfl | rfl <;> decide
  exact local_followedBy (local_followedBy hd hf) he

/-- A number is an integer when it has digits only. -/
theorem numberAt_eq (text : Text) :
    numberAt text = ⟨if (numberText text).all Char.isDigit then .INTEGER else .FLOAT,
      numberText text⟩ := by
  have hf : ∀ t : Text, fractionAt t = [] ∨ ∃ s, fractionAt t = '.'::s := by
    intro t
    cases t with
    | nil => exact .inl rfl
    | cons c t =>
      by_cases hc : c = '.' <;> simp [fractionAt,hc]
  have he : ∀ t : Text, exponentAt t = [] ∨ ∃ s, exponentAt t = 'e'::s ∨ exponentAt t = 'E'::s := by
    intro t
    cases t with
    | nil => exact .inl rfl
    | cons c t =>
      by_cases hc : c = 'e' <;> by_cases hc' : c = 'E' <;> simp [exponentAt,hc,hc']
  have hw : (text.takeWhile Char.isDigit).all Char.isDigit := List.all_takeWhile
  rw [← numberText_eq]
  simp only [numberAt,List.all_append,hw,Bool.true_and]
  congr 1
  rcases hf (text.drop (text.takeWhile Char.isDigit).length) with hf | ⟨s,hf⟩
  · rcases he (text.drop ((text.takeWhile Char.isDigit).length+0)) with he | ⟨s,he | he⟩ <;>
      simp_all
  · simp [hf]

theorem stringBody_pos (q c : Char) (text : Text) : 0 < (stringBody q (c::text)).2 := by
  cases text with
  | nil =>
    simp only [stringBody]
    split <;> simp
  | cons d text =>
    simp only [stringBody]
    split
    · simp
    · split <;> simp

/-- A string that ends before the text does ends at its quote, whatever follows. -/
theorem stringBody_append (q : Char) {s t : Text} (ht : t ≠ [])
    (h : (stringBody q (s++t)).2 = s.length) (t' : Text) :
    stringBody q (s++t') = stringBody q (s++t) := by
  induction s using List.twoStepInduction with
  | nil =>
    obtain ⟨c,t,rfl⟩ := List.exists_cons_of_ne_nil ht
    have hp := stringBody_pos q c t
    simp only [List.nil_append,List.length_nil] at h
    omega
  | singleton c =>
    obtain ⟨d,t,rfl⟩ := List.exists_cons_of_ne_nil ht
    have hp := stringBody_pos q d t
    by_cases hc : c = q
    · cases t' with
      | nil => simp [stringBody,hc]
      | cons d' t' => simp [stringBody,hc]
    · by_cases hb : c = '\\'
      · subst hb
        simp [stringBody,hc] at h
      · simp [stringBody,hc,hb] at h
        omega
  | cons_cons c d s ih₁ ih₂ =>
    by_cases hc : c = q
    · simp [stringBody,hc]
    · by_cases hb : c = '\\'
      · subst hb
        simp only [List.cons_append,stringBody,hc,if_false,if_true,List.length_cons] at h ⊢
        rw [ih₁ (by omega)]
      · simp only [List.cons_append,stringBody,hc,hb,if_false,List.length_cons] at h ⊢
        have hh := ih₂ d (by simpa using h)
        simp only [List.cons_append] at hh
        rw [hh]

theorem operatorOf_one {c : Char} {d : Option Char} (h : (operatorOf c d).text.length = 1) :
    operatorOf c d = ⟨(oneCharacterOperators.lookup c).getD .UNKNOWN,[c]⟩ := by
  unfold operatorOf at h ⊢
  split
  · next op hop =>
    rw [hop] at h
    simp at h
  · rfl

theorem operatorOf_stop {c d : Char} (hd : isStop d) :
    (operatorOf c (some d)).text.length = 1 := by
  have hn : twoCharacterOperators.find? (fun op => op.1 = c ∧ some d = some op.2.1) = none := by
    rw [List.find?_eq_none]
    intro op hop
    rcases isStop_cases hd with rfl | rfl | rfl | rfl | rfl | rfl | rfl <;>
      revert op <;> simp [twoCharacterOperators]
  rw [operatorOf,hn]
  rfl

/-- What is read at the front of a text depends on it and on at most the next character. -/
theorem scan_local {s t : Text} {c c' : Char} {l : Lexeme} (hs : s ≠ [])
    (h : scan (s++c::t) = (l,s.length)) (hc : c' = c ∨ isStop c') (t' : Text) :
    scan (s++c'::t') = (l,s.length) := by
  obtain ⟨a,s,rfl⟩ := List.exists_cons_of_ne_nil hs
  simp only [List.cons_append,scan] at h ⊢
  split at h
  · next ha =>
    rw [if_pos ha]
    simp only [Prod.mk.injEq] at h ⊢
    have hr := reader_takeWhile.eq_of_length (s:=a::s) (t:=c::t) h.2
    have hl := local_takeWhile not_part_of_isStop (a::s) c t c' t' hr hc
    simp only [List.cons_append] at hr hl
    simp only [identifierAt,hr,hl] at h ⊢
    exact h
  · split at h
    · next ha hd =>
      rw [if_neg ha,if_pos hd]
      simp only [Prod.mk.injEq,numberText_eq] at h ⊢
      have hr := reader_numberText.eq_of_length (s:=a::s) (t:=c::t) h.2
      have hl := local_numberText (a::s) c t c' t' hr hc
      simp only [List.cons_append] at hr hl
      simp only [numberAt_eq,hr,hl] at h ⊢
      exact h
    · split at h
      · next ha hd hq =>
        rw [if_neg ha,if_neg hd,if_pos hq]
        simp only [Prod.mk.injEq,List.length_cons,Nat.add_right_cancel_iff] at h ⊢
        rw [stringBody_append a (by simp) h.2 (c'::t')]
        exact h
      · next ha hd hq =>
        rw [if_neg ha,if_neg hd,if_neg hq]
        simp only [Prod.mk.injEq] at h ⊢
        cases s with
        | cons b s => exact h
        | nil =>
          have h₁ : (operatorOf a (some c)).text.length = 1 := by simpa using h.2
          have h₂ : (operatorOf a (some c')).text.length = 1 := by
            rcases hc with rfl | hc
            · exact h₁
            · exact operatorOf_stop hc
          simp only [List.nil_append,List.head?_cons] at h ⊢
          rw [operatorOf_one h₁] at h
          rw [operatorOf_one h₂]
          exact h

/-- A block comment that ends before `s` does ends at its closing mark. -/
theorem blockLength_append {s t : Text} (ht : t ≠ []) (h : blockLength (s++t) < s.length)
    (t' : Text) : blockLength (s++t') = blockLength (s++t) := by
  induction s with
  | nil => simp at h
  | cons c s ih =>
    cases s with
    | nil =>
      obtain ⟨d,t,rfl⟩ := List.exists_cons_of_ne_nil ht
      simp only [List.cons_append,List.nil_append,blockLength,List.length_singleton] at h
      split at h <;> omega
    | cons d s =>
      simp only [List.cons_append,blockLength] at h ⊢
      split
      · rfl
      · next hm =>
        rw [if_neg hm] at h
        have hh := ih (by simpa using h)
        simp only [List.cons_append] at hh
        rw [hh]

theorem takeWhile_append_of_lt {p : Char → Bool} {s t : Text}
    (h : ((s++t).takeWhile p).length < s.length) (t' : Text) :
    (s++t').takeWhile p = (s++t).takeWhile p := by
  have hs : (s.takeWhile p).length ≠ s.length := by
    intro he
    rw [List.takeWhile_append,if_pos he,List.length_append] at h
    omega
  rw [List.takeWhile_append,if_neg hs,List.takeWhile_append,if_neg hs]

/-- The character `c` may stand behind `s`, where the text went on with `rest`, and the last
token of `s` is still the same. -/
def MayFollow (s rest : Text) (c : Char) : Prop :=
  rest.head? = some c ∨ isspace c ∨ c = '/' ∧ s.getLast? ≠ some '/'

theorem commentLength_local {s t : Text} {c c' : Char}
    (h : commentLength (s++c::t) < s.length) (hc : MayFollow s (c::t) c') (t' : Text) :
    commentLength (s++c'::t') = commentLength (s++c::t) := by
  match s with
  | [] => simp at h
  | [a] =>
    simp only [List.cons_append,List.nil_append,commentLength,List.length_singleton] at h ⊢
    have hl : ¬ (a = '-' ∧ c = '-' ∨ a = '/' ∧ c = '/') := by
      intro hl
      rw [if_pos hl] at h
      rcases hl with ⟨rfl,rfl⟩ | ⟨rfl,rfl⟩ <;> simp at h
    rw [if_neg hl] at h ⊢
    have hb : ¬ (a = '/' ∧ c = '*') := by
      intro hb
      rw [if_pos hb] at h
      omega
    rw [if_neg hb]
    have hnot : ¬ (a = '-' ∧ c' = '-' ∨ a = '/' ∧ c' = '/') ∧ ¬ (a = '/' ∧ c' = '*') := by
      rcases hc with hc | hc | ⟨rfl,ha⟩
      · simp only [List.head?_cons,Option.some.injEq] at hc
        exact hc ▸ ⟨hl,hb⟩
      · rcases isStop_cases (show isStop c' by simp [isStop,hc]) with
          rfl | rfl | rfl | rfl | rfl | rfl | rfl <;> simp_all [isspace]
      · have ha' : a ≠ '/' := by simpa using ha
        simp [ha']
    rw [if_neg hnot.1,if_neg hnot.2]
  | a :: b :: s =>
    simp only [List.cons_append,commentLength] at h ⊢
    split
    · next hl =>
      rw [if_pos hl] at h
      have hh := takeWhile_append_of_lt (s:=a::b::s) h (c'::t')
      simp only [List.cons_append] at hh
      rw [hh]
    · next hl =>
      rw [if_neg hl] at h
      split
      · next hb =>
        rw [if_pos hb] at h
        have hne : c::t ≠ [] := by simp
        have hlt : blockLength (s++c::t) < s.length := by simpa using h
        rw [blockLength_append hne hlt (c'::t')]
      · rfl

/-- A call of `nextToken` on `s++rest` returns the lexeme `l` and leaves `rest`. -/
def Reads (s rest : Text) (l : Lexeme) : Prop :=
  afterTrivia (s++rest) ≠ [] ∧ (scan (afterTrivia (s++rest))).1 = l ∧
    (afterTrivia (s++rest)).drop (scan (afterTrivia (s++rest))).2 = rest

theorem lexemesOf_of_reads {s rest : Text} {l : Lexeme} (h : Reads s rest l) :
    lexemesOf (s++rest) = l :: lexemesOf rest := by
  rw [lexemesOf_cons_of h.1,h.2.1,h.2.2]

theorem afterTrivia_suffix (text : Text) : afterTrivia text <:+ text :=
  (List.drop_suffix _ _).trans (List.dropWhile_suffix _)

theorem exists_reads {text : Text} (ht : afterTrivia text ≠ []) :
    ∃ s rest l, text = s++rest ∧ Reads s rest l := by
  obtain ⟨s,hs⟩ := (List.drop_suffix (scan (afterTrivia text)).2 _).trans (afterTrivia_suffix text)
  exact ⟨s,_,_,hs.symm,by rw [hs]; exact ht,rfl,by rw [hs]⟩

/-- Behind whitespace and comment the call finds a part of `s`, and goes on finding it. -/
theorem afterTrivia_local {s q t : Text} {c c' : Char} (hq : q ≠ [])
    (h : afterTrivia (s++c::t) = q++c::t) (hc : MayFollow s (c::t) c') (t' : Text) :
    afterTrivia (s++c'::t') = q++c'::t' := by
  have hne : ¬ (s.dropWhile isspace).isEmpty := by
    intro he
    have hl := congrArg List.length h
    have hd : ((c::t).dropWhile isspace).length ≤ (c::t).length :=
      (List.dropWhile_sublist isspace).length_le
    have hq' : 0 < q.length := List.length_pos_iff.mpr hq
    simp only [afterTrivia,List.dropWhile_append,he,if_true,List.length_drop,
      List.length_append] at hl
    omega
  have hw : ∀ t, (s++t).dropWhile isspace = s.dropWhile isspace++t := by
    intro t
    rw [List.dropWhile_append,if_neg hne]
  have hlast : (s.dropWhile isspace).getLast? = s.getLast? := by
    obtain ⟨u,hu⟩ := List.dropWhile_suffix (l:=s) isspace
    conv_rhs => rw [← hu]
    rw [List.getLast?_append_of_ne_nil]
    simpa using hne
  generalize s.dropWhile isspace = r at hw hlast
  simp only [afterTrivia,hw] at h ⊢
  have hl := congrArg List.length h
  have hq' : 0 < q.length := List.length_pos_iff.mpr hq
  simp only [List.length_drop,List.length_append,List.length_cons] at hl
  have hlt : commentLength (r++c::t) < r.length := by omega
  rw [commentLength_local hlt (by simpa [MayFollow,hlast] using hc)]
  rw [List.drop_append_of_le_length hlt.le] at h ⊢
  rw [List.append_cancel_right h]

theorem reads_local {s t : Text} {c c' : Char} {l : Lexeme} (h : Reads s (c::t) l)
    (hc : MayFollow s (c::t) c') (t' : Text) : Reads s (c'::t') l := by
  obtain ⟨q,hq⟩ := List.drop_suffix (scan (afterTrivia (s++c::t))).2 (afterTrivia (s++c::t))
  rw [h.2.2] at hq
  have hlen : (scan (afterTrivia (s++c::t))).2 = q.length := by
    have hl := congrArg List.length h.2.2
    rw [← hq] at hl ⊢
    simp only [List.length_drop,List.length_append,List.length_cons] at hl
    omega
  have hne : q ≠ [] := by
    rintro rfl
    have hp := scan_length_pos h.1
    simp [hlen] at hp
  have hscan : scan (q++c::t) = (l,q.length) := by
    rw [hq]
    exact Prod.ext h.2.1 hlen
  have hstop : c' = c ∨ isStop c' := by
    rcases hc with hc | hc | hc
    · simp only [List.head?_cons,Option.some.injEq] at hc
      exact .inl hc.symm
    · exact .inr (by simp [isStop,hc])
    · exact .inr (by simp [isStop,hc.1])
  rw [Reads,afterTrivia_local hne hq.symm hc t',scan_local hne hscan hstop t']
  simp [hne]

end OrangeSQL
