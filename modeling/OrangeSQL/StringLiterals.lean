import OrangeSQL.LexerSteps

/-! String literals. The lexer gives back the content of an escaped literal in upper case,
because its constructor rewrites the whole input. -/
namespace OrangeSQL

inductive Quote
  | single | double
  deriving DecidableEq, Repr

def Quote.char : Quote → Char
  | .single => '\''
  | .double => '"'

/-- `s` with a backslash before each backslash, each quote `q` and each character that `also`
marks, such as the quote of the other kind. -/
def escape (q : Quote) (also : Char → Bool) (s : Text) : Text :=
  s.flatMap fun c => if c = q.char ∨ c = '\\' ∨ also c then ['\\',c] else [c]

/-- A literal with the content `s`. -/
def quoted (q : Quote) (also : Char → Bool) (s : Text) : Text :=
  q.char :: (escape q also s ++ [q.char])

theorem isLower_eq (c : Char) :
    c.isLower = (decide ('a'.val ≤ c.val) && decide (c.val ≤ 'z'.val)) := rfl

theorem isUpper_eq (c : Char) :
    c.isUpper = decide ('A'.val ≤ c.val ∧ c.val ≤ 'Z'.val) := rfl

theorem isLower_iff (c : Char) : c.isLower ↔ 97 ≤ c.toNat ∧ c.toNat ≤ 122 := by
  simp [isLower_eq,UInt32.le_iff_toNat_le,← Char.toNat_val]

theorem isUpper_iff (c : Char) : c.isUpper ↔ 65 ≤ c.toNat ∧ c.toNat ≤ 90 := by
  simp [isUpper_eq,UInt32.le_iff_toNat_le,← Char.toNat_val]

theorem toUpper_of_not_isLower {c : Char} (hc : ¬ c.isLower) : c.toUpper = c := by
  have hh : ¬ ('a'.val ≤ c.val ∧ c.val ≤ 'z'.val) := by simpa [isLower_eq] using hc
  exact dif_neg hh

theorem toNat_toUpper_of_isLower {c : Char} (hc : c.isLower) :
    c.toUpper.toNat+32 = c.toNat := by
  have hh : 'a'.val ≤ c.val ∧ c.val ≤ 'z'.val := by simpa [isLower_eq] using hc
  have hb := (isLower_iff c).mp hc
  delta Char.toUpper
  rw [dif_pos hh]
  have hv : c.val.toNat = c.toNat := rfl
  have hd : ('A'.val - 'a'.val).toNat = 2^32-32 := by decide
  change (c.val+('A'.val - 'a'.val)).toNat+32 = c.toNat
  rw [UInt32.toNat_add,hd,hv]
  omega

theorem toUpper_eq_self_iff (c : Char) : c.toUpper = c ↔ ¬ c.isLower := by
  constructor
  · intro h hl
    have hh := toNat_toUpper_of_isLower hl
    rw [h] at hh
    omega
  · exact toUpper_of_not_isLower

theorem toUpper_eq_imp {c d : Char} (h : c.toUpper = d) (hd : ¬ d.isUpper) : c = d := by
  by_cases hl : c.isLower
  · have hh := toNat_toUpper_of_isLower hl
    have hb := (isLower_iff c).mp hl
    rw [isUpper_iff,← h] at hd
    omega
  · rw [← h,toUpper_of_not_isLower hl]

theorem stringBody_escape (q : Quote) (also : Char → Bool) (s : Text) :
    stringBody q.char ((escape q also s).map Char.toUpper ++ [q.char]) =
      (s.map Char.toUpper,(escape q also s).length+1) := by
  induction s with
  | nil => simp [escape,stringBody]
  | cons c s ih =>
    have hq : '\\' ≠ q.char := by cases q <;> decide
    have hu : '\\'.toUpper = '\\' := by decide
    by_cases hm : c = q.char ∨ c = '\\' ∨ also c
    · have he : escape q also (c::s) = '\\' :: c :: escape q also s := by simp [escape,hm]
      simp [he,stringBody,hu,hq,ih]
    · have he : escape q also (c::s) = c :: escape q also s := by simp [escape,hm]
      have hc : c.toUpper ≠ q.char := by
        intro h
        exact hm (.inl (toUpper_eq_imp h (by cases q <;> decide)))
      have hb : c.toUpper ≠ '\\' := by
        intro h
        exact hm (.inr (.inl (toUpper_eq_imp h (by decide))))
      have hne : (escape q also s).map Char.toUpper ++ [q.char] ≠ [] := by simp
      obtain ⟨d,text,hd⟩ := List.exists_cons_of_ne_nil hne
      rw [he,List.map_cons,List.cons_append,hd,stringBody,if_neg hc,if_neg hb,← hd,ih]
      simp

/-- The lexer reads an escaped literal as one STRING token, with its content in upper case. -/
theorem lexemes_quoted (q : Quote) (also : Char → Bool) (s : Text) :
    lexemes (quoted q also s) = [⟨.STRING,s.map Char.toUpper⟩] := by
  have hq : q.char.toUpper = q.char := by cases q <;> decide
  have hb := stringBody_escape q also s
  have ht : (quoted q also s).map Char.toUpper =
      q.char :: ((escape q also s).map Char.toUpper ++ [q.char]) := by simp [quoted,hq]
  have ha : afterTrivia (q.char :: ((escape q also s).map Char.toUpper ++ [q.char])) =
      q.char :: ((escape q also s).map Char.toUpper ++ [q.char]) := by
    have hne : (escape q also s).map Char.toUpper ++ [q.char] ≠ [] := by simp
    obtain ⟨d,text,hd⟩ := List.exists_cons_of_ne_nil hne
    rw [hd]
    cases q <;> simp [afterTrivia,List.dropWhile,isspace,commentLength,Quote.char]
  have hs : scan (q.char :: ((escape q also s).map Char.toUpper ++ [q.char])) =
      (⟨.STRING,s.map Char.toUpper⟩,(escape q also s).length+2) := by
    have hc : ¬ isIdentifierStart q.char ∧ ¬ q.char.isDigit ∧ (q.char = '\'' ∨ q.char = '"') := by
      cases q <;> decide
    rw [scan,if_neg hc.1,if_neg hc.2.1,if_pos hc.2.2,hb]
  have hd : (q.char :: ((escape q also s).map Char.toUpper ++ [q.char])).drop
      ((escape q also s).length+2) = [] := by simp
  rw [lexemes_eq,ht,lexemesOf_cons_of (by rw [ha]; simp),ha,hs,hd,
    lexemesOf_nil_of (by decide)]

/-- A literal keeps its content exactly when the content has no lower-case letter. -/
theorem string_literal_kept_iff (q : Quote) (also : Char → Bool) (s : Text) :
    lexemes (quoted q also s) = [⟨.STRING,s⟩] ↔ ∀ c ∈ s, ¬ c.isLower := by
  rw [lexemes_quoted]
  simp only [List.cons.injEq,Lexeme.mk.injEq,true_and,and_true]
  induction s with
  | nil => simp
  | cons c s ih => simp [ih,toUpper_eq_self_iff]

/-- The literal 'a' comes back as the content A. -/
theorem string_literal_not_kept :
    lexemes (quoted .single (fun _ => false) ['a']) ≠ [⟨.STRING,['a']⟩] := by
  decide

end OrangeSQL
