import Mathlib.Data.List.Basic
import Mathlib.Tactic.Linarith

/-! Recursive descent parsers over a list of tokens, with fuel for loops and recursion. A run
ends with a value and the tokens left, with an error, or not at all when its fuel is used up;
beside that it has the ghost events that it met on the way. -/
namespace Parsing

/-- `result` is `none` for a run that is out of fuel. -/
structure Run (τ ε ω α : Type) where
  events : List ω
  result : Option (Except ε (α × List τ))

def Parser (τ ε ω α : Type) := List τ → Run τ ε ω α

variable {τ ε ω α β σ : Type}

namespace Parser

def succeed (a : α) : Parser τ ε ω α := fun ts => ⟨[],some (.ok (a,ts))⟩

def andThen (p : Parser τ ε ω α) (f : α → Parser τ ε ω β) : Parser τ ε ω β := fun ts =>
  match (p ts).result with
  | some (.ok (a,rest)) => ⟨(p ts).events++(f a rest).events,(f a rest).result⟩
  | some (.error e) => ⟨(p ts).events,some (.error e)⟩
  | none => ⟨(p ts).events,none⟩

instance : Monad (Parser τ ε ω) where
  pure := succeed
  bind := andThen

/-- The tokens that are left. -/
def remaining : Parser τ ε ω (List τ) := fun ts => ⟨[],some (.ok (ts,ts))⟩

/-- Go to the next token; behind the last one this does nothing. -/
def advance : Parser τ ε ω Unit := fun ts => ⟨[],some (.ok ((),ts.tail))⟩

def fail (e : ε) : Parser τ ε ω α := fun _ => ⟨[],some (.error e)⟩

def outOfFuel : Parser τ ε ω α := fun _ => ⟨[],none⟩

def emit (e : ω) : Parser τ ε ω Unit := fun ts => ⟨[e],some (.ok ((),ts))⟩

/-- A loop of at most `n` rounds over a state; `inl` goes on and `inr` leaves it. -/
def loop : ℕ → (σ → Parser τ ε ω (σ ⊕ α)) → σ → Parser τ ε ω α
  | 0, _, _ => outOfFuel
  | n+1, body, s => do
    match ← body s with
    | .inl s => loop n body s
    | .inr a => pure a

end Parser

theorem Parser.bind_run_events {p : Parser τ ε ω α} {ts mid : List τ} {a : α} {es : List ω}
    (h : p ts = ⟨es,some (.ok (a,mid))⟩) (f : α → Parser τ ε ω β) :
    (p >>= f) ts = ⟨es++(f a mid).events,(f a mid).result⟩ := by
  change Parser.andThen p f ts = _
  rw [Parser.andThen,h]

theorem Parser.bind_run {p : Parser τ ε ω α} {ts mid : List τ} {a : α}
    (h : p ts = ⟨[],some (.ok (a,mid))⟩) (f : α → Parser τ ε ω β) :
    (p >>= f) ts = f a mid :=
  Parser.bind_run_events h f

theorem Parser.bind_run_none {p : Parser τ ε ω α} {ts : List τ} {es : List ω}
    (h : p ts = ⟨es,none⟩) (f : α → Parser τ ε ω β) : (p >>= f) ts = ⟨es,none⟩ := by
  change Parser.andThen p f ts = _
  rw [Parser.andThen,h]

/-- `p` reads the value `a` from `ts` and leaves `rest`. -/
def Parses (p : Parser τ ε ω α) (ts : List τ) (a : α) (rest : List τ) : Prop :=
  (p ts).result = some (.ok (a,rest))

theorem Parses.pure (a : α) (ts : List τ) : Parses (pure a : Parser τ ε ω α) ts a ts := rfl

theorem Parses.bind {p : Parser τ ε ω α} {f : α → Parser τ ε ω β} {ts mid rest : List τ}
    {a : α} {b : β} (hp : Parses p ts a mid) (hf : Parses (f a) mid b rest) :
    Parses (p >>= f) ts b rest := by
  have hh : (p >>= f) ts = ⟨(p ts).events++(f a mid).events,(f a mid).result⟩ := by
    change Parser.andThen p f ts = _
    rw [Parser.andThen,show (p ts).result = some (.ok (a,mid)) from hp]
  rw [Parses,hh]
  exact hf

theorem Parses.unique {p : Parser τ ε ω α} {ts rest rest' : List τ} {a a' : α}
    (h : Parses p ts a rest) (h' : Parses p ts a' rest') : a = a' ∧ rest = rest' := by
  rw [Parses,h] at h'
  simpa only [Option.some.injEq,Except.ok.injEq,Prod.mk.injEq] using h'

theorem Parses.of_bind {p : Parser τ ε ω α} {f : α → Parser τ ε ω β} {ts rest : List τ} {b : β}
    (h : Parses (p >>= f) ts b rest) : ∃ a mid, Parses p ts a mid ∧ Parses (f a) mid b rest := by
  have hrun : (p >>= f) ts = Parser.andThen p f ts := rfl
  rw [Parses,hrun,Parser.andThen] at h
  rcases hr : (p ts).result with _ | _ | ⟨a,mid⟩
  · simp [hr] at h
  · simp [hr] at h
  · rw [hr] at h
    exact ⟨a,mid,hr,h⟩

theorem Parses.loop_stop {body : σ → Parser τ ε ω (σ ⊕ α)} {n : ℕ} {s : σ}
    {ts rest : List τ} {a : α} (h : Parses (body s) ts (.inr a) rest) :
    Parses (Parser.loop (n+1) body s) ts a rest :=
  h.bind (Parses.pure a rest)

theorem Parses.loop_next {body : σ → Parser τ ε ω (σ ⊕ α)} {n : ℕ} {s s' : σ}
    {ts mid rest : List τ} {a : α} (h : Parses (body s) ts (.inl s') mid)
    (hn : Parses (Parser.loop n body s') mid a rest) : Parses (Parser.loop (n+1) body s) ts a rest :=
  h.bind hn

/-- On the tokens `ts` the parsers `p` and `q`, which may differ in their fuel, do the same; they
run out of fuel exactly when they meet a bad event, each event is met at a `site` among the
tokens, and a value `a` that they read takes at least `w a` tokens from the front. -/
structure EndsAt (bad : ω → Prop) (site : List τ → ω → Prop) (w : α → ℕ)
    (p q : Parser τ ε ω α) (ts : List τ) : Prop where
  same : p ts = q ts
  none_iff : (p ts).result = none ↔ ∃ e ∈ (p ts).events, bad e
  met : ∀ e ∈ (p ts).events, ∃ mid, mid <:+ ts ∧ site mid e
  suffix : ∀ a rest, Parses p ts a rest → rest <:+ ts
  le : ∀ a rest, Parses p ts a rest → rest.length+w a ≤ ts.length

/-- The same on all lists of fewer than `m` tokens. -/
def Ends (bad : ω → Prop) (site : List τ → ω → Prop) (m : ℕ) (w : α → ℕ)
    (p q : Parser τ ε ω α) : Prop :=
  ∀ ts, ts.length < m → EndsAt bad site w p q ts

section

variable {bad : ω → Prop} {site : List τ → ω → Prop} {m : ℕ} {w : α → ℕ} {v : β → ℕ}
  {ts : List τ}

theorem EndsAt.of_ok {p : Parser τ ε ω α} {a : α} {rest : List τ}
    (h : p ts = ⟨[],some (.ok (a,rest))⟩) (hs : rest <:+ ts)
    (hw : rest.length+w a ≤ ts.length) : EndsAt bad site w p p ts := by
  have hp : Parses p ts a rest := by rw [Parses,h]
  refine ⟨rfl,by simp [h],by simp [h],?_,?_⟩
  · intro b rest' hb
    rw [← (hp.unique hb).2]
    exact hs
  · intro b rest' hb
    rw [← (hp.unique hb).1,← (hp.unique hb).2]
    exact hw

theorem EndsAt.pure {a : α} (ha : w a = 0) :
    EndsAt bad site w (pure a : Parser τ ε ω α) (pure a) ts := by
  have hh : (Parser.succeed a : Parser τ ε ω α) ts = ⟨[],some (.ok (a,ts))⟩ := rfl
  exact EndsAt.of_ok hh List.suffix_rfl (by omega)

theorem EndsAt.fail (e : ε) :
    EndsAt bad site w (Parser.fail e : Parser τ ε ω α) (Parser.fail e) ts := by
  constructor <;> simp [Parser.fail,Parses]

theorem EndsAt.bind {p q : Parser τ ε ω α} {f g : α → Parser τ ε ω β}
    (hp : EndsAt bad site w p q ts)
    (hf : ∀ a rest, rest.length+w a ≤ ts.length →
      EndsAt bad site (fun b => v b-w a) (f a) (g a) rest) :
    EndsAt bad site v (p >>= f) (q >>= g) ts := by
  have hrun : ∀ (p : Parser τ ε ω α) (f : α → Parser τ ε ω β),
      (p >>= f) ts = Parser.andThen p f ts := fun _ _ => rfl
  have hn := hp.none_iff
  constructor
  · rw [hrun,hrun,Parser.andThen,Parser.andThen,← hp.same]
    rcases hr : (p ts).result with _ | _ | ⟨a,rest⟩
    · rfl
    · rfl
    · simp only [(hf a rest (hp.le a rest hr)).same]
  · rw [hrun,Parser.andThen]
    rcases hr : (p ts).result with _ | _ | ⟨a,rest⟩
    · simpa [hr] using hn
    · simpa [hr] using hn
    · simp only [hr,reduceCtorEq,false_iff] at hn
      rw [(hf a rest (hp.le a rest hr)).none_iff]
      constructor
      · rintro ⟨e,he,hb⟩
        exact ⟨e,List.mem_append_right _ he,hb⟩
      · rintro ⟨e,he,hb⟩
        rcases List.mem_append.mp he with he | he
        · exact absurd ⟨e,he,hb⟩ hn
        · exact ⟨e,he,hb⟩
  · rw [hrun,Parser.andThen]
    rcases hr : (p ts).result with _ | _ | ⟨a,rest⟩
    · exact hp.met
    · exact hp.met
    · intro e he
      rcases List.mem_append.mp he with he | he
      · exact hp.met e he
      · obtain ⟨mid,hm,hs⟩ := (hf a rest (hp.le a rest hr)).met e he
        exact ⟨mid,hm.trans (hp.suffix a rest hr),hs⟩
  · intro b rest hb
    obtain ⟨a,mid,ha,hb⟩ := hb.of_bind
    exact ((hf a mid (hp.le a mid ha)).suffix b rest hb).trans (hp.suffix a mid ha)
  · intro b rest hb
    obtain ⟨a,mid,ha,hb⟩ := hb.of_bind
    have hl := hp.le a mid ha
    have hl' := (hf a mid hl).le b rest hb
    omega

theorem EndsAt.ite {b : Prop} [Decidable b] {p q p' q' : Parser τ ε ω α}
    (h : b → EndsAt bad site w p q ts) (h' : ¬ b → EndsAt bad site w p' q' ts) :
    EndsAt bad site w (if b then p else p') (if b then q else q') ts := by
  by_cases hb : b
  · simpa only [if_pos hb] using h hb
  · simpa only [if_neg hb] using h' hb

theorem EndsAt.congr {p p' q q' : Parser τ ε ω α} (h : EndsAt bad site w p' q' ts)
    (hp : p ts = p' ts) (hq : q ts = q' ts) : EndsAt bad site w p q ts where
  same := by rw [hp,hq,h.same]
  none_iff := by rw [hp]; exact h.none_iff
  met := by rw [hp]; exact h.met
  suffix a rest hr := h.suffix a rest (by rwa [Parses,← hp])
  le a rest hr := h.le a rest (by rwa [Parses,← hp])

/-- A first step that is known takes the tokens before `mid`. -/
theorem EndsAt.step {p : Parser τ ε ω α} {f g : α → Parser τ ε ω β} {a : α} {mid : List τ}
    (hp : p ts = ⟨[],some (.ok (a,mid))⟩) (hm : mid <:+ ts)
    (hf : EndsAt bad site (fun b => v b-(ts.length-mid.length)) (f a) (g a) mid) :
    EndsAt bad site v (p >>= f) (p >>= g) ts := by
  have hh : EndsAt bad site v (fun _ : List τ => f a mid) (fun _ => g a mid) ts := by
    refine ⟨hf.same,hf.none_iff,?_,?_,?_⟩
    · intro e he
      obtain ⟨site',hs,he⟩ := hf.met e he
      exact ⟨site',hs.trans hm,he⟩
    · intro b rest hb
      exact (hf.suffix b rest hb).trans hm
    · intro b rest hb
      have hl := hf.le b rest hb
      have hl' := hm.length_le
      omega
  exact hh.congr (Parser.bind_run hp f) (Parser.bind_run hp g)

theorem EndsAt.mono {w' : α → ℕ} {p q : Parser τ ε ω α} (h : EndsAt bad site w p q ts)
    (hw : ∀ a, w' a ≤ w a) : EndsAt bad site w' p q ts where
  same := h.same
  none_iff := h.none_iff
  met := h.met
  suffix := h.suffix
  le a rest hp := by
    have hh := h.le a rest hp
    have ha := hw a
    omega

theorem Ends.mono {m' : ℕ} {w' : α → ℕ} {p q : Parser τ ε ω α} (h : Ends bad site m w p q)
    (hm : m' ≤ m) (hw : ∀ a, w' a ≤ w a) : Ends bad site m' w' p q :=
  fun ts ht => (h ts (ht.trans_le hm)).mono hw

theorem Ends.ite {b : Prop} [Decidable b] {p q p' q' : Parser τ ε ω α} (h : Ends bad site m w p q)
    (h' : Ends bad site m w p' q') : Ends bad site m w (if b then p else p') (if b then q else q') :=
  fun ts ht => EndsAt.ite (fun _ => h ts ht) fun _ => h' ts ht

theorem Ends.pure {a : α} (ha : w a = 0) :
    Ends bad site m w (pure a : Parser τ ε ω α) (pure a) :=
  fun _ _ => EndsAt.pure ha

theorem Ends.fail (e : ε) : Ends bad site m w (Parser.fail e : Parser τ ε ω α) (Parser.fail e) :=
  fun _ _ => EndsAt.fail e

theorem Ends.remaining :
    Ends bad site m (fun _ => 0) (Parser.remaining : Parser τ ε ω _) Parser.remaining :=
  fun _ _ => EndsAt.of_ok rfl List.suffix_rfl le_rfl

theorem Ends.advance :
    Ends bad site m (fun _ => 0) (Parser.advance : Parser τ ε ω _) Parser.advance :=
  fun _ _ => EndsAt.of_ok rfl (List.tail_suffix _) (by simp)

theorem Ends.bind {p q : Parser τ ε ω α} {f g : α → Parser τ ε ω β} (hp : Ends bad site m w p q)
    (hf : ∀ a, Ends bad site (m-w a) (fun b => v b-w a) (f a) (g a)) :
    Ends bad site m v (p >>= f) (q >>= g) := by
  intro ts ht
  apply (hp ts ht).bind
  intro a rest hrest
  exact hf a rest (by omega)

/-- A loop ends when each round that goes on takes a token. -/
theorem Ends.loop {body body' : σ → Parser τ ε ω (σ ⊕ α)} {n n' : ℕ} (s : σ) (hn : m ≤ n)
    (hn' : m ≤ n')
    (hb : ∀ s, Ends bad site m (Sum.elim (fun _ => 1) w) (body s) (body' s)) :
    Ends bad site m w (Parser.loop n body s) (Parser.loop n' body' s) := by
  induction m generalizing n n' s with
  | zero =>
    intro ts ht
    omega
  | succ m ih =>
    obtain ⟨n,rfl⟩ := Nat.exists_eq_add_of_le' (show 1 ≤ n by omega)
    obtain ⟨n',rfl⟩ := Nat.exists_eq_add_of_le' (show 1 ≤ n' by omega)
    apply (hb s).bind
    intro r
    cases r with
    | inl s =>
      have hh := ih s (show m ≤ n by omega) (show m ≤ n' by omega)
        fun s => (hb s).mono (by omega) fun _ => le_rfl
      exact hh.mono (by simp) (by simp)
    | inr a => exact Ends.pure (by simp)

end

end Parsing
