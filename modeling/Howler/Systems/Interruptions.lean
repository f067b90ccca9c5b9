import Howler.Systems.Requests

namespace Systems

namespace Prog

variable {I : Interface} {ε σ α β : Type}

/-- The computation, stopped before its `n + 1`st command. -/
def runFor (H : Handler I σ) : Prog I ε α → ℕ → σ → Option (Except ε α) × σ
  | ret a, _, s => (some (.ok a), s)
  | raise e, _, s => (some (.error e), s)
  | call _ _, 0, s => (none, s)
  | call c k, n + 1, s => (k (H c s).1).runFor H n (H c s).2

/-- Every command of the first `n` is given in a state with `C`. -/
def Obeys (H : Handler I σ) (C : I.Command → σ → Prop) : Prog I ε α → ℕ → σ → Prop
  | call c k, n + 1, s => C c s ∧ (k (H c s).1).Obeys H C n (H c s).2
  | _, _, _ => True

/-- As long as the commands are given with `C`, all the states passed through have `P`, and the
computation returns with `Q` or raises with `E`. -/
def Keeps (H : Handler I σ) (C : I.Command → σ → Prop) (P : σ → Prop) (Q : α → σ → Prop)
    (E : ε → σ → Prop) : Prog I ε α → σ → Prop
  | ret a, s => P s ∧ Q a s
  | raise e, s => P s ∧ E e s
  | call c k, s => P s ∧ (C c s → (k (H c s).1).Keeps H C P Q E (H c s).2)

/-- The computation with its outcome as a value. -/
def attempt (p : Prog I ε α) : Prog I ε (Except ε α) :=
  match p with
  | ret a => ret (.ok a)
  | raise e => ret (.error e)
  | call c k => call c fun r => (k r).attempt

/-- `try: p finally: q`. -/
def tryFinally (p : Prog I ε α) (q : Prog I ε Unit) : Prog I ε α := do
  let r ← p.attempt
  q
  fromExcept r

variable {H : Handler I σ} {C : I.Command → σ → Prop} {P P' : σ → Prop} {Q Q' : α → σ → Prop}
  {E E' : ε → σ → Prop}

theorem Keeps.runFor {p : Prog I ε α} {n : ℕ} {s : σ} (h : p.Keeps H C P Q E s)
    (hC : p.Obeys H C n s) : P (p.runFor H n s).2 ∧
      (∀ a, (p.runFor H n s).1 = some (.ok a) → Q a (p.runFor H n s).2) ∧
      ∀ e, (p.runFor H n s).1 = some (.error e) → E e (p.runFor H n s).2 := by
  induction p generalizing n s with
  | ret a =>
    refine ⟨h.1, fun b hb => ?_, nofun⟩
    obtain rfl := Except.ok.inj (Option.some.inj hb)
    exact h.2
  | raise e =>
    refine ⟨h.1, nofun, fun e' he => ?_⟩
    obtain rfl := Except.error.inj (Option.some.inj he)
    exact h.2
  | call c k ih =>
    cases n with
    | zero => exact ⟨h.1, nofun, nofun⟩
    | succ n => exact ih _ (h.2 hC.1) hC.2

/-- A run with nothing interrupted or excluded. -/
theorem Keeps.run {p : Prog I ε α} {s : σ} (h : p.Keeps H C P Q E s) (hC : ∀ c s, C c s) :
    (∀ a t, p.run H s = (.ok a, t) → Q a t) ∧ ∀ e t, p.run H s = (.error e, t) → E e t := by
  induction p generalizing s with
  | ret a =>
    constructor
    · intro b t hb
      cases hb
      exact h.2
    · intro e t he
      cases he
  | raise e =>
    constructor
    · intro b t hb
      cases hb
    · intro e' t he
      cases he
      exact h.2
  | call c k ih => exact ih _ (h.2 (hC c s))

theorem keeps_pure {a : α} {s : σ} (hP : P s) (hQ : Q a s) :
    (pure a : Prog I ε α).Keeps H C P Q E s := ⟨hP, hQ⟩

theorem keeps_throw {e : ε} {s : σ} (hP : P s) (hE : E e s) :
    (throw e : Prog I ε α).Keeps H C P Q E s := ⟨hP, hE⟩

theorem Keeps.bind {p : Prog I ε α} {f : α → Prog I ε β} {s : σ} {R : β → σ → Prop}
    (hp : p.Keeps H C P Q E s) (hf : ∀ a s', P s' → Q a s' → (f a).Keeps H C P R E s') :
    (p >>= f).Keeps H C P R E s := by
  induction p generalizing s with
  | ret a => exact hf a s hp.1 hp.2
  | raise e => exact hp
  | call c k ih => exact ⟨hp.1, fun hC => ih _ (hp.2 hC)⟩

theorem Keeps.catch {p : Prog I ε α} {f : ε → Prog I ε α} {s : σ} (hp : p.Keeps H C P Q E s)
    (hf : ∀ e s', P s' → E e s' → (f e).Keeps H C P Q E' s') :
    (tryCatch p f).Keeps H C P Q E' s := by
  induction p generalizing s with
  | ret a => exact hp
  | raise e => exact hf e s hp.1 hp.2
  | call c k ih => exact ⟨hp.1, fun hC => ih _ (hp.2 hC)⟩

theorem Keeps.mono {p : Prog I ε α} {s : σ} (hp : p.Keeps H C P Q E s) (hP : ∀ s, P s → P' s)
    (hQ : ∀ a s, Q a s → Q' a s) (hE : ∀ e s, E e s → E' e s) : p.Keeps H C P' Q' E' s := by
  induction p generalizing s with
  | ret a => exact ⟨hP s hp.1, hQ a s hp.2⟩
  | raise e => exact ⟨hP s hp.1, hE e s hp.2⟩
  | call c k ih => exact ⟨hP s hp.1, fun hC => ih _ (hp.2 hC)⟩

theorem Keeps.attempt {p : Prog I ε α} {s : σ} (hp : p.Keeps H C P Q E s) :
    p.attempt.Keeps H C P
      (fun r s => match r with | .ok a => Q a s | .error e => E e s) E' s := by
  induction p generalizing s with
  | ret a => exact hp
  | raise e => exact hp
  | call c k ih => exact ⟨hp.1, fun hC => ih _ (hp.2 hC)⟩

/-- How a command fails that fails: with or without its effect. -/
def failure (S : Server I ε σ) (c : I.Command) (s : σ × List Delivery) : Option Bool :=
  match S c s.1, s.2.headD .answered with
  | .error _, _ => some false
  | .ok _, .answered => none
  | .ok _, .failedBefore => some false
  | .ok _, .failedAfter => some true

section Request

variable {S : Server I ε σ} {lost : ε} {harmful : I.Command → σ → Bool → Prop} {R R' : σ → Prop}

/-- No command fails in a harmful way. -/
def Harmless (S : Server I ε σ) (harmful : I.Command → σ → Bool → Prop)
    (c : (I.fallible ε).Command) (s : σ × List Delivery) : Prop :=
  ∀ effect, failure S c s = some effect → ¬ harmful c s.1 effect

theorem keeps_request {c : I.Command} {s : σ} {ds : List Delivery} {Q : I.Answer c → σ → Prop}
    {E : ε → σ → Prop} (hs : R s)
    (hok : ∀ a s', S c s = .ok (a, s') → R s' ∧ Q a s')
    (hbefore : ∀ e, e = lost ∨ S c s = .error e → ¬ harmful c s false → E e s)
    (hafter : ∀ a s', S c s = .ok (a, s') → ¬ harmful c s true → E lost s') :
    (request c).Keeps (S.behind lost) (Harmless S harmful) (fun t => R t.1)
      (fun a t => Q a t.1) (fun e t => E e t.1) (s, ds) := by
  refine ⟨hs, fun hC => ?_⟩
  unfold Harmless failure at hC
  unfold Server.behind
  cases hS : S c s with
  | error e =>
    simp only [hS] at hC
    exact ⟨hs, hbefore e (.inr hS) (hC false rfl)⟩
  | ok r =>
    obtain ⟨a, s'⟩ := r
    obtain ⟨hR, hQ⟩ := hok a s' hS
    cases hd : ds.headD .answered with
    | answered =>
      exact ⟨hR, hQ⟩
    | failedBefore =>
      simp only [hS, hd] at hC ⊢
      exact ⟨hs, hbefore lost (.inl rfl) (hC false rfl)⟩
    | failedAfter =>
      simp only [hS, hd] at hC ⊢
      exact ⟨hR, hafter a s' hS (hC true rfl)⟩

end Request

end Prog

end Systems
