import Mathlib.Logic.Function.Basic
import Howler.Systems.Runs

namespace Systems

/-- Commands to the outside, with the type of each answer. -/
structure Interface where
  Command : Type
  Answer : Command → Type

/-- A computation that may raise and that talks to the outside, one command at a time. -/
inductive Prog (I : Interface) (ε α : Type) where
  | ret (a : α)
  | raise (e : ε)
  | call (c : I.Command) (k : I.Answer c → Prog I ε α)

/-- How the outside answers and changes. -/
abbrev Handler (I : Interface) (σ : Type) := (c : I.Command) → σ → I.Answer c × σ

namespace Prog

variable {I : Interface} {ε σ α β : Type}

def bind (p : Prog I ε α) (f : α → Prog I ε β) : Prog I ε β :=
  match p with
  | ret a => f a
  | raise e => raise e
  | call c k => call c fun r => (k r).bind f

def catchWith (p : Prog I ε α) (f : ε → Prog I ε α) : Prog I ε α :=
  match p with
  | ret a => ret a
  | raise e => f e
  | call c k => call c fun r => (k r).catchWith f

theorem bind_assoc {γ : Type} (p : Prog I ε α) (f : α → Prog I ε β) (g : β → Prog I ε γ) :
    (p.bind f).bind g = p.bind fun a => (f a).bind g := by
  induction p with
  | ret a => rfl
  | raise e => rfl
  | call c k ih => exact congrArg (call c) (funext ih)

instance : Monad (Prog I ε) where
  pure := ret
  bind := bind

instance : MonadExcept ε (Prog I ε) where
  throw := raise
  tryCatch := catchWith

/-- One command. -/
def perform (c : I.Command) : Prog I ε (I.Answer c) := call c ret

/-- The computation with what it raises suppressed. -/
def optional (p : Prog I ε α) : Prog I ε (Option α) := tryCatch (some <$> p) fun _ => pure none

/-- A raising expression. -/
def fromExcept : Except ε α → Prog I ε α
  | .ok a => ret a
  | .error e => raise e

/-- The whole computation, with nobody else around. -/
def run (H : Handler I σ) : Prog I ε α → σ → Except ε α × σ
  | ret a, s => (.ok a, s)
  | raise e, s => (.error e, s)
  | call c k, s => (k (H c s).1).run H (H c s).2

section Run

variable (H : Handler I σ)

@[simp] theorem run_pure (a : α) (s : σ) : (pure a : Prog I ε α).run H s = (.ok a, s) := rfl

@[simp] theorem run_throw (e : ε) (s : σ) :
    (throw e : Prog I ε α).run H s = (.error e, s) := rfl

@[simp] theorem run_fromExcept (x : Except ε α) (s : σ) :
    (fromExcept x : Prog I ε α).run H s = (x, s) := by
  cases x <;> rfl

theorem run_bind (p : Prog I ε α) (f : α → Prog I ε β) (s : σ) :
    (p >>= f).run H s = (match p.run H s with
      | (.ok a, s') => (f a).run H s'
      | (.error e, s') => (.error e, s')) := by
  induction p generalizing s with
  | ret a => rfl
  | raise e => rfl
  | call c k ih => exact ih _ _

theorem run_catch (p : Prog I ε α) (f : ε → Prog I ε α) (s : σ) :
    (tryCatch p f).run H s = (match p.run H s with
      | (.ok a, s') => (.ok a, s')
      | (.error e, s') => (f e).run H s') := by
  induction p generalizing s with
  | ret a => rfl
  | raise e => rfl
  | call c k ih => exact ih _ _

theorem run_optional (p : Prog I ε α) (s : σ) :
    (optional p).run H s = (.ok (p.run H s).1.toOption, (p.run H s).2) := by
  have hmap : (some <$> p).run H s = _ := run_bind H p (fun a => pure (some a)) s
  rw [optional, run_catch, hmap]
  cases hr : p.run H s with
  | mk r s' => cases r <;> rfl

variable {H}

theorem run_bind_ok {p : Prog I ε α} {s s' : σ} {a : α} (h : p.run H s = (.ok a, s'))
    (f : α → Prog I ε β) : (p >>= f).run H s = (f a).run H s' := by
  rw [run_bind, h]

theorem run_bind_error {p : Prog I ε α} {s s' : σ} {e : ε} (h : p.run H s = (.error e, s'))
    (f : α → Prog I ε β) : (p >>= f).run H s = (.error e, s') := by
  rw [run_bind, h]

theorem run_bind_eq_ok {p : Prog I ε α} {f : α → Prog I ε β} {s s' : σ} {b : β} :
    (p >>= f).run H s = (.ok b, s') ↔
      ∃ a t, p.run H s = (.ok a, t) ∧ (f a).run H t = (.ok b, s') := by
  rw [run_bind]
  cases h : p.run H s with
  | mk r t => cases r <;> simp

end Run

/-- From the state the computation returns with `Q`, or raises with `E`. -/
def Ends (H : Handler I σ) (p : Prog I ε α) (s : σ) (Q : α → σ → Prop) (E : σ → Prop) : Prop :=
  (∀ a s', p.run H s = (.ok a, s') → Q a s') ∧ ∀ e s', p.run H s = (.error e, s') → E s'

section Ends

variable {H : Handler I σ} {Q : α → σ → Prop} {E : σ → Prop} {s : σ}

theorem ends_of_ok {p : Prog I ε α} {a : α} {s' : σ} (h : p.run H s = (.ok a, s'))
    (hQ : Q a s') : Ends H p s Q E := by
  constructor
  · intro b t hb
    rw [h, Prod.mk.injEq, Except.ok.injEq] at hb
    obtain ⟨rfl, rfl⟩ := hb
    exact hQ
  · intro e t he
    simp [h] at he

theorem ends_of_error {p : Prog I ε α} {e : ε} {s' : σ} (h : p.run H s = (.error e, s'))
    (hE : E s') : Ends H p s Q E := by
  constructor
  · intro b t hb
    simp [h] at hb
  · intro e' t he
    rw [h, Prod.mk.injEq] at he
    obtain ⟨-, rfl⟩ := he
    exact hE

theorem ends_pure {a : α} (h : Q a s) : Ends H (pure a : Prog I ε α) s Q E :=
  ends_of_ok (run_pure H a s) h

theorem ends_throw {e : ε} (h : E s) : Ends H (throw e : Prog I ε α) s Q E :=
  ends_of_error (run_throw H e s) h

theorem ends_bind_ok {p : Prog I ε α} {f : α → Prog I ε β} {a : α} {s' : σ} {R : β → σ → Prop}
    (h : p.run H s = (.ok a, s')) (hf : Ends H (f a) s' R E) : Ends H (p >>= f) s R E := by
  rw [Ends] at hf ⊢
  rwa [run_bind_ok h]

theorem ends_bind_error {p : Prog I ε α} {f : α → Prog I ε β} {e : ε} {s' : σ}
    {R : β → σ → Prop} (h : p.run H s = (.error e, s')) (hE : E s') :
    Ends H (p >>= f) s R E :=
  ends_of_error (run_bind_error h f) hE

theorem Ends.bind {M : α → σ → Prop} {p : Prog I ε α} {f : α → Prog I ε β} {R : β → σ → Prop}
    (hp : Ends H p s M E) (hf : ∀ a s', M a s' → Ends H (f a) s' R E) :
    Ends H (p >>= f) s R E := by
  obtain ⟨hok, herr⟩ := hp
  cases hr : p.run H s with
  | mk r t =>
    cases r with
    | ok a => exact ends_bind_ok hr (hf a t (hok a t hr))
    | error e => exact ends_bind_error hr (herr e t hr)

theorem Ends.mono {p : Prog I ε α} {Q' : α → σ → Prop} {E' : σ → Prop} (h : Ends H p s Q E)
    (hQ : ∀ a s', Q a s' → Q' a s') (hE : ∀ s', E s' → E' s') : Ends H p s Q' E' :=
  ⟨fun a s' ha => hQ a s' (h.1 a s' ha), fun e s' he => hE s' (h.2 e s' he)⟩

theorem ends_bind_fromExcept {x : Except ε α} {f : α → Prog I ε β} {R : β → σ → Prop}
    (h : ∀ a, x = .ok a → Ends H (f a) s R E) (hE : E s) :
    Ends H (fromExcept x >>= f) s R E := by
  cases x with
  | ok a => exact h a rfl
  | error e => exact ends_throw hE

theorem Ends.optional {M : σ → Prop} {p : Prog I ε α} (hp : Ends H p s Q M) :
    Ends H p.optional s (fun o s' => match o with | some a => Q a s' | none => M s') E := by
  have hrun := run_optional H p s
  cases hr : p.run H s with
  | mk r t =>
    rw [hr] at hrun
    cases r with
    | ok a => exact ends_of_ok hrun (hp.1 a t hr)
    | error e => exact ends_of_ok hrun (hp.2 e t hr)

/-- A run that is followed to its end. -/
theorem ends_of_snd {p : Prog I ε α} {P : σ → Prop} (h : P (p.run H s).2) :
    Ends H p s (fun _ => P) P := by
  constructor
  · intro a s' hr
    rwa [hr] at h
  · intro e s' hr
    rwa [hr] at h

end Ends

/-- From a state with `P` the computation returns with `Q`, or raises with `E`. -/
def Triple (H : Handler I σ) (P : σ → Prop) (p : Prog I ε α) (Q : α → σ → Prop)
    (E : σ → Prop) : Prop :=
  ∀ s, P s → Ends H p s Q E

section Triple

variable {H : Handler I σ} {P P' : σ → Prop} {Q Q' : α → σ → Prop} {R : β → σ → Prop}
  {E E' : σ → Prop}

theorem triple_pure {a : α} (h : ∀ s, P s → Q a s) :
    Triple H P (pure a : Prog I ε α) Q E :=
  fun s hs => ends_pure (h s hs)

theorem triple_throw {e : ε} (h : ∀ s, P s → E s) :
    Triple H P (throw e : Prog I ε α) Q E :=
  fun s hs => ends_throw (h s hs)

theorem Triple.bind {M : α → σ → Prop} {p : Prog I ε α} {f : α → Prog I ε β}
    (hp : Triple H P p M E) (hf : ∀ a, Triple H (M a) (f a) R E) : Triple H P (p >>= f) R E :=
  fun s hs => (hp s hs).bind hf

theorem Triple.conseq {p : Prog I ε α} (h : Triple H P p Q E) (hP : ∀ s, P' s → P s)
    (hQ : ∀ a s, Q a s → Q' a s) (hE : ∀ s, E s → E' s) : Triple H P' p Q' E' :=
  fun s hs => (h s (hP s hs)).mono hQ hE

end Triple

end Prog

end Systems
