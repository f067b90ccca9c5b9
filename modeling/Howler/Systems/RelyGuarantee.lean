import Mathlib.Logic.Relation
import Howler.Systems.Interleaving
import Howler.Systems.Requests

namespace Systems

open Relation Prog

variable {ι σ ε α β : Type} {I : Interface}

namespace Prog

/-- From a state with `P`, and whatever the others do between two commands as long as it is `R`, all
that the computation does is `G`, and it returns with `Q` or raises with `E`. -/
def Guarantees (H : Handler I σ) (R G : σ → σ → Prop) (Q : α → σ → Prop) (E : ε → σ → Prop) :
    Prog I ε α → (σ → Prop) → Prop
  | ret a, P => ∀ s, P s → Q a s
  | raise e, P => ∀ s, P s → E e s
  | call c k, P => (∀ s, P s → G s (H c s).2) ∧ ∀ r, Guarantees H R G Q E (k r) fun s' =>
      ∃ s, P s ∧ (H c s).1 = r ∧ ReflTransGen R (H c s).2 s'

variable {H : Handler I σ} {R G : σ → σ → Prop} {Q Q' : α → σ → Prop} {E E' : ε → σ → Prop}
  {P P' : σ → Prop} {p : Prog I ε α}

theorem Guarantees.mono (h : p.Guarantees H R G Q E P) (hP : ∀ s, P' s → P s)
    (hQ : ∀ a s, Q a s → Q' a s) (hE : ∀ e s, E e s → E' e s) :
    p.Guarantees H R G Q' E' P' := by
  induction p generalizing P P' with
  | ret a => exact fun s hs => hQ a s (h s (hP s hs))
  | raise e => exact fun s hs => hE e s (h s (hP s hs))
  | call c k ih =>
    refine ⟨fun s hs => h.1 s (hP s hs), fun r => ih r (h.2 r) fun s' hs' => ?_⟩
    obtain ⟨s, hs, hrest⟩ := hs'
    exact ⟨s, hP s hs, hrest⟩

theorem Guarantees.pre (h : p.Guarantees H R G Q E P) (hP : ∀ s, P' s → P s) :
    p.Guarantees H R G Q E P' :=
  h.mono hP (fun _ _ h => h) fun _ _ h => h

/-- What is known does not depend on the state. -/
theorem guarantees_of_pre {B : Prop} (hB : ∀ s, P s → B) (h : B → p.Guarantees H R G Q E P) :
    p.Guarantees H R G Q E P := by
  by_cases hb : B
  · exact h hb
  · have hnone : ∀ s, ¬ P s := fun s hs => hb (hB s hs)
    clear h hB
    induction p generalizing P with
    | ret a => exact fun s hs => absurd hs (hnone s)
    | raise e => exact fun s hs => absurd hs (hnone s)
    | call c k ih =>
      refine ⟨fun s hs => absurd hs (hnone s), fun r => ih r fun s' hs' => ?_⟩
      obtain ⟨s, hs, -⟩ := hs'
      exact hnone s hs

theorem guarantees_pure {a : α} (h : ∀ s, P s → Q a s) :
    (pure a : Prog I ε α).Guarantees H R G Q E P := h

theorem guarantees_throw {e : ε} (h : ∀ s, P s → E e s) :
    (throw e : Prog I ε α).Guarantees H R G Q E P := h

theorem guarantees_fromExcept {x : Except ε α} (hok : ∀ a, x = .ok a → ∀ s, P s → Q a s)
    (herror : ∀ e, x = .error e → ∀ s, P s → E e s) :
    (fromExcept x : Prog I ε α).Guarantees H R G Q E P := by
  cases x with
  | ok a => exact hok a rfl
  | error e => exact herror e rfl

theorem Guarantees.bind {M : α → σ → Prop} {f : α → Prog I ε β} {Q : β → σ → Prop}
    (hp : p.Guarantees H R G M E P) (hf : ∀ a, (f a).Guarantees H R G Q E (M a)) :
    (p >>= f).Guarantees H R G Q E P := by
  change (p.bind f).Guarantees H R G Q E P
  induction p generalizing P with
  | ret a => exact (hf a).pre hp
  | raise e => exact hp
  | call c k ih => exact ⟨hp.1, fun r => ih r (hp.2 r)⟩

theorem Guarantees.catch {M : ε → σ → Prop} {f : ε → Prog I ε α}
    (hp : p.Guarantees H R G Q M P) (hf : ∀ e, (f e).Guarantees H R G Q E (M e)) :
    (tryCatch p f).Guarantees H R G Q E P := by
  change (p.catchWith f).Guarantees H R G Q E P
  induction p generalizing P with
  | ret a => exact hp
  | raise e => exact (hf e).pre hp
  | call c k ih => exact ⟨hp.1, fun r => ih r (hp.2 r)⟩

theorem guarantees_ite {c : Prop} [Decidable c] {q : Prog I ε α}
    (hp : c → p.Guarantees H R G Q E P) (hq : ¬ c → q.Guarantees H R G Q E P) :
    (if c then p else q).Guarantees H R G Q E P := by
  by_cases hc : c
  · rw [if_pos hc]
    exact hp hc
  · rw [if_neg hc]
    exact hq hc

theorem Guarantees.map {f : α → β} {Q : β → σ → Prop}
    (h : p.Guarantees H R G (fun a => Q (f a)) E P) : (f <$> p).Guarantees H R G Q E P :=
  h.bind fun _ => guarantees_pure fun _ h => h

/-- A request behind a connection does what the server does, where it takes effect. -/
theorem guarantees_request {S : Server I ε σ} {lost : ε} {c : I.Command} {Q : I.Answer c → σ → Prop}
    (hrefl : ∀ s, G s s) (heffect : ∀ s a s', P s → S c s = .ok (a, s') → G s s')
    (hanswer : ∀ s a s' s'', P s → S c s = .ok (a, s') → ReflTransGen R s' s'' → Q a s'')
    (hraise : ∀ e s, E e s) :
    (request c : Prog (I.fallible ε) ε (I.Answer c)).Guarantees (S.behind lost)
      (fun s s' => R s.1 s'.1) (fun s s' => G s.1 s'.1) (fun a s => Q a s.1) (fun e s => E e s.1)
      (fun s => P s.1) := by
  refine ⟨fun s hs => ?_, fun r => guarantees_fromExcept (fun a ha s' hs' => ?_) fun e _ s' _ => ?_⟩
  · unfold Server.behind
    cases hS : S c s.1 with
    | error e => exact hrefl s.1
    | ok r =>
      cases s.2.headD .answered with
      | answered => exact heffect s.1 r.1 r.2 hs hS
      | failedBefore => exact hrefl s.1
      | failedAfter => exact heffect s.1 r.1 r.2 hs hS
  · obtain ⟨s, hs, hr, hR⟩ := hs'
    have hreach := hR.lift Prod.fst fun _ _ h => h
    unfold Server.behind at hr hreach
    cases hS : S c s.1 with
    | error e =>
      simp only [hS] at hr
      rw [← hr] at ha
      cases ha
    | ok answer =>
      cases hdelivery : s.2.headD .answered with
      | answered =>
        simp only [hS, hdelivery] at hr hreach
        rw [← hr] at ha
        cases ha
        exact hanswer s.1 answer.1 answer.2 s'.1 hs hS hreach
      | failedBefore =>
        simp only [hS, hdelivery] at hr
        rw [← hr] at ha
        cases ha
      | failedAfter =>
        simp only [hS, hdelivery] at hr
        rw [← hr] at ha
        cases ha
  · exact hraise e s'.1

end Prog

section Pool

variable [DecidableEq ι] {H : Handler I σ} {R G : ι → σ → σ → Prop} {Q : ι → α → σ → Prop}
  {E : ι → ε → σ → Prop}

/-- Each computation of a pool keeps its guarantee from here on. -/
def Pool.Guaranteed (H : Handler I σ) (R G : ι → σ → σ → Prop) (Q : ι → α → σ → Prop)
    (E : ι → ε → σ → Prop) (p : Pool ι I ε α σ) : Prop :=
  ∀ i, ∃ P : σ → Prop, P p.state ∧ (∀ s s', P s → R i s s' → P s') ∧
    (p.threads i).prog.Guarantees H (R i) (G i) (Q i) (E i) P

omit [DecidableEq ι] in
theorem guaranteed_start {progs : ι → Prog I ε α} {P : ι → σ → Prop} {s : σ}
    (hs : ∀ i, P i s) (hstable : ∀ i s s', P i s → R i s s' → P i s')
    (h : ∀ i, (progs i).Guarantees H (R i) (G i) (Q i) (E i) (P i)) :
    (Pool.start progs s).Guaranteed H R G Q E :=
  fun i => ⟨P i, hs i, hstable i, h i⟩

omit [DecidableEq ι] in
/-- What is known of a computation that has returned. -/
theorem Pool.Guaranteed.of_ret {p : Pool ι I ε α σ} (h : p.Guaranteed H R G Q E) {i : ι} {a : α}
    (hret : (p.threads i).prog = ret a) : Q i a p.state := by
  obtain ⟨P, hP, -, hprog⟩ := h i
  rw [hret] at hprog
  exact hprog _ hP

/-- A computation that goes on does what it guarantees. -/
theorem Pool.Guaranteed.step_guarantee {p : Pool ι I ε α σ} (h : p.Guaranteed H R G Q E)
    (hrefl : ∀ i s, G i s s) (i : ι) : G i p.state (p.step H i).state := by
  obtain ⟨P, hP, -, hprog⟩ := h i
  rw [Pool.step_state]
  cases hp : (p.threads i).prog with
  | ret a =>
    rw [Thread.step, hp]
    exact hrefl i _
  | raise e =>
    rw [Thread.step, hp]
    exact hrefl i _
  | call c k =>
    rw [Thread.step_call hp]
    rw [hp] at hprog
    exact hprog.1 _ hP

/-- Where each computation may rely on what the others guarantee, they go on so. -/
theorem Pool.Guaranteed.step {p : Pool ι I ε α σ} (h : p.Guaranteed H R G Q E)
    (hrefl : ∀ i s, G i s s) (hrely : ∀ i j, i ≠ j → ∀ s s', G j s s' → R i s s') (i : ι) :
    (p.step H i).Guaranteed H R G Q E := by
  intro j
  obtain ⟨P, hP, hstable, hprog⟩ := h j
  by_cases hij : j = i
  · subst hij
    rw [Pool.step_state, Pool.step_self]
    cases hp : (p.threads j).prog with
    | ret a =>
      rw [Thread.step, hp]
      exact ⟨P, hP, hstable, hprog⟩
    | raise e =>
      rw [Thread.step, hp]
      exact ⟨P, hP, hstable, hprog⟩
    | call c k =>
      rw [Thread.step_call hp]
      rw [hp] at hprog
      refine ⟨_, ⟨p.state, hP, rfl, .refl⟩, fun s s' hs hR => ?_, hprog.2 _⟩
      obtain ⟨s₀, hs₀, hr, hreach⟩ := hs
      exact ⟨s₀, hs₀, hr, hreach.tail hR⟩
  · rw [Pool.step_of_ne hij]
    exact ⟨P, hstable _ _ hP (hrely j i hij _ _ (h.step_guarantee hrefl i)), hstable, hprog⟩

theorem Pool.Guaranteed.run {p : Pool ι I ε α σ} (h : p.Guaranteed H R G Q E)
    (hrefl : ∀ i s, G i s s) (hrely : ∀ i j, i ≠ j → ∀ s s', G j s s' → R i s s')
    (schedule : List ι) : (Systems.run (Pool.step H) p schedule).Guaranteed H R G Q E :=
  inv_run (fun p : Pool ι I ε α σ => p.Guaranteed H R G Q E)
    (fun _ i hp _ => hp.step hrefl hrely i) h (along_true _ schedule)

/-- In every interleaving each step of a computation is what it guarantees. -/
theorem guarantee_along {p : Pool ι I ε α σ} (h : p.Guaranteed H R G Q E)
    (hrefl : ∀ i s, G i s s) (hrely : ∀ i j, i ≠ j → ∀ s s', G j s s' → R i s s')
    (schedule : List ι) :
    Along (Pool.step H) (fun p i => G i p.state (p.step H i).state) p schedule :=
  along_of_inv (fun p => p.Guaranteed H R G Q E) (fun _ i hp _ => hp.step hrefl hrely i)
    (fun _ i hp _ => hp.step_guarantee hrefl i) h (along_true _ _)

end Pool

end Systems
