import Howler.Systems.Programs

namespace Systems

open Prog

variable {ι σ ε α : Type} {I : Interface}

/-- A computation under way, with the answers that it has got so far. -/
structure Thread (I : Interface) (ε α : Type) where
  prog : Prog I ε α
  answers : List ((c : I.Command) × I.Answer c) := []

namespace Thread

/-- The next command. A computation that has ended does nothing. -/
def step (H : Handler I σ) (t : Thread I ε α) (s : σ) : Thread I ε α × σ :=
  match t.prog with
  | .call c k => (⟨k (H c s).1, t.answers ++ [⟨c, (H c s).1⟩]⟩, (H c s).2)
  | _ => (t, s)

theorem step_call {H : Handler I σ} {t : Thread I ε α} {c : I.Command}
    {k : I.Answer c → Prog I ε α} (h : t.prog = .call c k) (s : σ) :
    t.step H s = (⟨k (H c s).1, t.answers ++ [⟨c, (H c s).1⟩]⟩, (H c s).2) := by
  rw [step, h]

end Thread

/-- Computations that share a state. -/
structure Pool (ι : Type) (I : Interface) (ε α σ : Type) where
  threads : ι → Thread I ε α
  state : σ

namespace Pool

variable [DecidableEq ι]

/-- One of the computations goes on by one command. -/
def step (H : Handler I σ) (p : Pool ι I ε α σ) (i : ι) : Pool ι I ε α σ where
  threads := Function.update p.threads i ((p.threads i).step H p.state).1
  state := ((p.threads i).step H p.state).2

/-- All the computations at their start. -/
def start (progs : ι → Prog I ε α) (s : σ) : Pool ι I ε α σ := ⟨fun i => ⟨progs i, []⟩, s⟩

def Returned (p : Pool ι I ε α σ) (i : ι) : Prop := ∃ a, (p.threads i).prog = .ret a

variable {H : Handler I σ} {p : Pool ι I ε α σ} {i j : ι}

@[simp] theorem step_self : (p.step H i).threads i = ((p.threads i).step H p.state).1 :=
  Function.update_self i _ _

theorem step_of_ne (h : j ≠ i) : (p.step H i).threads j = p.threads j :=
  Function.update_of_ne h _ _

theorem step_state : (p.step H i).state = ((p.threads i).step H p.state).2 := rfl

end Pool

/-- The states that computations lead to one after the other, in the order of a list. -/
def Serial (perform : ι → σ → σ → Prop) (s : σ) : List ι → σ → Prop
  | [], s' => s' = s
  | i :: is, s' => ∃ t, perform i s t ∧ Serial perform t is s'

namespace Serial

variable {perform : ι → σ → σ → Prop} {s s' s'' : σ} {is : List ι} {i : ι}

theorem snoc (h : Serial perform s is s') (hi : perform i s' s'') :
    Serial perform s (is ++ [i]) s'' := by
  induction is generalizing s with
  | nil =>
    obtain rfl : s' = s := h
    exact ⟨s'', hi, rfl⟩
  | cons j is ih =>
    obtain ⟨t, hj, ht⟩ := h
    exact ⟨t, hj, ih ht⟩

/-- What every computation preserves. -/
theorem inv {inv : σ → Prop} (h : Serial perform s is s') (hs : inv s)
    (hstep : ∀ i t t', inv t → perform i t t' → inv t') : inv s' := by
  induction is generalizing s with
  | nil =>
    obtain rfl : s' = s := h
    exact hs
  | cons j is ih =>
    obtain ⟨t, hj, ht⟩ := h
    exact ih ht (hstep j s t hs hj)

end Serial

/-- A computation that only reads from here on, and that returns (`true`) or raises (`false`). -/
inductive Settled (H : Handler I σ) : Bool → Prog I ε α → Prop where
  | ret (a : α) : Settled H true (.ret a)
  | raise (e : ε) : Settled H false (.raise e)
  | call {b : Bool} {c : I.Command} {k : I.Answer c → Prog I ε α}
      (hread : ∀ s, (H c s).2 = s) (hk : ∀ r, Settled H b (k r)) : Settled H b (.call c k)

namespace Settled

variable {H : Handler I σ} {b : Bool} {p : Prog I ε α} {t : Thread I ε α}

theorem step_state (h : Settled H b t.prog) (s : σ) : (t.step H s).2 = s := by
  rw [Thread.step]
  cases hp : t.prog with
  | ret a => rfl
  | raise e => rfl
  | call c k =>
    rw [hp] at h
    cases h with
    | call hread hk => exact hread s

theorem step (h : Settled H b t.prog) (s : σ) : Settled H b (t.step H s).1.prog := by
  cases hp : t.prog with
  | ret a =>
    rw [Thread.step, hp]
    exact h
  | raise e =>
    rw [Thread.step, hp]
    exact h
  | call c k =>
    rw [Thread.step_call hp]
    rw [hp] at h
    cases h with
    | call hread hk => exact hk _

theorem run (h : Settled H true p) (s : σ) : ∃ a, p.run H s = (.ok a, s) := by
  generalize hb : true = b at h
  induction h with
  | ret a => exact ⟨a, rfl⟩
  | raise e => contradiction
  | @call b c k hread hk ih =>
    obtain ⟨a, ha⟩ := ih (H c s).1 hb
    refine ⟨a, ?_⟩
    rw [Prog.run, hread]
    exact ha

theorem not_ret (h : Settled H false p) (a : α) : p ≠ .ret a := by
  intro hp
  rw [hp] at h
  cases h

end Settled

end Systems
