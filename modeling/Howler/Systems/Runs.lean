import Mathlib.Data.List.Basic

namespace Systems

variable {S Q : Type*} (step : S → Q → S)

/-- The state after a sequence of events. -/
def run (s : S) (qs : List Q) : S := qs.foldl step s

/-- A condition on the state and the event holds at every step of a run. -/
def Along (ok : S → Q → Prop) : S → List Q → Prop
  | _, [] => True
  | s, q :: qs => ok s q ∧ Along ok (step s q) qs

variable {step} {ok good : S → Q → Prop} (inv : S → Prop)

theorem run_cons (s : S) (q : Q) (qs : List Q) : run step s (q :: qs) = run step (step s q) qs :=
  rfl

theorem run_append (s : S) (qs qs' : List Q) :
    run step s (qs ++ qs') = run step (run step s qs) qs' :=
  List.foldl_append

theorem along_append (s : S) (qs qs' : List Q) : Along step ok s (qs ++ qs') ↔
    Along step ok s qs ∧ Along step ok (run step s qs) qs' := by
  induction qs generalizing s with
  | nil => simp [Along, run]
  | cons q qs ih =>
    rw [List.cons_append, Along, Along, ih, run_cons, and_assoc]

theorem along_true (s : S) (qs : List Q) : Along step (fun _ _ => True) s qs := by
  induction qs generalizing s with
  | nil => trivial
  | cons q qs ih => exact ⟨trivial, ih _⟩

/-- What every allowed step preserves, a run of allowed steps preserves. -/
theorem inv_run (hstep : ∀ s q, inv s → ok s q → inv (step s q)) {s : S} {qs : List Q}
    (hs : inv s) (h : Along step ok s qs) : inv (run step s qs) := by
  induction qs generalizing s with
  | nil => exact hs
  | cons q qs ih => exact ih (hstep s q hs h.1) h.2

/-- What holds at every allowed step from a state with the invariant holds all along the run. -/
theorem along_of_inv (hstep : ∀ s q, inv s → ok s q → inv (step s q))
    (hgood : ∀ s q, inv s → ok s q → good s q) {s : S} {qs : List Q} (hs : inv s)
    (h : Along step ok s qs) : Along step good s qs := by
  induction qs generalizing s with
  | nil => trivial
  | cons q qs ih => exact ⟨hgood s q hs h.1, ih (hstep s q hs h.1) h.2⟩

/-- The costs of a sequence of events. -/
def costs (cost : Q → ℕ) : List Q → ℕ
  | [] => 0
  | q :: qs => cost q + costs cost qs

/-- What grows by at most a cost in each step grows in a run by at most the costs. -/
theorem run_le_costs (size : S → ℕ) (cost : Q → ℕ)
    (hstep : ∀ s q, inv s → inv (step s q) ∧ size (step s q) ≤ size s + cost q) {s : S} (hs : inv s)
    (qs : List Q) : size (run step s qs) ≤ size s + costs cost qs := by
  induction qs generalizing s with
  | nil => exact Nat.le_refl _
  | cons q qs ih =>
    obtain ⟨hinv, hsize⟩ := hstep s q hs
    have hrest := ih hinv
    rw [run_cons, costs]
    omega

instance decidableAlong [∀ s q, Decidable (ok s q)] (s : S) (qs : List Q) :
    Decidable (Along step ok s qs) :=
  match qs with
  | [] => isTrue trivial
  | q :: qs =>
    have := decidableAlong (step s q) qs
    inferInstanceAs (Decidable (ok s q ∧ Along step ok (step s q) qs))

end Systems
