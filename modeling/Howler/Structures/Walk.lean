import Mathlib.Data.List.Basic
import Mathlib.Tactic.Common

namespace Structures

variable {K : Type*} (next : K → Option K)

/-- Following pointers leads to `a`. -/
inductive Reaches (a : K) : K → Prop
  | refl : Reaches a a
  | step {c p : K} (h : next c = some p) (hp : Reaches a p) : Reaches a c

/-- The search for `a` along pointers, which stops where it comes to a place again. -/
def walk [DecidableEq K] (a : K) : ℕ → Option K → List K → Option Bool
  | 0, _, _ => none
  | _ + 1, none, _ => some false
  | n + 1, some c, visited =>
    if c = a then some true
    else if c ∈ visited then some false
    else walk a n (next c) (c :: visited)

variable {next} {a c : K}

/-- A set that is not left on the way does not lead to what is not in it. -/
theorem not_reaches_of_closed {S : K → Prop} (hclosed : ∀ v, S v → ∀ p, next v = some p → S p)
    (ha : ¬S a) (hc : S c) : ¬Reaches next a c := by
  intro h
  induction h with
  | refl => exact ha hc
  | step hnext _ ih => exact ih (hclosed _ hc _ hnext)

variable [DecidableEq K] {visited : List K} {o : Option K} {n : ℕ}

theorem reaches_of_walk (h : walk next a n o visited = some true) :
    ∃ c, o = some c ∧ Reaches next a c := by
  induction n generalizing o visited with
  | zero => cases h
  | succ n ih =>
    cases o with
    | none => cases h
    | some c =>
      rw [walk] at h
      by_cases hca : c = a
      · exact ⟨c, rfl, hca ▸ .refl⟩
      · rw [if_neg hca] at h
        by_cases hmem : c ∈ visited
        · rw [if_pos hmem] at h
          cases h
        · rw [if_neg hmem] at h
          obtain ⟨p, hp, hreach⟩ := ih h
          exact ⟨c, rfl, .step hp hreach⟩

/-- A search that fails has gone through a set that is not left. -/
theorem closed_of_walk (h : walk next a n o visited = some false) (ha : a ∉ visited)
    (hvisited : ∀ v ∈ visited, ∀ p, next v = some p → p ∈ visited ∨ o = some p) :
    ∃ S : K → Prop, (∀ v ∈ visited, S v) ∧ (∀ c, o = some c → S c) ∧
      (∀ v, S v → ∀ p, next v = some p → S p) ∧ ¬S a := by
  induction n generalizing o visited with
  | zero => cases h
  | succ n ih =>
    cases o with
    | none =>
      refine ⟨(· ∈ visited), fun v hv => hv, fun c hc => (nomatch hc), fun v hv p hp => ?_, ha⟩
      exact (hvisited v hv p hp).resolve_right (by simp)
    | some c =>
      rw [walk] at h
      by_cases hca : c = a
      · rw [if_pos hca] at h
        cases h
      · rw [if_neg hca] at h
        by_cases hmem : c ∈ visited
        · refine ⟨(· ∈ visited), fun v hv => hv, fun c' hc => ?_, fun v hv p hp => ?_, ha⟩
          · exact Option.some.inj hc ▸ hmem
          · cases hvisited v hv p hp with
            | inl hp => exact hp
            | inr hp => exact Option.some.inj hp ▸ hmem
        · rw [if_neg hmem] at h
          have hstep : ∀ v ∈ c :: visited, ∀ p, next v = some p →
              p ∈ c :: visited ∨ next c = some p := by
            intro v hv p hp
            cases List.mem_cons.mp hv with
            | inl hv => exact .inr (hv ▸ hp)
            | inr hv =>
              cases hvisited v hv p hp with
              | inl hp => exact .inl (List.mem_cons_of_mem _ hp)
              | inr hp => exact .inl (Option.some.inj hp ▸ List.mem_cons_self)
          have ha' : a ∉ c :: visited := by simp [ha, Ne.symm hca]
          obtain ⟨S, hS, -, hclosed, haS⟩ := ih h ha' hstep
          exact ⟨S, fun v hv => hS v (List.mem_cons_of_mem _ hv),
            fun c' hc => Option.some.inj hc ▸ hS c List.mem_cons_self, hclosed, haS⟩

/-- What a search answers, if it ends. -/
theorem walk_iff {b : Bool} (h : walk next a n (some c) [] = some b) :
    b = true ↔ Reaches next a c := by
  cases b with
  | true =>
    obtain ⟨c', hc, hreach⟩ := reaches_of_walk h
    obtain rfl := Option.some.inj hc
    simpa using hreach
  | false =>
    obtain ⟨S, -, hc, hclosed, ha⟩ := closed_of_walk h (by simp) (by simp)
    have hnot := not_reaches_of_closed hclosed ha (hc c rfl)
    simpa using hnot

theorem walk_mono {b : Bool} (h : walk next a n o visited = some b) (m : ℕ) :
    walk next a (n + m) o visited = some b := by
  induction n generalizing o visited with
  | zero => cases h
  | succ n ih =>
    rw [Nat.succ_add]
    cases o with
    | none => exact h
    | some c =>
      rw [walk] at h ⊢
      by_cases hca : c = a
      · simpa [hca] using h
      · rw [if_neg hca] at h ⊢
        by_cases hmem : c ∈ visited
        · simpa [hmem] using h
        · rw [if_neg hmem] at h ⊢
          exact ih h

end Structures
