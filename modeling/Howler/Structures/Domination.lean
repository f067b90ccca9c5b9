import Mathlib.Data.Finset.Max
import Mathlib.Data.Finset.Card
import Mathlib.Data.List.Perm.Subperm

namespace Structures

variable {α : Type*} [LinearOrder α]

/-- From every bound on, a set has at least as many elements as a list. -/
def Dominated (l : List α) (s : Finset α) : Prop :=
  ∀ a, l.countP (a ≤ ·) ≤ (s.filter (a ≤ ·)).card

/-- A set without its least element. -/
def popMin (s : Finset α) : Finset α :=
  if h : s.Nonempty then s.erase (s.min' h) else s

namespace Dominated

variable {l l' : List α} {s : Finset α} {a x : α}

theorem nil (s : Finset α) : Dominated [] s := fun _ => Nat.zero_le _

theorem sublist (h : Dominated l s) (hl : l'.Sublist l) : Dominated l' s :=
  fun a => (hl.countP_le).trans (h a)

theorem perm (h : Dominated l s) (hl : l'.Perm l) : Dominated l' s := by
  intro a
  rw [hl.countP_eq]
  exact h a

theorem insert (h : Dominated l s) (hx : x ∉ s) : Dominated (x :: l) (insert x s) := by
  intro a
  have ha := h a
  rw [List.countP_cons, Finset.filter_insert]
  by_cases hax : a ≤ x
  · rw [if_pos hax, Finset.card_insert_of_notMem (by simp [hx])]
    simp only [hax, decide_true, if_true]
    omega
  · simp only [hax, decide_false, if_false]
    simpa using ha

/-- The elements below a bound that the list respects are not needed. -/
theorem filter (h : Dominated l s) {b : α} (hb : ∀ y ∈ l, b ≤ y) :
    Dominated l (s.filter (b ≤ ·)) := by
  intro a
  have hmax : l.countP (a ≤ ·) = l.countP (max a b ≤ ·) := by
    refine List.countP_congr fun y hy => ?_
    simp [hb y hy]
  rw [hmax, Finset.filter_filter]
  refine (h (max a b)).trans (Finset.card_le_card fun y hy => ?_)
  simp only [Finset.mem_filter, max_le_iff] at hy ⊢
  exact ⟨hy.1, hy.2.2, hy.2.1⟩

theorem length_le (h : Dominated l s) : l.length ≤ s.card := by
  cases hl : l.min? with
  | none =>
    have hnil : l = [] := List.min?_eq_none_iff.mp hl
    simp [hnil]
  | some b =>
    have hall : ∀ y ∈ l, b ≤ y := (List.min?_eq_some_iff.mp hl).2
    have hcount : l.countP (b ≤ ·) = l.length := List.countP_eq_length.mpr (by simpa using hall)
    rw [← hcount]
    exact (h b).trans (Finset.card_filter_le _ _)

/-- The count in a set without its least element. -/
theorem card_popMin (s : Finset α) (a : α) :
    ((popMin s).filter (a ≤ ·)).card =
      (s.filter (a ≤ ·)).card - if ∀ y ∈ s, a ≤ y then 1 else 0 := by
  unfold popMin
  split
  · next hne =>
    by_cases ha : a ≤ s.min' hne
    · have hall : ∀ y ∈ s, a ≤ y := fun y hy => ha.trans (s.min'_le y hy)
      rw [if_pos hall, Finset.filter_erase, Finset.card_erase_of_mem]
      simp [s.min'_mem hne, ha]
    · have hall : ¬ ∀ y ∈ s, a ≤ y := fun hall => ha (hall _ (s.min'_mem hne))
      rw [if_neg hall, Finset.filter_erase, Finset.erase_eq_of_notMem (by simp [ha])]
      rfl
  · next hne =>
    rw [Finset.not_nonempty_iff_eq_empty] at hne
    simp [hne]

/-- The least element is not needed where the set has more elements than the list. -/
theorem popMin_of_lt (h : Dominated l s) (hlt : l.length < s.card) : Dominated l (popMin s) := by
  intro a
  have ha := h a
  rw [card_popMin]
  split
  · next hall =>
    have hcard : (s.filter (a ≤ ·)).card = s.card := by rw [Finset.filter_true_of_mem hall]
    have hlen := List.countP_le_length (p := (a ≤ ·)) (l := l)
    omega
  · omega

/-- The least element goes with any element of the list. -/
theorem popMin_erase (h : Dominated l s) (hx : x ∈ l) : Dominated (l.erase x) (popMin s) := by
  intro a
  have ha := h a
  have hcount : (l.erase x).countP (a ≤ ·) = l.countP (a ≤ ·) - if a ≤ x then 1 else 0 := by
    rw [List.countP_erase]
    simp [hx]
  rw [card_popMin, hcount]
  by_cases hall : ∀ y ∈ s, a ≤ y
  · rw [if_pos hall]
    have hcard : (s.filter (a ≤ ·)).card = s.card := by rw [Finset.filter_true_of_mem hall]
    by_cases hax : a ≤ x
    · rw [if_pos hax]
      omega
    · -- the element itself is below the bound, and is counted in the set
      have hlt : l.countP (a ≤ ·) < l.length := by
        rw [List.countP_lt_length_iff]
        exact ⟨x, hx, by simpa using hax⟩
      have hlen := h.length_le
      rw [if_neg hax]
      omega
  · rw [if_neg hall]
    omega

end Dominated

end Structures
