import Mathlib.Data.List.Sort

namespace Structures

/-- What a sort with a comparator gives: it has the same items, in order where the comparator orders
them, and leaves a list alone in which no item is less than the one before it. -/
structure Sorting where
  sort : {α : Type} → (α → α → ℤ) → List α → List α
  perm : ∀ {α : Type} (cmp : α → α → ℤ) (xs : List α), (sort cmp xs).Perm xs
  ordered : ∀ {α : Type} (cmp : α → α → ℤ) (xs : List α),
    (∀ a ∈ xs, ∀ b ∈ xs, 0 ≤ cmp b a ∨ 0 ≤ cmp a b) →
    (∀ a ∈ xs, ∀ b ∈ xs, ∀ c ∈ xs, 0 ≤ cmp b a → 0 ≤ cmp c b → 0 ≤ cmp c a) →
    (sort cmp xs).Pairwise fun a b => 0 ≤ cmp b a
  unchanged : ∀ {α : Type} (cmp : α → α → ℤ) (xs : List α),
    xs.IsChain (fun a b => ¬ cmp b a < 0) → sort cmp xs = xs

namespace Sorting

variable {α : Type} (cmp : α → α → ℤ)

/-- An item put before the first one that is not less. -/
def insert (a : α) : List α → List α
  | [] => [a]
  | b :: xs => if cmp b a < 0 then b :: insert a xs else a :: b :: xs

def insertionSort : List α → List α
  | [] => []
  | a :: xs => insert cmp a (insertionSort xs)

theorem perm_insert (a : α) (xs : List α) : (insert cmp a xs).Perm (a :: xs) := by
  induction xs with
  | nil => exact .refl _
  | cons b xs ih =>
    rw [insert]
    split_ifs with hlt
    · exact (ih.cons b).trans (.swap a b xs)
    · exact .refl _

theorem perm_insertionSort (xs : List α) : (insertionSort cmp xs).Perm xs := by
  induction xs with
  | nil => exact .refl _
  | cons a xs ih => exact (perm_insert cmp a _).trans (ih.cons a)

theorem pairwise_insert {a : α} {xs : List α}
    (htotal : ∀ b ∈ xs, 0 ≤ cmp b a ∨ 0 ≤ cmp a b)
    (htrans : ∀ b ∈ xs, ∀ c ∈ xs, 0 ≤ cmp b a → 0 ≤ cmp c b → 0 ≤ cmp c a)
    (h : xs.Pairwise fun a b => 0 ≤ cmp b a) :
    (insert cmp a xs).Pairwise fun a b => 0 ≤ cmp b a := by
  induction xs with
  | nil => exact List.pairwise_singleton _ a
  | cons b xs ih =>
    obtain ⟨hb, hxs⟩ := List.pairwise_cons.mp h
    rw [insert]
    split_ifs with hlt
    · have htail := ih (fun c hc => htotal c (List.mem_cons_of_mem _ hc))
        (fun c hc d hd => htrans c (List.mem_cons_of_mem _ hc) d (List.mem_cons_of_mem _ hd)) hxs
      refine List.pairwise_cons.mpr ⟨fun c hc => ?_, htail⟩
      rcases List.mem_cons.mp ((perm_insert cmp a xs).mem_iff.mp hc) with rfl | hc
      · have hor := htotal b (List.mem_cons_self ..)
        omega
      · exact hb c hc
    · have hle : 0 ≤ cmp b a := by omega
      refine List.pairwise_cons.mpr ⟨fun c hc => ?_, h⟩
      rcases List.mem_cons.mp hc with rfl | hmem
      · exact hle
      · exact htrans b (List.mem_cons_self ..) c hc hle (hb c hmem)

theorem insert_of_isChain {a : α} {xs : List α}
    (h : (a :: xs).IsChain fun a b => ¬ cmp b a < 0) : insert cmp a xs = a :: xs := by
  cases xs with
  | nil => rfl
  | cons b xs => rw [insert, if_neg (List.isChain_cons_cons.mp h).1]

/-- Insertion sort. -/
def insertion : Sorting where
  sort := insertionSort
  perm := perm_insertionSort
  ordered cmp xs htotal htrans := by
    induction xs with
    | nil => exact List.Pairwise.nil
    | cons a xs ih =>
      have hmem : ∀ b ∈ insertionSort cmp xs, b ∈ a :: xs := fun b hb =>
        List.mem_cons_of_mem a ((perm_insertionSort cmp xs).mem_iff.mp hb)
      have hself : a ∈ a :: xs := List.mem_cons_self ..
      apply pairwise_insert
      · exact fun b hb => htotal a hself b (hmem b hb)
      · exact fun b hb c hc => htrans a hself b (hmem b hb) c (hmem c hc)
      · apply ih
        · exact fun b hb c hc =>
            htotal b (List.mem_cons_of_mem _ hb) c (List.mem_cons_of_mem _ hc)
        · exact fun b hb c hc d hd => htrans b (List.mem_cons_of_mem _ hb) c
            (List.mem_cons_of_mem _ hc) d (List.mem_cons_of_mem _ hd)
  unchanged cmp xs h := by
    induction xs with
    | nil => rfl
    | cons a xs ih =>
      rw [insertionSort, ih (List.isChain_of_isChain_cons h)]
      exact insert_of_isChain cmp h

end Sorting

end Structures
