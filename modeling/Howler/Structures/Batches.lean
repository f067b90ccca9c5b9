import Mathlib.Data.List.Basic

namespace Structures

section Slices

variable {α : Type}

/-- The slices of `n` items that start at the multiples of `n`. -/
def slices (n : ℕ) (xs : List α) : List (List α) :=
  (List.range ((xs.length + n - 1) / n)).map fun i => (xs.drop (i * n)).take n

theorem slices_nil (n : ℕ) : slices n ([] : List α) = [] := by
  have hcount : (0 + n - 1) / n = 0 := by
    rw [Nat.zero_add]
    cases n with
    | zero => rfl
    | succ n => exact Nat.div_eq_of_lt (by omega)
  rw [slices, List.length_nil, hcount]
  rfl

/-- The first slice, and the slices of what it leaves. -/
theorem slices_cons {n : ℕ} (hn : 0 < n) {xs : List α} (hxs : xs ≠ []) :
    slices n xs = xs.take n :: slices n (xs.drop n) := by
  have hlength : 0 < xs.length := List.length_pos_iff.mpr hxs
  have hcount : (xs.length + n - 1) / n = ((xs.drop n).length + n - 1) / n + 1 := by
    rw [List.length_drop, ← Nat.add_div_right _ hn]
    by_cases hle : n ≤ xs.length
    · congr 1
      omega
    · have hone : (xs.length + n - 1) / n = 1 := by
        apply Nat.div_eq_of_lt_le <;> omega
      have hrest : (xs.length - n + n - 1 + n) / n = 1 := by
        apply Nat.div_eq_of_lt_le <;> omega
      rw [hone, hrest]
  rw [slices, hcount, List.range_succ_eq_map, List.map_cons, List.map_map]
  have hslice : ∀ i, (xs.drop ((i + 1) * n)).take n = ((xs.drop n).drop (i * n)).take n := by
    intro i
    rw [List.drop_drop, Nat.succ_mul, Nat.add_comm]
  simp [slices, hslice]

/-- The slices make up the list. -/
theorem flatten_slices {n : ℕ} (hn : 0 < n) (xs : List α) : (slices n xs).flatten = xs := by
  induction hlength : xs.length using Nat.strongRecOn generalizing xs with
  | ind length ih =>
    by_cases hxs : xs = []
    · rw [hxs, slices_nil, List.flatten_nil]
    · have hpos := List.length_pos_iff.mpr hxs
      have htail : (slices n (xs.drop n)).flatten = xs.drop n := by
        apply ih (xs.drop n).length ?_ _ rfl
        rw [List.length_drop]
        omega
      rw [slices_cons hn hxs, List.flatten_cons, htail, List.take_append_drop]

theorem ne_nil_of_mem_slices {n : ℕ} (hn : 0 < n) {xs b : List α} (h : b ∈ slices n xs) :
    b ≠ [] := by
  obtain ⟨i, hi, rfl⟩ := List.mem_map.mp h
  have hlt : i < (xs.length + n - 1) / n := List.mem_range.mp hi
  have hstart : i * n < xs.length := by
    have hle : (i + 1) * n ≤ xs.length + n - 1 := (Nat.le_div_iff_mul_le hn).mp hlt
    rw [Nat.succ_mul] at hle
    omega
  intro hnil
  have hlength := congrArg List.length hnil
  rw [List.length_take, List.length_drop, List.length_nil] at hlength
  omega

end Slices

section Lines

/-- Lines with a line feed after each. -/
def unlines (ls : List (List Char)) : List Char := ls.flatMap (· ++ ['\n'])

/-- The lines of a text. What follows the last line feed is a line unless it is empty. -/
def lines : List Char → List (List Char)
  | [] => []
  | c :: cs =>
    if c = '\n' then [] :: lines cs
    else match lines cs with
      | [] => [[c]]
      | l :: ls => (c :: l) :: ls

theorem lines_cons {l : List Char} (hl : '\n' ∉ l) (cs : List Char) :
    lines (l ++ '\n' :: cs) = l :: lines cs := by
  induction l with
  | nil => simp [lines]
  | cons c l ih =>
    simp only [List.mem_cons, not_or] at hl
    rw [List.cons_append, lines, if_neg (Ne.symm hl.1), ih hl.2]

/-- Lines are read back. -/
theorem lines_unlines {ls : List (List Char)} (h : ∀ l ∈ ls, '\n' ∉ l) :
    lines (unlines ls) = ls := by
  induction ls with
  | nil => rfl
  | cons l ls ih =>
    have hunlines : unlines (l :: ls) = l ++ '\n' :: unlines ls := by simp [unlines]
    rw [hunlines, lines_cons (h l (List.mem_cons_self ..)),
      ih fun l' hl' => h l' (List.mem_cons_of_mem _ hl')]

end Lines

end Structures
