import Mathlib.Data.List.Sort
import Mathlib.Data.List.Dedup
import Mathlib.Data.List.Lex
import Mathlib.Data.Char
import Mathlib.Data.List.Infix

namespace Python

/-- A Python `str` as the list of its code points. -/
abbrev Str := List Char

/-- Found before the instance for lists, so that no definition has to prove it anew. -/
instance instLawfulBEqStr : LawfulBEq Str := inferInstance

/-- `sep.join(xs)`. -/
def join (sep : Str) (xs : List Str) : Str := sep.intercalate xs

/-- `s.replace(old, new)`: occurrences are found from the left and do not overlap;
`skip` counts the characters of a match still to be passed over. -/
def replaceFrom (old new : Str) : Nat → Str → Str
  | _, [] => []
  | k + 1, _ :: cs => replaceFrom old new k cs
  | 0, c :: cs =>
      if old.isPrefixOf (c :: cs) then new ++ replaceFrom old new (old.length - 1) cs
      else c :: replaceFrom old new 0 cs

def replace (old new s : Str) : Str := replaceFrom old new 0 s

/-- `s.partition(sep)` without its middle component. -/
def partition (sep : Str) : Str → Str × Str
  | [] => ([], [])
  | c :: cs =>
      if sep.isPrefixOf (c :: cs) then ([], (c :: cs).drop sep.length)
      else ((c :: (partition sep cs).1), (partition sep cs).2)

/-- `s.split(sep)` for a separator of several characters. -/
def splitFrom (sep : Str) : Nat → Str → Str × List Str
  | _, [] => ([], [])
  | k + 1, _ :: cs => splitFrom sep k cs
  | 0, c :: cs =>
      if sep.isPrefixOf (c :: cs) then
        let r := splitFrom sep (sep.length - 1) cs
        ([], r.1 :: r.2)
      else
        let r := splitFrom sep 0 cs
        (c :: r.1, r.2)

def splitOnStr (sep s : Str) : List Str :=
  (splitFrom sep 0 s).1 :: (splitFrom sep 0 s).2

/-- `str.isspace` for one character. -/
def isSpace (c : Char) : Bool :=
  let n := c.toNat
  (0x9 ≤ n && n ≤ 0xd) || (0x1c ≤ n && n ≤ 0x20) || n == 0x85 || n == 0xa0 || n == 0x1680 ||
    (0x2000 ≤ n && n ≤ 0x200a) || n == 0x2028 || n == 0x2029 || n == 0x202f || n == 0x205f ||
    n == 0x3000

/-- `s.strip()`. -/
def strip (s : Str) : Str := ((s.dropWhile isSpace).reverse.dropWhile isSpace).reverse

/-- `sorted(xs)`: code-point order. -/
def sorted (xs : List Str) : List Str := xs.insertionSort (· ≤ ·)

-- The equations of the loops are derived here once, and not by each proof that rewrites with them.
section

attribute [local simp] replaceFrom partition splitFrom

end

theorem mem_sorted {xs : List Str} {x : Str} : x ∈ sorted xs ↔ x ∈ xs :=
  List.mem_insertionSort _

/-- Two lists with the same elements in another order sort to the same list. -/
theorem sorted_congr {xs ys : List Str} (h : xs.Perm ys) : sorted xs = sorted ys := by
  apply List.Perm.eq_of_pairwise' (r := (· ≤ ·))
  · exact List.pairwise_insertionSort _ _
  · exact List.pairwise_insertionSort _ _
  · exact ((List.perm_insertionSort _ xs).trans h).trans (List.perm_insertionSort _ ys).symm

theorem sorted_sorted (xs : List Str) : sorted (sorted xs) = sorted xs :=
  sorted_congr (List.perm_insertionSort _ xs)

theorem sorted_ne_nil {xs : List Str} : sorted xs ≠ [] ↔ xs ≠ [] := by
  have hl := (List.perm_insertionSort (· ≤ ·) xs).length_eq
  rw [Ne, Ne, ← List.length_eq_zero_iff, ← List.length_eq_zero_iff, sorted, hl]

theorem nodup_sorted {xs : List Str} (h : xs.Nodup) : (sorted xs).Nodup :=
  (List.perm_insertionSort _ xs).nodup_iff.mpr h

theorem pairwise_sorted (xs : List Str) : (sorted xs).Pairwise (· ≤ ·) :=
  List.pairwise_insertionSort _ _

/-- Only short lists can be sorted both ways. -/
theorem length_le_one_of_sorted_reverse {xs : List Str} (hnd : xs.Nodup)
    (h : xs.Pairwise (· ≤ ·)) (hr : xs.reverse.Pairwise (· ≤ ·)) : xs.length ≤ 1 := by
  rcases xs with - | ⟨x, - | ⟨y, xs⟩⟩
  · simp
  · simp
  · have hle : x ≤ y := (List.pairwise_cons.mp h).1 y (by simp)
    have hge : y ≤ x := (List.pairwise_cons.mp (List.pairwise_reverse.mp hr)).1 y (by simp)
    have hne : x ≠ y := fun e => (List.nodup_cons.mp hnd).1 (by simp [e])
    exact absurd (le_antisymm hle hge) hne

theorem partition_of_sep {s a b : Str} (ha : '/' ∉ a) (h : s = a ++ '/' :: '/' :: b) :
    partition "//".toList s = (a, b) := by
  subst h
  induction a with
  | nil => simp [partition]
  | cons c a ih =>
    have hc : '/' ≠ c := by rintro rfl; exact ha (by simp)
    have hp : "//".toList.isPrefixOf (c :: (a ++ '/' :: '/' :: b)) = false := by
      simp [List.isPrefixOf, hc]
    simp only [List.cons_append, partition, hp, Bool.false_eq_true, if_false]
    rw [ih (by simp_all)]

theorem partition_of_not_mem {s : Str} (h : '/' ∉ s) : partition "//".toList s = (s, []) := by
  induction s with
  | nil => rfl
  | cons c s ih =>
    have hc : '/' ≠ c := by rintro rfl; exact h (by simp)
    have hp : "//".toList.isPrefixOf (c :: s) = false := by simp [List.isPrefixOf, hc]
    simp only [partition, hp, Bool.false_eq_true, if_false]
    rw [ih (by simp_all)]

theorem replace_nil_of_absent {old s : Str} (h : ¬ old <:+: s) : replace old [] s = s := by
  unfold replace
  induction s with
  | nil => rfl
  | cons c s ih =>
    have hp : old.isPrefixOf (c :: s) = false := by
      rw [Bool.eq_false_iff]
      intro hp
      exact h (List.isPrefixOf_iff_prefix.mp hp).isInfix
    rw [replaceFrom, hp]
    simp only [Bool.false_eq_true, if_false]
    rw [ih (fun hi => h (hi.trans (List.suffix_cons c s).isInfix))]

private theorem replaceFrom_skip (old new : Str) (k : Nat) (s t : Str) (h : s.length = k) :
    replaceFrom old new k (s ++ t) = replaceFrom old new 0 t := by
  induction k generalizing s with
  | zero => rw [List.length_eq_zero_iff.mp h, List.nil_append]
  | succ k ih =>
    cases s with
    | nil => simp at h
    | cons c s =>
      rw [List.cons_append, replaceFrom]
      exact ih s (by simpa using h)

/-- A leading match is removed, and scanning goes on after it. -/
theorem replace_at_start (c : Char) (old new s : Str) :
    replace (c :: old) new (c :: old ++ s) = new ++ replace (c :: old) new s := by
  have hp : (c :: old).isPrefixOf (c :: (old ++ s)) = true :=
    List.isPrefixOf_iff_prefix.mpr ⟨s, by simp⟩
  rw [replace, List.cons_append, replaceFrom, hp]
  simpa [replace] using replaceFrom_skip (c :: old) new old.length old s rfl

theorem replace_cons {c : Char} {old new s : Str} (h : old.isPrefixOf (c :: s) = false) :
    replace old new (c :: s) = c :: replace old new s := by
  rw [replace, replaceFrom, h]
  rfl

theorem replace_nil_at_start (c : Char) (old s : Str) :
    replace (c :: old) [] (c :: old ++ s) = replace (c :: old) [] s := by
  rw [replace_at_start, List.nil_append]

private theorem mem_of_mem_replaceFrom {old s : Str} {c : Char} {k : Nat}
    (h : c ∈ replaceFrom old [] k s) : c ∈ s := by
  induction s generalizing k with
  | nil => simp [replaceFrom] at h
  | cons d s ih =>
    cases k with
    | succ k => exact List.mem_cons_of_mem _ (ih h)
    | zero =>
      rw [replaceFrom] at h
      split_ifs at h with hp
      · exact List.mem_cons_of_mem _ (ih h)
      · rcases List.mem_cons.mp h with rfl | h
        · simp
        · exact List.mem_cons_of_mem _ (ih h)

theorem replace_nil_cons_of_ne {c d : Char} {old s : Str} (h : c ≠ d) :
    replace (d :: old) [] (c :: s) = c :: replace (d :: old) [] s := by
  exact replace_cons (by simp [List.isPrefixOf, h.symm])

theorem mem_of_mem_replace_nil {old s : Str} {c : Char} (h : c ∈ replace old [] s) : c ∈ s :=
  mem_of_mem_replaceFrom h

theorem dropWhile_eq_self_of_head {p : Char → Bool} {s : Str}
    (h : ∀ c ∈ s.head?, p c = false) : s.dropWhile p = s := by
  cases s with
  | nil => rfl
  | cons c s => rw [List.dropWhile_cons_of_neg]; simpa using h c (by simp)

/-- No leading and no trailing whitespace. -/
def Stripped (s : Str) : Prop := strip s = s

instance (s : Str) : Decidable (Stripped s) := inferInstanceAs (Decidable (strip s = s))

theorem head_strip {s : Str} {c : Char} (h : (s.dropWhile isSpace).head? = some c) :
    isSpace c = false := by
  have := List.head?_dropWhile_not isSpace s
  simpa [h] using this

theorem strip_cons_space (s : Str) : strip (' ' :: s) = strip s := by
  have h : isSpace ' ' = true := by decide
  rw [strip, List.dropWhile_cons_of_pos h, strip]

private theorem head?_reverse_dropWhile_reverse {p : Char → Bool} {s : Str}
    (h : ∀ c ∈ s.head?, p c = false) :
    ∀ c ∈ ((s.reverse.dropWhile p).reverse).head?, p c = false := by
  intro c hc
  obtain ⟨t, ht⟩ := List.dropWhile_suffix (l := s.reverse) p
  have hs : s = (s.reverse.dropWhile p).reverse ++ t.reverse := by
    rw [← List.reverse_append, ht, List.reverse_reverse]
  apply h
  rw [hs]
  cases hd : (s.reverse.dropWhile p).reverse with
  | nil => rw [hd] at hc; simp at hc
  | cons a l => rw [hd] at hc; simpa using hc

/-- What `strip` returns is stripped. -/
theorem stripped_strip (s : Str) : Stripped (strip s) := by
  have h1 : ∀ c ∈ (s.dropWhile isSpace).head?, isSpace c = false := fun c hc => head_strip hc
  have h2 := head?_reverse_dropWhile_reverse h1
  have h3 : ∀ c ∈ ((s.dropWhile isSpace).reverse.dropWhile isSpace).head?, isSpace c = false :=
    fun c hc => head_strip hc
  have hl : (strip s).dropWhile isSpace = strip s := dropWhile_eq_self_of_head h2
  have hr : (strip s).reverse.dropWhile isSpace = (strip s).reverse := by
    rw [strip, List.reverse_reverse]
    exact dropWhile_eq_self_of_head h3
  rw [Stripped, strip, hl, hr, List.reverse_reverse]

theorem mem_of_mem_strip {s : Str} {c : Char} (h : c ∈ strip s) : c ∈ s := by
  have h1 := (List.dropWhile_suffix isSpace).subset (List.mem_reverse.mp h)
  exact (List.dropWhile_suffix isSpace).subset (List.mem_reverse.mp h1)

theorem join_cons_cons (sep x y : Str) (xs : List Str) :
    join sep (x :: y :: xs) = x ++ sep ++ join sep (y :: xs) := List.intercalate_cons_cons

theorem join_singleton (sep x : Str) : join sep [x] = x := List.intercalate_singleton

theorem splitOn_join {sep : Char} {xs : List Str} (h : ∀ x ∈ xs, sep ∉ x) (hne : xs ≠ []) :
    (join [sep] xs).splitOn sep = xs := List.splitOn_intercalate sep h hne

theorem splitOn_eq_singleton {sep : Char} {x : Str} (h : sep ∉ x) : x.splitOn sep = [x] := by
  have hx : (join [sep] [x]).splitOn sep = [x] := splitOn_join (by simpa using h) (by simp)
  rwa [join_singleton] at hx

theorem splitOn_cons (sep c : Char) (s : Str) :
    (c :: s).splitOn sep =
      if c = sep then [] :: s.splitOn sep else (s.splitOn sep).modifyHead (c :: ·) := by
  simp [List.splitOn_eq_splitOnP, List.splitOnP_cons_eq_if_modifyHead, beq_iff_eq]

/-- The pieces of a split: free of the separator, made of characters of the text. -/
theorem mem_splitOn {sep : Char} {s x : Str} (h : x ∈ s.splitOn sep) :
    sep ∉ x ∧ ∀ c ∈ x, c ∈ s := by
  induction s generalizing x with
  | nil =>
    have hx : x = [] := by simpa using h
    simp [hx]
  | cons d s ih =>
    rw [splitOn_cons] at h
    split_ifs at h with hd
    · rcases List.mem_cons.mp h with rfl | h
      · simp
      · exact ⟨(ih h).1, fun c hc => List.mem_cons_of_mem _ ((ih h).2 c hc)⟩
    · cases hs : s.splitOn sep with
      | nil => rw [hs] at h; simp at h
      | cons y ys =>
        rw [hs, List.modifyHead_cons] at h
        rcases List.mem_cons.mp h with rfl | h
        · have hy := ih (x := y) (by rw [hs]; simp)
          constructor
          · simp only [List.mem_cons, not_or]
            exact ⟨fun e => hd e.symm, hy.1⟩
          · intro c hc
            rcases List.mem_cons.mp hc with rfl | hc
            · simp
            · exact List.mem_cons_of_mem _ (hy.2 c hc)
        · have hx := ih (x := x) (by rw [hs]; simp [h])
          exact ⟨hx.1, fun c hc => List.mem_cons_of_mem _ (hx.2 c hc)⟩

theorem mem_join {sep : Str} {xs : List Str} {c : Char} (h : c ∈ join sep xs) :
    c ∈ sep ∨ ∃ x ∈ xs, c ∈ x := by
  induction xs with
  | nil => simp [join] at h
  | cons x xs ih =>
    cases xs with
    | nil => rw [join_singleton] at h; exact .inr ⟨x, by simp, h⟩
    | cons y ys =>
      rw [join_cons_cons, List.mem_append, List.mem_append] at h
      rcases h with (h | h) | h
      · exact .inr ⟨x, by simp, h⟩
      · exact .inl h
      · rcases ih h with h | ⟨z, hz, hc⟩
        · exact .inl h
        · exact .inr ⟨z, List.mem_cons_of_mem _ hz, hc⟩

theorem infix_join (sep : Str) {xs : List Str} {x : Str} (h : x ∈ xs) : x <:+: join sep xs := by
  induction xs with
  | nil => simp at h
  | cons y ys ih =>
    cases ys with
    | nil =>
      rw [join_singleton, List.mem_singleton.mp h]
    | cons z zs =>
      rw [join_cons_cons]
      cases List.mem_cons.mp h with
      | inl h => exact ⟨[], sep ++ join sep (z :: zs), by simp [h]⟩
      | inr h => exact (ih h).trans (List.suffix_append _ _).isInfix

theorem join_comma_space (x : Str) (xs : List Str) :
    join ", ".toList (x :: xs) = join [','] (x :: xs.map (' ' :: ·)) := by
  induction xs generalizing x with
  | nil => simp [join_singleton]
  | cons y ys ih =>
    rw [join_cons_cons, ih, List.map_cons, join_cons_cons]
    cases ys with
    | nil => simp [join_singleton]
    | cons z zs => simp [join_cons_cons]

/-- Splitting a `", ".join` at the commas gives the joined strings, with the blanks. -/
theorem splitOn_join_comma {xs : List Str} (hc : ∀ x ∈ xs, ',' ∉ x) (hne : xs ≠ []) :
    (join ", ".toList xs).splitOn ',' =
      match xs with
      | [] => []
      | x :: xs => x :: xs.map (' ' :: ·) := by
  obtain ⟨x, ys, rfl⟩ := List.exists_cons_of_ne_nil hne
  rw [join_comma_space, splitOn_join _ (by simp)]
  intro z hz
  rcases List.mem_cons.mp hz with rfl | hz
  · exact hc _ (by simp)
  · obtain ⟨y, hy, rfl⟩ := List.mem_map.mp hz
    have := hc y (by simp [hy])
    simpa using this

theorem splitOn_ne_nil (sep : Char) (s : Str) : s.splitOn sep ≠ [] := by
  rw [List.splitOn_eq_splitOnP]
  exact List.splitOnP_ne_nil _ _

/-- A prefix without the separator is a prefix of the first piece. -/
theorem prefix_head_splitOn {sep : Char} {old s p : Str} {ps : List Str}
    (hs : s.splitOn sep = p :: ps) (hold : sep ∉ old) : old <+: s ↔ old <+: p := by
  induction s generalizing old p ps with
  | nil =>
    have hp : p = [] := by simpa using (congrArg List.head? hs).symm
    rw [hp]
  | cons c s ih =>
    rw [splitOn_cons] at hs
    cases old with
    | nil => simp
    | cons d old =>
      split_ifs at hs with hc
      · have hp : p = [] := by simpa using (congrArg List.head? hs).symm
        have hd : d ≠ c := by
          rintro rfl
          exact hold (by simp [hc])
        simp [hp, List.cons_prefix_cons, hd]
      · obtain ⟨q, qs, hq⟩ := List.exists_cons_of_ne_nil (splitOn_ne_nil sep s)
        rw [hq, List.modifyHead_cons] at hs
        obtain ⟨rfl, rfl⟩ := List.cons.inj hs
        rw [List.cons_prefix_cons, List.cons_prefix_cons,
          ih hq fun h => hold (List.mem_cons_of_mem _ h)]

private theorem splitOn_replaceFrom {sep d : Char} {old s p : Str} {ps : List Str} {k : Nat}
    (hold : sep ∉ d :: old) (hk : sep ∉ s.take k) (hs : s.splitOn sep = p :: ps) :
    (replaceFrom (d :: old) [] k s).splitOn sep =
      replaceFrom (d :: old) [] k p :: ps.map (replace (d :: old) []) := by
  induction s generalizing k p ps with
  | nil =>
    obtain ⟨rfl, rfl⟩ : p = [] ∧ ps = [] := by simpa [eq_comm] using hs
    cases k <;> simp [replaceFrom]
  | cons c s ih =>
    obtain ⟨q, qs, hq⟩ := List.exists_cons_of_ne_nil (splitOn_ne_nil sep s)
    rw [splitOn_cons, hq, List.modifyHead_cons] at hs
    cases k with
    | succ k =>
      rw [List.take_succ_cons, List.mem_cons, not_or] at hk
      rw [if_neg (Ne.symm hk.1)] at hs
      obtain ⟨rfl, rfl⟩ := List.cons.inj hs
      rw [replaceFrom, replaceFrom, ih hk.2 hq]
    | zero =>
      by_cases hc : c = sep
      · subst hc
        rw [if_pos rfl] at hs
        obtain ⟨rfl, rfl⟩ := List.cons.inj hs
        have hd : d ≠ c := fun h => hold (by simp [h])
        have hp : (d :: old).isPrefixOf (c :: s) = false := by simp [List.isPrefixOf, hd]
        have hr : replaceFrom (d :: old) [] 0 (c :: s) = c :: replaceFrom (d :: old) [] 0 s := by
          rw [replaceFrom, hp, if_neg (by simp)]
        rw [hr, splitOn_cons, if_pos rfl, ih (by simp) hq]
        simp [replaceFrom, replace]
      · rw [if_neg hc] at hs
        obtain ⟨rfl, rfl⟩ := List.cons.inj hs
        have hsc : (c :: s).splitOn sep = (c :: q) :: qs := by
          rw [splitOn_cons, if_neg hc, hq, List.modifyHead_cons]
        have hiff := prefix_head_splitOn hsc hold
        by_cases hp : (d :: old) <+: c :: s
        · have hq' := hiff.mp hp
          rw [replaceFrom, replaceFrom, List.isPrefixOf_iff_prefix.mpr hp,
            List.isPrefixOf_iff_prefix.mpr hq', if_pos rfl, if_pos rfl, List.nil_append,
            List.nil_append]
          refine ih (fun h => ?_) hq
          obtain ⟨t, ht⟩ := (List.cons_prefix_cons.mp hp).2
          rw [← ht] at h
          exact hold (List.mem_cons_of_mem _ (by simpa using h))
        · have hn : (d :: old).isPrefixOf (c :: s) = false := by
            rw [Bool.eq_false_iff, Ne, List.isPrefixOf_iff_prefix]
            exact hp
          have hn' : (d :: old).isPrefixOf (c :: q) = false := by
            rw [Bool.eq_false_iff, Ne, List.isPrefixOf_iff_prefix, ← hiff]
            exact hp
          rw [replaceFrom, replaceFrom, hn, hn', if_neg (by simp), if_neg (by simp), splitOn_cons,
            if_neg hc, ih (by simp) hq, List.modifyHead_cons]

/-- Removing a pattern does not reach across a separator. -/
theorem splitOn_replace_nil {sep d : Char} {old s : Str} (hold : sep ∉ d :: old) :
    (replace (d :: old) [] s).splitOn sep = (s.splitOn sep).map (replace (d :: old) []) := by
  obtain ⟨p, ps, hs⟩ := List.exists_cons_of_ne_nil (splitOn_ne_nil sep s)
  rw [replace, splitOn_replaceFrom hold (by simp) hs, hs]
  rfl

section Weight

/-- The number of characters that are not blank. -/
def weight (s : Str) : Nat := s.countP fun c => !isSpace c

theorem weight_append (s t : Str) : weight (s ++ t) = weight s + weight t := List.countP_append

private theorem weight_dropWhile (s : Str) : weight (s.dropWhile isSpace) = weight s := by
  induction s with
  | nil => rfl
  | cons c s ih =>
    by_cases h : isSpace c = true
    · rw [List.dropWhile_cons_of_pos h, ih]
      simp [weight, h]
    · rw [List.dropWhile_cons_of_neg h]

theorem weight_strip (s : Str) : weight (strip s) = weight s := by
  have hrev : ∀ t : Str, weight t.reverse = weight t := fun t => List.countP_reverse
  rw [strip, hrev, weight_dropWhile, hrev, weight_dropWhile]

private theorem replaceFrom_nil_sublist (old s : Str) (k : Nat) :
    (replaceFrom old [] k s).Sublist s := by
  induction s generalizing k with
  | nil => simp [replaceFrom]
  | cons c s ih =>
    cases k with
    | succ k => exact (ih k).cons c
    | zero =>
      rw [replaceFrom]
      split_ifs
      · exact (ih _).cons c
      · exact (ih 0).cons_cons c

theorem weight_replace_nil_le (old s : Str) : weight (replace old [] s) ≤ weight s :=
  (replaceFrom_nil_sublist old s 0).countP_le

/-- Removing a pattern that occurs takes its weight away. -/
theorem weight_replace_nil_of_occurs {d : Char} {old s : Str} (h : (d :: old) <:+: s) :
    weight (replace (d :: old) [] s) + weight (d :: old) ≤ weight s := by
  unfold replace
  induction s with
  | nil => simp at h
  | cons c s ih =>
    by_cases hp : (d :: old) <+: c :: s
    · obtain ⟨t, ht⟩ := hp
      have hs : s = old ++ t := (List.cons.inj ht).2.symm
      rw [replaceFrom, List.isPrefixOf_iff_prefix.mpr ⟨t, ht⟩, if_pos rfl, List.nil_append,
        List.length_cons, Nat.add_sub_cancel, hs, replaceFrom_skip _ _ _ _ _ rfl, ← hs, ← ht,
        weight_append, Nat.add_comm]
      exact Nat.add_le_add_left (replaceFrom_nil_sublist _ t 0).countP_le _
    · have hn : (d :: old).isPrefixOf (c :: s) = false := by
        rw [Bool.eq_false_iff, Ne, List.isPrefixOf_iff_prefix]
        exact hp
      have hs : (d :: old) <:+: s := (List.infix_cons_iff.mp h).resolve_left hp
      rw [replaceFrom, hn, if_neg (by simp)]
      have hcons : ∀ t : Str, weight (c :: t) = weight [c] + weight t := fun t =>
        weight_append [c] t
      rw [hcons, hcons s, Nat.add_assoc]
      exact Nat.add_le_add_left (ih hs) _

end Weight

end Python
