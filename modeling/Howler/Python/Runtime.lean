import Howler.Python.Text

namespace Python

/-- What a run of the interpreter leaves open: the Unicode upper-case mapping, and the order
`listSet l` in which a set filled with the elements of `l`, one after the other, iterates. -/
structure Runtime where
  upperChar : Char → Str
  listSet : List Str → List Str
  upperChar_ascii : ∀ c, c.toNat < 128 → upperChar c = [c.toUpper]
  upperChar_fixed : ∀ c, ∀ d ∈ upperChar c, upperChar d = [d]
  listSet_nodup : ∀ l, (listSet l).Nodup
  mem_listSet : ∀ l a, a ∈ listSet l ↔ a ∈ l

namespace Runtime

attribute [simp] mem_listSet

variable (rt : Runtime)

/-- `s.upper()`. -/
def upper (s : Str) : Str := s.flatMap rt.upperChar

@[simp] theorem upper_nil : rt.upper [] = [] := rfl

@[simp] theorem upper_append (s t : Str) : rt.upper (s ++ t) = rt.upper s ++ rt.upper t :=
  List.flatMap_append

theorem upper_cons (c : Char) (s : Str) : rt.upper (c :: s) = rt.upperChar c ++ rt.upper s := rfl

theorem upperChar_of_mem_upper {s : Str} {c : Char} (h : c ∈ rt.upper s) :
    rt.upperChar c = [c] := by
  obtain ⟨d, _, hd⟩ := List.mem_flatMap.mp h
  exact rt.upperChar_fixed d c hd

theorem upper_eq_self {s : Str} (h : ∀ c ∈ s, rt.upperChar c = [c]) : rt.upper s = s := by
  induction s with
  | nil => rfl
  | cons c s ih =>
    rw [upper_cons, h c (by simp), ih (fun d hd => h d (List.mem_cons_of_mem _ hd))]
    rfl

/-- Any text made of characters of an upper-cased text is upper case. -/
theorem upper_eq_self_of_subset {s t : Str} (h : ∀ c ∈ t, c ∈ rt.upper s) : rt.upper t = t :=
  rt.upper_eq_self fun c hc => rt.upperChar_of_mem_upper (h c hc)

theorem upper_ascii {s : Str} (h : (s.all fun c => c.toNat < 128 && c.toUpper == c) = true) :
    rt.upper s = s := by
  have h : ∀ c ∈ s, c.toNat < 128 ∧ c.toUpper = c := by simpa using h
  apply rt.upper_eq_self
  intro c hc
  rw [rt.upperChar_ascii c (h c hc).1, (h c hc).2]

theorem upper_eq_map {s : Str} (h : (s.all fun c => c.toNat < 128) = true) :
    rt.upper s = s.map Char.toUpper := by
  induction s with
  | nil => rfl
  | cons c s ih =>
    rw [List.all_cons, Bool.and_eq_true, decide_eq_true_eq] at h
    rw [upper_cons, rt.upperChar_ascii c h.1, ih h.2]
    rfl

theorem upper_join (sep : Str) (xs : List Str) :
    rt.upper (join sep xs) = join (rt.upper sep) (xs.map rt.upper) := by
  induction xs with
  | nil => rfl
  | cons x xs ih =>
    cases xs with
    | nil => simp [join_singleton]
    | cons y ys =>
      rw [join_cons_cons, upper_append, upper_append, ih]
      exact (join_cons_cons _ _ _ _).symm

theorem mem_sorted_map_listSet {f : Str → Str} {xs : List Str} {x : Str} :
    x ∈ sorted ((rt.listSet xs).map f) ↔ ∃ a ∈ xs, f a = x := by
  simp [mem_sorted]

theorem listSet_eq_nil {xs : List Str} : rt.listSet xs = [] ↔ xs = [] := by
  constructor <;> intro h
  · apply List.eq_nil_iff_forall_not_mem.mpr
    intro a ha
    have := (rt.mem_listSet xs a).mpr ha
    simp [h] at this
  · apply List.eq_nil_iff_forall_not_mem.mpr
    intro a ha
    simpa [h] using (rt.mem_listSet xs a).mp ha

section Orders

/-- The interpreter whose sets iterate in sorted order. -/
def ordered : Runtime where
  upperChar := rt.upperChar
  listSet l := sorted l.dedup
  upperChar_ascii := rt.upperChar_ascii
  upperChar_fixed := rt.upperChar_fixed
  listSet_nodup l := nodup_sorted l.nodup_dedup
  mem_listSet _ _ := mem_sorted.trans List.mem_dedup

/-- The interpreter whose sets iterate in the opposite order. -/
def reversed : Runtime where
  upperChar := rt.upperChar
  listSet l := (sorted l.dedup).reverse
  upperChar_ascii := rt.upperChar_ascii
  upperChar_fixed := rt.upperChar_fixed
  listSet_nodup l := List.nodup_reverse.mpr (nodup_sorted l.nodup_dedup)
  mem_listSet _ _ := List.mem_reverse.trans (mem_sorted.trans List.mem_dedup)

theorem ordered_listSet_congr {xs ys : List Str} (h : ∀ a, a ∈ xs ↔ a ∈ ys) :
    rt.ordered.listSet xs = rt.ordered.listSet ys := by
  apply sorted_congr
  rw [List.perm_ext_iff_of_nodup xs.nodup_dedup ys.nodup_dedup]
  intro a
  rw [List.mem_dedup, List.mem_dedup, h]

theorem reversed_listSet (xs : List Str) :
    rt.reversed.listSet xs = (rt.ordered.listSet xs).reverse := rfl

end Orders

private theorem toUpper_toUpper (c : Char) : c.toUpper.toUpper = c.toUpper := by
  by_cases h : c.val ≥ 'a'.val ∧ c.val ≤ 'z'.val
  · have hn : ¬ (c.toUpper.val ≥ 'a'.val ∧ c.toUpper.val ≤ 'z'.val) := by
      delta Char.toUpper
      simp only [h, and_self, dif_pos]
      simp only [ge_iff_le, UInt32.le_iff_toNat_le, UInt32.toNat_add] at h ⊢
      simp at h ⊢
      omega
    exact dif_neg hn
  · rw [show c.toUpper = c from dif_neg h]
    exact dif_neg h

/-- Case mapping of ASCII text, sets iterating in order of last insertion. -/
def ascii : Runtime where
  upperChar c := [c.toUpper]
  listSet l := l.dedup
  upperChar_ascii _ _ := rfl
  upperChar_fixed c d h := by
    rw [List.mem_singleton.mp h, toUpper_toUpper]
  listSet_nodup l := l.nodup_dedup
  mem_listSet _ _ := List.mem_dedup

end Runtime

end Python
