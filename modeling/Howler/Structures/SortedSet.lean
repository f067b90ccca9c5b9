import Mathlib.Data.List.Sort
import Mathlib.Algebra.Order.Group.Multiset
import Mathlib.Data.Prod.Lex

namespace Structures

section Picks

variable {α β : Type*}

/-- Of the items in a range, put in order, some are passed over and the next ones are taken. -/
def Picks (before : α → α → Prop) (inRange : α → Prop) (skip n : ℕ) (present : Multiset α)
    (taken : List α) (rest : Multiset α) : Prop :=
  ∃ (order : List α) (outside : Multiset α),
    present = (order : Multiset α) + outside ∧
    (∀ x ∈ order, inRange x) ∧ (∀ x ∈ outside, ¬ inRange x) ∧ order.Pairwise before ∧
    taken = (order.drop skip).take n ∧
    rest = (order.take skip : Multiset α) + ((order.drop skip).drop n : Multiset α) + outside

variable {before : α → α → Prop} {inRange : α → Prop} {skip n : ℕ} {present rest : Multiset α}
  {taken : List α}

/-- Nothing is lost and nothing comes twice. -/
theorem Picks.conserves (h : Picks before inRange skip n present taken rest) :
    present = (taken : Multiset α) + rest := by
  obtain ⟨order, outside, rfl, -, -, -, rfl, rfl⟩ := h
  have hsplit : (order : Multiset α) =
      (order.take skip : Multiset α) +
        (((order.drop skip).take n : Multiset α) + ((order.drop skip).drop n : Multiset α)) := by
    rw [Multiset.coe_add, Multiset.coe_add, List.take_append_drop, List.take_append_drop]
  calc (order : Multiset α) + outside
      = (order.take skip : Multiset α) +
          (((order.drop skip).take n : Multiset α) + ((order.drop skip).drop n : Multiset α)) +
          outside := by rw [← hsplit]
    _ = ((order.drop skip).take n : Multiset α) +
          ((order.take skip : Multiset α) + ((order.drop skip).drop n : Multiset α) + outside) := by
        rw [add_left_comm, add_assoc]

/-- What is taken of items is taken of what they stand for. -/
theorem Picks.map {before' : β → β → Prop} {inRange' : β → Prop} {f : α → β}
    (h : Picks before inRange skip n present taken rest)
    (hbefore : ∀ x y, before x y → before' (f x) (f y))
    (hrange : ∀ x, inRange x ↔ inRange' (f x)) :
    Picks before' inRange' skip n (present.map f) (taken.map f) (rest.map f) := by
  obtain ⟨order, outside, rfl, hin, hout, hsorted, rfl, rfl⟩ := h
  refine ⟨order.map f, outside.map f, by simp, fun y hy => ?_, fun y hy => ?_,
    List.pairwise_map.mpr (hsorted.imp (hbefore _ _)), ?_, ?_⟩
  · obtain ⟨x, hx, rfl⟩ := List.mem_map.mp hy
    exact (hrange x).mp (hin x hx)
  · obtain ⟨x, hx, rfl⟩ := Multiset.mem_map.mp hy
    exact fun h => hout x hx ((hrange x).mpr h)
  · rw [← List.map_drop, ← List.map_take]
  · simp only [Multiset.map_add, Multiset.map_coe, List.map_take, List.map_drop]

/-- With enough of them asked for, all are taken. -/
theorem Picks.all (h : Picks before (fun _ => True) 0 n present taken rest)
    (hn : Multiset.card present ≤ n) : (taken : Multiset α) = present ∧ rest = 0 := by
  obtain ⟨order, outside, rfl, -, hout, -, rfl, rfl⟩ := h
  have hnone : outside = 0 := Multiset.eq_zero_of_forall_notMem fun x hx => hout x hx trivial
  subst hnone
  have hlen : order.length ≤ n := by simpa using hn
  simp [List.take_of_length_le hlen, List.drop_eq_nil_of_le hlen]

theorem Picks.length_le (h : Picks before inRange skip n present taken rest) : taken.length ≤ n := by
  obtain ⟨order, outside, -, -, -, -, rfl, -⟩ := h
  exact List.length_take_le ..

/-- With none asked for, none is taken. -/
theorem Picks.zero (h : Picks before inRange skip 0 present taken rest) :
    taken = [] ∧ rest = present := by
  have hnil : taken = [] := List.length_eq_zero_iff.mp (Nat.le_zero.mp h.length_le)
  have hsum := h.conserves
  rw [hnil] at hsum
  exact ⟨hnil, by simpa using hsum.symm⟩

/-- When one is asked for and none is taken, there is none. -/
theorem Picks.nothing (h : Picks before (fun _ => True) 0 1 present [] rest) :
    present = 0 ∧ rest = 0 := by
  obtain ⟨order, outside, rfl, -, hout, -, htaken, rfl⟩ := h
  have hnone : outside = 0 := Multiset.eq_zero_of_forall_notMem fun x hx => hout x hx trivial
  have hnil : order = [] := by simpa using htaken.symm
  simp [hnone, hnil]

end Picks

section Entries

variable {S M : Type*}

def score (e : S ×ₗ M) : S := (ofLex e).1

def member (e : S ×ₗ M) : M := (ofLex e).2

end Entries

/-- Members with scores, in the order of their scores and then of the members. -/
structure SortedSet (S M : Type*) [LinearOrder S] [LinearOrder M] where
  entries : List (S ×ₗ M)
  sorted : entries.Pairwise (· ≤ ·)
  nodup : (entries.map member).Nodup

namespace SortedSet

variable {S M : Type*} [LinearOrder S] [LinearOrder M]

def empty : SortedSet S M where
  entries := []
  sorted := List.Pairwise.nil
  nodup := List.nodup_nil

/-- The entries that are left when some are taken off. -/
def part (s : SortedSet S M) (entries : List (S ×ₗ M)) (h : entries.Sublist s.entries) :
    SortedSet S M where
  entries := entries
  sorted := s.sorted.sublist h
  nodup := s.nodup.sublist (h.map member)

variable (s : SortedSet S M)

/-- `ZADD`: a member that is there already gets the new score. -/
def zadd (x : S) (m : M) : SortedSet S M where
  entries := (s.entries.filter fun e => member e ≠ m).orderedInsert (· ≤ ·) (toLex (x, m))
  sorted := (s.sorted.sublist List.filter_sublist).orderedInsert _ _
  nodup := by
    have hperm := ((s.entries.filter fun e => member e ≠ m).perm_orderedInsert (· ≤ ·)
      (toLex (x, m))).map member
    refine hperm.nodup_iff.mpr (List.nodup_cons.mpr ⟨fun hm => ?_, ?_⟩)
    · obtain ⟨e, he, heq⟩ := List.mem_map.mp hm
      have hne : member e ≠ m := by simpa using (List.mem_filter.mp he).2
      exact hne heq
    · exact s.nodup.sublist (List.filter_sublist.map member)

/-- `ZPOPMIN`. -/
def zpopmin (n : ℕ) : List (S ×ₗ M) × SortedSet S M :=
  (s.entries.take n, s.part (s.entries.drop n) (List.drop_sublist n _))

/-- `ZPOPMAX`. -/
def zpopmax (n : ℕ) : List (S ×ₗ M) × SortedSet S M :=
  (s.entries.reverse.take n,
    s.part (s.entries.reverse.drop n).reverse (by
      simpa using (List.drop_sublist n s.entries.reverse).reverse))

/-- `ZRANGEBYSCORE`: the entries of a range, some passed over. -/
def zrangebyscore (inRange : S → Bool) (skip n : ℕ) : List (S ×ₗ M) :=
  ((s.entries.filter fun e => inRange (score e)).drop skip).take n

/-- `ZREM`. -/
def zrem (ms : List M) : SortedSet S M :=
  s.part (s.entries.filter fun e => member e ∉ ms) List.filter_sublist

variable {s}

theorem coe_zadd (x : S) (m : M) : ((s.zadd x m).entries : Multiset (S ×ₗ M)) =
    toLex (x, m) ::ₘ (s.entries.filter fun e => member e ≠ m : List _) :=
  Multiset.coe_eq_coe.mpr (List.perm_orderedInsert _ _ _)

theorem coe_zadd_of_iff (x : S) {m : M} {p : S ×ₗ M → Bool}
    (h : ∀ e ∈ s.entries, p e = true ↔ member e ≠ m) :
    ((s.zadd x m).entries : Multiset (S ×ₗ M)) = toLex (x, m) ::ₘ (s.entries.filter p : List _) := by
  have hfilter : s.entries.filter (fun e => decide (member e ≠ m)) = s.entries.filter p := by
    refine List.filter_congr fun e he => ?_
    rw [Bool.eq_iff_iff, decide_eq_true_iff, h e he]
  rw [coe_zadd, hfilter]

/-- A new member comes to the others. -/
theorem coe_zadd_new (x : S) {m : M} (h : m ∉ s.entries.map member) :
    ((s.zadd x m).entries : Multiset (S ×ₗ M)) =
      toLex (x, m) ::ₘ (s.entries : Multiset (S ×ₗ M)) := by
  have hall : s.entries.filter (fun _ => true) = s.entries := List.filter_eq_self.mpr fun _ _ => rfl
  rw [@coe_zadd_of_iff _ _ _ _ s x m fun _ => true, hall]
  intro e he
  exact iff_of_true rfl fun hm => h (hm ▸ List.mem_map_of_mem he)

theorem mem_zadd {x : S} {m : M} {e : S ×ₗ M} :
    e ∈ (s.zadd x m).entries ↔ e = toLex (x, m) ∨ e ∈ s.entries ∧ member e ≠ m := by
  rw [zadd, List.mem_orderedInsert, List.mem_filter]
  simp

theorem sorted_scores : s.entries.Pairwise fun e e' => score e ≤ score e' :=
  s.sorted.imp fun h => Prod.Lex.monotone_fst _ _ h

/-- The entries with the least scores. -/
theorem picks_zpopmin (n : ℕ) :
    Picks (fun e e' => score e ≤ score e') (fun _ => True) 0 n (s.entries : Multiset (S ×ₗ M))
      (s.zpopmin n).1 ((s.zpopmin n).2.entries : Multiset (S ×ₗ M)) :=
  ⟨s.entries, 0, by simp, by simp, by simp, sorted_scores, rfl, by simp [zpopmin, part]⟩

/-- The entries with the greatest scores. -/
theorem picks_zpopmax (n : ℕ) :
    Picks (fun e e' => score e' ≤ score e) (fun _ => True) 0 n (s.entries : Multiset (S ×ₗ M))
      (s.zpopmax n).1 ((s.zpopmax n).2.entries : Multiset (S ×ₗ M)) := by
  refine ⟨s.entries.reverse, 0, by simp, by simp, by simp, ?_, rfl, by simp [zpopmax, part]⟩
  exact List.pairwise_reverse.mpr sorted_scores

omit [LinearOrder S] in
/-- Entries told apart by their members are left when the others are removed. -/
theorem perm_filter_notMem {entries taken rest : List (S ×ₗ M)} (hnodup : (entries.map member).Nodup)
    (hperm : entries.Perm (taken ++ rest)) :
    (entries.filter fun e => member e ∉ taken.map member).Perm rest := by
  have hmembers := (hperm.map member).nodup_iff.mp hnodup
  rw [List.map_append, List.nodup_append] at hmembers
  have htaken : taken.filter (fun e => decide (member e ∉ taken.map member)) = [] := by
    refine List.filter_eq_nil_iff.mpr fun e he hnot => ?_
    exact of_decide_eq_true hnot (List.mem_map_of_mem he)
  have hrest : rest.filter (fun e => decide (member e ∉ taken.map member)) = rest := by
    refine List.filter_eq_self.mpr fun e he => decide_eq_true fun hmem => ?_
    exact hmembers.2.2 _ hmem _ (List.mem_map_of_mem he) rfl
  have hfilter := hperm.filter fun e => decide (member e ∉ taken.map member)
  rwa [List.filter_append, htaken, hrest, List.nil_append] at hfilter

/-- The entries of a range that are not passed over, removed. -/
theorem picks_zrem (inRange : S → Bool) (skip n : ℕ) :
    Picks (fun e e' => score e ≤ score e') (fun e => inRange (score e) = true) skip n
      (s.entries : Multiset (S ×ₗ M)) (s.zrangebyscore inRange skip n)
      ((s.zrem ((s.zrangebyscore inRange skip n).map member)).entries : Multiset (S ×ₗ M)) := by
  have hsplit := List.filter_append_perm (fun e => inRange (score e)) s.entries
  unfold zrangebyscore
  have hsorted := s.sorted_scores.sublist (List.filter_sublist (p := fun e => inRange (score e)))
  have hin : ∀ e ∈ s.entries.filter fun e => inRange (score e), inRange (score e) = true :=
    fun e he => (List.mem_filter.mp he).2
  have hout : ∀ e ∈ s.entries.filter fun e => !inRange (score e), ¬ inRange (score e) = true :=
    fun e he => by simpa using (List.mem_filter.mp he).2
  generalize s.entries.filter (fun e => inRange (score e)) = order at *
  generalize s.entries.filter (fun e => !inRange (score e)) = outside at *
  refine ⟨order, outside, by rw [Multiset.coe_add]; exact Multiset.coe_eq_coe.mpr hsplit.symm, hin,
    hout, hsorted, rfl, ?_⟩
  have hperm : s.entries.Perm ((order.drop skip).take n ++
      (order.take skip ++ (order.drop skip).drop n ++ outside)) := by
    refine hsplit.symm.trans ?_
    refine Multiset.coe_eq_coe.mp ?_
    have hparts : order = order.take skip ++ ((order.drop skip).take n ++ (order.drop skip).drop n) := by
      rw [List.take_append_drop, List.take_append_drop]
    conv_lhs => rw [hparts]
    simp only [← Multiset.coe_add]
    rw [add_left_comm, add_assoc]
  have hrest := perm_filter_notMem s.nodup hperm
  rw [Multiset.coe_add, Multiset.coe_add]
  exact Multiset.coe_eq_coe.mpr hrest

end SortedSet

end Structures
