import Mathlib.Data.Multiset.MapFold
import Howler.Structures.Dumps

namespace Structures

open Python

/-- Nested data: lists and maps down to leaves of any kind. -/
inductive Tree (α : Type) where
  | leaf (a : α)
  | list (xs : List (Tree α))
  | obj (fields : List (Str × Tree α))

namespace Tree

variable {α : Type}

/-- What holds of leaves, of a list if it holds of its items, and of a map if it holds of its values,
holds of all trees. -/
theorem induct {P : Tree α → Prop} (leaf : ∀ a, P (.leaf a))
    (list : ∀ xs, (∀ x ∈ xs, P x) → P (.list xs))
    (obj : ∀ fields, (∀ e ∈ fields, P (Prod.snd e)) → P (.obj fields)) (t : Tree α) : P t := by
  refine @Tree.rec α P (fun xs => ∀ x ∈ xs, P x) (fun fields => ∀ e ∈ fields, P e.2)
    (fun e => P e.2) leaf list obj ?_ ?_ ?_ ?_ ?_ t
  · intro x hx
    cases hx
  · intro x xs hx hxs y hy
    rcases List.mem_cons.mp hy with rfl | hy
    · exact hx
    · exact hxs y hy
  · intro e he
    cases he
  · intro e fields he hfields e' he'
    rcases List.mem_cons.mp he' with rfl | he'
    · exact he
    · exact hfields e' he'
  · exact fun k v hv => hv

section Same

variable (eq : α → α → Bool)

mutual

/-- Equality by that of leaves: the items of lists in their order, the values of maps by their
keys. -/
def same : Tree α → Tree α → Bool
  | leaf a, leaf b => eq a b
  | list xs, list ys => sameItems xs ys
  | obj fields, obj fields' => fields.length = fields'.length && sameFields fields fields'
  | _, _ => false

def sameItems : List (Tree α) → List (Tree α) → Bool
  | [], [] => true
  | x :: xs, y :: ys => same x y && sameItems xs ys
  | _, _ => false

def sameFields : List (Str × Tree α) → List (Str × Tree α) → Bool
  | [], _ => true
  | (k, v) :: fields, fields' =>
    (match Dict.get? fields' k with
      | some v' => same v v'
      | none => false) && sameFields fields fields'

end

variable {eq}

theorem sameFields_iff {fields fields' : List (Str × Tree α)} :
    sameFields eq fields fields' = true ↔
      ∀ e ∈ fields, ∃ v, Dict.get? fields' e.1 = some v ∧ same eq e.2 v = true := by
  induction fields with
  | nil => simp [sameFields]
  | cons e fields ih =>
    obtain ⟨k, v⟩ := e
    rw [sameFields, Bool.and_eq_true, ih, List.forall_mem_cons]
    refine and_congr_left fun _ => ?_
    cases Dict.get? fields' k <;> simp

end Same

/-- The keys of every map are distinct. -/
inductive Unique : Tree α → Prop
  | leaf (a : α) : Unique (leaf a)
  | list {xs : List (Tree α)} : (∀ x ∈ xs, Unique x) → Unique (list xs)
  | obj {fields : List (Str × Tree α)} : (fields.map Prod.fst).Nodup →
    (∀ e ∈ fields, Unique e.2) → Unique (obj fields)

theorem Unique.items {xs : List (Tree α)} (h : Unique (Tree.list xs)) : ∀ x ∈ xs, Unique x := by
  cases h with
  | list h => exact h

theorem Unique.keys {fields : List (Str × Tree α)} (h : Unique (Tree.obj fields)) :
    (fields.map Prod.fst).Nodup := by
  cases h with
  | obj h _ => exact h

theorem Unique.values {fields : List (Str × Tree α)} (h : Unique (Tree.obj fields)) :
    ∀ e ∈ fields, Unique e.2 := by
  cases h with
  | obj _ h => exact h

section Dumps

/-- Entries in the order of their keys. -/
def byKey (texts : List (Str × Str)) : List (Str × Str) :=
  texts.insertionSort fun a b => a.1 ≤ b.1

theorem pairwise_byKey (texts : List (Str × Str)) :
    (byKey texts).Pairwise fun a b => a.1 ≤ b.1 := by
  have htotal : Std.Total fun a b : Str × Str => a.1 ≤ b.1 := ⟨fun a b => le_total a.1 b.1⟩
  have htrans : IsTrans (Str × Str) fun a b => a.1 ≤ b.1 := ⟨fun _ _ _ => le_trans⟩
  exact List.pairwise_insertionSort _ texts

/-- Entries with distinct keys have one order. -/
theorem byKey_congr {texts texts' : List (Str × Str)} (hkeys : (texts.map Prod.fst).Nodup)
    (h : texts.Perm texts') : byKey texts = byKey texts' := by
  have hperm : (byKey texts).Perm texts := List.perm_insertionSort _ _
  have hperm' : (byKey texts').Perm texts' := List.perm_insertionSort _ _
  have hinj : Set.InjOn Prod.fst {e | e ∈ texts} := List.inj_on_of_nodup_map hkeys
  refine List.Perm.eq_of_pairwise (fun a b ha hb hab hba => ?_) (pairwise_byKey texts)
    (pairwise_byKey texts') ((hperm.trans h).trans hperm'.symm)
  have hb' : b ∈ texts := h.mem_iff.mpr (hperm'.mem_iff.mp hb)
  exact hinj (hperm.mem_iff.mp ha) hb' (le_antisymm hab hba)

variable (text : α → Str)

mutual

/-- `json.dumps` with sorted keys, with the text of leaves. -/
def dumps : Tree α → Str
  | leaf a => text a
  | list xs => ['['] ++ join ", ".toList (dumpsItems xs) ++ [']']
  | obj fields =>
    ['\x7b'] ++ join ", ".toList ((byKey (dumpsFields fields)).map fun e =>
      Json.quote e.1 ++ ": ".toList ++ e.2) ++ ['\x7d']

def dumpsItems : List (Tree α) → List Str
  | [] => []
  | x :: xs => dumps x :: dumpsItems xs

def dumpsFields : List (Str × Tree α) → List (Str × Str)
  | [] => []
  | (k, v) :: fields => (k, dumps v) :: dumpsFields fields

end

theorem dumpsItems_eq (xs : List (Tree α)) : dumpsItems text xs = xs.map (dumps text) := by
  induction xs with
  | nil => rfl
  | cons x xs ih => rw [dumpsItems, ih, List.map_cons]

theorem dumpsFields_eq (fields : List (Str × Tree α)) :
    dumpsFields text fields = fields.map fun e => (e.1, dumps text e.2) := by
  induction fields with
  | nil => rfl
  | cons e fields ih => rw [dumpsFields, ih, List.map_cons]

variable {text} {eq : α → α → Bool}

/-- Items that are equal one by one have equal texts. -/
theorem map_dumps_eq_of_sameItems {xs ys : List (Tree α)}
    (ih : ∀ x ∈ xs, ∀ y ∈ ys, same eq x y = true → dumps text x = dumps text y)
    (h : sameItems eq xs ys = true) : xs.map (dumps text) = ys.map (dumps text) := by
  induction xs generalizing ys with
  | nil =>
    cases ys with
    | nil => rfl
    | cons y ys => cases h
  | cons x xs ihxs =>
    cases ys with
    | nil => cases h
    | cons y ys =>
      rw [sameItems, Bool.and_eq_true] at h
      have hhead := ih x (List.mem_cons_self ..) y (List.mem_cons_self ..) h.1
      have htail := ihxs (fun x hx y hy =>
        ih x (List.mem_cons_of_mem _ hx) y (List.mem_cons_of_mem _ hy)) h.2
      rw [List.map_cons, List.map_cons, hhead, htail]

/-- The text of a tree does not depend on the order of keys. -/
theorem dumps_eq_of_same (heq : ∀ a b, eq a b = true → text a = text b) {t t' : Tree α}
    (hunique : t.Unique) (hunique' : t'.Unique) (h : same eq t t' = true) :
    dumps text t = dumps text t' := by
  induction t using induct generalizing t' with
  | leaf a =>
    cases t' with
    | leaf b => exact heq a b h
    | list ys => cases h
    | obj fields' => cases h
  | list xs ih =>
    cases t' with
    | leaf b => cases h
    | list ys =>
      rw [same] at h
      have hitems := @map_dumps_eq_of_sameItems _ text _ _ _ (fun x hx y hy hxy =>
        ih x hx (hunique.items x hx) (hunique'.items y hy) hxy) h
      rw [dumps, dumps, dumpsItems_eq, dumpsItems_eq, hitems]
    | obj fields' => cases h
  | obj fields ih =>
    cases t' with
    | leaf b => cases h
    | list ys => cases h
    | obj fields' =>
      rw [same, Bool.and_eq_true, decide_eq_true_eq, sameFields_iff] at h
      obtain ⟨hlength, hfields⟩ := h
      have hkeys : ((dumpsFields text fields).map Prod.fst).Nodup := by
        rw [dumpsFields_eq, List.map_map]
        exact hunique.keys
      -- the texts of the one map are those of the other, in another order
      have hsubset : dumpsFields text fields ⊆ dumpsFields text fields' := by
        rw [dumpsFields_eq, dumpsFields_eq]
        intro entry hentry
        obtain ⟨e, he, rfl⟩ := List.mem_map.mp hentry
        obtain ⟨v, hv, hsame⟩ := hfields e he
        have hmem := Dict.mem_of_get? hv
        rw [ih e he (hunique.values e he) (hunique'.values _ hmem) hsame]
        exact List.mem_map.mpr ⟨_, hmem, rfl⟩
      have hlengths : (dumpsFields text fields').length ≤ (dumpsFields text fields).length := by
        rw [dumpsFields_eq, dumpsFields_eq, List.length_map, List.length_map, hlength]
      have hperm := (List.subperm_of_subset (List.Nodup.of_map _ hkeys) hsubset).perm_of_length_le
        hlengths
      rw [dumps, dumps, byKey_congr hkeys hperm]

/-- The texts of the same items in another order sort to the same texts. -/
theorem sorted_dumps_eq (heq : ∀ a b, eq a b = true → text a = text b) {xs ys : List (Tree α)}
    (hunique : ∀ x ∈ xs, x.Unique) (hunique' : ∀ y ∈ ys, y.Unique)
    (h : Multiset.Rel (fun x y => same eq x y = true) xs ys) :
    sorted (xs.map (dumps text)) = sorted (ys.map (dumps text)) := by
  have hrel : Multiset.Rel (fun s t : Str => s = t) ((xs : Multiset (Tree α)).map (dumps text))
      ((ys : Multiset (Tree α)).map (dumps text)) := by
    refine Multiset.rel_map.mpr (h.mono fun x hx y hy hxy => ?_)
    exact dumps_eq_of_same heq (hunique x (by simpa using hx)) (hunique' y (by simpa using hy)) hxy
  rw [Multiset.rel_eq, Multiset.map_coe, Multiset.map_coe, Multiset.coe_eq_coe] at hrel
  exact sorted_congr hrel

end Dumps

end Tree

end Structures
