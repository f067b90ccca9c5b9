import Howler.Cases.Forest
import Howler.Structures.Walk

namespace Howler.Cases

open Python Structures

section Ancestors

variable (items : List CaseItem)

/-- The parent of the item with an id, where there are both. -/
def parentOf (id : Str) : Option Str := (Case.itemById items id).bind (·.parent)

/-- The loop of `_is_descendant` with the ids that were visited, in at most `n` rounds. -/
def descendantWalk (ancestorId : Str) (n : ℕ) (candidateId : Str) : Option Bool :=
  walk (parentOf items) ancestorId n (some candidateId) []

variable {items} {a : Str} {fuel : ℕ} {rest : List CaseItem} {visited : List Str}

theorem itemById_rest (hrest : rest = items.filter (·.id ∉ visited)) (c : Str) :
    Case.itemById rest c = if c ∈ visited then none else Case.itemById items c := by
  rw [Case.itemById, hrest, ← List.filter_reverse, List.find?_filter]
  split
  · next hmem =>
    refine List.find?_eq_none.mpr fun i _ => ?_
    by_cases hi : i.id = c
    · simp [hi, hmem]
    · simp [hi]
  · next hmem =>
    refine congrArg (fun p => List.find? p items.reverse) (funext fun i => ?_)
    by_cases hi : i.id = c
    · simp [hi, hmem]
    · simp [hi]

/-- The items that are left and the ids that were visited lead the loop the same way. -/
theorem walk_eq_loop (hrest : rest = items.filter (·.id ∉ visited)) (hlen : rest.length < fuel)
    (o : Option Str) :
    walk (parentOf items) a (fuel + 1) o visited =
      some (Case.isDescendantLoop a fuel rest o) := by
  induction fuel generalizing rest visited o with
  | zero => omega
  | succ fuel ih =>
    cases o with
    | none => rfl
    | some c =>
      rw [walk, Case.isDescendantLoop, itemById_rest hrest]
      by_cases hca : c = a
      · simp [hca]
      · rw [if_neg hca, if_neg hca]
        by_cases hmem : c ∈ visited
        · simp [hmem]
        · rw [if_neg hmem, if_neg hmem]
          cases hfind : Case.itemById items c with
          | none =>
            rw [parentOf, hfind]
            rfl
          | some i =>
            have hparent : parentOf items c = i.parent := by rw [parentOf, hfind]; rfl
            have hrest' : rest.filter (·.id ≠ c) = items.filter (·.id ∉ c :: visited) := by
              rw [hrest, List.filter_filter]
              refine List.filter_congr fun j _ => ?_
              by_cases hj : j.id = c <;> simp [hj]
            have hi : i ∈ rest ∧ i.id = c := by
              have hid : i.id = c := by simpa using List.find?_some hfind
              have hi : i ∈ items := List.mem_reverse.mp (List.mem_of_find?_eq_some hfind)
              rw [hrest, List.mem_filter]
              exact ⟨⟨hi, by simpa [hid] using hmem⟩, hid⟩
            have hshort : (rest.filter (·.id ≠ c)).length < rest.length :=
              List.length_filter_lt_length_iff_exists.mpr ⟨i, hi.1, by simp [hi.2]⟩
            rw [hparent]
            exact ih hrest' (by omega) i.parent

/-- The loop ends in any list of items, with what the check answers. -/
theorem descendantWalk_eq (items : List CaseItem) (c a : Str) {n : ℕ}
    (hn : items.length + 2 ≤ n) :
    descendantWalk items a n c = some (Case.isDescendant items c a) := by
  have hwalk := @walk_eq_loop items a _ items [] (by simp) (Nat.lt_succ_self _) (some c)
  obtain ⟨m, rfl⟩ := Nat.exists_eq_add_of_le hn
  exact walk_mono hwalk m

theorem isDescendant_iff (items : List CaseItem) (c a : Str) :
    Case.isDescendant items c a = true ↔ Reaches (parentOf items) a c :=
  walk_iff (descendantWalk_eq items c a le_rfl)

end Ancestors

section Descendants

variable {items : List CaseItem}

/-- The item with the second id is in the folder with the first one, or deeper. -/
abbrev Below (items : List CaseItem) : Str → Str → Prop := Under CaseItem.id CaseItem.parent items

/-- In a forest the recursion ends. -/
theorem collectDescendantIds_ok (h : ItemForest items) {fuel : ℕ} {p : Str}
    (hfuel : (below CaseItem.id CaseItem.parent items p).length < fuel) :
    ∃ ids, Case.collectDescendantIds items fuel p = .ok ids := by
  induction fuel generalizing p with
  | zero => omega
  | succ fuel ih =>
    rw [Case.collectDescendantIds]
    have hall : ∀ x ∈ items.filter (·.parent = some p), ∃ l,
        (do
          let ids ← Case.collectDescendantIds items fuel x.id
          return x.id :: ids : Except HowlerError (List Str)) = .ok l := by
      intro x hx
      obtain ⟨hmem, hp⟩ := List.mem_filter.mp hx
      have hlt := h.below_child_lt hmem (by simpa using hp)
      obtain ⟨ids, hids⟩ := ih (p := x.id) (by omega)
      exact ⟨x.id :: ids, bind_eq_ok.mpr ⟨ids, hids, rfl⟩⟩
    obtain ⟨below, hbelow⟩ := exists_mapM_ok hall
    exact ⟨below.flatten, bind_eq_ok.mpr ⟨below, hbelow, rfl⟩⟩

/-- What is collected is below. -/
theorem under_of_collectDescendantIds {fuel : ℕ} {p : Str} {ids : List Str}
    (h : Case.collectDescendantIds items fuel p = .ok ids) {id : Str} (hid : id ∈ ids) :
    Below items p id := by
  induction fuel generalizing p ids with
  | zero => cases h
  | succ fuel ih =>
    rw [Case.collectDescendantIds] at h
    obtain ⟨lists, hlists, h⟩ := bind_eq_ok.mp h
    obtain rfl := Except.ok.inj h
    obtain ⟨l, hl, hidl⟩ := List.mem_flatten.mp hid
    obtain ⟨x, hx, hxl⟩ := (mem_of_mapM_ok hlists l).mp hl
    obtain ⟨sub, hsub, hlist⟩ := bind_eq_ok.mp hxl
    obtain rfl := Except.ok.inj hlist
    obtain ⟨hmem, hp⟩ := List.mem_filter.mp hx
    have hchild : Below items p x.id := .step hmem (by simpa using hp) .refl
    cases List.mem_cons.mp hidl with
    | inl heq => exact heq ▸ hchild
    | inr hidl => exact hchild.trans (ih hsub hidl)

/-- A set of ids that contains the children of what is in it contains all that is below. -/
theorem mem_of_under {S : Str → Prop} {a id : Str} (ha : S a)
    (hclosed : ∀ x ∈ items, ∀ q, x.parent = some q → S q → S x.id) (h : Below items a id) :
    S id := by
  induction h with
  | refl => exact ha
  | step hx hp _ ih => exact hclosed _ hx _ hp ih

/-- A request is refused where an item is missing, or where a folder that is not empty would have
to be forced. -/
def Refused (items : List CaseItem) (force : Bool) (itemIds : List Str) : Prop :=
  (∃ a ∈ itemIds, a ∉ items.map (·.id)) ∨
    force = false ∧ ∃ a ∈ itemIds, ∃ x ∈ items, x.parent = some a

theorem refused_cons {force : Bool} {iid : Str} {itemIds : List Str}
    (hknown : iid ∈ items.map (·.id)) :
    Refused items force (iid :: itemIds) ↔
      (force = false ∧ ∃ x ∈ items, x.parent = some iid) ∨ Refused items force itemIds := by
  have hnot : ¬iid ∉ items.map (·.id) := not_not.mpr hknown
  rw [Refused, Refused, List.exists_mem_cons_iff, List.exists_mem_cons_iff, and_or_left,
    or_iff_right hnot, or_left_comm]

/-- What a request is about: the named items and, where it is forced, all that is below them. -/
def Gone (items : List CaseItem) (force : Bool) (itemIds : List Str) (id : Str) : Prop :=
  if force then ∃ a ∈ itemIds, Below items a id else id ∈ itemIds

theorem childrenToRemove_unforced (h : ItemForest items) {iid : Str} :
    Case.childrenToRemove items false iid = .ok [] ∧ (∀ x ∈ items, x.parent ≠ some iid) ∨
    (∃ e, Case.childrenToRemove items false iid = .error e) ∧ ∃ x ∈ items, x.parent = some iid := by
  by_cases hchild : ∃ x ∈ items, x.parent = some iid
  · obtain ⟨x, hx, hp⟩ := hchild
    obtain ⟨f, hf, hfid, hfolder⟩ := h.parents x hx iid hp
    have hfind := (itemById_iff h.nodup).mpr ⟨hf, hfid⟩
    have hex : ∃ ci ∈ items, ci.parent = some iid := ⟨x, hx, hp⟩
    refine .inr ⟨?_, x, hx, hp⟩
    rw [Case.childrenToRemove, hfind]
    dsimp only
    rw [if_neg (by simpa using hfolder), if_neg Bool.false_ne_true, if_pos hex]
    exact ⟨_, rfl⟩
  · refine .inl ⟨?_, fun x hx hp => hchild ⟨x, hx, hp⟩⟩
    rw [Case.childrenToRemove]
    cases Case.itemById items iid with
    | none => rfl
    | some item =>
      dsimp only
      split
      · rfl
      · rfl

/-- What is below a named item, with the item. -/
theorem childrenToRemove_forced (h : ItemForest items) (iid : Str) :
    ∃ children, Case.childrenToRemove items true iid = .ok children ∧
      ∀ id, id ∈ children ∨ id = iid ↔ Below items iid id := by
  rw [Case.childrenToRemove]
  have hleaf : (∀ y ∈ items, y.id = iid → y.type ≠ .folder) →
      ∀ id, id ∈ ([] : List Str) ∨ id = iid ↔ Below items iid id := by
    intro hnot id
    have hu : Below items iid id ↔ id = iid := h.under_iff_of_not_inner hnot
    rw [hu]
    simp
  cases hfind : Case.itemById items iid with
  | none =>
    refine ⟨[], rfl, hleaf fun y hy hid _ => ?_⟩
    have hsome := (itemById_iff h.nodup).mpr ⟨hy, hid⟩
    rw [hfind] at hsome
    cases hsome
  | some item =>
    dsimp only
    split
    · next ht =>
      refine ⟨[], rfl, hleaf fun y hy hid => ?_⟩
      have hsome := (itemById_iff h.nodup).mpr ⟨hy, hid⟩
      rw [hfind] at hsome
      exact Option.some.inj hsome ▸ ht
    · rw [if_pos rfl]
      have hlen : (below CaseItem.id CaseItem.parent items iid).length < items.length + 1 := by
        classical
        exact Nat.lt_succ_of_le (List.length_filter_le _ _)
      obtain ⟨ids, hids⟩ := collectDescendantIds_ok h hlen
      refine ⟨ids, hids, fun id => ⟨fun hid => ?_, fun hu => ?_⟩⟩
      · cases hid with
        | inl hid => exact under_of_collectDescendantIds hids hid
        | inr hid => exact hid ▸ .refl
      · refine mem_of_under (S := fun id => id ∈ ids ∨ id = iid) (.inr rfl) ?_ hu
        intro x hx q hq hmem
        exact .inl (collectDescendantIds_closed hids x hx q hq hmem.symm)

/-- The ids that a request removes are those it is about, and it fails just where it is refused. -/
theorem idsToRemove_cases (h : ItemForest items) (force : Bool) {itemIds : List Str}
    (hknown : ∀ a ∈ itemIds, a ∈ items.map (·.id)) :
    (¬Refused items force itemIds ∧ ∃ ids, Case.idsToRemove items force itemIds = .ok ids ∧
      ∀ id, id ∈ ids ↔ Gone items force itemIds id) ∨
    (Refused items force itemIds ∧ ∃ e, Case.idsToRemove items force itemIds = .error e) := by
  induction itemIds with
  | nil =>
    refine .inl ⟨?_, [], rfl, ?_⟩
    · simp [Refused]
    · simp [Gone]
  | cons iid itemIds ih =>
    have hknown' : ∀ a ∈ itemIds, a ∈ items.map (·.id) := fun a ha =>
      hknown a (List.mem_cons_of_mem _ ha)
    have hrefused : Refused items force (iid :: itemIds) ↔
        (force = false ∧ ∃ x ∈ items, x.parent = some iid) ∨ Refused items force itemIds :=
      refused_cons (hknown iid List.mem_cons_self)
    have hrest := ih hknown'
    rw [hrefused, Case.idsToRemove]
    cases force with
    | false =>
      cases @childrenToRemove_unforced _ h iid with
      | inl hch =>
        rw [hch.1]
        have hnone : ¬∃ x ∈ items, x.parent = some iid := by
          rintro ⟨x, hx, hp⟩
          exact hch.2 x hx hp
        cases hrest with
        | inl hok =>
          obtain ⟨hnot, ids, hids, hmem⟩ := hok
          refine .inl ⟨by simp [hnone, hnot], iid :: ids, by rw [hids]; rfl, fun id => ?_⟩
          have hid : id ∈ ids ↔ id ∈ itemIds := hmem id
          simp [Gone, hid]
        | inr herr =>
          obtain ⟨href, e, he⟩ := herr
          exact .inr ⟨.inr href, e, by rw [he]; rfl⟩
      | inr hch =>
        obtain ⟨⟨e, he⟩, hex⟩ := hch
        exact .inr ⟨.inl ⟨rfl, hex⟩, e, by rw [he]; rfl⟩
    | true =>
      obtain ⟨children, hch, hbelow⟩ := childrenToRemove_forced h iid
      rw [hch]
      cases hrest with
      | inl hok =>
        obtain ⟨hnot, ids, hids, hmem⟩ := hok
        refine .inl ⟨by simp [hnot], children ++ iid :: ids, by rw [hids]; rfl, fun id => ?_⟩
        have hid : id ∈ ids ↔ ∃ a ∈ itemIds, Below items a id := hmem id
        have happend : id ∈ children ++ iid :: ids ↔ (id ∈ children ∨ id = iid) ∨ id ∈ ids := by
          simp [or_assoc]
        have hgone : Gone items true (iid :: itemIds) id ↔
            Below items iid id ∨ ∃ a ∈ itemIds, Below items a id := by
          simp [Gone]
        rw [happend, hgone, hbelow id, hid]
      | inr herr =>
        obtain ⟨href, e, he⟩ := herr
        exact .inr ⟨.inr href, e, by rw [he]; rfl⟩

end Descendants

end Howler.Cases
