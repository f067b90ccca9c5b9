import Howler.Cases.Service
import Howler.Structures.Forest
import Howler.Python.Raising

namespace Howler.Cases

open Python Structures

/-- The items as nodes: their ids, their parents, and folders as inner nodes. -/
abbrev ItemForest (items : List CaseItem) : Prop :=
  Forest CaseItem.id CaseItem.parent (·.type = .folder) items

/-- No two items with one parent have one name. -/
def UniqueNames (items : List CaseItem) : Prop :=
  items.Pairwise fun i j => i.parent = j.parent → i.name ≠ j.name

/-- The invariant of the items of a case. Whether names are unique is a part that may be left
out. -/
structure Tidy (names : Prop) (items : List CaseItem) : Prop where
  forest : ItemForest items
  caseRoot : ∀ i ∈ items, i.type = .case → i.parent = none
  unique : names → UniqueNames items
  nonempty : names → ∀ i ∈ items, i.id ≠ []

/-- What is asked of an item before it is added. -/
structure Addable (names : Prop) (items : List CaseItem) (i : CaseItem) : Prop where
  new : i.id ∉ items.map (·.id)
  parent : ∀ p, i.parent = some p → ∃ f ∈ items, f.id = p ∧ f.type = .folder
  caseRoot : i.type = .case → i.parent = none
  unique : names → ∀ j ∈ items, j.parent = i.parent → j.name ≠ i.name
  nonempty : names → i.id ≠ []

section Tidy

variable {names : Prop} {items : List CaseItem} {i : CaseItem} {a : Str}

theorem tidy_nil : Tidy names [] :=
  ⟨forest_nil, by simp, fun _ => List.Pairwise.nil, by simp⟩

theorem Tidy.append (h : Tidy names items) (hi : Addable names items i) :
    Tidy names (items ++ [i]) := by
  refine ⟨h.forest.append hi.new hi.parent, ?_, fun hn => ?_, fun hn => ?_⟩
  · intro j hj ht
    cases List.mem_append.mp hj with
    | inl hj => exact h.caseRoot j hj ht
    | inr hj =>
      obtain rfl := List.mem_singleton.mp hj
      exact hi.caseRoot ht
  · refine List.pairwise_append.mpr ⟨h.unique hn, List.pairwise_singleton _ _, ?_⟩
    intro j hj k hk hpar
    obtain rfl := List.mem_singleton.mp hk
    exact hi.unique hn j hj hpar
  · intro j hj
    cases List.mem_append.mp hj with
    | inl hj => exact h.nonempty hn j hj
    | inr hj =>
      obtain rfl := List.mem_singleton.mp hj
      exact hi.nonempty hn

theorem Tidy.filter (h : Tidy names items) (keep : CaseItem → Bool)
    (hk : ∀ x ∈ items, keep x → ∀ y ∈ items, x.parent = some y.id → keep y) :
    Tidy names (items.filter keep) :=
  ⟨h.forest.filter keep hk, fun j hj => h.caseRoot j (List.mem_filter.mp hj).1,
    fun hn => (h.unique hn).sublist List.filter_sublist,
    fun hn j hj => h.nonempty hn j (List.mem_filter.mp hj).1⟩

/-- Where ids are distinct, the item that is assigned to is the item with the id. -/
theorem updateItem_eq_map (hnd : (items.map (·.id)).Nodup) (f : CaseItem → CaseItem) :
    Case.updateItem a f items = items.map fun i => if i.id = a then f i else i := by
  induction items with
  | nil => rfl
  | cons j items ih =>
    rw [List.map_cons, List.nodup_cons] at hnd
    rw [Case.updateItem, List.map_cons]
    by_cases hj : j.id = a
    · have hrest : items.map (fun i => if i.id = a then f i else i) = items := by
        conv_rhs => rw [← List.map_id items]
        refine List.map_congr_left fun k hk => if_neg fun heq => hnd.1 ?_
        exact hj ▸ heq ▸ List.mem_map_of_mem hk
      rw [if_pos hj, if_pos hj, hrest]
    · rw [if_neg hj, if_neg hj, ih hnd.2]

/-- An assignment to another field leaves the ids as they are. -/
theorem map_id_updateItem (a : Str) {f : CaseItem → CaseItem} (hf : ∀ i, (f i).id = i.id)
    (items : List CaseItem) : (Case.updateItem a f items).map (·.id) = items.map (·.id) := by
  induction items with
  | nil => rfl
  | cons j items ih =>
    rw [Case.updateItem]
    split
    · simp [hf]
    · simp [ih]

theorem find_id (hnd : (items.map (·.id)).Nodup) {p : CaseItem → Bool} (hi : i ∈ items)
    (hp : p i = true) (huniq : ∀ j ∈ items, p j = true → j.id = i.id) :
    items.find? p = some i := by
  cases hf : items.find? p with
  | none => exact absurd hp (by simpa using List.find?_eq_none.mp hf i hi)
  | some j =>
    have hj := List.mem_of_find?_eq_some hf
    have hid := huniq j hj (List.find?_some hf)
    rw [key_inj hnd hj hi hid]

theorem itemById_iff (hnd : (items.map (·.id)).Nodup) :
    Case.itemById items a = some i ↔ i ∈ items ∧ i.id = a := by
  rw [Case.itemById]
  constructor
  · intro h
    exact ⟨List.mem_reverse.mp (List.mem_of_find?_eq_some h), by simpa using List.find?_some h⟩
  · intro ⟨hi, hid⟩
    have hnd' : (items.reverse.map (·.id)).Nodup := by
      rw [List.map_reverse]
      exact List.nodup_reverse.mpr hnd
    refine find_id hnd' (List.mem_reverse.mpr hi) (by simpa using hid) fun j _ hj => ?_
    rw [hid]
    simpa using hj

theorem ensureParentExists_ok {case : Case} {parentId : Str}
    (h : Case.ensureParentExists case parentId = .ok ()) :
    ∃ f ∈ case.items, f.id = parentId ∧ f.type = .folder := by
  unfold Case.ensureParentExists at h
  cases hf : case.items.find? (·.id = parentId) with
  | none => simp [hf] at h
  | some f =>
    rw [hf] at h
    dsimp only at h
    split at h
    · next ht =>
      exact ⟨f, List.mem_of_find?_eq_some hf, by simpa using List.find?_some hf, ht⟩
    · contradiction

/-- A check for a descendant that finds none has looked at the whole way to the root. -/
theorem not_under_of_loop {rank : Str → Nat} (hnd : (items.map (·.id)).Nodup)
    (hrank : ∀ x ∈ items, ∀ p, x.parent = some p → rank p < rank x.id) (fuel : Nat)
    {rest : List CaseItem} {c : Str} (hlen : rest.length < fuel) (hsub : rest ⊆ items)
    (hrest : ∀ x ∈ items, rank x.id ≤ rank c → x ∈ rest)
    (h : Case.isDescendantLoop a fuel rest (some c) = false) :
    ¬ Under CaseItem.id CaseItem.parent items a c := by
  induction fuel generalizing rest c with
  | zero => omega
  | succ fuel ih =>
    rw [Case.isDescendantLoop] at h
    by_cases hca : c = a
    · simp [hca] at h
    · rw [if_neg hca] at h
      intro hu
      cases hu with
      | refl => exact hca rfl
      | @step x p hx hp hu =>
        have hxr : x ∈ rest := hrest x hx le_rfl
        have hlt := hrank x hx p hp
        cases hf : Case.itemById rest x.id with
        | none =>
          have hne := List.find?_eq_none.mp hf x (List.mem_reverse.mpr hxr)
          simp at hne
        | some y =>
          have hy : y ∈ rest := List.mem_reverse.mp (List.mem_of_find?_eq_some hf)
          have hid : y.id = x.id := by simpa using List.find?_some hf
          obtain rfl : y = x := key_inj hnd (hsub hy) hx hid
          rw [hf] at h
          dsimp only at h
          rw [hp] at h
          have hshort : (rest.filter (·.id ≠ y.id)).length < rest.length :=
            List.length_filter_lt_length_iff_exists.mpr ⟨y, hy, by simp⟩
          refine ih (by omega) (fun z hz => hsub (List.mem_filter.mp hz).1) ?_ h hu
          intro z hz hle
          refine List.mem_filter.mpr ⟨hrest z hz (by omega), ?_⟩
          have hne : z.id ≠ y.id := fun heq => by
            rw [heq] at hle
            omega
          simpa using hne

theorem not_under_of_isDescendant (h : ItemForest items) {c : Str}
    (hd : Case.isDescendant items c a = false) :
    ¬ Under CaseItem.id CaseItem.parent items a c := by
  obtain ⟨rank, hrank⟩ := h.ranked
  exact not_under_of_loop h.nodup hrank _ (by omega) (fun _ hx => hx) (fun _ hx _ => hx) hd

/-- The names stay unique where the one item that changes fits in. -/
theorem unique_update (hnd : (items.map (·.id)).Nodup) (hu : UniqueNames items)
    {f : CaseItem → CaseItem} (hi : i ∈ items) (hia : i.id = a)
    (hf : ∀ j ∈ items, j.id ≠ a → j.parent = (f i).parent → j.name ≠ (f i).name) :
    UniqueNames (items.map fun j => if j.id = a then f j else j) := by
  have hids : items.Pairwise fun x y => x.id ≠ y.id := List.pairwise_map.mp hnd
  refine List.pairwise_map.mpr ((hids.and hu).imp_of_mem fun {x y} hx hy hxy hpar => ?_)
  by_cases hxa : x.id = a
  · have hya : y.id ≠ a := fun heq => hxy.1 (hxa.trans heq.symm)
    obtain rfl : x = i := key_inj hnd hx hi (hxa.trans hia.symm)
    rw [if_pos hxa, if_neg hya] at hpar ⊢
    exact (hf y hy hya hpar.symm).symm
  · rw [if_neg hxa] at hpar ⊢
    by_cases hya : y.id = a
    · obtain rfl : y = i := key_inj hnd hy hi (hya.trans hia.symm)
      rw [if_pos hya] at hpar ⊢
      exact hf x hx hxa hpar
    · rw [if_neg hya] at hpar ⊢
      exact hxy.2 hpar

/-- The checks of `move_case_item`. -/
structure Movable (items : List CaseItem) (i : CaseItem) (newParent : Option Str) : Prop where
  caseRoot : i.type = .case → newParent = none
  parent : ∀ p, newParent = some p → ∃ f ∈ items, f.id = p ∧ f.type = .folder
  noCycle : ∀ p, newParent = some p → i.type = .folder → Case.isDescendant items p i.id = false
  noConflict : ∀ j ∈ items, j.id ≠ i.id → j.parent = newParent → j.name ≠ i.name

theorem optionalText_eq_some {o : Option Str} {p : Str} (h : optionalText o = some p) :
    o = some p := by
  unfold optionalText at h
  split at h
  · contradiction
  · exact h

theorem Tidy.move (h : Tidy names items) (hi : i ∈ items) {newParent : Option Str}
    (hm : Movable items i newParent) : Tidy names (Case.updateItem i.id
      (fun i => { i with parent := optionalText newParent }) items) := by
  have hnd := h.forest.nodup
  rw [updateItem_eq_map hnd]
  refine ⟨?_, ?_, fun hn => ?_, ?_⟩
  · have hnew : ∀ p, optionalText newParent = some p →
        (∃ f ∈ items, f.id = p ∧ f.type = .folder) ∧
          ¬ Under CaseItem.id CaseItem.parent items i.id p := by
      intro p hp
      have hp' := optionalText_eq_some hp
      refine ⟨hm.parent p hp', ?_⟩
      by_cases ht : i.type = .folder
      · exact not_under_of_isDescendant h.forest (hm.noCycle p hp' ht)
      · rw [h.forest.under_iff_of_not_inner fun y hy hid => key_inj hnd hy hi hid ▸ ht]
        intro hpi
        obtain ⟨f, hf, hfp, hft⟩ := hm.parent p hp'
        exact ht (key_inj hnd hf hi (hfp.trans hpi) ▸ hft)
    refine h.forest.reparent ?_ ?_ ?_ ?_ hnew
    · intro x
      split <;> rfl
    · intro x hx
      split <;> exact hx
    · intro x hx
      rw [if_neg hx]
    · intro x hx
      rw [if_pos hx]
  · intro x hx ht
    obtain ⟨y, hy, rfl⟩ := List.mem_map.mp hx
    by_cases hya : y.id = i.id
    · obtain rfl := key_inj hnd hy hi hya
      rw [if_pos rfl] at ht ⊢
      simp [hm.caseRoot ht, optionalText]
    · rw [if_neg hya] at ht ⊢
      exact h.caseRoot y hy ht
  · have hpar : optionalText newParent = newParent := by
      cases newParent with
      | none => rfl
      | some p =>
        obtain ⟨f, hf, hfp, -⟩ := hm.parent p rfl
        have hne := h.nonempty hn f hf
        rw [hfp] at hne
        cases p with
        | nil => contradiction
        | cons c p => rfl
    refine unique_update hnd (h.unique hn) hi rfl fun j hj hji hjp => ?_
    exact hm.noConflict j hj hji (hpar ▸ hjp)
  · intro hn x hx
    obtain ⟨y, hy, rfl⟩ := List.mem_map.mp hx
    have hne := h.nonempty hn y hy
    split <;> exact hne

theorem Tidy.rename (h : Tidy names items) (hi : i ∈ items) {name : Str} {value : CaseItem → Str}
    (hc : ∀ j ∈ items, j.id ≠ i.id → j.parent = i.parent → j.name ≠ some name) :
    Tidy names (Case.updateItem i.id
      (fun i => { i with name := some name, value := value i }) items) := by
  have hnd := h.forest.nodup
  rw [updateItem_eq_map hnd]
  refine ⟨?_, ?_, fun hn => ?_, ?_⟩
  · refine h.forest.map ?_ ?_ ?_
    · intro x
      split <;> rfl
    · intro x
      split <;> rfl
    · intro x hx
      split <;> exact hx
  · intro x hx ht
    obtain ⟨y, hy, rfl⟩ := List.mem_map.mp hx
    split at ht <;> rename_i hya
    · rw [if_pos hya]
      exact h.caseRoot y hy ht
    · rw [if_neg hya]
      exact h.caseRoot y hy ht
  · exact unique_update hnd (h.unique hn) hi rfl fun j hj hji hjp => hc j hj hji hjp
  · intro hn x hx
    obtain ⟨y, hy, rfl⟩ := List.mem_map.mp hx
    have hne := h.nonempty hn y hy
    split <;> exact hne

/-- The ids of a subtree contain those of the children of everything in it. -/
theorem collectDescendantIds_closed {fuel : Nat} {p : Str} {ids : List Str}
    (h : Case.collectDescendantIds items fuel p = .ok ids) :
    ∀ x ∈ items, ∀ q, x.parent = some q → q = p ∨ q ∈ ids → x.id ∈ ids := by
  induction fuel generalizing p ids with
  | zero => simp [Case.collectDescendantIds] at h
  | succ fuel ih =>
    rw [Case.collectDescendantIds] at h
    obtain ⟨below, hbelow, h⟩ := bind_eq_ok.mp h
    obtain rfl := Except.ok.inj h
    intro x hx q hq hmem
    cases hmem with
    | inl hqp =>
      have hxf : x ∈ items.filter (·.parent = some p) :=
        List.mem_filter.mpr ⟨hx, by simpa [hqp] using hq⟩
      obtain ⟨l, hl, hxl⟩ := ok_of_mapM_ok hbelow hxf
      obtain ⟨sub, -, hsub⟩ := bind_eq_ok.mp hxl
      obtain rfl := Except.ok.inj hsub
      exact List.mem_flatten.mpr ⟨_, hl, List.mem_cons_self⟩
    | inr hqm =>
      obtain ⟨l, hl, hql⟩ := List.mem_flatten.mp hqm
      obtain ⟨y, hy, hyl⟩ := (mem_of_mapM_ok hbelow l).mp hl
      obtain ⟨sub, hsub, hlist⟩ := bind_eq_ok.mp hyl
      obtain rfl := Except.ok.inj hlist
      refine List.mem_flatten.mpr ⟨_, hl, List.mem_cons_of_mem _ ?_⟩
      refine ih hsub x hx q hq ?_
      simpa using hql

/-- What goes with the items of a request leaves no child behind. -/
theorem idsToRemove_closed (h : ItemForest items) {force : Bool} {itemIds ids : List Str}
    (hids : Case.idsToRemove items force itemIds = .ok ids) :
    ∀ x ∈ items, ∀ q, x.parent = some q → q ∈ ids → x.id ∈ ids := by
  induction itemIds generalizing ids with
  | nil =>
    obtain rfl := Except.ok.inj hids
    intro x _ q _ hq
    simp at hq
  | cons iid itemIds ih =>
    rw [Case.idsToRemove] at hids
    obtain ⟨children, hch, hids⟩ := bind_eq_ok.mp hids
    obtain ⟨others, hoth, hids⟩ := bind_eq_ok.mp hids
    obtain rfl := Except.ok.inj hids
    -- the children of the item itself
    have hchildren : ∀ x ∈ items, ∀ q, x.parent = some q → q = iid ∨ q ∈ children →
        x.id ∈ children := by
      intro x hx q hq hmem
      obtain ⟨f, hf, hfq, hft⟩ := h.parents x hx q hq
      rw [Case.childrenToRemove] at hch
      cases hb : Case.itemById items iid with
      | none =>
        rw [hb] at hch
        obtain rfl := Except.ok.inj hch
        have hqi : q = iid := by simpa using hmem
        have hfound := (itemById_iff h.nodup).mpr ⟨hf, hfq.trans hqi⟩
        rw [hb] at hfound
        contradiction
      | some item =>
        rw [hb] at hch
        dsimp only at hch
        split at hch
        · next ht =>
          obtain rfl := Except.ok.inj hch
          have hqi : q = iid := by simpa using hmem
          have hfound := (itemById_iff h.nodup).mpr ⟨hf, hfq.trans hqi⟩
          rw [hb] at hfound
          obtain rfl := Option.some.inj hfound
          exact absurd hft ht
        · split at hch
          · exact collectDescendantIds_closed hch x hx q hq hmem
          · split at hch
            · contradiction
            · next hno =>
              obtain rfl := Except.ok.inj hch
              have hqi : q = iid := by simpa using hmem
              exact absurd ⟨x, hx, hqi ▸ hq⟩ hno
    intro x hx q hq hmem
    rw [List.mem_append, List.mem_cons] at hmem ⊢
    cases hmem with
    | inl hmem => exact .inl (hchildren x hx q hq (.inr hmem))
    | inr hmem =>
      cases hmem with
      | inl hmem => exact .inl (hchildren x hx q hq (.inl hmem))
      | inr hmem => exact .inr (.inr (ih hoth x hx q hq hmem))

theorem Tidy.remove (h : Tidy names items) {force : Bool} {itemIds ids : List Str}
    (hids : Case.idsToRemove items force itemIds = .ok ids) :
    Tidy names (items.filter (·.id ∉ ids)) := by
  refine h.filter _ fun x hx hkeep y hy hp => ?_
  have hx' : x.id ∉ ids := by simpa using hkeep
  have hy' : y.id ∉ ids := fun hm => hx' (idsToRemove_closed h.forest hids x hx y.id hp hm)
  simpa using hy'

end Tidy

end Howler.Cases
