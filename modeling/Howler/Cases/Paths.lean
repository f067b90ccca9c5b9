import Howler.Cases.Operations

namespace Howler.Cases

open Python Structures Systems Systems.Prog

/-- The folders of a path that are missing can be created: no other item has the name of the first
of them. The others are created in a new folder. -/
def PathFree (items : List CaseItem) : List Str → Option Str → Prop
  | [], _ => True
  | part :: parts, parent =>
    match findFolder items part parent with
    | some folder => PathFree items parts (some folder.id)
    | none => ∀ j ∈ items, j.parent = parent → j.name ≠ some part

/-- A parent is none, or a folder. -/
def FolderId (items : List CaseItem) (parent : Option Str) : Prop :=
  ∀ p, parent = some p → ∃ f ∈ items, f.id = p ∧ f.type = .folder

section Paths

variable {s : Scope} {items : List CaseItem} {es : Elastic}

theorem findFolder_some {name : Str} {parent : Option Str} {folder : CaseItem}
    (h : findFolder items name parent = some folder) :
    folder ∈ items ∧ folder.type = .folder ∧ folder.name = some name ∧ folder.parent = parent := by
  have hp := List.find?_some h
  exact ⟨List.mem_of_find?_eq_some h, by simpa using hp⟩

theorem findFolder_none {name : Str} {parent : Option Str}
    (h : ∀ j ∈ items, j.parent = parent → j.name ≠ some name) :
    findFolder items name parent = none := by
  refine List.find?_eq_none.mpr fun j hj => ?_
  simp only [decide_eq_true_eq]
  intro ⟨_, hn, hp⟩
  exact h j hj hp hn

/-- Nothing is in the way in an empty folder. -/
theorem pathFree_of_empty {parent : Option Str} (h : ∀ j ∈ items, j.parent ≠ parent)
    (parts : List Str) : PathFree items parts parent := by
  cases parts with
  | nil => trivial
  | cons part parts =>
    have hfree : ∀ j ∈ items, j.parent = parent → j.name ≠ some part :=
      fun j hj hp => absurd hp (h j hj)
    rw [PathFree, findFolder_none hfree]
    exact hfree

/-- Where no id is empty, a parent is kept as it is. -/
theorem optionalText_of_folderId {parent : Option Str} (hne : ∀ i ∈ items, i.id ≠ [])
    (h : FolderId items parent) : optionalText parent = parent := by
  cases parent with
  | none => rfl
  | some p =>
    obtain ⟨f, hf, rfl, -⟩ := h p rfl
    have hid := hne f hf
    generalize f.id = id at hid ⊢
    cases id with
    | nil => contradiction
    | cons a l => rfl

theorem triple_walkPath (create : Bool) (parts : List Str) (c : Case) (parent : Option Str) :
    Triple (handle es)
      (fun w => Ready s c w ∧ (s.watched c.caseId → FolderId c.items parent) ∧
        (s.names → s.watched c.caseId → create = true → PathFree c.items parts parent))
      (walkPath create parts c parent)
      (fun r w => match r with
        | none => create = false ∧ Ready s c w
        | some (c', p) => Ready s c' w ∧ c'.caseId = c.caseId ∧
          (s.watched c'.caseId → FolderId c'.items p))
      (Inv s) := by
  induction parts generalizing c parent with
  | nil => exact triple_pure fun w h => ⟨h.1, rfl, h.2.1⟩
  | cons part parts ih =>
    intro w ⟨hr, hpar, hfree⟩
    rw [walkPath]
    cases hf : findFolder c.items part parent with
    | some folder =>
      obtain ⟨hmem, ht, -, -⟩ := findFolder_some hf
      refine ih c (some folder.id) w ⟨hr, fun _ p hp => ?_, fun hn hk hc => ?_⟩
      · exact ⟨folder, hmem, Option.some.inj hp, ht⟩
      · have hfree := hfree hn hk hc
        rwa [PathFree, hf] at hfree
    | none =>
      cases create with
      | false => exact ends_pure ⟨rfl, hr⟩
      | true =>
        refine (ends_newItem _ hr.inv fun _ hd => hr.inv.drawn hd).bind fun i w' ha => ?_
        have hb := ha.built
        have hname : i.name = some part := by
          have hvalue : some i.value = some part := hb.value
          rw [hb.name, ← hvalue]
          have hne := hb.nonempty
          generalize i.value = value at hne ⊢
          cases value with
          | nil => contradiction
          | cons a l => rfl
        have hnew : s.watched c.caseId → NewId s c i.id w' :=
          fun hk => ha.newId c hr hk fun id hid => nomatch hid
        have hfits : Fits s c i w' := by
          refine ⟨hr.drawn ha.drawn, fun hk => ⟨(hnew hk).new, fun p hp => ?_, hb.caseRoot,
            fun hn j hj hjp => ?_, (hnew hk).nonempty⟩, hnew⟩
          · exact hpar hk p (optionalText_eq_some (hb.parent ▸ hp))
          · have hfree := hfree hn hk rfl
            rw [PathFree, hf] at hfree
            rw [hname]
            refine hfree j hj (hjp.trans ?_)
            rw [hb.parent]
            exact optionalText_of_folderId ((hr.held hk).tidy.nonempty hn) (hpar hk)
        have hends := ih { c with items := c.items ++ [i] } (some i.id) w'
          ⟨hfits.add, fun _ p hp => ⟨i, by simp, Option.some.inj hp, hb.type⟩, fun hn hk _ => ?_⟩
        · refine hends.mono (fun r v hv => ?_) fun _ h => h
          cases r with
          | none => exact absurd hv.1 (by decide)
          | some r => exact hv
        · -- the new folder is empty
          refine pathFree_of_empty (fun j hj hjp => ?_) parts
          have hforest := (hr.held hk).tidy.forest
          cases List.mem_append.mp hj with
          | inl hj =>
            obtain ⟨y, hy, hyi, -⟩ := hforest.parents j hj i.id hjp
            exact (hnew hk).new (hyi ▸ List.mem_map_of_mem hy)
          | inr hj =>
            obtain rfl := List.mem_singleton.mp hj
            obtain ⟨y, hy, hyi, -⟩ := hpar hk j.id (optionalText_eq_some (hb.parent ▸ hjp))
            exact (hnew hk).new (hyi ▸ List.mem_map_of_mem hy)

theorem draws_walkPath (create : Bool) (parts : List Str) (c : Case) (parent : Option Str) :
    Draws es (walkPath create parts c parent) := by
  induction parts generalizing c parent with
  | nil => exact draws_pure _
  | cons part parts ih =>
    rw [walkPath]
    cases findFolder c.items part parent with
    | some folder => exact ih c _
    | none =>
      cases create with
      | false => exact draws_pure _
      | true => exact (draws_newItem es _).bind fun i => ih _ _

/-- Without `persist` nothing is saved. -/
theorem draws_getParentFromPath (c : Case) (path : Option Str) (create : Bool) :
    Draws es (getParentFromPath c path create false) := by
  rw [getParentFromPath]
  split
  · exact draws_pure _
  · refine (draws_walkPath create _ c none).bind fun r => ?_
    cases r with
    | none => exact draws_pure _
    | some r => exact (draws_pure _).bind fun _ => draws_pure _

theorem triple_persistPath {c : Case} (persist : Bool) : Triple (handle es) (Ready s c)
    (persistPath persist c) (fun _ => Ready s c) (Inv s) := by
  rw [persistPath]
  cases persist with
  | false => exact triple_pure fun _ h => h
  | true => exact triple_saveCase.conseq (fun _ h => h) (fun _ _ h => h) fun _ h => h.inv

theorem triple_getParentFromPath (c : Case) (path : Option Str) (create persist : Bool) :
    Triple (handle es)
      (fun w => Ready s c w ∧ (s.names → s.watched c.caseId → create = true →
        PathFree c.items (pathParts (path.getD [])) none))
      (getParentFromPath c path create persist)
      (fun r w => Ready s r.1 w ∧ r.1.caseId = c.caseId ∧
        (s.watched r.1.caseId → ∀ f, r.2 = some f → f ∈ r.1.items ∧ f.type = .folder))
      (Inv s) := by
  intro w ⟨hr, hfree⟩
  rw [getParentFromPath]
  split
  · exact ends_pure ⟨hr, rfl, fun _ f hf => nomatch hf⟩
  · refine (triple_walkPath create _ c none w ⟨hr, fun _ p hp => (nomatch hp), hfree⟩).bind
      fun r w' hw' => ?_
    cases r with
    | none => exact ends_pure ⟨hw'.2, rfl, fun _ f hf => nomatch hf⟩
    | some r =>
      obtain ⟨c', p⟩ := r
      obtain ⟨hr', hid, hp⟩ := hw'
      refine (triple_persistPath persist w' hr').bind fun _ w'' hr'' => ?_
      refine ends_pure ⟨hr'', hid, fun hk f hf => ?_⟩
      have hmem := List.mem_of_find?_eq_some hf
      have hfp : some f.id = p := by simpa using List.find?_some hf
      obtain ⟨y, hy, hyf, ht⟩ := hp hk f.id hfp.symm
      obtain rfl := key_inj (hr''.held hk).tidy.forest.nodup hy hmem hyf
      exact ⟨hmem, ht⟩

theorem triple_getParentFromPathOf (caseId : Str) (path : Option Str) (create : Bool) :
    Triple (handle es)
      (fun w => Inv s w ∧ (s.names → create = true → ∀ c, w.cases caseId = some c →
        PathFree c.items (pathParts (path.getD [])) none))
      (getParentFromPathOf caseId path create) (fun _ => Inv s) (Inv s) := by
  intro w ⟨hw, hfree⟩
  refine ends_bind_fetchCase (fun c hc => ?_) hw
  refine (triple_getParentFromPath c path create true w
    ⟨hw.ready hc, fun hn _ hcr => hfree hn hcr c hc⟩).bind fun r w' hw' => ?_
  exact ends_pure hw'.1.inv

end Paths

section Edits

variable {s : Scope} {es : Elastic}

theorem checkNewParent_ok {c : Case} {i : CaseItem} {itemId : Str} {newParent : Option Str}
    (h : Case.checkNewParent c i itemId newParent = .ok ()) :
    FolderId c.items newParent ∧ ∀ p, newParent = some p → i.type = .folder →
      Case.isDescendant c.items p itemId = false := by
  cases newParent with
  | none => exact ⟨fun p hp => (nomatch hp), fun p hp => (nomatch hp)⟩
  | some p =>
    rw [Case.checkNewParent] at h
    obtain ⟨_, hensure, h⟩ := bind_eq_ok.mp h
    refine ⟨fun q hq => ?_, fun q hq ht => ?_⟩
    · exact Option.some.inj hq ▸ ensureParentExists_ok hensure
    · obtain rfl := Option.some.inj hq
      split at h
      · contradiction
      · next hno => simpa [ht] using hno

theorem triple_moveCaseItem (caseId itemId : Str) (newParent : Option Str) :
    Triple (handle es) (Inv s) (moveCaseItem caseId itemId newParent) (fun _ => Inv s)
      (Inv s) := by
  intro w hw
  refine ends_bind_fetchCase (fun c hc => ?_) hw
  have hr := hw.ready hc
  cases hf : c.items.find? (·.id = itemId) with
  | none => exact ends_throw hw
  | some i =>
    have hi := List.mem_of_find?_eq_some hf
    obtain rfl : i.id = itemId := by simpa using List.find?_some hf
    dsimp only
    split
    · exact ends_throw hw
    · next hroot =>
      refine ends_bind_fromExcept (fun _ hcheck => ?_) hw
      obtain ⟨hpar, hcycle⟩ := checkNewParent_ok hcheck
      split
      · exact ends_throw hw
      · next hno =>
        refine triple_save_return w ⟨hw, fun hk => ?_⟩
        have hh := hr.held hk
        have hm : Movable c.items i newParent := by
          refine ⟨fun ht => ?_, hpar, hcycle, fun j hj hji hjp hjn => hno ⟨j, hj, hjn, hjp, hji⟩⟩
          by_contra hne
          exact hroot ⟨ht, hne⟩
        refine hh.edit (hh.tidy.move hi hm) ?_
        rw [map_id_updateItem _ (by simp)]
        exact fun _ hid => hid

theorem triple_renameCaseItem (caseId itemId newName : Str) :
    Triple (handle es) (Inv s) (renameCaseItem caseId itemId newName) (fun _ => Inv s)
      (Inv s) := by
  intro w hw
  rw [renameCaseItem]
  split
  · exact ends_throw hw
  · refine ends_bind_fetchCase (fun c hc => ?_) hw
    have hr := hw.ready hc
    cases hf : c.items.find? (·.id = itemId) with
    | none => exact ends_throw hw
    | some i =>
      have hi := List.mem_of_find?_eq_some hf
      obtain rfl : i.id = itemId := by simpa using List.find?_some hf
      dsimp only
      split
      · exact ends_throw hw
      · next hno =>
        refine triple_save_return w ⟨hw, fun hk => ?_⟩
        have hh := hr.held hk
        refine hh.edit (hh.tidy.rename hi fun j hj hji hjp hjn =>
          hno ⟨j, hj, hjn, hji, hjp⟩) ?_
        rw [map_id_updateItem _ (by simp)]
        exact fun _ hid => hid

theorem triple_removeCaseItems (caseId : Str) (itemIds : List Str) (force : Bool) :
    Triple (handle es) (Inv s) (removeCaseItems caseId itemIds force) (fun _ => Inv s)
      (Inv s) := by
  intro w hw
  refine ends_bind_fetchCase (fun c hc => ?_) hw
  have hr := hw.ready hc
  dsimp only
  split
  · exact ends_throw hw
  · refine ends_bind_fromExcept (fun ids hids => ?_) hw
    refine (((quiet_backingRecords _).triple stable_ready) w hr).mono (fun _ _ h => h)
      (fun _ h => h.inv) |>.bind fun backing w₁ hr₁ => ?_
    refine (((quiet_removeBackreferences _ _).triple stable_ready) w₁ hr₁).mono (fun _ _ h => h)
      (fun _ h => h.inv) |>.bind fun _ w₂ hr₂ => ?_
    have hr₂' : Ready s { c with items := c.items.filter (·.id ∉ ids) } w₂ :=
      ⟨hr₂.inv, fun hk => (hr₂.held hk).edit ((hr₂.held hk).tidy.remove hids)
        ((List.filter_sublist.map _).subset)⟩
    exact (triple_recompute w₂ hr₂').bind fun c' w₃ hr₃ => triple_save_return w₃ hr₃

end Edits

end Howler.Cases
