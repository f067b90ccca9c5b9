import Howler.Correlation.Invariant
import Howler.Cases.Appending

namespace Howler.Correlation

open Python Cases Systems Systems.Prog

section Spec

variable {es : Elastic} (render : Str → Match → Str)

theorem run_getParentFromPath (w : World) (c : Case) (path : Option Str) :
    (getParentFromPath c path true false).run (handle es) w =
      let r := createPath w.uids w.nextUid (pathParts (path.getD [])) c.items none
      (.ok ({ c with items := r.items }, r.items.find? fun item => some item.id = r.parent),
        w.atUid r.next) := by
  rw [getParentFromPath]
  split
  · next h =>
    have hnone : (c.items.find? fun item => some item.id = none) = none :=
      List.find?_eq_none.mpr (by simp)
    rw [h, createPath]
    dsimp only
    rw [hnone]
    rfl
  · have hwalk := run_walkPath es w c (pathParts_ne_nil (path.getD [])) none
    rw [run_bind_ok hwalk]
    rfl

namespace Visit

variable (v : Visit)

/-- The folders of the destination, created where they are missing among some items. -/
def foldersIn (w : World) (items : List CaseItem) : PathEnd :=
  createPath w.uids w.nextUid (pathParts ((v.path render).getD [])) items none

abbrev folders : PathEnd := v.foldersIn render v.world v.case.items

/-- The item for the record, with an id and a parent. -/
def item (id : Str) (parent : Option Str) : CaseItem where
  id := id
  parent := optionalText parent
  name := optionalText (some (v.name render))
  type := v.record.index.itemType
  value := v.record.id

/-- The item for the record as it is added, if it is. -/
def placed : Option CaseItem :=
  if v.record.id = [] then none
  else placeItem { v.case with items := (v.folders render).items }
    (v.item render (v.world.uids (v.folders render).next) (v.folders render).parent)

end Visit

variable (es)

theorem run_newRecordItem (w : World) (v : Visit) (parent : Option Str) :
    (CaseItem.new
      { type := v.record.index.itemType, value := some v.record.id, parent := parent,
        name := some (v.name render) }).run (handle es) w =
      (if v.record.id = [] then
          .error (.howlerValue "[value] Empty strings are not allowed without defaults".toList)
        else .ok (v.item render (w.uids w.nextUid) parent), w.atUid (w.nextUid + 1)) := by
  have hcase : v.record.index.itemType ≠ .case := by cases v.record.index <;> decide
  have hfolder : v.record.index.itemType ≠ .folder := by cases v.record.index <;> decide
  rw [CaseItem.new, if_neg fun h => hcase h.1]
  rw [run_bind_ok (show (itemId none).run (handle es) w = _ from run_randomId es w)]
  dsimp only
  rw [if_neg hfolder]
  cases hid : v.record.id with
  | nil => rfl
  | cons a l =>
    rw [if_neg (List.cons_ne_nil a l), Visit.item, hid]
    rfl

/-- `_add_record_to_case` for a record that does not exist. -/
theorem run_addRecordToCase_none {v : Visit} (hb : v.backing = none) :
    (addRecordToCase render v.case v.record v.destination v.batch.backingCache).run (handle es)
        v.world =
      (.ok (v.case, resolvedCache v.batch.backingCache v.world v.key, none), v.world) := by
  have hresolve := run_resolveBackingObject es v.world v.key v.batch.backingCache
  rw [Visit.backing] at hb
  rw [hb] at hresolve
  exact run_bind_ok hresolve _

/-- `_add_record_to_case` for a record that exists. -/
theorem run_addRecordToCase_some {v : Visit} {r : Record} (hb : v.backing = some r) :
    (addRecordToCase render v.case v.record v.destination v.batch.backingCache).run (handle es)
        v.world =
      (.ok (match v.placed render with
        | none => ({ v.case with items := (v.folders render).items },
            resolvedCache v.batch.backingCache v.world v.key, none)
        | some i => ({ v.case with
              items := (v.folders render).items ++
                [{ i with classification := some r.classification }] },
            (resolvedCache v.batch.backingCache v.world v.key).set v.key
              (some (r.addBackreference v.case.caseId).1),
            if (r.addBackreference v.case.caseId).2 then some v.key else none)),
        v.world.atUid ((v.folders render).next + 1)) := by
  have hresolve := run_resolveBackingObject es v.world v.key v.batch.backingCache
  rw [Visit.backing] at hb
  rw [hb] at hresolve
  refine (run_bind_ok hresolve _).trans ?_
  have hpath : (getParentFromPath v.case (v.path render) true false).run (handle es) v.world =
      (.ok ({ v.case with items := (v.folders render).items },
        (v.folders render).items.find? fun item => some item.id = (v.folders render).parent),
        v.world.atUid (v.folders render).next) :=
    run_getParentFromPath v.world v.case (v.path render)
  refine (run_bind_ok hpath _).trans ?_
  have hknown : ((v.folders render).items.find? fun item =>
      some item.id = (v.folders render).parent).map (·.id) = (v.folders render).parent :=
    (createPath_known known_none _).find
  have hitem := run_newRecordItem es render (v.world.atUid (v.folders render).next) v
    (v.folders render).parent
  have hopt := run_optional (handle es) (CaseItem.new
    { type := v.record.index.itemType, value := some v.record.id,
      parent := (v.folders render).parent, name := some (v.name render) })
    (v.world.atUid (v.folders render).next)
  rw [hitem] at hopt
  dsimp only
  rw [hknown, Visit.placed]
  by_cases hid : v.record.id = []
  · rw [if_pos hid] at hopt ⊢
    exact (run_bind_ok hopt _).trans rfl
  · rw [if_neg hid] at hopt ⊢
    refine (run_bind_ok hopt _).trans ?_
    simp only [Except.toOption, Option.bind_some, World.atUid_uids, World.atUid_nextUid]
    generalize placeItem _ _ = placed
    cases placed <;> rfl

end Spec

section Reference

variable (es : Elastic) (render : Str → Match → Str)

/-- One record, item by item: `append_case_item` under `get_parent_from_path`. -/
def referenceCall (v : Visit) : Service Unit := do
  let parent ← getParentFromPathOf v.caseId (v.path render) true
  let _ ← appendNewItem v.caseId v.record.index.itemType v.record.id (parent.map (·.id))
    (some (v.name render))

/-- The store after that. A call that raises leaves it as it was. -/
def reference (w : World) (v : Visit) : World :=
  match (referenceCall render v).run (handle es) w with
  | (.ok _, w') => w'
  | (.error _, _) => w

/-- What `append_case_item` checks of the item for a record. -/
structure Accepted (w : World) (c : Case) (v : Visit) (i : CaseItem) (conflict : Bool) : Prop where
  record : w.records v.key.1 v.key.2 ≠ none
  nonempty : v.record.id ≠ []
  parent : Case.checkParent c i.parent = .ok ()
  conflicts : Case.checkConflicts c (named i) = .ok conflict

variable {w : World} {c : Case}

theorem reference_spec (v : Visit) (hs : w.Sound) (hk : w.Keyed) (hc : w.cases v.caseId = some c) :
    let path := v.foldersIn render w c.items
    let i := v.item render (w.uids path.next) path.parent
    ∃ c₁, c₁.items = path.items ∧
      ((∀ conflict, ¬ Accepted w c₁ v i conflict) → reference es render w v = w) ∧
      ∀ conflict, Accepted w c₁ v i conflict →
        ∃ x, (w.records v.key.1 v.key.2).map (·.classification) = some x ∧
          Replaces v.caseId (path.items ++
            [{ (if conflict then Case.renamed (named i) else named i) with
              classification := some x }]) w (reference es render w v) ∧
          (reference es render w v).nextUid = path.next + 1 := by
  intro path i
  obtain ⟨o, w₁, hpath, hparent, hrep₁, hnext₁⟩ :=
    run_getParentFromPathOf es hs hk hc (v.path render)
  obtain ⟨c₁, hc₁, hid₁, hitems₁⟩ := hrep₁.get
  have hfetch := run_fetchCase_some es (.notFound "Case does not exist".toList) hc₁
  refine ⟨c₁, hitems₁, ?_⟩
  by_cases hid : v.record.id = []
  · have hrun : (referenceCall render v).run (handle es) w = (.error (.invalidData
        "item_type and item_value are required if item is not provided".toList), w₁) := by
      refine (run_bind_ok hpath _).trans (run_bind_error ?_ _)
      rw [appendNewItem, run_bind_ok hfetch, if_pos hid]
      rfl
    refine ⟨fun _ => by rw [reference, hrun], fun conflict ha => absurd hid ha.nonempty⟩
  · -- the item that is built is the one that is described
    have hi : v.item render (w₁.uids w₁.nextUid) (o.map (·.id)) = i := by
      rw [hparent, hrep₁.uids, hnext₁]
      rfl
    have hitem := run_newRecordItem es render w₁ v (o.map (·.id))
    rw [if_neg hid, hi, hnext₁] at hitem
    have happend : (appendNewItem v.caseId v.record.index.itemType v.record.id (o.map (·.id))
        (some (v.name render))).run (handle es) w₁ =
          (appendTo c₁ i).run (handle es) (w₁.atUid (path.next + 1)) := by
      rw [appendNewItem, run_bind_ok hfetch, if_neg hid]
      exact run_bind_ok hitem _
    have hs₂ : (w₁.atUid (path.next + 1)).Sound := hrep₁.sound
    have hk₂ : (w₁.atUid (path.next + 1)).Keyed := ⟨hrep₁.keyed.cases, hrep₁.keyed.records⟩
    have hrecords := hrep₁.records v.key.1 v.key.2
    refine ⟨fun hno => ?_, fun conflict ha => ?_⟩
    · obtain ⟨e, w', herr⟩ : ∃ e w', (appendTo c₁ i).run (handle es) (w₁.atUid (path.next + 1)) =
          (.error e, w') := by
        refine run_appendTo_error es (t := v.record.index) rfl ?_
        by_contra hall
        rw [not_or, not_or, not_forall_not, not_not] at hall
        obtain ⟨hrec, hp, conflict, hconf⟩ := hall
        refine hno conflict ⟨fun hnone => hrec ?_, hid, hp, hconf⟩
        rw [hnone] at hrecords
        exact Option.map_eq_none_iff.mp hrecords
      have hrun : (referenceCall render v).run (handle es) w = (.error e, w') :=
        (run_bind_ok hpath _).trans (run_bind_error (happend.trans herr) _)
      rw [reference, hrun]
    · obtain ⟨r₀, hr₀⟩ := Option.ne_none_iff_exists'.mp ha.record
      rw [hr₀] at hrecords
      obtain ⟨r, hr, hclass⟩ := Option.map_eq_some_iff.mp hrecords
      obtain ⟨c', w', hok, hrep', hnext'⟩ :=
        run_appendTo_ok es hs₂ hk₂ (t := v.record.index) (i := i) rfl hr ha.parent
          ha.conflicts
      have hrun : (referenceCall render v).run (handle es) w = (.ok (), w') :=
        (run_bind_ok hpath _).trans (run_bind_ok (happend.trans hok) _)
      rw [hr₀, reference, hrun]
      refine ⟨_, rfl, ?_, hnext'⟩
      rw [hid₁, hitems₁, hclass] at hrep'
      exact hrep₁.trans ⟨hrep'.cases, hrep'.uids, hrep'.sound, hrep'.keyed, hrep'.records⟩

end Reference

namespace Visit

variable (v : Visit) (render : Str → Match → Str)

/-- The record has no id, or is in the case already. -/
def Duplicate : Prop :=
  v.record.id = [] ∨ ∃ i ∈ v.case.items, i.type = v.record.index.itemType ∧ i.value = v.record.id

/-- Both the name of the item and the name that it gets instead are taken. -/
def NamesTaken (c : Case) (i : CaseItem) : Prop :=
  Case.checkConflicts c (named i) = .ok true ∧
    Case.checkConflicts c (Case.renamed (named i)) = .ok true

/-- The record is dealt with as `append_case_item` does: if folders are missing it is new, and if
not it is there already, or is added just if both names are not taken where the parent is valid. -/
def Mirrored : Prop :=
  v.backing ≠ none →
    match findPath v.case.items (pathParts ((v.path render).getD [])) none with
    | none => ¬ v.Duplicate
    | some p => v.Duplicate ∨ (Case.checkParent v.case (optionalText p) = .ok () ↔
        ¬ NamesTaken v.case (v.item render [] p))

/-- The case with the record. -/
def after : Case :=
  match v.backing with
  | none => v.case
  | some r => { v.case with
      items := (v.folders render).items ++
        (v.placed render).toList.map ({ · with classification := some r.classification }) }

end Visit

section Mirror

variable {es : Elastic} {render : Str → Match → Str} {w : World} {v : Visit} {c : Case}

theorem placeItem_eq_none_iff {i : CaseItem} :
    placeItem c i = none ↔
      (∀ b, Case.checkConflicts c (named i) ≠ .ok b) ∨ Visit.NamesTaken c i := by
  have hnamed : { i with name := some (Case.displayName i) } = named i := rfl
  rw [placeItem, Visit.NamesTaken, hnamed]
  cases h : Case.checkConflicts c (named i) with
  | error e => simp
  | ok b =>
    cases b with
    | false => simp
    | true =>
      obtain ⟨b', hb'⟩ := checkConflicts_renamed h
      rw [hb']
      cases b' <;> simp

theorem placeItem_of_ok {i : CaseItem} {b : Bool} (h : Case.checkConflicts c (named i) = .ok b)
    (ht : ¬ Visit.NamesTaken c i) :
    placeItem c i = some (if b then Case.renamed (named i) else named i) := by
  have hnamed : { i with name := some (Case.displayName i) } = named i := rfl
  rw [placeItem, hnamed]
  cases b with
  | false => simp [h]
  | true =>
    obtain ⟨b', hb'⟩ := checkConflicts_renamed h
    cases b' with
    | false => simp [h, hb']
    | true => exact absurd ⟨h, hb'⟩ ht

theorem item_rename {f : Equiv.Perm Str} {a a' : Str} {p : Option Str} (hf : f [] = [])
    (ha : f a = a') : v.item render a' (p.map f) = (v.item render a p).rename f := by
  rw [Visit.item, Visit.item, CaseItem.rename, optionalText_map hf, ha]

theorem placed_rename {f : Equiv.Perm Str} (i : CaseItem) (b : Bool) (x : Option Str) :
    { (if b then Case.renamed (named (i.rename f)) else named (i.rename f)) with
        classification := x } =
      CaseItem.rename f { (if b then Case.renamed (named i) else named i) with
        classification := x } := by
  cases b <;> rfl

/-- The case of a visit with the folders of the destination, and the item for the record. -/
abbrev Visit.opened (v : Visit) (render : Str → Match → Str) : Case :=
  { v.case with items := (v.folders render).items }

abbrev Visit.newItem (v : Visit) (render : Str → Match → Str) : CaseItem :=
  v.item render (v.world.uids (v.folders render).next) (v.folders render).parent

/-- The checks of `append_case_item`, in the case of the visit. -/
structure Visit.Passes (v : Visit) (render : Str → Match → Str) (conflict : Bool) : Prop where
  nonempty : v.record.id ≠ []
  parent : Case.checkParent (v.opened render) (v.newItem render).parent = .ok ()
  conflicts : Case.checkConflicts (v.opened render) (named (v.newItem render)) = .ok conflict

/-- A store in which the same has been done item by item, up to the ids. -/
structure Tracks (v : Visit) (w : World) (c : Case) : Prop where
  sound : w.Sound
  keyed : w.Keyed
  stored : w.cases v.caseId = some c
  agrees : ∃ f, Renames f v.case.items c.items
  unused : UnusedFrom v.world.uids v.world.nextUid v.case.items
  unused' : UnusedFrom w.uids w.nextUid c.items
  injective : Function.Injective v.world.uids
  uids : w.uids = v.world.uids
  record : v.backing.map (·.classification) = (w.records v.key.1 v.key.2).map (·.classification)

/-- The item for the record with the classification of the record. -/
def Visit.placedItem (v : Visit) (render : Str → Match → Str) (conflict : Bool) (x : Str) :
    CaseItem :=
  { (if conflict then Case.renamed (named (v.newItem render)) else named (v.newItem render)) with
    classification := some x }

variable (es render) in
theorem Tracks.reference_spec (h : Tracks v w c) {r : Record} (hb : v.backing = some r) :
    ((∀ b, ¬ v.Passes render b) → reference es render w v = w) ∧
    ∀ b, v.Passes render b → ∃ f items',
      Renames f ((v.folders render).items ++ [v.placedItem render b r.classification]) items' ∧
      Replaces v.caseId items' w (reference es render w v) ∧
      w.nextUid ≤ (reference es render w v).nextUid ∧
      UnusedFrom w.uids (reference es render w v).nextUid items' := by
  have huids' : Function.Injective w.uids := h.uids ▸ h.injective
  obtain ⟨f, hf⟩ := h.agrees
  obtain ⟨f₁, hf₁, hparent⟩ := createPath_rename h.injective huids' hf h.unused
    h.unused' known_none (pathParts ((v.path render).getD []))
  obtain ⟨-, hun⟩ := createPath_unused h.injective h.unused known_none
    (pathParts ((v.path render).getD []))
  obtain ⟨hle, hun'⟩ := createPath_unused huids' h.unused' known_none
    (pathParts ((v.path render).getD []))
  have hknown' : Known (v.foldersIn render w c.items).items (v.foldersIn render w c.items).parent :=
    createPath_known known_none _
  obtain ⟨f₂, ha, hf₂, hids⟩ := hf₁.extend (hun _ le_rfl) (hun' _ le_rfl)
  have hknown : Known (v.folders render).items (v.folders render).parent :=
    createPath_known known_none _
  have hitem : v.item render (w.uids (v.foldersIn render w c.items).next)
      (v.foldersIn render w c.items).parent = (v.newItem render).rename f₂ := by
    have hp : (v.foldersIn render w c.items).parent = (v.folders render).parent.map f₂ :=
      hparent.trans (hknown.map_eq hids).symm
    rw [hp]
    exact item_rename hf₂.empty ha
  obtain ⟨c₁, hitems, hraises, hadds⟩ :=
    Correlation.reference_spec es render v h.sound h.keyed h.stored
  rw [hitem] at hraises hadds
  have hopened : Renames f₂ (v.opened render).items c₁.items := hitems ▸ hf₂
  have hconf : ∀ b, Case.checkConflicts c₁ (named ((v.newItem render).rename f₂)) = .ok b ↔
      Case.checkConflicts (v.opened render) (named (v.newItem render)) = .ok b :=
    checkConflicts_rename hopened (named (v.newItem render))
  have hpar := checkParent_rename hopened (v.newItem render).parent
  have hrecord := h.record
  rw [hb] at hrecord
  constructor
  · intro hno
    refine hraises fun b ha' => hno b ⟨ha'.nonempty, hpar.mp ha'.parent, (hconf b).mp ha'.conflicts⟩
  · intro b hb'
    have hexists : w.records v.key.1 v.key.2 ≠ none := fun hnone => by
      simp [hnone] at hrecord
    obtain ⟨x, hx, hrep, hnext⟩ :=
      hadds b ⟨hexists, hb'.nonempty, hpar.mpr hb'.parent, (hconf b).mpr hb'.conflicts⟩
    obtain rfl : r.classification = x := Option.some.inj (hrecord.trans hx)
    rw [placed_rename] at hrep
    have hid : (CaseItem.rename f₂ (v.placedItem render b r.classification)).id =
        w.uids (v.foldersIn render w c.items).next := by
      refine Eq.trans ?_ ha
      cases b <;> rfl
    have hip : (CaseItem.rename f₂ (v.placedItem render b r.classification)).parent =
        optionalText (v.foldersIn render w c.items).parent := by
      have hpar' : ((v.newItem render).rename f₂).parent =
        optionalText (v.foldersIn render w c.items).parent := congrArg CaseItem.parent hitem.symm
      rw [← hpar']
      cases b <;> rfl
    rw [hnext]
    exact ⟨f₂, _, hf₂.append rfl, hrep, Nat.le_succ_of_le hle,
      UnusedFrom.append hun' huids' hid hknown' hip⟩

theorem Visit.folders_append (v : Visit) (render : Str → Match → Str) :
    ∃ new, (v.folders render).items = v.case.items ++ new ∧ ∀ i ∈ new, i.type = .folder :=
  createPath_append (pathParts ((v.path render).getD []))

theorem conflicts_iff (v : Visit) (render : Str → Match → Str) :
    (∃ b, Case.checkConflicts (v.opened render) (named (v.newItem render)) = .ok b) ↔
      ¬ ∃ i ∈ v.case.items, i.type = v.record.index.itemType ∧ i.value = v.record.id := by
  obtain ⟨new, hnew, hfolder⟩ := v.folders_append render
  have hitems : (v.opened render).items = v.case.items ++ new := hnew
  have hdup : (∃ i ∈ (v.opened render).items, i.type = v.record.index.itemType ∧
      i.value = v.record.id) ↔
      ∃ i ∈ v.case.items, i.type = v.record.index.itemType ∧ i.value = v.record.id := by
    rw [hitems]
    constructor
    · rintro ⟨i, hi, ht, hv⟩
      cases List.mem_append.mp hi with
      | inl hi => exact ⟨i, hi, ht, hv⟩
      | inr hi =>
        have hne : v.record.index.itemType ≠ .folder := by cases v.record.index <;> decide
        exact absurd (ht.symm.trans (hfolder i hi)) hne
    · rintro ⟨i, hi, h⟩
      exact ⟨i, List.mem_append_left _ hi, h⟩
  have htype : (named (v.newItem render)).type = .hit ∨ (named (v.newItem render)).type = .event := by
    have ht : (named (v.newItem render)).type = v.record.index.itemType := rfl
    rw [ht]
    cases v.record.index <;> decide
  rw [← hdup]
  unfold Case.checkConflicts
  split
  · next h =>
    simp only [reduceCtorEq, exists_false, false_iff, not_not]
    exact h.2
  · next h =>
    simp only [Except.ok.injEq, exists_eq', true_iff]
    exact fun hex => h ⟨htype, hex⟩

theorem exists_passes_iff : (∃ b, v.Passes render b) ↔ ¬ v.Duplicate ∧
    Case.checkParent (v.opened render) (v.newItem render).parent = .ok () := by
  rw [Visit.Duplicate, not_or, ← conflicts_iff v render]
  constructor
  · rintro ⟨b, h⟩
    exact ⟨⟨h.nonempty, b, h.conflicts⟩, h.parent⟩
  · rintro ⟨⟨hid, b, hb⟩, hp⟩
    exact ⟨b, hid, hp, hb⟩

theorem placed_ne_none_iff : v.placed render ≠ none ↔
    ¬ v.Duplicate ∧ ¬ Visit.NamesTaken (v.opened render) (v.newItem render) := by
  rw [Visit.Duplicate, not_or, ← conflicts_iff v render, Visit.placed]
  split
  · next hid => simp [hid]
  · next hid =>
    rw [ne_eq, placeItem_eq_none_iff]
    push Not
    simp [hid]

theorem Visit.Passes.placed {b : Bool} (h : v.Passes render b)
    (ht : ¬ Visit.NamesTaken (v.opened render) (v.newItem render)) :
    v.placed render = some
      (if b then Case.renamed (named (v.newItem render)) else named (v.newItem render)) := by
  rw [Visit.placed, if_neg h.nonempty]
  exact placeItem_of_ok h.conflicts ht

theorem checkParent_empty {c : Case} {q : Str} (h : EmptyFolder c.items q) :
    Case.checkParent c (optionalText (some q)) = .ok () := by
  obtain ⟨folder, hf, ht⟩ := h.folder
  rw [h.optionalText, Case.checkParent, Case.ensureParentExists, hf]
  simp [ht]

theorem not_namesTaken_empty {c : Case} {q : Str} (h : EmptyFolder c.items q) {i : CaseItem}
    (hp : i.parent = optionalText (some q)) : ¬ Visit.NamesTaken c i := by
  rintro ⟨hconf, -⟩
  obtain ⟨j, hj, -, hjp⟩ := (checkConflicts_ok hconf).mp rfl
  exact h.empty j hj ((hjp.trans hp).trans h.optionalText)

theorem after_items {r : Record} (hb : v.backing = some r) :
    (v.after render).items = (v.folders render).items ++
      (v.placed render).toList.map ({ · with classification := some r.classification }) := by
  rw [Visit.after, hb]

/-- The item by item path and the batch agree on a record just if they both add it, or if neither
does and no folder was created. -/
theorem Tracks.agrees_iff (h : Tracks v w c) {r : Record} (hb : v.backing = some r) :
    (∃ c' f, (reference es render w v).cases v.caseId = some c' ∧
      Renames f (v.after render).items c'.items) ↔
      (∃ b, v.Passes render b) ∧ v.placed render ≠ none ∨
      (¬ ∃ b, v.Passes render b) ∧ v.placed render = none ∧
        (v.folders render).items = v.case.items := by
  obtain ⟨hraises, hadds⟩ := h.reference_spec es render hb
  rw [after_items hb]
  by_cases hp : ∃ b, v.Passes render b
  · obtain ⟨b, hb'⟩ := hp
    obtain ⟨f, items', hf, hrep, -⟩ := hadds b hb'
    obtain ⟨c', hc', -, hitems⟩ := hrep.get
    rw [← hitems] at hf
    have hlen := congrArg List.length hf.eq
    constructor
    · rintro ⟨c'', g, hc'', hg⟩
      obtain rfl : c' = c'' := Option.some.inj (hc'.symm.trans hc'')
      refine .inl ⟨⟨b, hb'⟩, fun hnone => ?_⟩
      have hlen' := congrArg List.length hg.eq
      simp [hnone] at hlen hlen'
      omega
    · rintro (⟨-, hplaced⟩ | ⟨hno, -⟩)
      · have ht := (placed_ne_none_iff.mp hplaced).2
        refine ⟨c', f, hc', ?_⟩
        rw [hb'.placed ht]
        exact hf
      · exact absurd ⟨b, hb'⟩ hno
  · have hsame := hraises fun b hb' => hp ⟨b, hb'⟩
    obtain ⟨new, hfolders, -⟩ := v.folders_append render
    obtain ⟨f, hf⟩ := h.agrees
    rw [hsame]
    constructor
    · rintro ⟨c', g, hc', hg⟩
      obtain rfl : c = c' := Option.some.inj (h.stored.symm.trans hc')
      have hlen := congrArg List.length hf.eq
      have hlen' := congrArg List.length hg.eq
      rw [hfolders] at hlen' ⊢
      simp only [List.length_map, List.length_append, Option.length_toList] at hlen hlen'
      refine .inr ⟨hp, ?_, ?_⟩
      · cases hpl : v.placed render with
        | none => rfl
        | some i =>
          simp [hpl] at hlen'
          omega
      · have hnil : new = [] := List.length_eq_zero_iff.mp (by omega)
        rw [hnil, List.append_nil]
    · rintro (⟨hyes, -⟩ | ⟨-, hplaced, hsame'⟩)
      · exact absurd hyes hp
      · refine ⟨c, f, h.stored, ?_⟩
        rw [hplaced, hsame']
        simpa using hf

theorem mirrored_iff (hu : Function.Injective v.world.uids)
    (hun : UnusedFrom v.world.uids v.world.nextUid v.case.items) {r : Record}
    (hb : v.backing = some r) :
    (∃ b, v.Passes render b) ∧ v.placed render ≠ none ∨
      (¬ ∃ b, v.Passes render b) ∧ v.placed render = none ∧
        (v.folders render).items = v.case.items ↔ v.Mirrored render := by
  have hplaced : v.placed render = none ↔ ¬ (¬ v.Duplicate ∧
      ¬ Visit.NamesTaken (v.opened render) (v.newItem render)) := by
    rw [← placed_ne_none_iff, ne_eq, not_not]
  rw [exists_passes_iff, placed_ne_none_iff, hplaced, Visit.Mirrored]
  cases hpath : findPath v.case.items (pathParts ((v.path render).getD [])) none with
  | none =>
    obtain ⟨hlt, q, hq, he⟩ := createPath_of_missing hu hun known_none hpath
    have hparent : (v.newItem render).parent = optionalText (some q) := congrArg optionalText hq
    have hok := hparent ▸ checkParent_empty (c := v.opened render) he
    have hfree := not_namesTaken_empty (c := v.opened render) he hparent
    have hmore : (v.folders render).items ≠ v.case.items := fun heq => by
      have hlen := congrArg List.length heq
      have hlt' : v.case.items.length < (v.folders render).items.length := hlt
      omega
    simp [hok, hfree, hmore, hb]
  | some p =>
    have hfolders : v.folders render = ⟨v.case.items, p, v.world.nextUid⟩ :=
      createPath_of_findPath hpath
    have hopened : v.opened render = v.case := by rw [Visit.opened, hfolders]
    have hparent : (v.newItem render).parent = optionalText p := by
      rw [Visit.newItem, hfolders]
      rfl
    have htaken : Visit.NamesTaken v.case (v.newItem render) ↔
        Visit.NamesTaken v.case (v.item render [] p) := by
      rw [Visit.newItem, hfolders]
      exact Iff.rfl
    rw [hopened, hparent, hfolders, htaken]
    simp only [hb, ne_eq, reduceCtorEq, not_false_eq_true, forall_const, and_true]
    by_cases hd : v.Duplicate
    · simp [hd]
    · by_cases ht : Visit.NamesTaken v.case (v.item render [] p)
      · simp [hd, ht]
      · simp [hd, ht]

/-- The next random id after the record. -/
def Visit.next (v : Visit) (render : Str → Match → Str) : Nat :=
  match v.backing with
  | none => v.world.nextUid
  | some _ => (v.folders render).next + 1

variable (render) in
theorem Tracks.after_unused (h : Tracks v w c) : v.world.nextUid ≤ v.next render ∧
    UnusedFrom v.world.uids (v.next render) (v.after render).items := by
  cases hb : v.backing with
  | none =>
    rw [Visit.next, Visit.after, hb]
    exact ⟨le_rfl, h.unused⟩
  | some r =>
    obtain ⟨hle, hun⟩ := createPath_unused h.injective h.unused known_none
      (pathParts ((v.path render).getD []))
    have hknown : Known (v.folders render).items (v.folders render).parent :=
      createPath_known known_none _
    rw [Visit.next, after_items hb, hb]
    refine ⟨Nat.le_succ_of_le hle, ?_⟩
    cases hp : v.placed render with
    | none =>
      rw [Option.toList_none, List.map_nil, List.append_nil]
      exact UnusedFrom.mono hun (Nat.le_succ _)
    | some i =>
      rw [Visit.placed] at hp
      split at hp
      · contradiction
      · obtain ⟨hid, hparent, -⟩ := placeItem_some hp
        exact UnusedFrom.append hun h.injective hid hknown hparent

variable (es) in
/-- The two agree after a record that is mirrored. -/
theorem Tracks.next (h : Tracks v w c) (hm : v.Mirrored render) : ∃ f items',
    Renames f (v.after render).items items' ∧
      Replaces v.caseId items' w (reference es render w v) ∧
      w.nextUid ≤ (reference es render w v).nextUid ∧
      UnusedFrom w.uids (reference es render w v).nextUid items' := by
  obtain ⟨f, hf⟩ := h.agrees
  have hself := replaces_self h.sound h.keyed h.stored w.nextUid
  cases hb : v.backing with
  | none =>
    obtain ⟨c₁, -, hraises, -⟩ :=
      Correlation.reference_spec es render v h.sound h.keyed h.stored
    have hrecord := h.record
    rw [hb] at hrecord
    have hsame := hraises fun b ha => ha.record (Option.map_eq_none_iff.mp hrecord.symm)
    rw [hsame, Visit.after, hb]
    exact ⟨f, c.items, hf, hself, le_rfl, h.unused'⟩
  | some r =>
    obtain ⟨hraises, hadds⟩ := h.reference_spec es render hb
    rw [after_items hb]
    rcases (mirrored_iff h.injective h.unused hb).mpr hm with ⟨⟨b, hb'⟩, hplaced⟩ | ⟨hno, hp, hi⟩
    · obtain ⟨g, items', hg, hrest⟩ := hadds b hb'
      rw [hb'.placed (placed_ne_none_iff.mp hplaced).2]
      exact ⟨g, items', hg, hrest⟩
    · rw [hraises fun b hb' => hno ⟨b, hb'⟩, hp, hi]
      exact ⟨f, c.items, by simpa using hf, hself, le_rfl, h.unused'⟩

end Mirror

end Howler.Correlation
