import Howler.Cases.Invariant

namespace Howler.Cases

open Python Systems Systems.Prog

/-- The item may be added to the case. -/
structure Fits (s : Scope) (c : Case) (i : CaseItem) (w : World) : Prop where
  ready : Ready s c w
  addable : s.watched c.caseId → Addable s.names c.items i
  newId : s.watched c.caseId → NewId s c i.id w

/-- What an item stands for is stored, so that the item is added even where its name is taken. -/
def AddedAnyway (w : World) (c : Case) (i : CaseItem) : Prop :=
  match i.type with
  | .hit => w.records .hit i.value ≠ none
  | .event => w.records .event i.value ≠ none
  | .case => w.cases i.value ≠ none ∧ ∀ j ∈ c.items, j.value ≠ i.value
  | .reference | .markdown | .folder => False

/-- If the name of an item is taken, the name that it gets instead is free. -/
def RenameFree (w : World) (c : Case) (i : CaseItem) : Prop :=
  Case.checkConflicts c (named i) = .ok true → AddedAnyway w c i →
    Case.checkConflicts c (Case.renamed (named i)) ≠ .ok true

section Append

variable {s : Scope} {c : Case} {i : CaseItem} {es : Elastic}

theorem stable_fits : Stable (Fits s c i) :=
  fun w w' hs h => ⟨stable_ready w w' hs h.ready, h.addable,
    fun hk => stable_newId w w' hs (h.newId hk)⟩

theorem Fits.add {w : World} (h : Fits s c i w) :
    Ready s { c with items := c.items ++ [i] } w :=
  ⟨h.ready.inv, fun hk => (h.ready.held hk).add (h.addable hk) (h.newId hk)⟩

/-- The fields that are not looked at before an item is added. -/
theorem Fits.congr {w : World} {i' : CaseItem} (h : Fits s c i w) (hid : i'.id = i.id)
    (hp : i'.parent = i.parent) (ht : i'.type = i.type) (hn : i'.name = i.name) :
    Fits s c i' w := by
  refine ⟨h.ready, fun hk => ?_, fun hk => hid ▸ h.newId hk⟩
  have ha := h.addable hk
  exact ⟨hid ▸ ha.new, hp ▸ ha.parent, hp ▸ ht ▸ ha.caseRoot, hp ▸ hn ▸ ha.unique,
    hid ▸ ha.nonempty⟩

theorem triple_recompute : Triple (handle es) (Ready s c) (recomputeCaseMetadata c)
    (fun c' => Ready s c') (Inv s) := by
  refine Triple.bind (M := fun _ => Ready s c) ?_ fun m => ?_
  · exact ((quiet_collectMetadata c.items {}).triple stable_ready).conseq (fun _ h => h)
      (fun _ _ h => h) fun _ h => h.inv
  · exact triple_pure fun w h => h.congr rfl rfl

theorem triple_save_return : Triple (handle es) (Ready s c) (do saveCase c; return c)
    (fun _ => Inv s) (Inv s) :=
  (triple_saveCase.conseq (fun _ h => h) (fun _ _ h => h.inv) fun _ h => h.inv).bind
    fun _ => triple_pure fun _ h => h

theorem triple_appendPlain :
    Triple (handle es) (Fits s c i) (appendPlain c i) (fun _ => Inv s) (Inv s) :=
  triple_save_return.conseq (fun _ h => h.add) (fun _ _ h => h) fun _ h => h

theorem triple_appendCase : Triple (handle es)
    (fun w => Ready s c w ∧ (w.cases i.value ≠ none → (∀ j ∈ c.items, j.value ≠ i.value) →
      Fits s c i w))
    (appendCase c i) (fun _ => Inv s) (Inv s) := by
  rw [appendCase]
  split
  · exact triple_throw fun _ h => h.1.inv
  · next hno =>
    have hvalue : ∀ j ∈ c.items, j.value ≠ i.value := by simpa using hno
    intro w ⟨hr, hf⟩
    refine ends_bind_ok (run_getCase es w i.value) ?_
    cases hc : w.cases i.value with
    | none => exact ends_throw hr.inv
    | some _ => exact triple_appendPlain w (hf (by simp [hc]) hvalue)

theorem triple_appendRecord (t : RuleIndexTypes) (kind : Str) : Triple (handle es)
    (fun w => Ready s c w ∧ (w.records t i.value ≠ none → Fits s c i w))
    (appendRecord t kind c i) (fun _ => Inv s) (Inv s) := by
  intro w ⟨hr, hf⟩
  refine ends_bind_ok (run_getRecord es w t i.value) ?_
  cases hc : w.records t i.value with
  | none => exact ends_throw hr.inv
  | some r =>
    have hfits := hf (by simp [hc])
    refine Triple.bind (P := Fits s c i) (M := fun _ => Fits s c i) ?_ (fun _ => ?_) w hfits
    · exact ((quiet_saveRecord t _ _).triple stable_fits).conseq (fun _ h => h)
        (fun _ _ h => h) fun _ h => h.ready.inv
    · refine Triple.bind (M := fun c' => Ready s c') ?_ fun c' => triple_save_return
      refine triple_recompute.conseq (fun w h => ?_) (fun _ _ h => h) fun _ h => h
      exact (h.congr rfl rfl rfl rfl :
        Fits s c { i with classification := some r.classification } w).add

/-- A conflict is an item with the name and the parent. -/
theorem checkConflicts_ok {conflict : Bool} (h : Case.checkConflicts c i = .ok conflict) :
    conflict = true ↔ ∃ j ∈ c.items, j.name = some (Case.displayName i) ∧ j.parent = i.parent := by
  unfold Case.checkConflicts at h
  split at h
  · contradiction
  · obtain rfl := Except.ok.inj h
    simp

/-- Whether the check raises does not depend on the name. -/
theorem checkConflicts_renamed {conflict : Bool} (h : Case.checkConflicts c i = .ok conflict) :
    ∃ conflict', Case.checkConflicts c (Case.renamed i) = .ok conflict' := by
  unfold Case.checkConflicts at h ⊢
  split at h
  · contradiction
  · next hno => exact ⟨_, if_neg hno⟩

theorem checkParent_ok {parent : Option Str} (h : Case.checkParent c parent = .ok ()) :
    ∀ p, parent = some p → ∃ f ∈ c.items, f.id = p ∧ f.type = .folder := by
  intro p hp
  subst hp
  exact ensureParentExists_ok h

theorem triple_dispatch {conflict : Bool} : Triple (handle es)
    (fun w => Ready s c w ∧ (conflict = false → Fits s c i w) ∧
      (conflict = true → AddedAnyway w c i → Fits s c (Case.renamed i) w))
    (dispatch c i conflict) (fun _ => Inv s) (Inv s) := by
  have hfits : ∀ w, (conflict = false → Fits s c i w) ∧
      (conflict = true → AddedAnyway w c i → Fits s c (Case.renamed i) w) → AddedAnyway w c i →
      Fits s c (if conflict then Case.renamed i else i) w := by
    intro w h ha
    cases conflict with
    | false => exact h.1 rfl
    | true => exact h.2 rfl ha
  have hvalue : (if conflict then Case.renamed i else i).value = i.value := by
    cases conflict <;> rfl
  have hplain : Triple (handle es)
      (fun w => Ready s c w ∧ (conflict = false → Fits s c i w) ∧
        (conflict = true → AddedAnyway w c i → Fits s c (Case.renamed i) w))
      (if conflict then throw (.resourceExists
          "An item with the same name already exists in this location.".toList)
        else appendPlain c i) (fun _ => Inv s) (Inv s) := by
    split
    · exact triple_throw fun _ h => h.1.inv
    · next hc =>
      exact triple_appendPlain.conseq (fun _ h => h.2.1 (by simpa using hc)) (fun _ _ h => h)
        fun _ h => h
  rw [dispatch]
  cases ht : i.type with
  | hit =>
    refine (triple_appendRecord _ _).conseq (fun w h => ⟨h.1, fun hr => hfits w h.2 ?_⟩)
      (fun _ _ h => h) fun _ h => h
    rwa [AddedAnyway, ht, ← hvalue]
  | event =>
    refine (triple_appendRecord _ _).conseq (fun w h => ⟨h.1, fun hr => hfits w h.2 ?_⟩)
      (fun _ _ h => h) fun _ h => h
    rwa [AddedAnyway, ht, ← hvalue]
  | case =>
    refine triple_appendCase.conseq (fun w h => ⟨h.1, fun hr hv => hfits w h.2 ?_⟩)
      (fun _ _ h => h) fun _ h => h
    rw [AddedAnyway, ht, ← hvalue]
    exact ⟨hr, hv⟩
  | reference => exact hplain
  | markdown => exact hplain
  | folder => exact hplain

theorem triple_appendTo (hroot : i.type = .case → i.parent = none) : Triple (handle es)
    (fun w => Ready s c w ∧ (s.watched c.caseId → NewId s c i.id w) ∧
      (s.names → s.watched c.caseId → RenameFree w c i))
    (appendTo c i) (fun _ => Inv s) (Inv s) := by
  intro w ⟨hr, hnew, hfree⟩
  refine ends_bind_fromExcept (fun _ hparent => ?_) hr.inv
  refine ends_bind_fromExcept (fun conflict hconflict => ?_) hr.inv
  have hpar := checkParent_ok hparent
  have hiff := checkConflicts_ok hconflict
  refine triple_dispatch w ⟨hr, fun hc => ⟨hr, fun hk => ?_, hnew⟩, fun hc ha =>
    ⟨hr, fun hk => ?_, hnew⟩⟩
  · refine ⟨(hnew hk).new, hpar, hroot, fun _ j hj hjp hjn => ?_, (hnew hk).nonempty⟩
    have htrue := hiff.mpr ⟨j, hj, hjn, hjp⟩
    rw [hc] at htrue
    contradiction
  · refine ⟨(hnew hk).new, hpar, hroot, fun hn j hj hjp hjn => ?_, (hnew hk).nonempty⟩
    obtain ⟨conflict', hren⟩ := checkConflicts_renamed hconflict
    have htrue := (checkConflicts_ok hren).mpr ⟨j, hj, hjn, hjp⟩
    exact hfree hn hk (hc ▸ hconflict) ha (htrue ▸ hren)

/-- An id that was given for a new item of a stored case. -/
def Supplied (s : Scope) (caseId : Str) (data : ItemData) (w : World) : Prop :=
  ∀ id, data.id = some id → s.watched caseId → ∀ c, w.cases caseId = some c → NewId s c id w

/-- Whatever item is built is added under a free name. -/
def NamesFree (caseId : Str) (data : ItemData) (w : World) : Prop :=
  ∀ c, w.cases caseId = some c → ∀ i, Built data i → RenameFree w c i

theorem NamesFree.renameFree {caseId : Str} {data : ItemData} {w w' : World}
    (h : NamesFree caseId data w) (hc : w.cases caseId = some c) (ha : AfterNew s data i w w') :
    RenameFree w' c i := by
  have hf := h c hc i ha.built
  unfold RenameFree AddedAnyway at hf ⊢
  rwa [ha.drawn.cases, ha.drawn.records]

theorem triple_appendItem (caseId : Str) (data : ItemData) : Triple (handle es)
    (fun w => Inv s w ∧ Supplied s caseId data w ∧ (s.names → NamesFree caseId data w))
    (appendItem caseId data) (fun _ => Inv s) (Inv s) := by
  intro w ⟨hw, hid, hfree⟩
  refine (ends_newItem _ hw fun _ hd => hw.drawn hd).bind fun i w' ha => ?_
  have hw' := hw.drawn ha.drawn
  refine ends_bind_fetchCase (fun c hc => ?_) hw'
  have hc' : w.cases caseId = some c := ha.drawn.cases ▸ hc
  have hkey := hw.keyed _ _ hc'
  refine triple_appendTo ha.built.caseRoot w' ⟨hw'.ready hc, fun hk => ?_, fun hn _ => ?_⟩
  · exact ha.newId c (hw.ready hc') hk fun id hsome => hid id hsome (hkey ▸ hk) c hc'
  · exact (hfree hn).renameFree hc' ha

theorem triple_appendNewItem (caseId : Str) (type : CaseItemTypes) (value : Str)
    (parent name : Option Str) : Triple (handle es)
    (fun w => Inv s w ∧ (s.names → NamesFree caseId { type, value := some value, parent, name } w))
    (appendNewItem caseId type value parent name) (fun _ => Inv s) (Inv s) := by
  intro w ⟨hw, hfree⟩
  refine ends_bind_fetchCase (fun c hc => ?_) hw
  split
  · exact ends_throw hw
  · refine (ends_newItem _ hw fun _ hd => hw.drawn hd).bind fun i w' ha => ?_
    refine triple_appendTo ha.built.caseRoot w' ⟨(hw.ready hc).drawn ha.drawn, fun hk => ?_,
      fun hn _ => (hfree hn).renameFree hc ha⟩
    exact ha.newId c (hw.ready hc) hk fun id hsome => nomatch hsome

end Append

/-- Ids are kept for a case. -/
def Scope.keep (s : Scope) (caseId : Str) (ids : List Str) : Scope :=
  { s with kept := fun k => if k = caseId then ids else s.kept k }

section Create

variable {s : Scope} {caseId : Str} {ids ids' : List Str} {w : World} {es : Elastic}

@[simp] theorem Scope.keep_watched : (s.keep caseId ids).watched = s.watched := rfl

@[simp] theorem Scope.keep_names : (s.keep caseId ids).names = s.names := rfl

@[simp] theorem Scope.keep_kept : (s.keep caseId ids).kept caseId = ids := if_pos rfl

theorem Scope.keep_kept_of_ne {k : Str} (h : k ≠ caseId) :
    (s.keep caseId ids).kept k = s.kept k :=
  if_neg h

theorem Inv.mono {s' : Scope} (h : Inv s w) (hw : s'.watched = s.watched)
    (hn : s'.names = s.names) (hk : ∀ k, s'.kept k ⊆ s.kept k) : Inv s' w := by
  refine ⟨h.keyed, fun k c hc hwk => ?_, h.uids, hn ▸ h.nonempty,
    fun k id hid => h.kept k id (hk k hid)⟩
  have hh := h.held k c hc (hw ▸ hwk)
  exact ⟨hn ▸ hh.tidy, hh.fresh, fun id hid => hh.kept id (hk _ hid)⟩

theorem Inv.keep_mono (h : Inv (s.keep caseId ids) w) (hsub : ids' ⊆ ids) :
    Inv (s.keep caseId ids') w := by
  refine h.mono rfl rfl fun k => ?_
  by_cases hk : k = caseId
  · subst hk
    simpa using hsub
  · rw [Scope.keep_kept_of_ne hk, Scope.keep_kept_of_ne hk]
    exact fun _ hid => hid

theorem Inv.unkeep (h : Inv (s.keep caseId ids) w) (hs : s.kept caseId = []) : Inv s w := by
  refine h.mono rfl rfl fun k => ?_
  by_cases hk : k = caseId
  · subst hk
    simp [hs]
  · rw [Scope.keep_kept_of_ne hk]
    exact fun _ hid => hid

/-- The first of the kept ids may be given to an item of the case. -/
theorem Inv.supplied {id : Str} {data : ItemData} (h : Inv (s.keep caseId (id :: ids)) w)
    (hid : data.id = some id) (hnd : (id :: ids).Nodup) (hne : s.names → id ≠ []) :
    Supplied (s.keep caseId ids) caseId data w := by
  intro id' hid' hk c hc
  obtain rfl : id = id' := Option.some.inj (hid.symm.trans hid')
  have hkey := h.keyed _ _ hc
  have hheld := h.held _ _ hc hk
  refine ⟨hheld.kept id ?_, h.kept caseId id ?_, ?_, hne⟩
  · rw [hkey, Scope.keep_kept]
    exact List.mem_cons_self
  · rw [Scope.keep_kept]
    exact List.mem_cons_self
  · rw [hkey, Scope.keep_kept]
    exact (List.nodup_cons.mp hnd).1

theorem triple_appendAll (hs : s.kept caseId = []) (items : List ItemData)
    (hnames : s.names → items = []) (hnd : (items.filterMap (·.id)).Nodup) :
    Triple (handle es) (Inv (s.keep caseId (items.filterMap (·.id)))) (appendAll caseId items)
      (fun _ => Inv s) (Inv s) := by
  induction items with
  | nil => exact triple_pure fun w h => h.unkeep hs
  | cons data rest ih =>
    have hnot : ¬ s.names := fun hn => by simp at hnames; exact hnames hn
    have ih := ih fun hn => absurd hn hnot
    intro w hw
    cases hid : data.id with
    | none =>
      rw [List.filterMap_cons, hid] at hw hnd
      refine Triple.bind (P := Inv _) (E := Inv s) ?_ (fun _ => ih hnd) w hw
      exact (triple_appendItem caseId data).conseq
        (fun w h => ⟨h, fun id hsome => by simp [hid] at hsome, fun hn => absurd hn hnot⟩)
        (fun _ _ h => h) fun _ h => h.unkeep hs
    | some id =>
      rw [List.filterMap_cons, hid] at hw hnd
      refine Triple.bind (P := Inv _) (E := Inv s) ?_ (fun _ => ih hnd.of_cons) w hw
      exact (triple_appendItem caseId data).conseq
        (fun w h => ⟨h.keep_mono (List.subset_cons_self _ _),
          h.supplied hid hnd fun hn => absurd hn hnot, fun hn => absurd hn hnot⟩)
        (fun _ _ h => h) fun _ h => h.unkeep hs

/-- The ids of the items of a new case are distinct, and none of them is a random id to come. -/
structure ItemsNew (items : List ItemData) (w : World) : Prop where
  nodup : (items.filterMap (·.id)).Nodup
  fresh : ∀ id ∈ items.filterMap (·.id), ∀ n, w.nextUid ≤ n → w.uids n ≠ id

theorem run_createNewCase (c : Case) : (createNewCase c).run (handle es) w =
    (match w.cases c.caseId with
      | some _ => (.error .versionConflict, w)
      | none => w.write (·.setCase c)) :=
  run_attempt es rfl

theorem triple_createCase (hs : ∀ k, s.kept k = []) (case : Case) (items : List ItemData)
    (user : Option Str) (hnames : s.names → items = []) : Triple (handle es)
    (fun w => Inv s w ∧ ItemsNew items w) (createCase case items user)
    (fun _ => Inv s) (Inv s) := by
  intro w ⟨hw, hnd, hfresh⟩
  refine ends_bind_ok (run_randomId es w) ?_
  refine ends_bind_ok (run_now es _) ?_
  have hinv := hw.drawn (drawn_next w)
  have hfresh' : ∀ id ∈ items.filterMap (·.id), ∀ n, w.nextUid + 1 ≤ n → w.uids n ≠ id :=
    fun id hid n hn => hfresh id hid n (Nat.le_of_succ_le hn)
  generalize w.uids w.nextUid = caseId
  generalize hw₁ : { w with nextUid := w.nextUid + 1 } = w₁ at hinv
  generalize hc : newCase case caseId _ user = c
  have hcase : c.caseId = caseId ∧ c.items = [] := hc ▸ ⟨rfl, rfl⟩
  have hready : w₁.cases caseId = none →
      Ready (s.keep caseId (items.filterMap (·.id))) c w₁ := by
    intro hnone
    refine ⟨⟨hinv.keyed, fun k c' hc' hk => ?_, hinv.uids, hinv.nonempty, fun k id hid => ?_⟩,
      fun _ => ⟨hcase.2 ▸ tidy_nil, by simp [hcase.2], by simp [hcase.2]⟩⟩
    · have hne : c'.caseId ≠ caseId := by
        intro heq
        rw [← heq, hinv.keyed k c' hc', hc'] at hnone
        contradiction
      have hh := hinv.held k c' hc' hk
      refine ⟨hh.tidy, hh.fresh, fun id hid => hh.kept id ?_⟩
      rwa [Scope.keep_kept_of_ne hne] at hid
    · by_cases hk : k = caseId
      · subst hk
        rw [Scope.keep_kept] at hid
        subst hw₁
        exact hfresh' id hid
      · rw [Scope.keep_kept_of_ne hk] at hid
        exact hinv.kept k id hid
  obtain ⟨rfl, hitems⟩ := hcase
  have hcreate : Ends (handle es) (createNewCase c) w₁
      (fun _ => Inv (s.keep c.caseId (items.filterMap (·.id)))) (Inv s) := by
    rw [Ends, run_createNewCase]
    cases hnone : w₁.cases c.caseId with
    | some _ => exact ends_throw (H := handle es) (e := HowlerError.versionConflict) hinv
    | none =>
      have htriple : Ends (handle es) (saveCase c) w₁ _ _ := triple_saveCase w₁ (hready hnone)
      rw [Ends, run_saveCase] at htriple
      exact ⟨fun a w' hr => (htriple.1 a w' hr).inv,
        fun e w' hr => (htriple.2 e w' hr).inv.unkeep (hs _)⟩
  refine hcreate.bind fun _ w₂ hw₂ => ?_
  refine (triple_appendAll (hs _) items hnames hnd w₂ hw₂).bind fun _ w₃ hw₃ => ?_
  rw [reread]
  split
  · exact ends_pure hw₃
  · exact ends_of_snd (by rwa [run_fetchCase])

end Create

end Howler.Cases
