import Howler.Bundles.Creation
import Howler.Bundles.Removal

namespace Howler.Bundles

open Python Structures Cases Systems.Prog

section Append

variable {es : Elastic} {w w₁ w₂ : World} {k : Str} {c c₁ c₂ : Case}

/-- Items are appended to a case, and nothing else is changed but what refers to it. -/
structure Extends (k : Str) (c : Case) (w : World) (c' : Case) (w' : World) : Prop where
  cases : w'.cases = Function.update w.cases k (some c')
  caseId : c'.caseId = c.caseId
  items : ∀ i ∈ c.items, i ∈ c'.items
  frame : Frame w w'
  stored : ∀ h, w.records .hit h = none ↔ w'.records .hit h = none
  related : ∀ h r', w'.records .hit h = some r' → ∃ r, w.records .hit h = some r ∧
    r.related ⊆ r'.related ∧ ∀ x ∈ r'.related, x ∈ r.related ∨ x = k

theorem Extends.refl (hc : w.cases k = some c) : Extends k c w c w := by
  refine ⟨?_, rfl, fun i hi => hi, .refl w, fun _ => Iff.rfl, fun h r' hr => ?_⟩
  · rw [← hc, Function.update_eq_self]
  · exact ⟨r', hr, fun x hx => hx, fun x hx => .inl hx⟩

theorem Extends.draw (h : Extends k c w c₁ w₁) :
    Extends k c w c₁ (w₁.atUid (w₁.nextUid + 1)) := by
  refine ⟨h.cases, h.caseId, h.items, h.frame.trans ?_, h.stored, h.related⟩
  exact ⟨rfl, rfl, Nat.le_succ _, fun hk => ⟨hk.cases, hk.records⟩⟩

theorem Extends.trans (h : Extends k c w c₁ w₁) (h' : Extends k c₁ w₁ c₂ w₂) :
    Extends k c w c₂ w₂ := by
  refine ⟨?_, h'.caseId.trans h.caseId, fun i hi => h'.items i (h.items i hi), h.frame.trans h'.frame,
    fun x => (h.stored x).trans (h'.stored x), fun x r₂ hr₂ => ?_⟩
  · rw [h'.cases, h.cases, Function.update_idem]
  · obtain ⟨r₁, hr₁, hsub₁, hnew₁⟩ := h'.related x r₂ hr₂
    obtain ⟨r, hr, hsub, hnew⟩ := h.related x r₁ hr₁
    refine ⟨r, hr, fun y hy => hsub₁ (hsub hy), fun y hy => ?_⟩
    rcases hnew₁ y hy with hy | hy
    · exact hnew y hy
    · exact .inr hy

theorem Extends.get (h : Extends k c w c₁ w₁) : w₁.cases k = some c₁ := by
  rw [h.cases, Function.update_self]

theorem Extends.isStored (h : Extends k c w c₁ w₁) (x : Str) : isStored w₁ x = isStored w x := by
  have hx := h.stored x
  unfold Bundles.isStored
  cases hr : w.records .hit x <;> cases hr₁ : w₁.records .hit x <;> simp_all

/-- A hit that is appended. -/
theorem extends_of_appends {v : Str} {parent : Option Str} {r : Record}
    (hr : w.records .hit v = some r) (ha : Appends v parent r c w c₁ w₁) : Extends c.caseId c w c₁ w₁ := by
  obtain ⟨i, hitems, -⟩ := ha.items
  refine ⟨ha.cases, ha.caseId, fun j hj => ?_, ha.frame, fun x => ?_, fun x r' hr' => ?_⟩
  · rw [hitems]
    exact List.mem_append_left _ hj
  · rw [ha.records]
    split
    · next heq => simp [heq, hr]
    · exact Iff.rfl
  · rw [ha.records] at hr'
    split at hr'
    · next heq =>
      obtain rfl := Option.some.inj hr'
      refine ⟨r, heq ▸ hr, fun y hy => mem_addBackreference.mpr (.inl hy), fun y hy => ?_⟩
      exact mem_addBackreference.mp hy
    · exact ⟨r', hr', fun y hy => hy, fun y hy => .inl hy⟩

/-- A hit stands at the root of a case and refers to it. -/
def AtRoot (k h : Str) (c : Case) (w : World) : Prop :=
  (∃ i ∈ c.items, i.type = .hit ∧ i.value = h ∧ i.parent = none) ∧
    ∃ r, w.records .hit h = some r ∧ k ∈ r.related

theorem AtRoot.extends {h : Str} (hat : AtRoot k h c w) (he : Extends k c w c₁ w₁) :
    AtRoot k h c₁ w₁ := by
  obtain ⟨⟨i, hi, hroot⟩, r, hr, hk⟩ := hat
  refine ⟨⟨i, he.items i hi, hroot⟩, ?_⟩
  obtain ⟨r₁, hr₁⟩ := Option.ne_none_iff_exists'.mp
    fun hnone => by simp [(he.stored h).mpr hnone] at hr
  obtain ⟨r₀, hr₀, hsub, -⟩ := he.related h r₁ hr₁
  obtain rfl := Option.some.inj (hr.symm.trans hr₀)
  exact ⟨r₁, hr₁, hsub hk⟩

theorem run_appendNewItem {v : Str} (hc : w.cases k = some c) :
    (appendNewItem k .hit v none none).run (handle es) w =
      (appendHitTo c v none none).run (handle es) w := by
  rw [appendNewItem, run_bind_ok (run_fetchCase_some es _ hc)]
  rfl

variable (es) in
/-- A hit that is appended at the root of a case stands there and refers to the case. -/
theorem run_appendNewItem_ok (hs : w.Sound) (hk : w.Keyed) {v : Str} (hv : v ≠ []) {r : Record}
    (hc : w.cases c.caseId = some c) (hr : w.records .hit v = some r) (hnew : ¬ Listed c v) :
    ∃ c₁ w₁, (appendNewItem c.caseId .hit v none none).run (handle es) w = (.ok c₁, w₁) ∧
      Appends v none r c w c₁ w₁ ∧ AtRoot c.caseId v c₁ w₁ := by
  have hparent : Case.checkParent c (optionalText none) = .ok () := rfl
  obtain ⟨c₁, w₁, hrun, ha⟩ := run_appendHitTo_ok es hs hk hv hr hparent hnew none
  refine ⟨c₁, w₁, (run_appendNewItem hc).trans hrun, ha, ?_, ?_⟩
  · obtain ⟨i, hitems, htype, hvalue, hroot, -⟩ := ha.items
    refine ⟨i, ?_, htype, hvalue, hroot⟩
    rw [hitems]
    exact List.mem_append_right _ (List.mem_singleton.mpr rfl)
  · exact ⟨_, (ha.records v).trans (if_pos rfl), mem_addBackreference.mpr (.inr rfl)⟩

variable (es) in
/-- Hits are appended one after the other: those that were come to stand at the root, and where not
all of them were, the last one was refused. -/
theorem run_appendHits (hs : w.Sound) (hk : w.Keyed) (hc : w.cases c.caseId = some c)
    (ids : List Str) :
    ∃ r c₁ w₁, (appendHits c.caseId ids).run (handle es) w = (r, w₁) ∧
      Extends c.caseId c w c₁ w₁ ∧
      (r = .ok () → ∀ id ∈ ids, isStored w id → AtRoot c.caseId id c₁ w₁) := by
  induction ids generalizing w c with
  | nil => exact ⟨.ok (), c, w, rfl, .refl hc, fun _ _ hid => by cases hid⟩
  | cons id ids ih =>
    rw [appendHits, run_bind_ok (run_getRecord es w .hit id)]
    cases hr : w.records .hit id with
    | none =>
      obtain ⟨r, c₁, w₁, hrun, he, hroot⟩ := ih hs hk hc
      refine ⟨r, c₁, w₁, hrun, he, fun hok x hx hstored => ?_⟩
      rcases List.mem_cons.mp hx with rfl | hx
      · simp [isStored, hr] at hstored
      · exact hroot hok x hx hstored
    | some record =>
      dsimp only [Option.map_some]
      by_cases hid : id = []
      · have hrun : (appendNewItem c.caseId .hit id none none).run (handle es) w = (.error
            (.invalidData "item_type and item_value are required if item is not provided".toList),
              w) := by
          rw [run_appendNewItem hc, appendHitTo, if_pos hid]
          rfl
        exact ⟨_, c, w, run_bind_error hrun _, .refl hc, fun h => by cases h⟩
      by_cases hlisted : Listed c id
      · have hparent : Case.checkParent c (optionalText none) = .ok () := rfl
        obtain ⟨message, hrun⟩ := run_appendHitTo_listed (w := w) es hid hparent hlisted none
        exact ⟨_, c, _, run_bind_error ((run_appendNewItem hc).trans hrun) _, (Extends.refl hc).draw,
          fun h => by cases h⟩
      · obtain ⟨c₁, w₁, hrun, ha, hat⟩ := run_appendNewItem_ok es hs hk hid hc hr hlisted
        have he := extends_of_appends hr ha
        have hid₁ := ha.caseId
        have hc₁ : w₁.cases c₁.caseId = some c₁ := hid₁ ▸ he.get
        obtain ⟨r, c₂, w₂, hrun₂, he₂, hroot⟩ := ih (he.frame.sound hs) (he.frame.keyed hk) hc₁
        rw [hid₁] at hrun₂ he₂ hroot
        refine ⟨r, c₂, w₂, (run_bind_ok hrun _).trans hrun₂, he.trans he₂, fun hok x hx hstored => ?_⟩
        rcases List.mem_cons.mp hx with rfl | hx
        · exact hat.extends he₂
        · exact hroot hok x hx ((he.isStored x).trans hstored)

/-- Hits that do not exist are left out. -/
theorem run_appendHits_missing {ids : List Str} (hids : ∀ id ∈ ids, isStored w id = false) :
    (appendHits k ids).run (handle es) w = (.ok (), w) := by
  induction ids with
  | nil => rfl
  | cons id ids ih =>
    have hnone : w.records .hit id = none := by
      have hid := hids id (List.mem_cons_self ..)
      rw [isStored] at hid
      exact Option.not_isSome_iff_eq_none.mp (by simp [hid])
    rw [appendHits, run_bind_ok (run_getRecord es w .hit id), hnone]
    exact ih fun x hx => hids x (List.mem_cons_of_mem _ hx)

variable (es) in
/-- The first hit that exists is appended, if the case does not list it. -/
theorem run_appendHits_some (hs : w.Sound) (hk : w.Keyed) (hc : w.cases c.caseId = some c)
    (hempty : w.records .hit [] = none) {ids : List Str} (hnew : ∀ id ∈ ids, ¬ Listed c id)
    (hids : ∃ id ∈ ids, isStored w id = true) :
    ∃ r c₁ w₁, (appendHits c.caseId ids).run (handle es) w = (r, w₁) ∧
      Extends c.caseId c w c₁ w₁ ∧ ∃ id ∈ ids, AtRoot c.caseId id c₁ w₁ := by
  induction ids with
  | nil => exact absurd hids (by simp)
  | cons id ids ih =>
    rw [appendHits, run_bind_ok (run_getRecord es w .hit id)]
    cases hr : w.records .hit id with
    | none =>
      have hrest : ∃ x ∈ ids, isStored w x = true := by
        obtain ⟨x, hx, hstored⟩ := hids
        rcases List.mem_cons.mp hx with rfl | hx
        · simp [isStored, hr] at hstored
        · exact ⟨x, hx, hstored⟩
      obtain ⟨r, c₁, w₁, hrun, he, x, hx, hat⟩ := ih (fun x hx => hnew x (List.mem_cons_of_mem _ hx))
        hrest
      exact ⟨r, c₁, w₁, hrun, he, x, List.mem_cons_of_mem _ hx, hat⟩
    | some record =>
      dsimp only [Option.map_some]
      have hid : id ≠ [] := by
        rintro rfl
        rw [hempty] at hr
        cases hr
      obtain ⟨c₁, w₁, hrun, ha, hat⟩ := run_appendNewItem_ok es hs hk hid hc hr
        (hnew id (List.mem_cons_self ..))
      have he := extends_of_appends hr ha
      have hid₁ := ha.caseId
      have hc₁ : w₁.cases c₁.caseId = some c₁ := hid₁ ▸ he.get
      obtain ⟨r, c₂, w₂, hrun₂, he₂, -⟩ := run_appendHits es (he.frame.sound hs)
        (he.frame.keyed hk) hc₁ ids
      rw [hid₁] at hrun₂ he₂
      exact ⟨r, c₂, w₂, (run_bind_ok hrun _).trans hrun₂, he.trans he₂, id, List.mem_cons_self ..,
        hat.extends he₂⟩

end Append

section Add

variable {es : Elastic} {w w₁ w' : World} {L : Legacy} {b k : Str} {c c₁ : Case} {cs ids : List Str}

theorem run_checkHits (es : Elastic) (w : World) (b : Str) (existing ids : List Str) :
    ∃ r, (checkHits es b existing ids).run w = (r, w) ∧
      (r = .ok () ↔ ∀ id ∈ ids, id ∉ existing ∧ caseForBundle w id = none) := by
  induction ids with
  | nil => exact ⟨.ok (), rfl, by simp⟩
  | cons id ids ih =>
    obtain ⟨r, hrun, hr⟩ := ih
    rw [checkHits, List.forall_mem_cons]
    by_cases hlisted : id ∈ existing
    · rw [if_pos hlisted]
      exact ⟨_, rfl, by simp [hlisted]⟩
    · rw [if_neg hlisted, run_bind_call (run_findCaseForBundle w id)]
      cases hcase : caseForBundle w id with
      | none => exact ⟨r, hrun, by rw [hr, and_iff_right ⟨hlisted, rfl⟩]⟩
      | some c => exact ⟨_, rfl, by simp⟩

/-- The part of `add_to_bundle` after the case is known. -/
def addToCase (es : Elastic) (b : Str) (hitIds : List Str) (k : Str) : BundleM Response := do
  let current ← call es (fetchCase k (caseNotFound k))
  checkHits es b (current.items.map (·.value)) hitIds
  call es (appendHits k hitIds)
  let updated ← call es (fetchCase k (caseNotFound k))
  return synthesizeBundleResponse updated b []

theorem run_addToBundle_found (names : Str → HitNames) {r : Record} (hb : w.records .hit b = some r)
    (hfound : caseForBundle w b = some c) (ids : List Str) :
    (addToBundle names es b ids).run w = (addToCase es b ids c.caseId).run w := by
  have hensure : (ensureCase names es b).run w = (.ok c.caseId, w) := by
    rw [ensureCase, run_bind_call (run_findCaseForBundle w b), hfound]
    rfl
  rw [addToBundle, run_bind_call (run_getRecord es w .hit b), hb, Option.map_some]
  exact run_exceptT_bind_ok hensure _

variable (es) in
/-- A hit that is no bundle yet gets a case, which lists the hit itself. -/
theorem run_addToBundle_new (names : Str → HitNames) (hs : w.Sound) (hk : w.Keyed)
    (hnew : w.cases (w.uids w.nextUid) = none) {r : Record} (hb : w.records .hit b = some r)
    (hempty : b ≠ []) (hnone : caseForBundle w b = none) (ids : List Str) :
    ∃ c w₁ i, (addToBundle names es b ids).run w = (addToCase es b ids c.caseId).run w₁ ∧
      Building w b c.caseId c w₁ ∧ c.items = [i] ∧ IsRoot b i ∧ AtRoot c.caseId b c w₁ := by
  have hb' : w.records .hit b ≠ none := by simp [hb]
  have hstart := building_start hb' (caseData (names b) b) none
  have hcreate := run_createCase_empty es hs hnew (caseData (names b) b) none
  have hlisted : ¬ Listed (emptyCase w (caseData (names b) b) none) b := fun h => nomatch h.choose_spec.1
  obtain ⟨c, w₁, happend, ha, hat⟩ := run_appendNewItem_ok es (hstart.frame.sound hs)
    (hstart.frame.keyed hk) hempty hstart.get (show _ = some r from hb) hlisted
  have hbuilding := hstart.append (show _ = some r from hb) ha fun h => h
  obtain ⟨i, hitems, htype, hvalue, hparent, -⟩ := ha.items
  have hid : c.caseId = w.uids w.nextUid := ha.caseId
  have hensure : (ensureCase names es b).run w = (.ok c.caseId, w₁) := by
    rw [ensureCase, run_bind_call (run_findCaseForBundle w b), hnone]
    dsimp only
    rw [run_bind_call hcreate, run_bind_call happend, ha.caseId]
    rfl
  refine ⟨c, w₁, i, ?_, hid ▸ hbuilding, hitems, ⟨htype, hvalue, hparent⟩, ha.caseId.symm ▸ hat⟩
  rw [addToBundle, run_bind_call (run_getRecord es w .hit b), hb, Option.map_some]
  exact run_exceptT_bind_ok hensure _

variable (es) in
/-- Whatever comes of an addition, the case keeps its items. Where it is answered, the hits were no
bundles, and they stand at the root of the case now. -/
theorem run_addToCase (hs : w.Sound) (hk : w.Keyed) (hc : w.cases c.caseId = some c)
    (b : Str) (ids : List Str) :
    ∃ r c₁ w₁, (addToCase es b ids c.caseId).run w = (r, w₁) ∧ Extends c.caseId c w c₁ w₁ ∧
      ∀ response, r = .ok response → response = synthesizeBundleResponse c₁ b [] ∧
        ∀ id ∈ ids, id ∉ c.items.map (·.value) ∧ caseForBundle w id = none ∧
          (isStored w id → AtRoot c.caseId id c₁ w₁) := by
  obtain ⟨checked, hcheck, hchecked⟩ := run_checkHits es w b (c.items.map (·.value)) ids
  rw [addToCase, run_bind_call (run_fetchCase_some es _ hc)]
  cases checked with
  | error e => exact ⟨_, c, w, run_bind_raise hcheck _, .refl hc, fun _ h => nomatch h⟩
  | ok u =>
    rw [run_exceptT_bind_ok hcheck]
    obtain ⟨r, c₁, w₁, hrun, he, hat⟩ := run_appendHits es hs hk hc ids
    cases r with
    | error e => exact ⟨_, c₁, w₁, run_bind_raise (run_call_error hrun) _, he, fun _ h => nomatch h⟩
    | ok u =>
      rw [run_bind_call hrun, run_bind_call (run_fetchCase_some es _ he.get)]
      refine ⟨_, c₁, w₁, rfl, he, fun response h => ⟨(Except.ok.inj h).symm, fun id hid => ?_⟩⟩
      obtain ⟨hnot, hnone⟩ := hchecked.mp rfl id hid
      exact ⟨hnot, hnone, hat rfl id hid⟩

/-- A hit that was no bundle is taken for one when it stands at the root of a case. -/
theorem caseForBundle_of_atRoot {h : Str} (he : Extends k c w c₁ w₁) (hat : AtRoot k h c₁ w₁)
    (hnone : caseForBundle w h = none) : caseForBundle w₁ h = some c₁ := by
  obtain ⟨⟨i, hi, -, hvalue, hparent⟩, r₁, hr₁, hk⟩ := hat
  obtain ⟨c', hc'⟩ := isSome_relatedCase hk he.get ⟨i, hi, hvalue, hparent⟩
  obtain ⟨k', hk', hcase, hroot⟩ := relatedCase_eq_some hc'
  have hfound : caseForBundle w₁ h = some c' := by rw [caseForBundle, hr₁, Option.bind_some, hc']
  by_cases heq : k' = k
  · rw [heq, he.get] at hcase
    rw [hfound, Option.some.inj hcase]
  · obtain ⟨r, hr, -, hnew⟩ := he.related h r₁ hr₁
    have hold : k' ∈ r.related := (hnew k' hk').resolve_right heq
    rw [he.cases, Function.update_of_ne heq] at hcase
    obtain ⟨c'', hc''⟩ := isSome_relatedCase hold hcase hroot
    rw [caseForBundle, hr, Option.bind_some, hc''] at hnone
    cases hnone

variable (names : Str → HitNames)

/-- A hit that was added to a bundle is taken for a bundle itself from then on: it and the bundle
share a case, and no new bundle can have the hit as a child. -/
theorem added_isBundle (es : Elastic) (hs : w.Sound) (hk : w.Keyed)
    (hnew : w.cases (w.uids w.nextUid) = none) (hempty : w.records .hit [] = none)
    {response : Response} (hrun : (addToBundle names es b ids).run w = (.ok response, w')) :
    ∀ id ∈ ids, isStored w id →
      (∃ c, caseForBundle w' id = some c ∧ c.caseId = response.caseId) ∧
      ∀ data childIds user, id ∈ childIds →
        ∃ e, (createBundle names es data childIds user).run w' = (.error e, w') := by
  intro id hid hstored
  obtain ⟨r, hb⟩ : ∃ r, w.records .hit b = some r := by
    cases hb : w.records .hit b with
    | some r => exact ⟨r, rfl⟩
    | none =>
      rw [addToBundle, run_bind_call (run_getRecord es w .hit b), hb] at hrun
      cases hrun
  -- the case of the bundle is known, or it is created
  obtain ⟨c, w₁, hcase, hs₁, hk₁, hc₁, hkept⟩ : ∃ c w₁,
      (addToBundle names es b ids).run w = (addToCase es b ids c.caseId).run w₁ ∧ w₁.Sound ∧
        w₁.Keyed ∧ w₁.cases c.caseId = some c ∧ (isStored w id → isStored w₁ id) := by
    cases hfound : caseForBundle w b with
    | some c =>
      obtain ⟨r', hr', hrelated⟩ := Option.bind_eq_some_iff.mp hfound
      obtain ⟨k, -, hck, -⟩ := relatedCase_eq_some hrelated
      have hid := hk.cases k c hck
      refine ⟨c, w, run_addToBundle_found names hb hfound ids, hs, hk, ?_, fun h => h⟩
      rw [hid, hck]
    | none =>
      have hne : b ≠ [] := by
        rintro rfl
        rw [hempty] at hb
        cases hb
      obtain ⟨c, w₁, i, hrun₁, hbuilding, -⟩ :=
        run_addToBundle_new es names hs hk hnew hb hne hfound ids
      refine ⟨c, w₁, hrun₁, hbuilding.frame.sound hs, hbuilding.frame.keyed hk, hbuilding.get,
        fun h => ?_⟩
      obtain ⟨record, hrecord⟩ := Option.isSome_iff_exists.mp h
      obtain ⟨r', hr', -⟩ := hbuilding.kept id record hrecord
      rw [isStored, hr']
      rfl
  obtain ⟨r', c₁, w₂, hrun₂, he, hat⟩ := run_addToCase es hs₁ hk₁ hc₁ b ids
  rw [hcase, hrun₂, Prod.mk.injEq] at hrun
  obtain ⟨hok, rfl⟩ := hrun
  obtain ⟨hresponse, hadded⟩ := hat response hok
  obtain ⟨-, hnone, hroot⟩ := hadded id hid
  have hfound := caseForBundle_of_atRoot he (hroot (hkept hstored)) hnone
  refine ⟨⟨c₁, hfound, by rw [hresponse]; rfl⟩, fun data childIds user hchild => ?_⟩
  obtain ⟨checked, hcheck, hchecked⟩ := run_checkChildren es w₂ childIds
  have hnil : childIds ≠ [] := List.ne_nil_of_mem hchild
  rw [createBundle, if_neg hnil]
  cases checked with
  | error e => exact ⟨_, run_bind_raise (run_call_error hcheck) _⟩
  | ok u =>
    have habsent := hchecked.mp rfl id hchild
    rw [hfound] at habsent
    cases habsent

theorem added_isBundle_twoHits : ∃ response w',
    (addToBundle noNames noSearches ['a'] [['b']]).run twoHits = (.ok response, w') ∧
      (∃ c, caseForBundle w' ['b'] = some c ∧ c.caseId = response.caseId) := by
  refine ⟨_, _, rfl, ?_⟩
  have hadded := @added_isBundle twoHits _ ['a'] [['b']] noNames noSearches pristine_twoHits.sound
    pristine_twoHits.keyed rfl rfl _ rfl
  exact (hadded ['b'] (List.mem_singleton.mpr rfl) rfl).1

/-- An addition that the legacy model knows: the hit is missing, none of the hits exists, or one of
them is refused by a bundle that has its case already. -/
def Harmless (w : World) (L : Legacy) (b : Str) (ids : List Str) : Prop :=
  w.records .hit b = none ∨ (∀ id ∈ ids, isStored w id = false) ∨
    ∃ c, caseForBundle w b = some c ∧ ∃ id ∈ ids, id ∈ c.items.map (·.value) ∨ L id ≠ none

/-- Two hits at the root of a case are no bundle with its children. -/
theorem AtRoot.unique {h h' : Str} {w : World} (hat : AtRoot k h c w) (hat' : AtRoot k h' c w)
    (hp : Placed c.items b cs) : h = h' := by
  have hvalue {x : Str} (hx : AtRoot k x c w) : x = b := by
    obtain ⟨⟨i, hi, htype, rfl, hparent⟩, -⟩ := hx
    refine (hp.atRoot hi hparent).resolve_right fun h => ?_
    rw [htype] at h
    cases h.2
  rw [hvalue hat, hvalue hat']

theorem Placed.mem_values (hp : Placed c.items b cs) {id : Str} (hid : id ∈ c.items.map (·.value)) :
    id = b ∨ id = hitsName ∨ id ∈ cs := by
  obtain ⟨i, hi, rfl⟩ := List.mem_map.mp hid
  rcases hp.shape i hi with hroot | hfolder | hchild
  · exact .inl hroot.2.1
  · exact .inr (.inl hfolder.2.1)
  · exact (hp.mem_of_hit hi hchild.1).imp_right .inr

/-- A bundle that refuses a hit was not asked for something acceptable. -/
theorem not_accepts_of_checked (es : Elastic) (hw : Refines w L) (hL : L b = some cs)
    (hp : Placed c.items b cs) {e : BundleError}
    (hcheck : (checkHits es b (c.items.map (·.value)) ids).run w = (.error e, w)) :
    ¬ Accepts w L (.add b ids) := by
  intro haccepts
  obtain ⟨checked, hcheck', hchecked⟩ := run_checkHits es w b (c.items.map (·.value)) ids
  obtain ⟨rfl, -⟩ := Prod.mk.inj (hcheck'.symm.trans hcheck)
  have hok := hchecked.mpr fun id hid => by
    obtain ⟨hidb, hname, hchild, hLid⟩ := haccepts.2 id hid
    rw [hL, Option.getD_some] at hchild
    refine ⟨fun hmem => ?_, hw.caseForBundle_none hLid⟩
    rcases hp.mem_values hmem with heq | heq | hmem
    · exact hidb heq
    · exact hname heq
    · exact hchild hmem
  cases hok

/-- Nothing is added to a bundle. -/
theorem agrees_of_missing_found (es : Elastic) (hw : Refines w L) {r : Record}
    (hb : w.records .hit b = some r) (hL : L b = some cs)
    (hmissing : ∀ id ∈ ids, isStored w id = false) :
    Agrees w L (.add b ids) ((addToBundle names es b ids).run w) := by
  obtain ⟨c, hfound, hc, hp, -⟩ := hw.caseForBundle_some hL
  obtain ⟨checked, hcheck, -⟩ := run_checkHits es w b (c.items.map (·.value)) ids
  rw [run_addToBundle_found names hb hfound, addToCase, run_bind_call (run_fetchCase_some es _ hc)]
  cases checked with
  | error e =>
    rw [run_bind_raise hcheck]
    exact agrees_of_raise _ (not_accepts_of_checked es hw hL hp hcheck) rfl rfl hw
  | ok u =>
    rw [run_exceptT_bind_ok hcheck, run_bind_call (run_appendHits_missing hmissing),
      run_bind_call (run_fetchCase_some es _ hc)]
    have hhits : (synthesizeBundleResponse c b []).hits = cs := hp.children
    have hafter : childrenAfter w L (.add b ids) = cs := by
      rw [childrenAfter, addAll_of_missing hmissing, hL]
      rfl
    have hsame : Function.update L b (some cs) = L := by rw [← hL, Function.update_eq_self]
    refine agrees_of_answer rfl (hhits.trans hafter.symm) ?_
    change Refines w (Function.update L b (some _))
    rw [hhits, hsame]
    exact hw

/-- A hit becomes a bundle without children. -/
theorem agrees_of_missing_new (es : Elastic) (hw : Refines w L) {r : Record}
    (hb : w.records .hit b = some r) (hL : L b = none)
    (hmissing : ∀ id ∈ ids, isStored w id = false) :
    Agrees w L (.add b ids) ((addToBundle names es b ids).run w) := by
  have hne : b ≠ [] := by
    rintro rfl
    rw [hw.nonempty] at hb
    cases hb
  obtain ⟨c, w₁, i, hrun, hbuilding, hitems, hroot, -⟩ := run_addToBundle_new es names
    hw.sound hw.keyed (hw.fresh.case _ le_rfl) hb hne (hw.caseForBundle_none hL) ids
  have hmissing₁ : ∀ id ∈ ids, w₁.records .hit id = none := by
    intro id hid
    cases hr : w₁.records .hit id with
    | none => rfl
    | some r' =>
      have hstored := hmissing id hid
      rcases hbuilding.known id r' hr with hsome | rfl
      · simp [isStored, Option.ne_none_iff_isSome.mp hsome] at hstored
      · simp [isStored, hb] at hstored
  have hnone : ∀ id ∈ ids, isStored w₁ id = false := by
    intro id hid
    rw [isStored, hmissing₁ id hid]
    rfl
  obtain ⟨checked, hcheck, hchecked⟩ := run_checkHits es w₁ b (c.items.map (·.value)) ids
  obtain rfl : checked = .ok () := by
    refine hchecked.mpr fun id hid => ⟨fun hmem => ?_, ?_⟩
    · have hstored := hmissing id hid
      rw [hitems, List.map_singleton, List.mem_singleton, hroot.2.1] at hmem
      simp [isStored, hmem, hb] at hstored
    · rw [caseForBundle, hmissing₁ id hid, Option.bind_none]
  rw [hrun, addToCase, run_bind_call (run_fetchCase_some es _ hbuilding.get),
    run_exceptT_bind_ok hcheck, run_bind_call (run_appendHits_missing hnone),
    run_bind_call (run_fetchCase_some es _ hbuilding.get)]
  have hp : Placed c.items b [] := hitems ▸ placed_singleton hroot
  have hhits : (synthesizeBundleResponse c b []).hits = [] := hp.children
  have hafter : childrenAfter w L (.add b ids) = [] := by
    rw [childrenAfter, addAll_of_missing hmissing, hL]
    rfl
  refine agrees_of_answer rfl (hhits.trans hafter.symm) ?_
  rw [hhits]
  exact hbuilding.refines hw hL hp

/-- A bundle refuses what it lists already and what is a bundle. -/
theorem agrees_of_refused (es : Elastic) (hw : Refines w L) {r : Record}
    (hb : w.records .hit b = some r) (hfound : caseForBundle w b = some c) {id : Str}
    (hid : id ∈ ids) (hrefused : id ∈ c.items.map (·.value) ∨ L id ≠ none) :
    Agrees w L (.add b ids) ((addToBundle names es b ids).run w) := by
  obtain ⟨cs, hL⟩ : ∃ cs, L b = some cs := by
    cases hL : L b with
    | some cs => exact ⟨cs, rfl⟩
    | none =>
      rw [hw.caseForBundle_none hL] at hfound
      cases hfound
  obtain ⟨c', hfound', hc, hp, -⟩ := hw.caseForBundle_some hL
  obtain rfl := Option.some.inj (hfound.symm.trans hfound')
  obtain ⟨checked, hcheck, hchecked⟩ := run_checkHits es w b (c.items.map (·.value)) ids
  rw [run_addToBundle_found names hb hfound, addToCase, run_bind_call (run_fetchCase_some es _ hc)]
  cases checked with
  | error e =>
    rw [run_bind_raise hcheck]
    exact agrees_of_raise _ (not_accepts_of_checked es hw hL hp hcheck) rfl rfl hw
  | ok u =>
    obtain ⟨hnot, hnone⟩ := hchecked.mp rfl id hid
    rcases hrefused with hmem | hsome
    · exact absurd hmem hnot
    · obtain ⟨cs', hLid⟩ := Option.ne_none_iff_exists'.mp hsome
      obtain ⟨c', hc', -⟩ := hw.caseForBundle_some hLid
      rw [hnone] at hc'
      cases hc'

/-- An addition that the legacy model knows does what it does there. -/
theorem agrees_of_harmless (es : Elastic) (hw : Refines w L) (h : Harmless w L b ids) :
    Agrees w L (.add b ids) ((addToBundle names es b ids).run w) := by
  cases hb : w.records .hit b with
  | none =>
    have hrun : (addToBundle names es b ids).run w =
        (.error (.howler (bundleNotFound b)), w) := by
      rw [addToBundle, run_bind_call (run_getRecord es w .hit b), hb]
      rfl
    rw [hrun]
    exact agrees_of_raise _ (fun h => by simp [Accepts, isStored, hb] at h) rfl rfl hw
  | some r =>
    rcases h with h | hmissing | ⟨c, hfound, id, hid, hrefused⟩
    · rw [hb] at h
      cases h
    · cases hL : L b with
      | some cs => exact agrees_of_missing_found names es hw hb hL hmissing
      | none => exact agrees_of_missing_new names es hw hb hL hmissing
    · exact agrees_of_refused names es hw hb hfound hid hrefused

/-- What is appended to a case stands at its root, so that the case stands for no bundle any more. -/
theorem not_agrees_of_added (es : Elastic) (hw₁ : w₁.Sound) (hk₁ : w₁.Keyed)
    (hc₁ : w₁.cases c.caseId = some c) (hempty : w₁.records .hit [] = none)
    (hroot : AtRoot c.caseId b c w₁) (hcases : w.cases c.caseId = none ∨ w₁ = w)
    (hstored : ∃ id ∈ ids, isStored w₁ id = true)
    (hnew : w₁ = w → ∀ id ∈ ids, id ∉ c.items.map (·.value) ∧ caseForBundle w₁ id = none)
    (request : Call) : ¬ Agrees w L request ((addToCase es b ids c.caseId).run w₁) := by
  intro hagrees
  have hlisted {id : Str} (h : Listed c id) : id ∈ c.items.map (·.value) := by
    obtain ⟨i, hi, -, rfl⟩ := h
    exact List.mem_map_of_mem hi
  obtain ⟨r, c₂, w₂, hrun, he, hat⟩ := run_addToCase es hw₁ hk₁ hc₁ b ids
  rw [hrun] at hagrees
  cases r with
  | ok response =>
    obtain ⟨id, hid, hstored⟩ := hstored
    obtain ⟨-, hadded⟩ := hat response rfl
    obtain ⟨hnot, -, hroot₂⟩ := hadded id hid
    obtain ⟨b', cs', -, hp, -⟩ := hagrees.refines.placed _ c₂ he.get
    have heq := (hroot.extends he).unique (hroot₂ hstored) hp
    obtain ⟨⟨i, hi, -, hvalue, -⟩, -⟩ := hroot
    exact hnot (heq ▸ hvalue ▸ List.mem_map_of_mem hi)
  | error e =>
    have hsame := congrFun (hagrees.raised e rfl).1 c.caseId
    have hget : w₂.cases c.caseId = some c₂ := he.get
    rw [hget] at hsame
    rcases hcases with hnone | rfl
    · rw [hnone] at hsame
      cases hsame
    · -- the first of the hits was appended before the call was refused
      obtain ⟨checked, hcheck, hchecked⟩ := run_checkHits es w₁ b (c.items.map (·.value)) ids
      obtain rfl := hchecked.mpr (hnew rfl)
      obtain ⟨r', c₃, w₃, happend, he₃, id, hid, ⟨i, hi, htype, hvalue, -⟩, -⟩ :=
        run_appendHits_some es hw₁ hk₁ hc₁ hempty
          (fun id hid h => (hnew rfl id hid).1 (hlisted h)) hstored
      rw [addToCase, run_bind_call (run_fetchCase_some es _ hc₁), run_exceptT_bind_ok hcheck] at hrun
      have hw₂ : w₂ = w₃ := by
        cases r' with
        | error e' =>
          rw [run_bind_raise (run_call_error happend)] at hrun
          exact (Prod.mk.inj hrun).2.symm
        | ok u =>
          rw [run_bind_call happend, run_bind_call (run_fetchCase_some es _ he₃.get)] at hrun
          exact (Prod.mk.inj hrun).2.symm
      rw [hc₁, Option.some.injEq] at hsame
      rw [hw₂, he₃.get, Option.some.injEq] at hget
      have hmem : i ∈ c.items := by rw [← hsame, ← hget]; exact hi
      exact (hnew rfl id hid).1 (hvalue ▸ List.mem_map_of_mem hmem)

/-- An addition does what the legacy model does only where that model knows it. -/
theorem addToBundle_agrees_iff (es : Elastic) (hw : Refines w L) (b : Str) (ids : List Str) :
    Agrees w L (.add b ids) ((addToBundle names es b ids).run w) ↔ Harmless w L b ids := by
  refine ⟨fun hagrees => ?_, agrees_of_harmless names es hw⟩
  by_contra hharmful
  rw [Harmless, not_or, not_or] at hharmful
  obtain ⟨hb, hmissing, hrefused⟩ := hharmful
  push Not at hmissing hrefused
  obtain ⟨id, hid, hstored⟩ := hmissing
  have hstored : isStored w id = true := Bool.eq_true_of_not_eq_false hstored
  obtain ⟨r, hb⟩ := Option.ne_none_iff_exists'.mp hb
  have hne : b ≠ [] := by
    rintro rfl
    rw [hw.nonempty] at hb
    cases hb
  cases hL : L b with
  | some cs =>
    obtain ⟨c, hfound, hc, hp, -⟩ := hw.caseForBundle_some hL
    have hfree := hrefused c hfound
    obtain ⟨i, hi, htype, hvalue, hparent⟩ := hp.root
    obtain ⟨r', hr', hrelated⟩ := Option.bind_eq_some_iff.mp hfound
    obtain ⟨k, hk, hck, -⟩ := relatedCase_eq_some hrelated
    have hkid := hw.keyed.cases k c hck
    rw [run_addToBundle_found names hb hfound] at hagrees
    refine not_agrees_of_added es hw.sound hw.keyed hc hw.nonempty
      ⟨⟨i, hi, htype, hvalue, hparent⟩, r', hr', ?_⟩ (.inr rfl) ⟨id, hid, hstored⟩
      (fun _ x hx => ?_) _ hagrees
    · rw [hkid]
      exact hk
    · exact ⟨(hfree x hx).1, hw.caseForBundle_none (hfree x hx).2⟩
  | none =>
    have hnew := hw.fresh.case _ le_rfl
    obtain ⟨c, w₁, i, hrun, hbuilding, hitems, -, hat⟩ := run_addToBundle_new es names
      hw.sound hw.keyed hnew hb hne (hw.caseForBundle_none hL) ids
    obtain ⟨n, hn, -, hdrawn⟩ := hbuilding.case
    have hnone : w.cases c.caseId = none := hdrawn ▸ hw.fresh.case n hn
    rw [hrun] at hagrees
    refine not_agrees_of_added es (hbuilding.frame.sound hw.sound) (hbuilding.frame.keyed hw.keyed)
      hbuilding.get ?_ hat (.inl hnone) ⟨id, hid, ?_⟩ (fun heq => ?_) _ hagrees
    · cases hr : w₁.records .hit [] with
      | none => rfl
      | some r' =>
        rcases hbuilding.known _ r' hr with hsome | heq
        · exact absurd hw.nonempty hsome
        · exact absurd heq.symm hne
    · obtain ⟨record, hrecord⟩ := Option.isSome_iff_exists.mp hstored
      obtain ⟨r', hr', -⟩ := hbuilding.kept id record hrecord
      rw [isStored, hr']
      rfl
    · have hget := hbuilding.get
      rw [heq, hnone] at hget
      cases hget

theorem addToBundle_agrees_iff_twoHits : ¬ Agrees twoHits (fun _ => none) (.add ['a'] [['b']])
    ((addToBundle noNames noSearches ['a'] [['b']]).run twoHits) := by
  rw [addToBundle_agrees_iff noNames noSearches (refines_pristine pristine_twoHits)]
  rintro (hb | hmissing | ⟨c, hc, -⟩)
  · cases hb
  · exact absurd (hmissing ['b'] (List.mem_singleton.mpr rfl)) (by decide)
  · cases hc

end Add

end Howler.Bundles
