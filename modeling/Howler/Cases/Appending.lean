import Howler.Cases.Folders

namespace Howler.Cases

open Python Systems.Prog

/-- No write fails. -/
def World.Sound (w : World) : Prop := ∀ n, w.faults n = false

/-- The store after one more write. -/
def World.wrote (w : World) : World := { w with writes := w.writes + 1 }

/-- The classifications of the hits and events are the same, and so is which of them there are. -/
def SameRecords (w w' : World) : Prop :=
  ∀ t k, (w'.records t k).map (·.classification) = (w.records t k).map (·.classification)

/-- The second store is the first one with other items in one case, and maybe with other metadata
and references. -/
structure Replaces (k : Str) (items : List CaseItem) (w w' : World) : Prop where
  cases : ∃ c, w'.cases = Function.update w.cases k (some c) ∧ c.caseId = k ∧ c.items = items
  uids : w'.uids = w.uids
  sound : w'.Sound
  keyed : w'.Keyed
  records : SameRecords w w'

section Appending

variable (es : Elastic) {w : World} {c : Case} {i : CaseItem}

theorem write_sound (h : w.Sound) (f : World → World) : w.write f = (.ok (), f w.wrote) := by
  rw [World.write, if_neg (by rw [h]; simp)]
  rfl

theorem run_saveCase_sound (h : w.Sound) (c : Case) :
    (saveCase c).run (handle es) w = (.ok (), w.wrote.setCase c) := by
  rw [run_saveCase, write_sound h]

theorem run_saveRecord_sound (h : w.Sound) (t : RuleIndexTypes) (r : Record) :
    (saveRecord t r (w.versions t r.id)).run (handle es) w = (.ok (), w.wrote.setRecord t r) := by
  rw [run_saveRecord, if_neg (by simp), write_sound h]

/-- The metadata are collected by reading only. -/
theorem run_collectMetadata (items : List CaseItem) (m : Metadata) :
    ∃ m', (collectMetadata items m).run (handle es) w = (.ok m', w) := by
  induction items generalizing m with
  | nil => exact ⟨m, rfl⟩
  | cons item items ih =>
    rw [collectMetadata]
    cases metadataIndex item with
    | none => exact ih m
    | some t =>
      dsimp only
      rw [run_bind_ok (run_getRecord es w t item.value)]
      cases w.records t item.value with
      | none => exact ih m
      | some r => exact ih _

theorem run_recomputeCaseMetadata (c : Case) :
    ∃ c', (recomputeCaseMetadata c).run (handle es) w = (.ok c', w) ∧ c'.items = c.items ∧
      c'.caseId = c.caseId := by
  obtain ⟨m, hm⟩ := run_collectMetadata es (w := w) c.items {}
  exact ⟨_, (run_bind_ok hm _).trans rfl, rfl, rfl⟩

theorem World.Keyed.setCase (h : w.Keyed) : (w.setCase c).Keyed := by
  refine ⟨fun k c' hc' => ?_, h.records⟩
  by_cases hk : k = c.caseId
  · subst hk
    obtain rfl : c = c' := by simpa [World.setCase] using hc'
    rfl
  · exact h.cases k c' (by simpa [World.setCase, Function.update_of_ne hk] using hc')

theorem World.setRecord_records (w : World) (t : RuleIndexTypes) (r : Record)
    (t' : RuleIndexTypes) (k : Str) : (w.setRecord t r).records t' k =
      if t' = t ∧ k = r.id then some r else w.records t' k := by
  by_cases ht : t' = t
  · subst ht
    by_cases hk : k = r.id
    · simp [World.setRecord, hk]
    · simp [World.setRecord, hk]
  · simp [World.setRecord, ht]

theorem World.Keyed.setRecord {t : RuleIndexTypes} {r : Record} (h : w.Keyed) :
    (w.setRecord t r).Keyed := by
  refine ⟨h.cases, fun t' k r' hr' => ?_⟩
  rw [World.setRecord_records] at hr'
  split at hr'
  · next heq => rw [← Option.some.inj hr', heq.2]
  · exact h.records t' k r' hr'

/-- A save of a case that is stored under the id `k`. -/
theorem replaces_setCase (hs : w.Sound) (hk : w.Keyed) (c : Case) :
    Replaces c.caseId c.items w (w.wrote.setCase c) :=
  ⟨⟨c, rfl, rfl, rfl⟩, rfl, hs, World.Keyed.setCase ⟨hk.cases, hk.records⟩, fun _ _ => rfl⟩

theorem run_appendRecord (hs : w.Sound) (hk : w.Keyed) {t : RuleIndexTypes} (kind : Str)
    {r : Record} (hr : w.records t i.value = some r) :
    ∃ c' w', (appendRecord t kind c i).run (handle es) w = (.ok c', w') ∧
      Replaces c.caseId (c.items ++ [{ i with classification := some r.classification }]) w w' ∧
      w'.nextUid = w.nextUid := by
  have hid := hk.records t _ r hr
  have hsave : (saveRecord t (r.addBackreference c.caseId).1 (w.versions t i.value)).run (handle es)
      w = (.ok (), w.wrote.setRecord t (r.addBackreference c.caseId).1) := by
    have hrid : (r.addBackreference c.caseId).1.id = i.value := by
      unfold Record.addBackreference
      split <;> exact hid
    have hrun := run_saveRecord_sound es hs t (r.addBackreference c.caseId).1
    rwa [hrid] at hrun
  obtain ⟨c', hc', hitems, hcid⟩ := run_recomputeCaseMetadata es
    (w := w.wrote.setRecord t (r.addBackreference c.caseId).1)
    { c with items := c.items ++ [{ i with classification := some r.classification }] }
  have hs' : (w.wrote.setRecord t (r.addBackreference c.caseId).1).Sound := hs
  have hk' : (w.wrote.setRecord t (r.addBackreference c.caseId).1).Keyed :=
    World.Keyed.setRecord ⟨hk.cases, hk.records⟩
  refine ⟨c', (w.wrote.setRecord t (r.addBackreference c.caseId).1).wrote.setCase c', ?_, ?_, rfl⟩
  · rw [appendRecord, run_bind_ok (run_getRecord es w t i.value), hr]
    refine (run_bind_ok hsave _).trans ((run_bind_ok hc' _).trans ?_)
    exact run_bind_ok (run_saveCase_sound es hs' c') _
  · have hrep := replaces_setCase hs' hk' c'
    rw [hitems, hcid] at hrep
    refine ⟨hrep.cases, hrep.uids, hrep.sound, hrep.keyed, fun t' k => ?_⟩
    rw [hrep.records, World.setRecord_records]
    split
    · next heq =>
      have hclass : (r.addBackreference c.caseId).1.classification = r.classification ∧
          (r.addBackreference c.caseId).1.id = r.id := by
        unfold Record.addBackreference
        split <;> exact ⟨rfl, rfl⟩
      rw [heq.1, heq.2, hclass.2, hid, hr, Option.map_some, Option.map_some, hclass.1]
    · rfl

theorem Replaces.trans {k : Str} {items items' : List CaseItem} {w' w'' : World}
    (h : Replaces k items w w') (h' : Replaces k items' w' w'') : Replaces k items' w w'' := by
  obtain ⟨c, hc, -, -⟩ := h.cases
  obtain ⟨c', hc', hid, hitems⟩ := h'.cases
  refine ⟨⟨c', ?_, hid, hitems⟩, h'.uids.trans h.uids, h'.sound, h'.keyed, fun t k => ?_⟩
  · rw [hc', hc, Function.update_idem]
  · rw [h'.records, h.records]

theorem Replaces.get {k : Str} {items : List CaseItem} {w' : World} (h : Replaces k items w w') :
    ∃ c, w'.cases k = some c ∧ c.caseId = k ∧ c.items = items := by
  obtain ⟨c, hc, hid, hitems⟩ := h.cases
  exact ⟨c, by rw [hc, Function.update_self], hid, hitems⟩

theorem Replaces.get_of_ne {k k' : Str} {items : List CaseItem} {w' : World}
    (h : Replaces k items w w') (hk : k' ≠ k) : w'.cases k' = w.cases k' := by
  obtain ⟨c, hc, -, -⟩ := h.cases
  rw [hc, Function.update_of_ne hk]

/-- A store in which a case is left as it is. -/
theorem replaces_self {k : Str} (hs : w.Sound) (hk : w.Keyed) (hc : w.cases k = some c) (n : Nat) :
    Replaces k c.items w (w.atUid n) := by
  refine ⟨⟨c, ?_, hk.cases k c hc, rfl⟩, rfl, hs, ⟨hk.cases, hk.records⟩, fun _ _ => rfl⟩
  rw [World.atUid_cases, ← hc, Function.update_eq_self]

theorem run_fetchCase_some {k : Str} (e : HowlerError) (hc : w.cases k = some c) :
    (fetchCase k e).run (handle es) w = (.ok c, w) := by
  rw [run_fetchCase, hc]

theorem run_getParentFromPathOf {k : Str} (hs : w.Sound) (hk : w.Keyed) (hc : w.cases k = some c)
    (path : Option Str) :
    ∃ o w', (getParentFromPathOf k path true).run (handle es) w = (.ok o, w') ∧
      o.map (·.id) =
        (createPath w.uids w.nextUid (pathParts (path.getD [])) c.items none).parent ∧
      Replaces k (createPath w.uids w.nextUid (pathParts (path.getD [])) c.items none).items w w' ∧
      w'.nextUid = (createPath w.uids w.nextUid (pathParts (path.getD [])) c.items none).next := by
  have hfetch := run_fetchCase_some es (.notFound "Case does not exist".toList) hc
  generalize hr : createPath w.uids w.nextUid (pathParts (path.getD [])) c.items none = r
  have hknown : (r.items.find? fun item => some item.id = r.parent).map (·.id) = r.parent :=
    hr ▸ (createPath_known known_none _).find
  by_cases hp : pathParts (path.getD []) = []
  · have hrun : (getParentFromPath c path true true).run (handle es) w = (.ok (c, none), w) := by
      rw [getParentFromPath, if_pos hp]
      rfl
    rw [hp, createPath] at hr
    subst hr
    refine ⟨none, w.atUid w.nextUid, ?_, rfl, replaces_self hs hk hc _, rfl⟩
    exact (run_bind_ok hfetch _).trans (run_bind_ok hrun _)
  · have hwalk := run_walkPath es w c (pathParts_ne_nil (path.getD [])) none
    rw [hr] at hwalk
    have hs' : (w.atUid r.next).Sound := hs
    have hsave := run_saveCase_sound es hs' { c with items := r.items }
    have hrun : (getParentFromPath c path true true).run (handle es) w =
        (.ok ({ c with items := r.items }, r.items.find? fun item => some item.id = r.parent),
          (w.atUid r.next).wrote.setCase { c with items := r.items }) := by
      rw [getParentFromPath, if_neg hp]
      exact (run_bind_ok hwalk _).trans (run_bind_ok hsave _)
    refine ⟨_, _, (run_bind_ok hfetch _).trans (run_bind_ok hrun _), hknown, ?_, rfl⟩
    obtain rfl := hk.cases k c hc
    have hrep := replaces_setCase hs' (⟨hk.cases, hk.records⟩ : (w.atUid r.next).Keyed)
      { c with items := r.items }
    exact ⟨hrep.cases, hrep.uids, hrep.sound, hrep.keyed, hrep.records⟩

/-- `append_case_item` for a hit or an event that passes the checks. -/
theorem run_appendTo_ok (hs : w.Sound) (hk : w.Keyed) {t : RuleIndexTypes} {r : Record}
    (ht : i.type = t.itemType) (hr : w.records t i.value = some r)
    (hp : Case.checkParent c i.parent = .ok ()) {conflict : Bool}
    (hc : Case.checkConflicts c (named i) = .ok conflict) :
    ∃ c' w', (appendTo c i).run (handle es) w = (.ok c', w') ∧
      Replaces c.caseId (c.items ++ [{ (if conflict then Case.renamed (named i) else named i) with
        classification := some r.classification }]) w w' ∧ w'.nextUid = w.nextUid := by
  have hvalue : (if conflict then Case.renamed (named i) else named i).value = i.value := by
    cases conflict <;> rfl
  rw [← hvalue] at hr
  have hrun : ∀ p : Service Case, dispatch c (named i) conflict = p →
      (appendTo c i).run (handle es) w = p.run (handle es) w := by
    intro p hdispatch
    have hparent := run_fromExcept (handle es) (Case.checkParent c i.parent) w
    have hconflict := run_fromExcept (handle es) (Case.checkConflicts c (named i)) w
    rw [hp] at hparent
    rw [hc] at hconflict
    rw [appendTo, hp, run_bind_ok hparent, hc, run_bind_ok hconflict, hdispatch]
  have htype : (named i).type = t.itemType := ht
  cases t with
  | hit =>
    rw [hrun _ (by rw [dispatch, htype])]
    exact run_appendRecord es hs hk _ hr
  | event =>
    rw [hrun _ (by rw [dispatch, htype])]
    exact run_appendRecord es hs hk _ hr

/-- `append_case_item` for a hit or an event that does not pass them. -/
theorem run_appendTo_error {t : RuleIndexTypes} (ht : i.type = t.itemType)
    (h : w.records t i.value = none ∨ Case.checkParent c i.parent ≠ .ok () ∨
      ∀ conflict, Case.checkConflicts c (named i) ≠ .ok conflict) :
    ∃ e w', (appendTo c i).run (handle es) w = (.error e, w') := by
  cases hp : Case.checkParent c i.parent with
  | error e =>
    refine ⟨e, w, ?_⟩
    rw [appendTo, hp]
    rfl
  | ok u =>
    have hparent := run_fromExcept (handle es) (Case.checkParent c i.parent) w
    rw [hp] at hparent
    cases hc : Case.checkConflicts c (named i) with
    | error e =>
      refine ⟨e, w, ?_⟩
      rw [appendTo, hp, run_bind_ok hparent, hc]
      rfl
    | ok conflict =>
      have hconflict := run_fromExcept (handle es) (Case.checkConflicts c (named i)) w
      rw [hc] at hconflict
      have hr : w.records t i.value = none := by
        simpa [hp, hc] using h
      have hvalue : (if conflict then Case.renamed (named i) else named i).value = i.value := by
        cases conflict <;> rfl
      rw [← hvalue] at hr
      have htype : (named i).type = t.itemType := ht
      rw [appendTo, hp, run_bind_ok hparent, hc, run_bind_ok hconflict, dispatch, htype]
      have hrun : ∀ kind, ∃ e w', (appendRecord t kind c
          (if conflict then Case.renamed (named i) else named i)).run (handle es) w =
            (.error e, w') := by
        intro kind
        rw [appendRecord, run_bind_ok (run_getRecord es w t _), hr]
        exact ⟨_, _, rfl⟩
      cases t with
      | hit => exact hrun _
      | event => exact hrun _

end Appending

end Howler.Cases
