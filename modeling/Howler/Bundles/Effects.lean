import Howler.Bundles.Service
import Howler.Cases.Removal

namespace Howler.Bundles

open Python Cases Systems.Prog

/-- What stays the same whatever the services do: the random ids, which writes fail, and that
documents are stored under their ids. -/
structure Frame (w w' : World) : Prop where
  uids : w'.uids = w.uids
  faults : w'.faults = w.faults
  nextUid : w.nextUid ≤ w'.nextUid
  keyed : w.Keyed → w'.Keyed

section Frame

variable {w w' w'' : World} {es : Elastic}

theorem Frame.refl (w : World) : Frame w w := ⟨rfl, rfl, le_rfl, fun h => h⟩

theorem Frame.trans (h : Frame w w') (h' : Frame w' w'') : Frame w w'' :=
  ⟨h'.uids.trans h.uids, h'.faults.trans h.faults, h.nextUid.trans h'.nextUid,
    fun hk => h'.keyed (h.keyed hk)⟩

theorem Frame.sound (h : Frame w w') (hs : w.Sound) : w'.Sound := by
  intro n
  rw [h.faults]
  exact hs n

theorem frame_write {f : World → World} (hf : ∀ v, Frame v (f v)) : Frame w (w.write f).2 := by
  have hnext : Frame w { w with writes := w.writes + 1 } :=
    ⟨rfl, rfl, le_rfl, fun h => ⟨h.cases, h.records⟩⟩
  unfold World.write
  split
  · exact hnext
  · exact hnext.trans (hf _)

theorem frame_setCase (c : Case) : Frame w (w.setCase c) :=
  ⟨rfl, rfl, le_rfl, fun h => h.setCase⟩

theorem frame_setRecord (t : RuleIndexTypes) (r : Record) : Frame w (w.setRecord t r) :=
  ⟨rfl, rfl, le_rfl, fun h => h.setRecord⟩

theorem frame_bulk {α : Type} {f : α → World → Option World}
    (hf : ∀ a v v', f a v = some v' → Frame v v') (plan : List α) (w : World) :
    Frame w (w.bulk f plan).2 := by
  induction plan generalizing w with
  | nil => exact .refl w
  | cons a plan ih =>
    rw [World.bulk]
    cases hfa : f a w with
    | none => exact ih w
    | some v =>
      have hv := hf a w v hfa
      refine Frame.trans ?_ (ih _)
      unfold World.write
      split
      · exact ⟨rfl, rfl, le_rfl, fun h => ⟨h.cases, h.records⟩⟩
      · exact ⟨hv.uids, hv.faults, hv.nextUid, fun h => ⟨(hv.keyed h).cases, (hv.keyed h).records⟩⟩

theorem frame_handle (c : Command) (w : World) : Frame w (handle es c w).2 := by
  cases c with
  | getCase id => exact .refl w
  | saveCase c => exact frame_write fun v => frame_setCase c
  | createCase c =>
    rw [handle]
    split
    · exact .refl w
    · exact frame_write fun v => frame_setCase c
  | getRecord t id => exact .refl w
  | saveRecord t r version =>
    change Frame w (if w.versions t r.id ≠ version then
      ((.error .versionConflict, w) : Except HowlerError Unit × World)
      else w.write (·.setRecord t r)).2
    by_cases hversion : w.versions t r.id ≠ version
    · rw [if_pos hversion]
      exact .refl w
    · rw [if_neg hversion]
      exact frame_write fun v => frame_setRecord t r
  | bulkRelated t plan =>
    refine frame_bulk (fun a v v' h => ?_) plan w
    obtain ⟨r, -, rfl⟩ := Option.map_eq_some_iff.mp h
    exact frame_setRecord t _
  | bulkItems plan =>
    refine frame_bulk (fun a v v' h => ?_) plan w
    obtain ⟨c, -, rfl⟩ := Option.map_eq_some_iff.mp h
    exact frame_setCase _
  | casesWithRules => exact .refl w
  | casesWithItemValue values => exact .refl w
  | deleteCases ids =>
    refine frame_write fun v => ⟨rfl, rfl, le_rfl, fun h => ⟨fun k c hc => h.cases k c ?_, h.records⟩⟩
    change (if k ∈ ids then none else v.cases k) = some c at hc
    split at hc
    · cases hc
    · exact hc
  | search indexes query ids => exact .refl w
  | now => exact .refl w
  | randomId => exact ⟨rfl, rfl, Nat.le_succ _, fun h => ⟨h.cases, h.records⟩⟩

theorem frame_run {α : Type} (p : Service α) (w : World) : Frame w (p.run (handle es) w).2 := by
  induction p generalizing w with
  | ret a => exact .refl w
  | raise e => exact .refl w
  | call c k ih => exact (frame_handle c w).trans (ih _ _)

theorem frame_of_run {α : Type} {p : Service α} {r : Except HowlerError α}
    (h : p.run (handle es) w = (r, w')) : Frame w w' := by
  have hframe := @frame_run es _ p w
  rwa [h] at hframe

end Frame

section Append

variable {w : World} {c : Case} (es : Elastic)

/-- A hit that is added to a case: it is the last item, and it refers to the case. -/
structure Appends (value : Str) (parent : Option Str) (r : Record) (c : Case) (w : World)
    (c' : Case) (w' : World) : Prop where
  caseId : c'.caseId = c.caseId
  items : ∃ i : CaseItem, c'.items = c.items ++ [i] ∧ i.type = .hit ∧ i.value = value ∧
    i.parent = optionalText parent ∧ i.id = w.uids w.nextUid
  cases : w'.cases = Function.update w.cases c.caseId (some c')
  records : ∀ k, w'.records .hit k =
    if k = value then some (r.addBackreference c.caseId).1 else w.records .hit k
  frame : Frame w w'
  nextUid : w'.nextUid = w.nextUid + 1

theorem addBackreference_id (r : Record) (k : Str) : (r.addBackreference k).1.id = r.id := by
  unfold Record.addBackreference
  split <;> rfl

theorem mem_addBackreference {r : Record} {k k' : Str} :
    k' ∈ (r.addBackreference k).1.related ↔ k' ∈ r.related ∨ k' = k := by
  unfold Record.addBackreference
  split
  · next hmem =>
    refine (or_iff_left_of_imp fun heq => ?_).symm
    rwa [heq]
  · simp

/-- The save of the hit and of the case. -/
theorem run_appendRecord_hit (hs : w.Sound) (hk : w.Keyed) {item : CaseItem} {r : Record}
    (hr : w.records .hit item.value = some r) :
    ∃ c' w', (appendHit c item).run (handle es) w = (.ok c', w') ∧ c'.caseId = c.caseId ∧
      c'.items = c.items ++ [{ item with classification := some r.classification }] ∧
      w'.cases = Function.update w.cases c.caseId (some c') ∧
      (∀ k, w'.records .hit k =
        if k = item.value then some (r.addBackreference c.caseId).1 else w.records .hit k) ∧
      w'.nextUid = w.nextUid := by
  have hid := hk.records .hit _ r hr
  have hsave := run_saveRecord_sound es hs .hit (r.addBackreference c.caseId).1
  rw [addBackreference_id, hid] at hsave
  obtain ⟨c', hc', hitems, hcid⟩ := run_recomputeCaseMetadata es
    (w := w.wrote.setRecord .hit (r.addBackreference c.caseId).1)
    { c with items := c.items ++ [{ item with classification := some r.classification }] }
  have hs' : (w.wrote.setRecord .hit (r.addBackreference c.caseId).1).Sound := hs
  refine ⟨c', (w.wrote.setRecord .hit (r.addBackreference c.caseId).1).wrote.setCase c', ?_, hcid,
    hitems, ?_, fun k => ?_, rfl⟩
  · rw [appendHit, appendRecord, run_bind_ok (run_getRecord es w .hit item.value), hr]
    refine (run_bind_ok hsave _).trans ((run_bind_ok hc' _).trans ?_)
    exact run_bind_ok (run_saveCase_sound es hs' c') _
  · change Function.update w.cases c'.caseId (some c') = _
    rw [hcid]
  · change (w.wrote.setRecord .hit (r.addBackreference c.caseId).1).records .hit k = _
    rw [World.setRecord_records, addBackreference_id, hid]
    simp only [true_and]
    rfl

/-- A hit that is in the case already. -/
def Listed (c : Case) (value : Str) : Prop := ∃ i ∈ c.items, i.type = .hit ∧ i.value = value

theorem run_newHit (w : World) {value : Str} (hvalue : value ≠ []) (parent name : Option Str) :
    (CaseItem.new { type := .hit, value := some value, parent, name }).run (handle es) w =
      (.ok { id := w.uids w.nextUid, parent := optionalText parent, name := optionalText name,
             type := .hit, value := value }, w.atUid (w.nextUid + 1)) := by
  rw [CaseItem.new, if_neg (by simp), run_bind_ok (show (itemId none).run (handle es) w = _ from
    run_randomId es w)]
  cases value with
  | nil => contradiction
  | cons a value => rfl

/-- A hit that exists is appended where the case does not list it yet. -/
theorem run_appendHitTo_ok (hs : w.Sound) (hk : w.Keyed) {value : Str} (hvalue : value ≠ [])
    {r : Record} (hr : w.records .hit value = some r) {parent : Option Str}
    (hparent : Case.checkParent c (optionalText parent) = .ok ()) (hnew : ¬ Listed c value)
    (name : Option Str) :
    ∃ c' w', (appendHitTo c value parent name).run (handle es) w = (.ok c', w') ∧
      Appends value parent r c w c' w' := by
  generalize hi : ({ id := w.uids w.nextUid, parent := optionalText parent, name := optionalText name, type := .hit, value := value } : CaseItem) = i
  have hbuilt := run_newHit es w hvalue parent name
  rw [hi] at hbuilt
  have hitype : i.type = .hit := by rw [← hi]
  have hivalue : i.value = value := by rw [← hi]
  have hiparent : i.parent = optionalText parent := by rw [← hi]
  have hiid : i.id = w.uids w.nextUid := by rw [← hi]
  obtain ⟨conflict, hconflict⟩ : ∃ conflict, Case.checkConflicts c (named i) = .ok conflict := by
    refine ⟨_, if_neg fun h => hnew ?_⟩
    obtain ⟨-, existing, hmem, htype, hval⟩ := h
    exact ⟨existing, hmem, htype.trans hitype, hval.trans hivalue⟩
  have hs' : (w.atUid (w.nextUid + 1)).Sound := hs
  have hk' : (w.atUid (w.nextUid + 1)).Keyed := ⟨hk.cases, hk.records⟩
  generalize hitem : (if conflict then Case.renamed (named i) else named i) = item
  have hsame : item.type = .hit ∧ item.value = value ∧ item.parent = optionalText parent ∧
      item.id = w.uids w.nextUid := by
    rw [← hitem]
    cases conflict <;> exact ⟨hitype, hivalue, hiparent, hiid⟩
  have hr' : (w.atUid (w.nextUid + 1)).records .hit item.value = some r := by
    rw [hsame.2.1]
    exact hr
  obtain ⟨c', w', hrun, hcid, hitems, hcases, hrecords, hnext⟩ :=
    run_appendRecord_hit es (c := c) hs' hk' hr'
  have hall : (appendHitTo c value parent name).run (handle es) w = (.ok c', w') := by
    rw [appendHitTo, if_neg hvalue, run_bind_ok hbuilt, appendTo, hiparent]
    have hparentRun := run_fromExcept (handle es) (Case.checkParent c (optionalText parent))
      (w.atUid (w.nextUid + 1))
    rw [hparent] at hparentRun
    have hconflictRun := run_fromExcept (handle es) (Case.checkConflicts c (named i))
      (w.atUid (w.nextUid + 1))
    rw [hconflict] at hconflictRun
    have htype : (named i).type = .hit := hitype
    rw [hparent, run_bind_ok hparentRun, hconflict, run_bind_ok hconflictRun, dispatch, htype]
    dsimp only
    rw [hitem, hrun]
  refine ⟨c', w', hall, hcid, ⟨_, hitems, hsame.1, hsame.2.1, hsame.2.2.1, hsame.2.2.2⟩, hcases,
    fun k => ?_, frame_of_run hall, hnext⟩
  rw [hrecords, hsame.2.1]
  rfl

/-- A hit that the case lists is refused. -/
theorem run_appendHitTo_listed {value : Str} (hvalue : value ≠ []) {parent : Option Str}
    (hparent : Case.checkParent c (optionalText parent) = .ok ()) (hlisted : Listed c value)
    (name : Option Str) :
    ∃ message, (appendHitTo c value parent name).run (handle es) w =
      (.error (.invalidData message), w.atUid (w.nextUid + 1)) := by
  generalize hi : ({ id := w.uids w.nextUid, parent := optionalText parent, name := optionalText name, type := .hit, value := value } : CaseItem) = i
  have hbuilt := run_newHit es w hvalue parent name
  rw [hi] at hbuilt
  have hitype : i.type = .hit := by rw [← hi]
  have hivalue : i.value = value := by rw [← hi]
  have hiparent : i.parent = optionalText parent := by rw [← hi]
  obtain ⟨existing, hmem, htype, hval⟩ := hlisted
  have hconflict : ∃ message, Case.checkConflicts c (named i) = .error (.invalidData message) := by
    refine ⟨_, if_pos ⟨.inl hitype, existing, hmem, ?_, ?_⟩⟩
    · exact htype.trans hitype.symm
    · exact hval.trans hivalue.symm
  obtain ⟨message, hmessage⟩ := hconflict
  refine ⟨message, ?_⟩
  have hparentRun := run_fromExcept (handle es) (Case.checkParent c (optionalText parent))
    (w.atUid (w.nextUid + 1))
  rw [hparent] at hparentRun
  rw [appendHitTo, if_neg hvalue, run_bind_ok hbuilt, appendTo, hiparent, hparent,
    run_bind_ok hparentRun, hmessage]
  rfl

end Append

end Howler.Bundles
