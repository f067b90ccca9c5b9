import Howler.Correlation.Visits

namespace Howler.Correlation

open Python Cases Systems Systems.Prog

/-- The store and the cases that a batch keeps satisfy the invariant. -/
structure Cached (s : Scope) (b : Batch) (w : World) : Prop where
  inv : Inv s w
  cases : ∀ k c, (k, some c) ∈ b.caseCache → c.caseId = k ∧ Ready s c w

/-- The folders of the destination can be created, if the record exists. -/
def Visit.PathFree (render : Str → Match → Str) (v : Visit) : Prop :=
  v.backing ≠ none → Cases.PathFree v.case.items (pathParts ((v.path render).getD [])) none

section Batch

variable {s : Scope} {c : Case} {b : Batch} {w : World} {es : Elastic} {render : Str → Match → Str}

theorem Cached.drawn {w' : World} (h : Cached s b w) (hd : Drawn w w') : Cached s b w' :=
  ⟨h.inv.drawn hd, fun k c hc => ⟨(h.cases k c hc).1, (h.cases k c hc).2.drawn hd⟩⟩

theorem Cached.next {k : Str} {cache : Dict Key (Option Record)} {key : Option Key}
    (h : Cached s b w) (hc : Ready s c w) (hk : c.caseId = k) :
    Cached s (b.next k c cache key) w := by
  refine ⟨h.inv, fun k' c' hmem => ?_⟩
  cases Dict.mem_set hmem with
  | inl heq =>
    obtain ⟨rfl, hcc⟩ := Prod.mk.inj heq
    obtain rfl := Option.some.inj hcc
    exact ⟨hk, hc⟩
  | inr hmem => exact h.cases k' c' hmem

/-- An item gets a place only under a free name. -/
theorem placeItem_some {item i : CaseItem} (h : placeItem c item = some i) :
    i.id = item.id ∧ i.parent = item.parent ∧ i.type = item.type ∧ i.value = item.value ∧
      ∀ j ∈ c.items, j.parent = i.parent → j.name ≠ i.name := by
  have hfree : ∀ item' : CaseItem, item'.name = some (Case.displayName item') →
      Case.checkConflicts c item' = .ok false →
      ∀ j ∈ c.items, j.parent = item'.parent → j.name ≠ item'.name := by
    intro item' hname hcheck j hj hjp hjn
    have htrue := (checkConflicts_ok hcheck).mpr ⟨j, hj, hjn.trans hname, hjp⟩
    contradiction
  unfold placeItem at h
  dsimp only at h
  split at h
  · contradiction
  · next hcheck =>
    obtain rfl := Option.some.inj h
    exact ⟨rfl, rfl, rfl, rfl, hfree _ rfl hcheck⟩
  · split at h
    · next hcheck =>
      obtain rfl := Option.some.inj h
      exact ⟨rfl, rfl, rfl, rfl, hfree _ rfl hcheck⟩
    · contradiction

theorem draws_resolve (key : Key) (cache : Dict Key (Option Record)) :
    Draws es (resolveBackingObject key cache) := by
  intro w
  rw [run_resolveBackingObject]
  exact .refl w

variable (es render)

theorem draws_addRecordToCase (c : Case) (record : Match) (destination : Str)
    (cache : Dict Key (Option Record)) :
    Draws es (addRecordToCase render c record destination cache) := by
  refine (draws_resolve _ _).bind fun r => ?_
  obtain ⟨cache', backing⟩ := r
  cases backing with
  | none => exact draws_pure _
  | some r =>
    refine (draws_getParentFromPath _ _ _).bind fun p => ?_
    refine (draws_newItem es _).optional.bind fun item => ?_
    split
    · exact draws_pure _
    · exact draws_pure _

theorem ends_addRecordToCase (v : Visit) (hr : Ready s v.case v.world)
    (hfree : s.names → s.watched v.case.caseId → v.PathFree render) :
    Ends (handle es)
      (addRecordToCase render v.case v.record v.destination v.batch.backingCache) v.world
      (fun r w => Ready s r.1 w ∧ r.1.caseId = v.case.caseId) (Inv s) := by
  refine ends_bind_ok (run_resolveBackingObject es v.world v.key v.batch.backingCache) ?_
  dsimp only
  have hbacking : lookupBacking v.batch.backingCache v.world v.key = v.backing := rfl
  rw [hbacking]
  cases hb : v.backing with
  | none => exact ends_pure ⟨hr, rfl⟩
  | some r =>
    refine (triple_getParentFromPath v.case (v.path render) true false v.world
      ⟨hr, fun hn hk _ => hfree hn hk (by simp [hb])⟩).bind fun p w₁ hw₁ => ?_
    obtain ⟨c₁, parent⟩ := p
    obtain ⟨hr₁, hid₁, hparent⟩ := hw₁
    -- the item that was built, if it was
    refine (ends_newItem (E := Ready s c₁) _ hr₁.inv fun _ hd => hr₁.drawn hd).optional.bind
      fun o w₂ hw₂ => ?_
    have hr₂ : Ready s c₁ w₂ := by
      cases o with
      | none => exact hw₂
      | some i => exact hr₁.drawn hw₂.drawn
    cases hplace : o.bind (placeItem c₁) with
    | none => exact ends_pure ⟨hr₂, hid₁⟩
    | some i =>
      obtain ⟨i₀, hi₀, hi⟩ := Option.bind_eq_some_iff.mp hplace
      subst hi₀
      obtain ⟨hid, hp, ht, -, hfree'⟩ := placeItem_some hi
      have ht₀ := hw₂.built.type
      have hp₀ := hw₂.built.parent
      have hnew : s.watched c₁.caseId → NewId s c₁ i₀.id w₂ :=
        fun hk => hw₂.newId c₁ hr₁ hk fun id hid => nomatch hid
      refine ends_pure ⟨?_, hid₁⟩
      have hfits : Fits s c₁ { i with classification := some r.classification } w₂ := by
        refine ⟨hr₂, fun hk => ?_, fun hk => hid ▸ hnew hk⟩
        refine ⟨hid ▸ (hnew hk).new, fun q hq => ?_, fun hcase => ?_, fun _ => hfree',
          fun hn => hid ▸ (hnew hk).nonempty hn⟩
        · obtain ⟨f, hf, hfq⟩ := Option.map_eq_some_iff.mp
            (optionalText_eq_some (hp₀ ▸ hp ▸ hq))
          have hfold := hparent hk f hf
          exact ⟨f, hfold.1, hfq, hfold.2⟩
        · have hrec : v.record.index.itemType = .case := ht₀.symm.trans (ht.symm.trans hcase)
          cases hx : v.record.index <;> rw [hx] at hrec <;> contradiction
      exact hfits.add

theorem ends_addRecords (caseId destination : Str) (records : List Match)
    (hr : Ready s c w) (hid : c.caseId = caseId) (hb : Cached s b w)
    (hfree : s.names → ∀ v ∈ recordVisits es render caseId destination records c b w,
      s.watched v.caseId → v.PathFree render) :
    Ends (handle es) (addRecords render caseId destination records c b) w
      (fun b' w' => Cached s b' w') (Inv s) := by
  induction records generalizing c b w with
  | nil => exact ends_pure hb
  | cons record records ih =>
    have hends := ends_addRecordToCase es render ⟨caseId, destination, record, c, b, w⟩ hr
      fun hn hk => hfree hn _ List.mem_cons_self (hid ▸ hk)
    have hdrawn := draws_addRecordToCase es render c record destination
      b.backingCache w
    rw [addRecords]
    cases hrun : (addRecordToCase render c record destination b.backingCache).run (handle es) w with
    | mk r w' =>
      rw [hrun] at hdrawn
      cases r with
      | error e => exact ends_bind_error hrun (hends.2 e w' hrun)
      | ok r =>
        obtain ⟨c', cache, key⟩ := r
        obtain ⟨hr', hid'⟩ := hends.1 _ w' hrun
        refine ends_bind_ok hrun (ih hr' (hid'.trans hid)
          ((hb.drawn hdrawn).next hr' (hid'.trans hid)) fun hn v hv => ?_)
        refine hfree hn v ?_
        rw [recordVisits, hrun]
        exact List.mem_cons_of_mem _ hv

omit render in
theorem ends_loadCase (caseId : Str) (hb : Cached s b w) :
    Ends (handle es) (loadCase caseId b) w (fun b' w' => w' = w ∧ Cached s b' w') (Inv s) := by
  rw [loadCase]
  cases b.caseCache.get? caseId with
  | some _ => exact ends_pure ⟨rfl, hb⟩
  | none =>
    refine ends_bind_ok (run_getCase es w caseId) ?_
    cases hc : w.cases caseId with
    | none =>
      refine ends_pure ⟨rfl, hb.inv, fun k c hmem => ?_⟩
      cases Dict.mem_set hmem with
      | inl heq => exact nomatch (Prod.mk.inj heq).2
      | inr hmem => exact hb.cases k c hmem
    | some c =>
      refine ends_pure ⟨rfl, hb.inv, fun k c' hmem => ?_⟩
      cases Dict.mem_set hmem with
      | inl heq =>
        obtain ⟨rfl, hcc⟩ := Prod.mk.inj heq
        obtain rfl := Option.some.inj hcc
        exact ⟨hb.inv.keyed _ _ hc, hb.inv.ready hc⟩
      | inr hmem => exact hb.cases k c' hmem

omit render in
/-- A search changes nothing. -/
theorem run_searchRecords (indexes : List RuleIndexTypes) (query : Str) (ids : List Str) :
    (searchRecords indexes query ids).run (handle es) w = (es.search w indexes query ids, w) :=
  run_attempt es rfl

theorem ends_evaluateRules (recordIds : List Str) (rules : List (Str × CaseRule))
    (hb : Cached s b w)
    (hfree : s.names → ∀ v ∈ ruleVisits es render recordIds rules b w, s.watched v.caseId →
      v.PathFree render) :
    Ends (handle es) (evaluateRules render recordIds rules b) w (fun b' w' => Cached s b' w')
      (Inv s) := by
  induction rules generalizing b w with
  | nil => exact ends_pure hb
  | cons entry rules ih =>
    obtain ⟨caseId, rule⟩ := entry
    have hload := ends_loadCase es caseId hb
    rw [ruleVisits] at hfree
    rw [evaluateRules]
    cases hrun : (loadCase caseId b).run (handle es) w with
    | mk r w' =>
      rw [hrun] at hfree
      cases r with
      | error e => exact ends_bind_error hrun (hload.2 e w' hrun)
      | ok b₁ =>
        obtain ⟨rfl, hb₁⟩ := hload.1 _ w' hrun
        refine ends_bind_ok hrun ?_
        dsimp only at hfree
        cases hget : b₁.caseCache.get? caseId with
        | none =>
          rw [hget] at hfree
          exact ih hb₁ hfree
        | some o =>
          rw [hget] at hfree
          cases o with
          | none => exact ih hb₁ hfree
          | some c =>
            dsimp only at hfree ⊢
            obtain ⟨hid, hr⟩ := hb₁.cases caseId c (Dict.mem_of_get? hget)
            have hsearch := run_searchRecords es (w := w') (ruleIndexes rule) rule.query recordIds
            have hopt := run_optional (handle es)
              (searchRecords (ruleIndexes rule) rule.query recordIds) w'
            rw [hsearch] at hopt
            cases hfound : es.search w' (ruleIndexes rule) rule.query recordIds with
            | error e =>
              rw [hsearch, hfound] at hfree
              rw [hfound] at hopt
              exact ends_bind_ok hopt (ih hb₁ hfree)
            | ok records =>
              rw [hsearch, hfound] at hfree
              rw [hfound] at hopt
              refine ends_bind_ok hopt ?_
              have hadd := ends_addRecords es render caseId rule.destination records hr hid hb₁
                fun hn v hv => hfree hn v (List.mem_append_left _ hv)
              cases hrun' : (addRecords render caseId rule.destination records c b₁).run
                  (handle es) w' with
              | mk r w'' =>
                cases r with
                | error e => exact ends_bind_error hrun' (hadd.2 e w'' hrun')
                | ok b₂ =>
                  refine ends_bind_ok hrun' (ih (hadd.1 b₂ w'' hrun') fun hn v hv =>
                    hfree hn v (List.mem_append_right _ ?_))
                  rwa [hrun']

end Batch

section Flush

variable {s : Scope} {b : Batch} {w : World} {es : Elastic}

theorem bulk_inv {α : Type} {P : World → Prop} {f : α → World → Option World} {plan : List α}
    (hwrites : ∀ w n, P w → P { w with writes := n })
    (hf : ∀ a ∈ plan, ∀ w w', f a w = some w' → P w → P w') (hw : P w) :
    P (w.bulk f plan).2 := by
  induction plan generalizing w with
  | nil => exact hw
  | cons a plan ih =>
    have hrest := fun b hb => hf b (List.mem_cons_of_mem a hb)
    rw [World.bulk]
    cases hfa : f a w with
    | none => exact ih hrest hw
    | some w' =>
      have hw' := hf a List.mem_cons_self w w' hfa hw
      refine ih hrest ?_
      unfold World.write
      split
      · exact hwrites w _ hw
      · exact hwrites w' _ hw'

theorem quiet_bulkRelated (t : RuleIndexTypes) (plan : List (Str × List Str)) :
    Quiet es (bulkRelated t plan) := by
  intro w
  have hrun : ((bulkRelated t plan).run (handle es) w).2 =
    (w.bulk (World.updateRelated t) plan).2 := rfl
  rw [hrun]
  refine bulk_inv (P := SameCases w) (fun w' n h => ⟨h.cases, h.uids, h.nextUid⟩)
    (fun u _ w' w'' hu h => ?_) (.refl w)
  obtain ⟨r, -, rfl⟩ := Option.map_eq_some_iff.mp hu
  exact ⟨h.cases, h.uids, h.nextUid⟩

theorem quiet_flushBacking (b : Batch) (t : RuleIndexTypes) : Quiet es (flushBacking b t) := by
  rw [flushBacking]
  split
  · exact quiet_pure _
  · refine (quiet_bulkRelated _ _).bind fun ok => ?_
    split
    · exact quiet_pure _
    · exact quiet_throw _

/-- The metadata are computed anew, and nothing else. -/
theorem run_recompute {c c' : Case} {w' : World}
    (h : (recomputeCaseMetadata c).run (handle es) w = (.ok c', w')) :
    c'.items = c.items ∧ c'.caseId = c.caseId := by
  obtain ⟨m, t, -, h⟩ := run_bind_eq_ok.mp h
  rw [run_pure, Prod.mk.injEq, Except.ok.injEq] at h
  exact h.1 ▸ ⟨rfl, rfl⟩

theorem quiet_casePlan (es : Elastic) (cases : List Case) : Quiet es (casePlan cases) := by
  induction cases with
  | nil => exact quiet_pure _
  | cons c cases ih =>
    exact (quiet_recomputeCaseMetadata c).bind fun _ => ih.bind fun _ => quiet_pure _

/-- The plan has the items of each case. -/
theorem casePlan_items {cases : List Case} {plan : List (Str × ItemFields)} {w' : World}
    (h : (casePlan cases).run (handle es) w = (.ok plan, w')) :
    plan.map (fun u => (u.1, u.2.items)) = cases.map fun c => (c.caseId, c.items) := by
  induction cases generalizing plan w w' with
  | nil =>
    rw [casePlan, run_pure, Prod.mk.injEq, Except.ok.injEq] at h
    simp [← h.1]
  | cons c cases ih =>
    obtain ⟨c', t, hc, h⟩ := run_bind_eq_ok.mp h
    obtain ⟨rest, t', hrest, h⟩ := run_bind_eq_ok.mp h
    rw [run_pure, Prod.mk.injEq, Except.ok.injEq] at h
    obtain ⟨hi, hid⟩ := run_recompute hc
    rw [← h.1, List.map_cons, List.map_cons, ih hrest, hid]
    simp [Case.itemFields, hi]

theorem mem_modifiedCases {c : Case} (h : c ∈ modifiedCases b) :
    ∃ k, (k, some c) ∈ b.caseCache := by
  obtain ⟨⟨k, o⟩, hmem, ho⟩ := List.mem_filterMap.mp h
  cases o with
  | none => contradiction
  | some c' =>
    dsimp only at ho
    split at ho
    · contradiction
    · exact ⟨k, Option.some.inj ho ▸ hmem⟩

theorem ends_bulkItems {plan : List (Str × ItemFields)} (hw : Inv s w)
    (hplan : ∀ u ∈ plan, ∃ c, c.caseId = u.1 ∧ c.items = u.2.items ∧ Ready s c w) :
    Ends (handle es) (bulkItems plan) w (fun _ => Inv s) (Inv s) := by
  refine ends_of_snd ?_
  have hrun : ((bulkItems plan).run (handle es) w).2 = (w.bulk World.updateItems plan).2 := rfl
  rw [hrun]
  refine (bulk_inv (P := fun w' => Inv s w' ∧ w'.uids = w.uids ∧ w'.nextUid = w.nextUid)
    (fun w' n h => ⟨stable_inv w' _ ⟨rfl, rfl, rfl⟩ h.1, h.2⟩) (fun u hu w' w'' hw'' h => ?_)
    ⟨hw, rfl, rfl⟩).1
  obtain ⟨hinv, hids, hnext⟩ := h
  obtain ⟨c, hid, hitems, hr⟩ := hplan u hu
  obtain ⟨c₀, -, rfl⟩ := Option.map_eq_some_iff.mp hw''
  have hr' : Ready s { c₀.setItemFields u.2 with caseId := u.1 } w' := by
    refine ⟨hinv, fun hk => ?_⟩
    have hh := (hr.held (hid ▸ hk))
    have hh : Held s { c₀.setItemFields u.2 with caseId := u.1 } w :=
      hh.congr hitems.symm hid.symm
    exact ⟨hh.tidy, by rw [hids, hnext]; exact hh.fresh, hh.kept⟩
  exact ⟨hr'.setCase, hids, hnext⟩

theorem ends_flushCases (hb : Cached s b w) :
    Ends (handle es) (flushCases b) w (fun _ => Inv s) (Inv s) := by
  have hquiet := quiet_casePlan es (modifiedCases b) w
  rw [flushCases]
  cases hrun : (casePlan (modifiedCases b)).run (handle es) w with
  | mk r w' =>
    rw [hrun] at hquiet
    have hw' := stable_inv w w' hquiet hb.inv
    cases r with
    | error e => exact ends_bind_error hrun hw'
    | ok plan =>
      refine ends_bind_ok hrun ?_
      split
      · exact ends_pure hw'
      · refine (ends_bulkItems hw' fun u hu => ?_).bind fun ok w'' hw'' => ?_
        · have hmem : (u.1, u.2.items) ∈ plan.map fun u => (u.1, u.2.items) :=
            List.mem_map_of_mem hu
          rw [casePlan_items hrun] at hmem
          obtain ⟨c, hc, heq⟩ := List.mem_map.mp hmem
          obtain ⟨k, hk⟩ := mem_modifiedCases hc
          obtain ⟨hid, hitems⟩ := Prod.mk.inj heq
          exact ⟨c, hid, hitems, stable_ready w w' hquiet (hb.cases k c hk).2⟩
        · split
          · exact ends_pure hw''
          · exact ends_throw hw''

theorem stable_cached : Stable (Cached s b) :=
  fun w w' hs h => ⟨stable_inv w w' hs h.inv, fun k c hc =>
    ⟨(h.cases k c hc).1, stable_ready w w' hs (h.cases k c hc).2⟩⟩

theorem ends_processBatch (render : Str → Match → Str) (recordIds : List Str) (hw : Inv s w)
    (hfree : s.names → ∀ v ∈ visits es render recordIds w, s.watched v.caseId →
      v.PathFree render) :
    Ends (handle es) (processBatch render recordIds) w (fun _ => Inv s) (Inv s) := by
  rw [processBatch]
  split
  · exact ends_pure hw
  · next hids =>
    rw [visits, if_neg hids, run_getActiveRules] at hfree
    have hrules := run_getActiveRules es w
    cases hr : activeRules w.time.replaceUtc (es.withRules w) with
    | error e =>
      rw [hr] at hrules
      exact ends_bind_error hrules hw
    | ok rules =>
      rw [hr] at hrules hfree
      refine ends_bind_ok hrules ?_
      split
      · exact ends_pure hw
      · refine (ends_evaluateRules es render recordIds rules ⟨hw, by simp⟩ hfree).bind
          fun b w₁ hb₁ => ?_
        have hflush : ∀ t, Triple (handle es) (Cached s b) (flushBacking b t)
            (fun _ => Cached s b) (Inv s) := fun t =>
          ((quiet_flushBacking b t).triple stable_cached).conseq (fun _ h => h) (fun _ _ h => h)
            fun _ h => h.inv
        refine (hflush .hit w₁ hb₁).bind fun _ w₂ hb₂ => ?_
        refine (hflush .event w₂ hb₂).bind fun _ w₃ hb₃ => ?_
        exact (ends_flushCases hb₃).bind fun _ _ h => ends_pure h

end Flush

end Howler.Correlation
