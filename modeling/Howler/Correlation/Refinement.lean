import Howler.Correlation.Histories
import Howler.Correlation.Mirror

namespace Howler.Correlation

open Python Cases Systems Systems.Prog

/-- The items of two cases agree up to the ids, and random ids to come are new to both. -/
structure Paired (w w' : World) (c c' : Case) : Prop where
  agrees : ∃ f, Renames f c.items c'.items
  unused : UnusedFrom w.uids w.nextUid c.items
  unused' : UnusedFrom w'.uids w'.nextUid c'.items

/-- A case that the batch keeps has grown from the stored one, and agrees with that of the second
store. -/
structure Kept (counts : Dict Str Nat) (w w' : World) (k : Str) (c : Case) : Prop where
  caseId : c.caseId = k
  grown : ∃ c₀, w.cases k = some c₀ ∧ c₀.items <+: c.items ∧
    counts.get? k = some c₀.items.length
  paired : ∃ c', w'.cases k = some c' ∧ Paired w w' c c'

/-- The second store is the first one with the records of the batch added item by item. -/
structure Mirrors (b : Batch) (w w' : World) : Prop where
  sound : w.Sound
  keyed : w.Keyed
  sound' : w'.Sound
  keyed' : w'.Keyed
  uids : w'.uids = w.uids
  injective : Function.Injective w.uids
  records : SameRecords w w'
  backing : ∀ key, (lookupBacking b.backingCache w key).map (·.classification) =
    (w.records key.1 key.2).map (·.classification)
  nodup : (Dict.keys b.caseCache).Nodup
  cached : ∀ k c, b.caseCache.get? k = some (some c) → Kept b.originalItemCounts w w' k c
  others : ∀ k, (∀ c, b.caseCache.get? k ≠ some (some c)) →
    Option.Rel (Paired w w') (w.cases k) (w'.cases k)

/-- The case of the record agrees with that of a store. -/
def Visit.Agrees (v : Visit) (render : Str → Match → Str) (w : World) : Prop :=
  ∃ c f, w.cases v.caseId = some c ∧ Renames f (v.after render).items c.items

section Mirrors

variable {es : Elastic} {render : Str → Match → Str} {b : Batch} {w w' : World} {v : Visit}
  {c c' : Case} {k : Str}

theorem rel_imp {r s : Case → Case → Prop} {o o' : Option Case} (h : Option.Rel r o o')
    (hrs : ∀ c c', r c c' → s c c') : Option.Rel s o o' := by
  cases h with
  | some h => exact .some (hrs _ _ h)
  | none => exact .none

theorem Paired.mono {w₁ w₁' : World} (h : Paired w w' c c') (hu : w₁.uids = w.uids)
    (hn : w.nextUid ≤ w₁.nextUid) (hu' : w₁'.uids = w'.uids) (hn' : w'.nextUid ≤ w₁'.nextUid) :
    Paired w₁ w₁' c c' := by
  refine ⟨h.agrees, ?_, ?_⟩
  · rw [hu]
    exact h.unused.mono hn
  · rw [hu']
    exact h.unused'.mono hn'

theorem Mirrors.tracks (h : Mirrors v.batch v.world w')
    (hv : v.batch.caseCache.get? v.caseId = some (some v.case)) : ∃ c, Tracks v w' c := by
  obtain ⟨c', hc', hp⟩ := (h.cached _ _ hv).paired
  refine ⟨c', h.sound', h.keyed', hc', hp.agrees, hp.unused, hp.unused', h.injective, h.uids, ?_⟩
  rw [Visit.backing, h.backing, h.records]

theorem lookupBacking_set (cache : Dict Key (Option Record)) (w : World) (key key' : Key)
    (r : Option Record) : lookupBacking (cache.set key r) w key' =
      if key' = key then r else lookupBacking cache w key' := by
  unfold lookupBacking
  rw [Dict.get?_set]
  by_cases h : key' = key
  · rw [if_pos h, if_pos h]
  · rw [if_neg h, if_neg h]

theorem lookupBacking_resolved (cache : Dict Key (Option Record)) (w : World) (key key' : Key) :
    lookupBacking (resolvedCache cache w key) w key' = lookupBacking cache w key' := by
  rw [resolvedCache]
  cases hkey : cache.get? key with
  | some r => rfl
  | none =>
    dsimp only
    rw [lookupBacking_set]
    by_cases h : key' = key
    · rw [if_pos h, h, lookupBacking, hkey]
    · rw [if_neg h]

theorem addBackreference_classification (r : Record) (caseId : Str) :
    (r.addBackreference caseId).1.classification = r.classification := by
  unfold Record.addBackreference
  split <;> rfl

/-- `_add_record_to_case` never raises, and keeps what is known of the records. -/
theorem run_addRecordToCase (es : Elastic) (render : Str → Match → Str) (v : Visit) :
    ∃ cache key, (addRecordToCase render v.case v.record v.destination
        v.batch.backingCache).run (handle es) v.world =
          (.ok (v.after render, cache, key), v.world.atUid (v.next render)) ∧
      ∀ key', (lookupBacking cache v.world key').map (·.classification) =
        (lookupBacking v.batch.backingCache v.world key').map (·.classification) := by
  have hsame : ∀ key', (lookupBacking (resolvedCache v.batch.backingCache v.world v.key) v.world
      key').map (·.classification) =
      (lookupBacking v.batch.backingCache v.world key').map (·.classification) := by
    intro key'
    rw [lookupBacking_resolved]
  cases hb : v.backing with
  | none =>
    have hrun := run_addRecordToCase_none es render hb
    rw [Visit.after, Visit.next, hb]
    exact ⟨_, none, hrun, hsame⟩
  | some r =>
    have hrun := run_addRecordToCase_some es render hb
    rw [Visit.after, Visit.next, hb]
    cases hp : v.placed render with
    | none =>
      rw [hp] at hrun
      refine ⟨_, none, hrun.trans ?_, hsame⟩
      simp
    | some i =>
      rw [hp] at hrun
      refine ⟨_, _, hrun, fun key' => ?_⟩
      rw [lookupBacking_set, ← hsame]
      by_cases h : key' = v.key
      · have hlook : lookupBacking v.batch.backingCache v.world v.key = some r := hb
        rw [if_pos h, h, lookupBacking_resolved, hlook, Option.map_some, Option.map_some,
          addBackreference_classification]
      · rw [if_neg h]

theorem after_grows (v : Visit) (render : Str → Match → Str) :
    (v.after render).caseId = v.case.caseId ∧ v.case.items <+: (v.after render).items := by
  cases hb : v.backing with
  | none =>
    rw [Visit.after, hb]
    exact ⟨rfl, List.prefix_rfl⟩
  | some r =>
    obtain ⟨new, hfolders, -⟩ := v.folders_append render
    constructor
    · rw [Visit.after, hb]
    · rw [after_items hb, hfolders, List.append_assoc]
      exact List.prefix_append _ _

variable (es render) in
/-- The batch and the second store agree after a record just if it is mirrored. -/
theorem Mirrors.agrees_iff (h : Mirrors v.batch v.world w')
    (hv : v.batch.caseCache.get? v.caseId = some (some v.case)) :
    v.Agrees render (reference es render w' v) ↔ v.Mirrored render := by
  obtain ⟨c', ht⟩ := h.tracks hv
  cases hb : v.backing with
  | none =>
    have hm : v.Mirrored render := fun hne => absurd hb hne
    obtain ⟨f, items', hf, hrep, -⟩ := ht.next es hm
    obtain ⟨c₁, hc₁, -, rfl⟩ := hrep.get
    exact ⟨fun _ => hm, fun _ => ⟨c₁, f, hc₁, hf⟩⟩
  | some r => exact (ht.agrees_iff hb).trans (mirrored_iff h.injective ht.unused hb)

variable (es) in
theorem Mirrors.record (h : Mirrors v.batch v.world w')
    (hv : v.batch.caseCache.get? v.caseId = some (some v.case)) (hm : v.Mirrored render)
    {cache : Dict Key (Option Record)} (key : Option Key)
    (hcache : ∀ key', (lookupBacking cache v.world key').map (·.classification) =
      (lookupBacking v.batch.backingCache v.world key').map (·.classification)) :
    Mirrors (v.batch.next v.caseId (v.after render) cache key) (v.world.atUid (v.next render))
      (reference es render w' v) := by
  obtain ⟨c', ht⟩ := h.tracks hv
  obtain ⟨f, items', hf, hrep, hle', hun'⟩ := ht.next es hm
  obtain ⟨hle, hun⟩ := ht.after_unused render
  obtain ⟨c₁, hc₁, -, rfl⟩ := hrep.get
  obtain ⟨hid, hgrow⟩ := after_grows v render
  have hmono : ∀ c c', Paired v.world w' c c' →
      Paired (v.world.atUid (v.next render)) (reference es render w' v) c c' :=
    fun c c' hp => hp.mono rfl hle hrep.uids hle'
  refine ⟨h.sound, ⟨h.keyed.cases, h.keyed.records⟩, hrep.sound, hrep.keyed,
    hrep.uids.trans h.uids, h.injective, fun t k => (hrep.records t k).trans (h.records t k),
    fun key' => (hcache key').trans (h.backing key'), Dict.nodup_keys_set h.nodup _ _,
    fun k c hc => ?_, fun k hk => ?_⟩
  · rw [Batch.next, Dict.get?_set] at hc
    by_cases hkv : k = v.caseId
    · rw [if_pos hkv, Option.some.injEq, Option.some.injEq] at hc
      subst hkv hc
      have hold := h.cached _ _ hv
      obtain ⟨c₀, hc₀, hpre, hcount⟩ := hold.grown
      refine ⟨hid.trans hold.caseId, ⟨c₀, hc₀, hpre.trans hgrow, hcount⟩, c₁, hc₁, ⟨f, hf⟩, hun, ?_⟩
      rw [hrep.uids]
      exact hun'
    · rw [if_neg hkv] at hc
      have hold := h.cached k c hc
      obtain ⟨c₂, hc₂, hp⟩ := hold.paired
      exact ⟨hold.caseId, hold.grown, c₂, (hrep.get_of_ne hkv).trans hc₂, hmono c c₂ hp⟩
  · rw [Batch.next] at hk
    have hkv : k ≠ v.caseId := fun heq => hk (v.after render) (by rw [Dict.get?_set, if_pos heq])
    have hold := h.others k fun c hc => hk c (by rw [Dict.get?_set, if_neg hkv, hc])
    rw [hrep.get_of_ne hkv]
    exact rel_imp hold hmono

end Mirrors

section Evaluation

variable {es : Elastic} {render : Str → Match → Str} {b : Batch} {w w' : World} {c : Case}

theorem Mirrors.init (hs : w.Sound) (hk : w.Keyed) (hi : Function.Injective w.uids)
    (hu : ∀ k c, w.cases k = some c → UnusedFrom w.uids w.nextUid c.items) :
    Mirrors {} w w := by
  refine ⟨hs, hk, hs, hk, rfl, hi, fun _ _ => rfl, fun _ => rfl, List.nodup_nil,
    fun k c hc => by simp at hc, fun k _ => ?_⟩
  cases hc : w.cases k with
  | none => exact .none
  | some c =>
    have hself : Renames (Equiv.refl Str) c.items c.items := by
      refine ⟨rfl, ?_⟩
      simp [CaseItem.rename]
    exact .some ⟨⟨_, hself⟩, hu k c hc, hu k c hc⟩

theorem run_loadCase (es : Elastic) (caseId : Str) (h : Mirrors b w w') :
    ∃ b', (loadCase caseId b).run (handle es) w = (.ok b', w) ∧ Mirrors b' w w' := by
  rw [loadCase]
  cases hk : b.caseCache.get? caseId with
  | some o => exact ⟨b, rfl, h⟩
  | none =>
    have hothers := h.others caseId fun c hc => by simp [hk] at hc
    dsimp only
    rw [run_bind_ok (run_getCase es w caseId)]
    cases hc : w.cases caseId with
    | none =>
      refine ⟨_, rfl, ⟨h.sound, h.keyed, h.sound', h.keyed', h.uids, h.injective, h.records,
        h.backing, Dict.nodup_keys_set h.nodup _ _, fun k c hkc => ?_, fun k hkc => ?_⟩⟩
      · rw [Dict.get?_set] at hkc
        split at hkc
        · simp at hkc
        · exact h.cached k c hkc
      · by_cases hkk : k = caseId
        · exact hkk ▸ hothers
        · exact h.others k fun c hc => hkc c (by rw [Dict.get?_set, if_neg hkk, hc])
    | some c =>
      rw [hc] at hothers
      refine ⟨_, rfl, ⟨h.sound, h.keyed, h.sound', h.keyed', h.uids, h.injective, h.records,
        h.backing, Dict.nodup_keys_set h.nodup _ _, fun k c' hkc => ?_, fun k hkc => ?_⟩⟩
      · rw [Dict.get?_set] at hkc
        by_cases hkk : k = caseId
        · rw [if_pos hkk, Option.some.injEq, Option.some.injEq] at hkc
          subst hkk hkc
          refine ⟨h.keyed.cases _ _ hc, ⟨c, hc, List.prefix_rfl, ?_⟩, ?_⟩
          · rw [Dict.get?_set, if_pos rfl]
          · cases hw : w'.cases k with
            | none => simp [hw] at hothers
            | some c' =>
              rw [hw, Option.rel_some_some] at hothers
              exact ⟨c', rfl, hothers⟩
        · rw [if_neg hkk] at hkc
          obtain ⟨hid, ⟨c₀, hc₀, hpre, hcount⟩, hp⟩ := h.cached k c' hkc
          refine ⟨hid, ⟨c₀, hc₀, hpre, ?_⟩, hp⟩
          rw [Dict.get?_set, if_neg hkk, hcount]
      · have hkk : k ≠ caseId := fun heq => hkc c (by rw [Dict.get?_set, if_pos heq])
        exact h.others k fun c' hc' => hkc c' (by rw [Dict.get?_set, if_neg hkk, hc'])

theorem run_addRecords_ok (es : Elastic) (render : Str → Match → Str) (caseId destination : Str)
    (records : List Match) (c : Case) (b : Batch) (w : World) : ∃ b' w',
      (addRecords render caseId destination records c b).run (handle es) w = (.ok b', w') := by
  induction records generalizing c b w with
  | nil => exact ⟨b, w, rfl⟩
  | cons record records ih =>
    obtain ⟨cache, key, hrun, -⟩ :=
      run_addRecordToCase es render ⟨caseId, destination, record, c, b, w⟩
    obtain ⟨b', w', hrest⟩ := ih _ _ _
    exact ⟨b', w', (run_bind_ok hrun _).trans hrest⟩

/-- The batch and the second store agree after every record of a run. -/
abbrev AgreesAlong (es : Elastic) (render : Str → Match → Str) : World → List Visit → Prop :=
  Along (reference es render) fun w v => v.Agrees render (reference es render w v)

theorem Mirrors.recordVisits (h : Mirrors b w w') {caseId : Str}
    (hc : b.caseCache.get? caseId = some (some c)) (destination : Str) (records : List Match)
    {b₂ : Batch} {w₂ : World}
    (hrun : (addRecords render caseId destination records c b).run (handle es) w = (.ok b₂, w₂)) :
    (AgreesAlong es render w' (recordVisits es render caseId destination records c b w) ↔
      ∀ v ∈ recordVisits es render caseId destination records c b w, v.Mirrored render) ∧
    ((∀ v ∈ recordVisits es render caseId destination records c b w, v.Mirrored render) →
      Mirrors b₂ w₂ (Systems.run (reference es render) w'
        (recordVisits es render caseId destination records c b w))) := by
  induction records generalizing c b w w' with
  | nil =>
    rw [addRecords, run_pure, Prod.mk.injEq, Except.ok.injEq] at hrun
    obtain ⟨rfl, rfl⟩ := hrun
    exact ⟨by simp [Correlation.recordVisits, AgreesAlong, Along], fun _ => h⟩
  | cons record records ih =>
    obtain ⟨cache, key, hadd, hcache⟩ :=
      run_addRecordToCase es render ⟨caseId, destination, record, c, b, w⟩
    dsimp only at hadd
    have hrest := (run_bind_ok hadd fun r =>
      addRecords render caseId destination records r.1 (b.next caseId r.1 r.2.1 r.2.2)).symm.trans
        hrun
    rw [Correlation.recordVisits, hadd]
    dsimp only
    set v : Visit := ⟨caseId, destination, record, c, b, w⟩ with hv
    have hstep := h.agrees_iff es render (v := v) hc
    rw [List.forall_mem_cons, AgreesAlong, Along, Systems.run_cons, hstep]
    have hnext := fun hm => ih (h.record es (v := v) hc hm key hcache)
      (by rw [Batch.next, Dict.get?_set, if_pos rfl]) hrest
    constructor
    · refine and_congr_right fun hm => (hnext hm).1
    · rintro ⟨hm, hall⟩
      exact (hnext hm).2 hall

theorem run_loadCase_ok (es : Elastic) (caseId : Str) (b : Batch) (w : World) :
    ∃ b', (loadCase caseId b).run (handle es) w = (.ok b', w) := by
  rw [loadCase]
  cases b.caseCache.get? caseId with
  | some o => exact ⟨_, rfl⟩
  | none =>
    dsimp only
    rw [run_bind_ok (run_getCase es w caseId)]
    cases w.cases caseId with
    | none => exact ⟨_, rfl⟩
    | some c => exact ⟨_, rfl⟩

theorem run_evaluateRules_ok (es : Elastic) (render : Str → Match → Str) (ids : List Str)
    (rules : List (Str × CaseRule)) (b : Batch) (w : World) :
    ∃ b' w', (evaluateRules render ids rules b).run (handle es) w = (.ok b', w') := by
  induction rules generalizing b w with
  | nil => exact ⟨b, w, rfl⟩
  | cons rule rules ih =>
    obtain ⟨caseId, rule⟩ := rule
    obtain ⟨b₁, hload⟩ := run_loadCase_ok es caseId b w
    rw [evaluateRules, run_bind_ok hload]
    split
    · exact ih b₁ w
    · exact ih b₁ w
    · next c _ =>
      rw [run_bind_ok (run_optional (handle es) _ w)]
      split
      · exact ih _ _
      · next records _ =>
        obtain ⟨b₂, w₂, hadd⟩ := run_addRecords_ok es render caseId rule.destination records c b₁ _
        rw [run_bind_ok hadd]
        exact ih b₂ w₂

theorem Mirrors.ruleVisits (h : Mirrors b w w') (ids : List Str) (rules : List (Str × CaseRule))
    {b₂ : Batch} {w₂ : World}
    (hrun : (evaluateRules render ids rules b).run (handle es) w = (.ok b₂, w₂)) :
    (AgreesAlong es render w' (ruleVisits es render ids rules b w) ↔
      ∀ v ∈ ruleVisits es render ids rules b w, v.Mirrored render) ∧
    ((∀ v ∈ ruleVisits es render ids rules b w, v.Mirrored render) →
      Mirrors b₂ w₂ (Systems.run (reference es render) w'
        (ruleVisits es render ids rules b w))) := by
  induction rules generalizing b w w' with
  | nil =>
    rw [evaluateRules, run_pure, Prod.mk.injEq, Except.ok.injEq] at hrun
    obtain ⟨rfl, rfl⟩ := hrun
    exact ⟨by simp [Correlation.ruleVisits, AgreesAlong, Along], fun _ => h⟩
  | cons rule rules ih =>
    obtain ⟨caseId, rule⟩ := rule
    obtain ⟨b₁, hload, h₁⟩ := run_loadCase es caseId h
    rw [evaluateRules, run_bind_ok hload] at hrun
    rw [Correlation.ruleVisits, hload]
    dsimp only
    cases hc : b₁.caseCache.get? caseId with
    | none =>
      rw [hc] at hrun
      exact ih h₁ hrun
    | some o =>
      rw [hc] at hrun
      cases o with
      | none => exact ih h₁ hrun
      | some c =>
        have hsearch := run_searchRecords es (w := w) (ruleIndexes rule) rule.query ids
        have hopt := run_optional (handle es) (searchRecords (ruleIndexes rule) rule.query ids) w
        rw [hsearch] at hopt ⊢
        dsimp only at hrun ⊢
        rw [run_bind_ok hopt] at hrun
        cases hfound : es.search w (ruleIndexes rule) rule.query ids with
        | error e =>
          rw [hfound] at hrun
          exact ih h₁ hrun
        | ok records =>
          obtain ⟨b₃, w₃, hadd⟩ :=
            run_addRecords_ok es render caseId rule.destination records c b₁ w
          rw [hfound] at hrun
          dsimp only [Except.toOption] at hrun
          rw [run_bind_ok hadd] at hrun
          dsimp only
          rw [hadd, AgreesAlong, along_append, Systems.run_append, List.forall_mem_append]
          obtain ⟨hiff, hafter⟩ := h₁.recordVisits hc rule.destination records hadd
          rw [AgreesAlong] at hiff
          rw [hiff]
          constructor
          · exact and_congr_right fun hm => (ih (hafter hm) hrun).1
          · rintro ⟨hm, hall⟩
            exact (ih (hafter hm) hrun).2 hall

end Evaluation

section Flush

variable {es : Elastic} {b : Batch} {w w' : World}

/-- A plan of updates of records that exist succeeds, and leaves the classifications as they
are. -/
theorem run_bulkRelated (es : Elastic) (t : RuleIndexTypes) {plan : List (Str × List Str)} (hs : w.Sound)
    (hplan : ∀ u ∈ plan, w.records t u.1 ≠ none) : ∃ w₁,
      (bulkRelated t plan).run (handle es) w = (.ok true, w₁) ∧ w₁.cases = w.cases ∧ w₁.Sound ∧
        SameRecords w w₁ := by
  suffices h : ∃ w₁, w.bulk (World.updateRelated t) plan = (true, w₁) ∧ w₁.cases = w.cases ∧
      w₁.Sound ∧ SameRecords w w₁ by
    obtain ⟨w₁, hbulk, hrest⟩ := h
    have hrun : (bulkRelated t plan).run (handle es) w =
      (.ok (w.bulk (World.updateRelated t) plan).1,
        (w.bulk (World.updateRelated t) plan).2) := rfl
    rw [hbulk] at hrun
    exact ⟨w₁, hrun, hrest⟩
  induction plan generalizing w with
  | nil => exact ⟨w, rfl, rfl, hs, fun _ _ => rfl⟩
  | cons u plan ih =>
    obtain ⟨r, hr⟩ := Option.ne_none_iff_exists'.mp (hplan u List.mem_cons_self)
    have hupdate : w.updateRelated t u = some (w.setRecord t { r with id := u.1, related := u.2 }) := by
      rw [World.updateRelated, hr, Option.map_some]
    have hsame : SameRecords w (w.setRecord t { r with id := u.1, related := u.2 }) := by
      intro t' k
      rw [World.setRecord_records]
      split
      · next heq => rw [heq.1, heq.2, hr, Option.map_some, Option.map_some]
      · rfl
    obtain ⟨w₁, hbulk, hcases, hs₁, hrec⟩ := @ih
      { w.setRecord t { r with id := u.1, related := u.2 } with writes := w.writes + 1 } hs
      fun u' hu' hnone => by
        have hu := hsame t u'.1
        have hnone' : (w.setRecord t { r with id := u.1, related := u.2 }).records t u'.1 = none :=
          hnone
        rw [hnone'] at hu
        exact hplan u' (List.mem_cons_of_mem _ hu') (Option.map_eq_none_iff.mp hu.symm)
    refine ⟨w₁, ?_, hcases, hs₁, fun t' k => (hrec t' k).trans (hsame t' k)⟩
    rw [World.bulk, hupdate]
    dsimp only
    rw [write_sound hs]
    dsimp only [World.wrote]
    rw [hbulk]
    rfl

/-- The records that the batch keeps exist. -/
def Backed (b : Batch) (w : World) : Prop :=
  ∀ key r, b.backingCache.get? key = some (some r) → w.records key.1 key.2 ≠ none

theorem run_flushBacking (es : Elastic) (t : RuleIndexTypes) (hs : w.Sound) (hb : Backed b w) : ∃ w₁,
    (flushBacking b t).run (handle es) w = (.ok (), w₁) ∧ w₁.cases = w.cases ∧ w₁.Sound ∧
      Backed b w₁ := by
  rw [flushBacking]
  split
  · exact ⟨w, rfl, rfl, hs, hb⟩
  · have hplan : ∀ u ∈ backingPlan b t, w.records t u.1 ≠ none := by
      intro u hu
      obtain ⟨key, hkey, hmap⟩ := List.mem_filterMap.mp hu
      have ht : key.1 = t := by simpa using (List.mem_filter.mp hkey).2
      split at hmap
      · next r hr =>
        have hex := hb key r hr
        rwa [ht, show key.2 = u.1 by rw [← Option.some.inj hmap]] at hex
      · contradiction
    obtain ⟨w₁, hrun, hcases, hs₁, hrec⟩ := run_bulkRelated es t hs hplan
    rw [run_bind_ok hrun]
    refine ⟨w₁, rfl, hcases, hs₁, fun key r hr hnone => hb key r hr ?_⟩
    have hsame := hrec key.1 key.2
    rw [hnone] at hsame
    exact Option.map_eq_none_iff.mp hsame.symm

theorem run_casePlan (es : Elastic) (cases : List Case) (w : World) :
    ∃ plan, (casePlan cases).run (handle es) w = (.ok plan, w) := by
  induction cases with
  | nil => exact ⟨[], rfl⟩
  | cons c cases ih =>
    obtain ⟨c', hc', -⟩ := run_recomputeCaseMetadata es (w := w) c
    obtain ⟨plan, hplan⟩ := ih
    exact ⟨_, (run_bind_ok hc' _).trans (run_bind_ok hplan _)⟩

/-- A plan of updates of cases that exist sets the items of just those. -/
theorem bulk_updateItems {plan : List (Str × ItemFields)} (hs : w.Sound)
    (hplan : ∀ u ∈ plan, w.cases u.1 ≠ none) (k : Str) :
    (k ∉ plan.map (·.1) ∧ (w.bulk World.updateItems plan).2.cases k = w.cases k) ∨
      ∃ u ∈ plan, u.1 = k ∧ ∃ c, (w.bulk World.updateItems plan).2.cases k = some c ∧
        c.items = u.2.items := by
  induction plan generalizing w with
  | nil => exact .inl ⟨by simp, rfl⟩
  | cons u plan ih =>
    obtain ⟨c, hc⟩ := Option.ne_none_iff_exists'.mp (hplan u List.mem_cons_self)
    have hupdate : w.updateItems u =
        some (w.setCase { c.setItemFields u.2 with caseId := u.1 }) := by
      rw [World.updateItems, hc, Option.map_some]
    rw [World.bulk, hupdate]
    dsimp only
    rw [write_sound hs]
    dsimp only [World.wrote]
    have hrest := @ih
      { w.setCase { c.setItemFields u.2 with caseId := u.1 } with writes := w.writes + 1 } hs
      fun u' hu' => by
        by_cases hk : u'.1 = u.1
        · simp [World.setCase, hk]
        · simpa [World.setCase, Function.update_of_ne hk] using
            hplan u' (List.mem_cons_of_mem _ hu')
    rcases hrest with ⟨hk, hsame⟩ | ⟨u', hu', hrest⟩
    · rw [hsame]
      by_cases hku : k = u.1
      · refine .inr ⟨u, List.mem_cons_self, hku.symm,
          { c.setItemFields u.2 with caseId := u.1 }, ?_, rfl⟩
        simp [World.setCase, hku]
      · refine .inl ⟨?_, ?_⟩
        · rw [List.map_cons, List.mem_cons, not_or]
          exact ⟨hku, hk⟩
        · simp [World.setCase, Function.update_of_ne hku]
    · exact .inr ⟨u', List.mem_cons_of_mem _ hu', hrest⟩

/-- The items of two cases agree up to the ids. -/
def SameItems (c c' : Case) : Prop := ∃ f, Renames f c.items c'.items

theorem Mirrors.flushed (es : Elastic) {w₂ : World} (h : Mirrors b w w') (hs : w₂.Sound)
    (hcases : w₂.cases = w.cases) (k : Str) :
    Option.Rel SameItems (((flushCases b).run (handle es) w₂).2.cases k) (w'.cases k) := by
  obtain ⟨plan, hplan⟩ := run_casePlan es (modifiedCases b) w₂
  have hitems := casePlan_items hplan
  have hkept : ∀ c ∈ modifiedCases b, Kept b.originalItemCounts w w' c.caseId c := by
    intro c hc
    obtain ⟨k', hk'⟩ := mem_modifiedCases hc
    have hkept := h.cached k' c (Dict.get?_of_mem h.nodup hk')
    rwa [hkept.caseId]
  have hmem : ∀ u ∈ plan, ∃ c ∈ modifiedCases b, c.caseId = u.1 ∧ c.items = u.2.items := by
    intro u hu
    have hu' : (u.1, u.2.items) ∈ plan.map fun u => (u.1, u.2.items) := List.mem_map_of_mem hu
    rw [hitems] at hu'
    obtain ⟨c, hc, heq⟩ := List.mem_map.mp hu'
    obtain ⟨hid, hi⟩ := Prod.mk.inj heq
    exact ⟨c, hc, hid, hi⟩
  have hrun : ((flushCases b).run (handle es) w₂).2 = (w₂.bulk World.updateItems plan).2 := by
    rw [flushCases, run_bind_ok hplan]
    split
    · next hnil =>
      rw [hnil]
      rfl
    · have hbulk : (bulkItems plan).run (handle es) w₂ =
        (.ok (w₂.bulk World.updateItems plan).1, (w₂.bulk World.updateItems plan).2) := rfl
      rw [run_bind_ok hbulk]
      split <;> rfl
  have hexist : ∀ u ∈ plan, w₂.cases u.1 ≠ none := by
    intro u hu
    obtain ⟨c, hc, hid, -⟩ := hmem u hu
    obtain ⟨c₀, hc₀, -⟩ := (hkept c hc).grown
    rw [hcases, ← hid, hc₀]
    simp
  rw [hrun]
  rcases bulk_updateItems hs hexist k with ⟨hk, hsame⟩ | ⟨u, hu, rfl, c, hc, hi⟩
  · rw [hsame, hcases]
    cases hcached : b.caseCache.get? k with
    | none =>
      exact rel_imp (h.others k fun c hc => by simp [hcached] at hc) fun _ _ hp => hp.agrees
    | some o =>
      cases o with
      | none =>
        exact rel_imp (h.others k fun c hc => by simp [hcached] at hc) fun _ _ hp => hp.agrees
      | some c =>
        have hkc := h.cached k c hcached
        obtain ⟨c₀, hc₀, hpre, hcount⟩ := hkc.grown
        obtain ⟨c', hc', hp⟩ := hkc.paired
        -- a case that is not written has not grown
        have hlen : c₀.items.length = c.items.length := by
          by_contra hne
          have hmod : c ∈ modifiedCases b := by
            refine List.mem_filterMap.mpr ⟨(k, some c), Dict.mem_of_get? hcached, ?_⟩
            dsimp only
            rw [hcount, if_neg]
            simpa using hne
          have hin : (c.caseId, c.items) ∈ plan.map fun u => (u.1, u.2.items) := by
            rw [hitems]
            exact List.mem_map_of_mem (f := fun c => (c.caseId, c.items)) hmod
          obtain ⟨u, hu, heq⟩ := List.mem_map.mp hin
          have hku : u.1 = k := (Prod.mk.inj heq).1.trans hkc.caseId
          exact hk (hku ▸ List.mem_map_of_mem hu)
        rw [hc₀, hc']
        refine .some ?_
        rw [SameItems, hpre.eq_of_length hlen]
        exact hp.agrees
  · obtain ⟨c₁, hc₁, hid, hi₁⟩ := hmem u hu
    obtain ⟨c', hc', hp⟩ := (hkept c₁ hc₁).paired
    rw [hid] at hc'
    rw [hc, hc']
    refine .some ?_
    rw [SameItems, hi, ← hi₁]
    exact hp.agrees

end Flush

/-- Where no write fails and the random ids are new: the batch agrees with `append_case_item` under
`get_parent_from_path` after every record just if every record is mirrored, and then so do all the
cases that `process_batch` leaves in the store. -/
theorem processBatch_mirrors (es : Elastic) (render : Str → Match → Str) (ids : List Str) (w : World)
    (hs : w.Sound) (hk : w.Keyed) (hi : Function.Injective w.uids)
    (hu : ∀ k c, w.cases k = some c → UnusedFrom w.uids w.nextUid c.items) :
    (AgreesAlong es render w (visits es render ids w) ↔
      ∀ v ∈ visits es render ids w, v.Mirrored render) ∧
    ((∀ v ∈ visits es render ids w, v.Mirrored render) → ∀ k, Option.Rel SameItems
      (((processBatch render ids).run (handle es) w).2.cases k)
      ((Systems.run (reference es render) w (visits es render ids w)).cases k)) := by
  have hinit := Mirrors.init hs hk hi hu
  have hself : ∀ k, Option.Rel SameItems (w.cases k) (w.cases k) := fun k =>
    rel_imp (hinit.others k fun c hc => by simp at hc) fun _ _ hp => hp.agrees
  have hempty : (AgreesAlong es render w [] ↔ ∀ v ∈ ([] : List Visit), v.Mirrored render) := by
    simp [AgreesAlong, Along]
  rw [visits, processBatch]
  split
  · exact ⟨hempty, fun _ => hself⟩
  · rw [run_getActiveRules]
    have hrules := run_getActiveRules es w
    cases hr : activeRules w.time.replaceUtc (es.withRules w) with
    | error e =>
      rw [hr] at hrules
      rw [run_bind_error hrules]
      exact ⟨hempty, fun _ => hself⟩
    | ok rules =>
      rw [hr] at hrules
      rw [run_bind_ok hrules]
      dsimp only
      split
      · next hnil =>
        rw [hnil]
        exact ⟨hempty, fun _ => hself⟩
      · obtain ⟨b, w₁, hrun⟩ := run_evaluateRules_ok es render ids rules {} w
        obtain ⟨hiff, hafter⟩ := hinit.ruleVisits ids rules hrun
        refine ⟨hiff, fun hall k => ?_⟩
        have hm := hafter hall
        have hbacked : Backed b w₁ := by
          intro key r hr hnone
          have hlook : lookupBacking b.backingCache w₁ key = some r := by
            rw [lookupBacking, hr]
          have hback := hm.backing key
          rw [hlook, hnone] at hback
          contradiction
        obtain ⟨w₂, hhit, hc₂, hs₂, hb₂⟩ := run_flushBacking es .hit hm.sound hbacked
        obtain ⟨w₃, hevent, hc₃, hs₃, -⟩ := run_flushBacking es .event hs₂ hb₂
        have hflushed := hm.flushed es hs₃ (hc₃.trans hc₂) k
        have hlast : ((flushCases b >>= fun _ => (pure b.added : Service Nat)).run (handle es)
            w₃).2 = ((flushCases b).run (handle es) w₃).2 := by
          rw [run_bind]
          cases (flushCases b).run (handle es) w₃ with
          | mk r t => cases r <;> rfl
        rw [run_bind_ok hrun, run_bind_ok hhit, run_bind_ok hevent, hlast]
        exact hflushed

/-- A case with a rule that puts the hits it matches into a folder. -/
def filingCase (items : List CaseItem) : Case where
  caseId := ['K']
  items := items
  rules := [{ ruleId := ['r'], destination := "A/x".toList, query := ['q'], author := ['u'],
              createdAt := ⟨0, some 0, Datetime.zero_nonneg, Datetime.zero_le_maxWall⟩ }]

/-- The case and a hit. -/
def filingWorld (items : List CaseItem) : World :=
  .ofDocuments [filingCase items] [(.hit, { id := ['h'], classification := ['C'] })]
    (fun n => List.replicate (n + 1) 'u') ⟨0, some 0, Datetime.zero_nonneg, Datetime.zero_le_maxWall⟩

/-- Every search finds the case and the hit. -/
def findsHit (items : List CaseItem) : Elastic where
  withRules _ := [filingCase items]
  withItemValue _ _ := []
  search _ _ _ _ := .ok [{ id := ['h'] }]

/-- The hit as an item of the case. -/
def hitItem : CaseItem :=
  { id := ['i'], parent := none, name := some ['h'], type := .hit, value := ['h'] }

theorem filingWorld_unused {items : List CaseItem} (h : items = [] ∨ items = [hitItem]) :
    ∀ k c, (filingWorld items).cases k = some c →
      UnusedFrom (filingWorld items).uids (filingWorld items).nextUid c.items := by
  intro k c hc m _
  have hfind : [filingCase items].find? (·.caseId = k) = some c := hc
  have hmem := List.mem_of_find?_eq_some hfind
  obtain rfl := List.mem_singleton.mp hmem
  have hne : hitItem.id ≠ List.replicate (m + 1) 'u' := by
    simp [hitItem, List.replicate_succ]
  have huid : (filingWorld items).uids m = List.replicate (m + 1) 'u' := rfl
  rw [huid]
  refine ⟨by simp, ?_, ?_⟩
  · cases h with
    | inl h => simp [filingCase, h]
    | inr h => simpa [filingCase, h] using hne
  · cases h with
    | inl h => simp [filingCase, h]
    | inr h => simp [filingCase, h, hitItem]

theorem processBatch_mirrors_new :
    Option.Rel SameItems
      (((processBatch (fun d _ => d) [['h']]).run (handle (findsHit [])) (filingWorld [])).2.cases
        ['K'])
      ((Systems.run (reference (findsHit []) fun d _ => d) (filingWorld [])
        (visits (findsHit []) (fun d _ => d) [['h']] (filingWorld []))).cases ['K']) := by
  refine (processBatch_mirrors (findsHit []) (fun d _ => d) [['h']] (filingWorld []) (fun _ => rfl)
    (World.keyed_ofDocuments _ _ _ _) replicate_injective (filingWorld_unused (.inl rfl))).2
    ?_ ['K']
  intro v hv hb
  obtain ⟨b, hvisits⟩ : ∃ b, visits (findsHit []) (fun d _ => d) [['h']] (filingWorld []) =
      [⟨['K'], "A/x".toList, { id := ['h'] }, filingCase [], b, filingWorld []⟩] := ⟨_, rfl⟩
  rw [hvisits, List.mem_singleton] at hv
  subst hv
  change ¬ Visit.Duplicate _
  simp [Visit.Duplicate, filingCase]

/-- A hit that is in the case already: the batch leaves a new folder behind, empty. -/
theorem folder_left_behind : ∃ c c',
    ((processBatch (fun d _ => d) [['h']]).run (handle (findsHit [hitItem]))
      (filingWorld [hitItem])).2.cases ['K'] = some c ∧
    (Systems.run (reference (findsHit [hitItem]) fun d _ => d) (filingWorld [hitItem])
      (visits (findsHit [hitItem]) (fun d _ => d) [['h']] (filingWorld [hitItem]))).cases ['K'] =
        some c' ∧
    c.items.length = 2 ∧ c'.items.length = 1 ∧ ¬ SameItems c c' := by
  refine ⟨_, _, rfl, rfl, by decide, by decide, ?_⟩
  rintro ⟨f, hf⟩
  have hlen := congrArg List.length hf.eq
  rw [List.length_map] at hlen
  revert hlen
  decide

end Howler.Correlation
