import Mathlib.Algebra.BigOperators.Group.Finset.Piecewise
import Howler.Correlation.Refinement

namespace Howler.Correlation

open Python Cases Systems Systems.Prog

/-- The number of items for hits and events. -/
def recordItems (items : List CaseItem) : ℕ :=
  items.countP fun item => item.type = .hit ∨ item.type = .event

namespace Visit

variable (v : Visit) (render : Str → Match → Str)

/-- The record is added to the case. -/
def added : Bool := v.backing.isSome && (v.placed render).isSome

/-- The record is added, and its back-reference is new. -/
def counted : Bool :=
  v.added render && v.backing.all fun r => v.case.caseId ∉ r.related

/-- Where a folder of the destination is missing, the record is new to the case and its name is
free. -/
def Tidy : Prop :=
  v.backing ≠ none → findPath v.case.items (pathParts ((v.path render).getD [])) none = none →
    ¬ v.Duplicate ∧ ¬ NamesTaken (v.opened render) (v.newItem render)

/-- A record that refers to the case already is in the case, or its name is not free. -/
def NewlyReferred : Prop :=
  ∀ r, v.backing = some r → v.case.caseId ∈ r.related →
    v.Duplicate ∨ NamesTaken (v.opened render) (v.newItem render)

end Visit

section Visits

variable {es : Elastic} {render : Str → Match → Str} {v : Visit}

theorem not_placed_iff : v.placed render = none ↔
    v.Duplicate ∨ Visit.NamesTaken (v.opened render) (v.newItem render) := by
  have hplaced := @placed_ne_none_iff render v
  rw [← not_or] at hplaced
  exact not_iff_not.mp hplaced

theorem createPath_length {uids : Nat → Str} {n : Nat} {parts : List Str} {items : List CaseItem}
    {parent : Option Str} (h : findPath items parts parent = none) :
    items.length < (createPath uids n parts items parent).items.length := by
  induction parts generalizing parent with
  | nil => contradiction
  | cons part parts ih =>
    rw [findPath] at h
    rw [createPath]
    cases hf : findFolder items part parent with
    | some folder =>
      rw [hf] at h
      exact ih h
    | none =>
      obtain ⟨new, hnew, -⟩ := @createPath_append
        (items ++ [newFolder (uids n) part parent]) uids (n + 1) (some (uids n)) parts
      dsimp only
      rw [hnew]
      simp only [List.length_append, List.length_singleton]
      omega

/-- No folder is created just if none is missing. -/
theorem folders_eq_iff : (v.folders render).items = v.case.items ↔
    findPath v.case.items (pathParts ((v.path render).getD [])) none ≠ none := by
  constructor
  · intro heq hnone
    have hlt := @createPath_length v.world.uids v.world.nextUid _ _ _ hnone
    have hlen := congrArg List.length heq
    simp only [Visit.folders, Visit.foldersIn] at hlen
    omega
  · intro hne
    obtain ⟨p, hp⟩ := Option.ne_none_iff_exists'.mp hne
    rw [Visit.folders, Visit.foldersIn, createPath_of_findPath hp]

/-- A record that is not added leaves the case as it was just if the visit is tidy. -/
theorem tidy_iff :
    (v.added render = false → (v.after render).items = v.case.items) ↔ v.Tidy render := by
  rw [Visit.Tidy, Visit.added, Visit.after]
  cases hb : v.backing with
  | none => simp
  | some r =>
    cases hp : v.placed render with
    | some i =>
      have hfree : ¬ v.Duplicate ∧ ¬ Visit.NamesTaken (v.opened render) (v.newItem render) := by
        rw [← placed_ne_none_iff, hp]
        simp
      simp [hfree]
    | none =>
      have htaken := not_placed_iff.mp hp
      rw [← not_or]
      have hfolders := @folders_eq_iff render v
      simp only [Option.isSome_some, Option.isSome_none, Bool.and_false, Option.toList_none,
        List.map_nil, List.append_nil, hfolders, htaken, not_true_eq_false, ne_eq,
        not_false_eq_true, true_imp_iff, imp_false, reduceCtorEq]

/-- A record that is added is counted just if its back-reference is new. -/
theorem newlyReferred_iff :
    (v.added render = true → v.counted render = true) ↔ v.NewlyReferred render := by
  rw [Visit.NewlyReferred, Visit.counted, Visit.added]
  cases hb : v.backing with
  | none => simp
  | some r =>
    cases hp : v.placed render with
    | some i =>
      have hfree : ¬ (v.Duplicate ∨ Visit.NamesTaken (v.opened render) (v.newItem render)) := by
        rw [not_or, ← placed_ne_none_iff, hp]
        simp
      simp [hfree]
    | none =>
      have htaken := not_placed_iff.mp hp
      simp [htaken]

theorem counted_imp (h : v.counted render = true) : v.added render = true :=
  (Bool.and_eq_true_iff.mp h).1

theorem placed_type {i : CaseItem} (h : v.placed render = some i) :
    i.type = v.record.index.itemType := by
  rw [Visit.placed] at h
  split at h
  · contradiction
  · exact (placeItem_some h).2.2.1

/-- The case grows by one item for a record just if the record is added. -/
theorem recordItems_after (v : Visit) (render : Str → Match → Str) :
    recordItems (v.after render).items =
      recordItems v.case.items + if v.added render then 1 else 0 := by
  cases hb : v.backing with
  | none => simp [Visit.after, Visit.added, hb]
  | some r =>
    obtain ⟨new, hnew, hfolder⟩ := v.folders_append render
    have hzero : recordItems new = 0 := by
      rw [recordItems, List.countP_eq_zero]
      intro i hi
      simp [hfolder i hi]
    rw [after_items hb, hnew]
    rw [recordItems] at hzero ⊢
    rw [List.countP_append, List.countP_append, hzero, Visit.added, hb]
    cases hp : v.placed render with
    | none => simp [recordItems]
    | some i =>
      have ht := placed_type hp
      have htype : i.type = .hit ∨ i.type = .event := by
        rw [ht]
        cases v.record.index <;> simp [RuleIndexTypes.itemType]
      simp [recordItems, htype]

/-- `_add_record_to_case` never raises, and reports the record just if it is counted. -/
theorem run_addRecordToCase_counted (es : Elastic) (render : Str → Match → Str) (v : Visit) :
    ∃ cache key, (addRecordToCase render v.case v.record v.destination
        v.batch.backingCache).run (handle es) v.world =
          (.ok (v.after render, cache, key), v.world.atUid (v.next render)) ∧
      key.toList.length = if v.counted render then 1 else 0 := by
  cases hb : v.backing with
  | none =>
    refine ⟨resolvedCache v.batch.backingCache v.world v.key, none, ?_, ?_⟩
    · rw [Visit.after, Visit.next, hb]
      exact run_addRecordToCase_none es render hb
    · simp [Visit.counted, Visit.added, hb]
  | some r =>
    have hrun := run_addRecordToCase_some es render hb
    rw [Visit.after, Visit.next, hb, Visit.counted, Visit.added, hb]
    cases hp : v.placed render with
    | none =>
      rw [hp] at hrun
      refine ⟨resolvedCache v.batch.backingCache v.world v.key, none, hrun.trans ?_, ?_⟩
      · simp
      · simp
    | some i =>
      rw [hp] at hrun
      refine ⟨_, _, hrun, ?_⟩
      unfold Record.addBackreference
      by_cases hmem : v.case.caseId ∈ r.related
      · simp [hmem]
      · simp [hmem]

end Visits

/-- The visits of a case in a list of visits. -/
def ofCase (k : Str) (vs : List Visit) : List Visit := vs.filter (·.caseId = k)

/-- A case that the batch keeps is the stored one with the records that were added. -/
structure Tallied (render : Str → Match → Str) (counts : Dict Str Nat) (w : World)
    (vs : List Visit) (k : Str) (c : Case) : Prop where
  caseId : c.caseId = k
  grown : ∃ c₀, w.cases k = some c₀ ∧ c₀.items <+: c.items ∧
    counts.get? k = some c₀.items.length ∧
    recordItems c.items = recordItems c₀.items + (ofCase k vs).countP (·.added render) ∧
    ((∀ v ∈ ofCase k vs, v.added render = false ∧ (v.after render).items = v.case.items) →
      c.items = c₀.items)

/-- What the batch has counted after some visits. -/
structure Tally (render : Str → Match → Str) (w₀ : World) (vs : List Visit) (b : Batch)
    (w : World) : Prop where
  cases : w.cases = w₀.cases
  nodup : (Dict.keys b.caseCache).Nodup
  cached : ∀ k c, b.caseCache.get? k = some (some c) →
    Tallied render b.originalItemCounts w₀ vs k c
  unseen : ∀ k, (∀ c, b.caseCache.get? k ≠ some (some c)) → ofCase k vs = []
  added : b.added = vs.countP (·.counted render)

section Tally

variable {es : Elastic} {render : Str → Match → Str} {w₀ w : World} {vs : List Visit} {b : Batch}
  {c : Case}

theorem ofCase_append (k : Str) (vs vs' : List Visit) :
    ofCase k (vs ++ vs') = ofCase k vs ++ ofCase k vs' := List.filter_append _ _

theorem ofCase_singleton (k : Str) (v : Visit) : ofCase k [v] = if v.caseId = k then [v] else [] := by
  simp [ofCase, List.filter_cons]

theorem Tally.init (render : Str → Match → Str) (w : World) : Tally render w [] {} w :=
  ⟨rfl, List.nodup_nil, fun k c h => by simp at h, fun _ _ => rfl, rfl⟩

/-- One more record. -/
theorem Tally.record {v : Visit} (h : Tally render w₀ vs v.batch v.world)
    (hc : v.batch.caseCache.get? v.caseId = some (some v.case))
    {cache : Dict Key (Option Record)} {key : Option Key} {w' : World}
    (hw : w'.cases = v.world.cases)
    (hkey : key.toList.length = if v.counted render then 1 else 0) :
    Tally render w₀ (vs ++ [v]) (v.batch.next v.caseId (v.after render) cache key) w' := by
  obtain ⟨hid, c₀, hc₀, hpre, hcount, hitems, hsame⟩ := h.cached _ _ hc
  obtain ⟨hid', hgrow⟩ := after_grows v render
  refine ⟨hw.trans h.cases, Dict.nodup_keys_set h.nodup _ _, fun k c' hk => ?_, fun k hk => ?_, ?_⟩
  · have hk : (v.batch.caseCache.set v.caseId (some (v.after render))).get? k = some (some c') := hk
    rw [Dict.get?_set] at hk
    by_cases hkk : k = v.caseId
    · subst hkk
      rw [if_pos rfl, Option.some.injEq, Option.some.injEq] at hk
      subst hk
      refine ⟨hid'.trans hid, c₀, hc₀, hpre.trans hgrow, hcount, ?_, fun hall => ?_⟩
      · rw [recordItems_after, hitems, ofCase_append, List.countP_append, ofCase_singleton,
          if_pos rfl, List.countP_singleton, Nat.add_assoc]
      · rw [ofCase_append, ofCase_singleton, if_pos rfl] at hall
        have hlast := hall v (by simp)
        rw [hlast.2]
        exact hsame fun u hu => hall u (List.mem_append_left _ hu)
    · rw [if_neg hkk] at hk
      obtain ⟨hidk, c₁, hc₁, hrest⟩ := h.cached k c' hk
      refine ⟨hidk, c₁, hc₁, ?_⟩
      rw [ofCase_append, ofCase_singleton, if_neg (Ne.symm hkk), List.append_nil]
      exact hrest
  · have hkk : k ≠ v.caseId := fun heq => hk (v.after render) (by
      rw [Batch.next, Dict.get?_set, if_pos heq])
    rw [ofCase_append, ofCase_singleton, if_neg (Ne.symm hkk), List.append_nil]
    exact h.unseen k fun c' hc' => hk c' (by rw [Batch.next, Dict.get?_set, if_neg hkk, hc'])
  · rw [Batch.next, h.added, hkey, List.countP_append, List.countP_singleton]

theorem Tally.records (h : Tally render w₀ vs b w) {caseId : Str}
    (hc : b.caseCache.get? caseId = some (some c)) (destination : Str) (records : List Match)
    {b₂ : Batch} {w₂ : World}
    (hrun : (addRecords render caseId destination records c b).run (handle es) w = (.ok b₂, w₂)) :
    Tally render w₀ (vs ++ recordVisits es render caseId destination records c b w) b₂ w₂ := by
  induction records generalizing c b w vs with
  | nil =>
    rw [addRecords, run_pure, Prod.mk.injEq, Except.ok.injEq] at hrun
    obtain ⟨rfl, rfl⟩ := hrun
    simpa [Correlation.recordVisits] using h
  | cons record records ih =>
    obtain ⟨cache, key, hadd, hkey⟩ :=
      run_addRecordToCase_counted es render ⟨caseId, destination, record, c, b, w⟩
    dsimp only at hadd
    have hrest := (run_bind_ok hadd fun r =>
      addRecords render caseId destination records r.1 (b.next caseId r.1 r.2.1 r.2.2)).symm.trans
        hrun
    rw [Correlation.recordVisits, hadd, List.append_cons]
    dsimp only
    set v : Visit := ⟨caseId, destination, record, c, b, w⟩ with hv
    exact ih (h.record (v := v) hc rfl hkey) (by rw [Batch.next, Dict.get?_set, if_pos rfl]) hrest

/-- A case is fetched as it is stored. -/
theorem Tally.load (h : Tally render w₀ vs b w) (hk : w₀.Keyed) (caseId : Str) :
    ∃ b', (loadCase caseId b).run (handle es) w = (.ok b', w) ∧ Tally render w₀ vs b' w := by
  rw [loadCase]
  cases hcached : b.caseCache.get? caseId with
  | some o => exact ⟨b, rfl, h⟩
  | none =>
    have hunseen : ofCase caseId vs = [] := h.unseen caseId fun c hc => by simp [hcached] at hc
    dsimp only
    rw [run_bind_ok (run_getCase es w caseId)]
    cases hc : w.cases caseId with
    | none =>
      refine ⟨_, rfl, h.cases, Dict.nodup_keys_set h.nodup _ _, fun k c hkc => ?_,
        fun k hkc => ?_, h.added⟩
      · rw [Dict.get?_set] at hkc
        split at hkc
        · simp at hkc
        · exact h.cached k c hkc
      · by_cases hkk : k = caseId
        · exact hkk ▸ hunseen
        · exact h.unseen k fun c hc => hkc c (by rw [Dict.get?_set, if_neg hkk, hc])
    | some c =>
      refine ⟨_, rfl, h.cases, Dict.nodup_keys_set h.nodup _ _, fun k c' hkc => ?_,
        fun k hkc => ?_, h.added⟩
      · rw [Dict.get?_set] at hkc
        by_cases hkk : k = caseId
        · rw [if_pos hkk, Option.some.injEq, Option.some.injEq] at hkc
          subst hkk hkc
          have hc₀ : w₀.cases k = some c := by rw [← h.cases, hc]
          refine ⟨hk.cases _ _ hc₀, c, hc₀, List.prefix_rfl, ?_, ?_, fun _ => rfl⟩
          · rw [Dict.get?_set, if_pos rfl]
          · rw [hunseen, List.countP_nil, Nat.add_zero]
        · rw [if_neg hkk] at hkc
          obtain ⟨hid, c₀, hc₀, hpre, hcount, hrest⟩ := h.cached k c' hkc
          refine ⟨hid, c₀, hc₀, hpre, ?_, hrest⟩
          rw [Dict.get?_set, if_neg hkk, hcount]
      · by_cases hkk : k = caseId
        · exact hkk ▸ hunseen
        · exact h.unseen k fun c' hc' => hkc c' (by rw [Dict.get?_set, if_neg hkk, hc'])

theorem Tally.rules (h : Tally render w₀ vs b w) (hk : w₀.Keyed) (ids : List Str)
    (rules : List (Str × CaseRule)) {b₂ : Batch} {w₂ : World}
    (hrun : (evaluateRules render ids rules b).run (handle es) w = (.ok b₂, w₂)) :
    Tally render w₀ (vs ++ ruleVisits es render ids rules b w) b₂ w₂ := by
  induction rules generalizing b w vs with
  | nil =>
    rw [evaluateRules, run_pure, Prod.mk.injEq, Except.ok.injEq] at hrun
    obtain ⟨rfl, rfl⟩ := hrun
    simpa [Correlation.ruleVisits] using h
  | cons rule rules ih =>
    obtain ⟨caseId, rule⟩ := rule
    obtain ⟨b₁, hload, h₁⟩ := @Tally.load es _ _ _ _ _ h hk caseId
    rw [evaluateRules, run_bind_ok hload] at hrun
    rw [Correlation.ruleVisits, hload]
    dsimp only
    cases hc : b₁.caseCache.get? caseId with
    | none =>
      rw [hc] at hrun
      exact ih h₁ hrun
    | some o =>
      rw [hc] at hrun
      cases o with
      | none => exact ih h₁ hrun
      | some c =>
        have hsearch := run_searchRecords es (w := w) (ruleIndexes rule) rule.query ids
        have hopt := run_optional (handle es) (searchRecords (ruleIndexes rule) rule.query ids) w
        rw [hsearch] at hopt ⊢
        dsimp only at hrun ⊢
        rw [run_bind_ok hopt] at hrun
        cases hfound : es.search w (ruleIndexes rule) rule.query ids with
        | error e =>
          rw [hfound] at hrun
          exact ih h₁ hrun
        | ok records =>
          obtain ⟨b₃, w₃, hadd⟩ :=
            run_addRecords_ok es render caseId rule.destination records c b₁ w
          rw [hfound] at hrun
          dsimp only [Except.toOption] at hrun
          rw [run_bind_ok hadd] at hrun
          dsimp only
          rw [hadd, ← List.append_assoc]
          exact ih (h₁.records hc rule.destination records hadd) hrun

end Tally

section Flush

variable {es : Elastic} {render : Str → Match → Str} {w₀ w w' : World} {vs : List Visit} {b : Batch}
  {plan : List (Str × ItemFields)}

/-- A plan of updates that succeeds sets the items of just the cases it is about. -/
theorem bulk_true (h : (w.bulk World.updateItems plan).1 = true) (k : Str) :
    (k ∉ plan.map (·.1) ∧ (w.bulk World.updateItems plan).2.cases k = w.cases k) ∨
      ∃ u ∈ plan, u.1 = k ∧ ∃ c, (w.bulk World.updateItems plan).2.cases k = some c ∧
        c.items = u.2.items := by
  induction plan generalizing w with
  | nil => exact .inl ⟨by simp, rfl⟩
  | cons u plan ih =>
    rw [World.bulk] at h ⊢
    cases hu : w.updateItems u with
    | none =>
      rw [hu] at h
      contradiction
    | some w₁ =>
      rw [hu] at h
      dsimp only at h ⊢
      obtain ⟨hok, hrest⟩ := Bool.and_eq_true_iff.mp h
      obtain ⟨c, -, rfl⟩ := Option.map_eq_some_iff.mp hu
      have hcases : (w.write fun v => { w.setCase { c.setItemFields u.2 with caseId := u.1 } with
          writes := v.writes }).2.cases =
          Function.update w.cases u.1 (some { c.setItemFields u.2 with caseId := u.1 }) := by
        rw [World.write] at hok ⊢
        split at hok
        · contradiction
        · next hf =>
          rw [if_neg hf]
          rfl
      rcases ih hrest with ⟨hk, hsame⟩ | ⟨u', hu', hnext⟩
      · rw [hsame, hcases]
        by_cases hku : k = u.1
        · refine .inr ⟨u, List.mem_cons_self, hku.symm,
            { c.setItemFields u.2 with caseId := u.1 }, ?_, rfl⟩
          rw [hku, Function.update_self]
        · refine .inl ⟨?_, Function.update_of_ne hku _ _⟩
          rw [List.map_cons, List.mem_cons, not_or]
          exact ⟨hku, hk⟩
      · exact .inr ⟨u', List.mem_cons_of_mem _ hu', hnext⟩

/-- A plan leaves the other cases alone, whether it succeeds or not. -/
theorem bulk_frame {k : Str} (hk : k ∉ plan.map (·.1)) (w : World) :
    (w.bulk World.updateItems plan).2.cases k = w.cases k := by
  refine bulk_inv (P := fun v => v.cases k = w.cases k) (fun _ _ h => h)
    (fun u hu v v' hv h => ?_) rfl
  obtain ⟨c, -, rfl⟩ := Option.map_eq_some_iff.mp hv
  have hku : k ≠ u.1 := fun heq => hk (heq ▸ List.mem_map_of_mem hu)
  exact (Function.update_of_ne hku _ _).trans h

/-- The plan is about the cases that have grown. -/
theorem Tally.mem_plan (h : Tally render w₀ vs b w)
    (hplan : (casePlan (modifiedCases b)).run (handle es) w' = (.ok plan, w')) {k : Str} :
    (∀ u ∈ plan, u.1 = k → ∃ c, b.caseCache.get? k = some (some c) ∧ c.items = u.2.items) ∧
    (k ∈ plan.map (·.1) ↔ ∃ c, b.caseCache.get? k = some (some c) ∧
      b.originalItemCounts.get? k ≠ some c.items.length) := by
  have hitems := casePlan_items hplan
  have hmod : ∀ c ∈ modifiedCases b, b.caseCache.get? c.caseId = some (some c) ∧
      b.originalItemCounts.get? c.caseId ≠ some c.items.length := by
    intro c hc
    obtain ⟨⟨k', o⟩, hmem, ho⟩ := List.mem_filterMap.mp hc
    cases o with
    | none => contradiction
    | some c' =>
      dsimp only at ho
      split at ho
      · contradiction
      · next hne =>
        obtain rfl := Option.some.inj ho
        have hget := Dict.get?_of_mem h.nodup hmem
        rw [(h.cached _ _ hget).caseId]
        exact ⟨hget, hne⟩
  have hsource : ∀ u ∈ plan, ∃ c ∈ modifiedCases b, c.caseId = u.1 ∧ c.items = u.2.items := by
    intro u hu
    have hu' : (u.1, u.2.items) ∈ plan.map fun u => (u.1, u.2.items) := List.mem_map_of_mem hu
    rw [hitems] at hu'
    obtain ⟨c, hc, heq⟩ := List.mem_map.mp hu'
    exact ⟨c, hc, (Prod.mk.inj heq).1, (Prod.mk.inj heq).2⟩
  refine ⟨fun u hu hk => ?_, fun hk => ?_, fun hk => ?_⟩
  · obtain ⟨c, hc, hid, hi⟩ := hsource u hu
    refine ⟨c, ?_, hi⟩
    rw [← hk, ← hid]
    exact (hmod c hc).1
  · obtain ⟨u, hu, rfl⟩ := List.mem_map.mp hk
    obtain ⟨c, hc, hid, -⟩ := hsource u hu
    exact ⟨c, hid ▸ hmod c hc⟩
  · obtain ⟨c, hget, hne⟩ := hk
    have hc : c ∈ modifiedCases b := by
      refine List.mem_filterMap.mpr ⟨(k, some c), Dict.mem_of_get? hget, ?_⟩
      dsimp only
      rw [if_neg hne]
    have hin : (c.caseId, c.items) ∈ plan.map fun u => (u.1, u.2.items) := by
      rw [hitems]
      exact List.mem_map_of_mem (f := fun c => (c.caseId, c.items)) hc
    obtain ⟨u, hu, heq⟩ := List.mem_map.mp hin
    have hku : u.1 = k := (Prod.mk.inj heq).1.trans (h.cached _ _ hget).caseId
    exact hku ▸ List.mem_map_of_mem hu

/-- What the flush of the cases does to the store. -/
theorem run_flushCases (hplan : (casePlan (modifiedCases b)).run (handle es) w = (.ok plan, w)) :
    ((flushCases b).run (handle es) w).2 = (w.bulk World.updateItems plan).2 ∧
      (∀ w', (flushCases b).run (handle es) w = (.ok (), w') →
        (w.bulk World.updateItems plan).1 = true) := by
  rw [flushCases, run_bind_ok hplan]
  split
  · next hnil =>
    rw [hnil]
    exact ⟨rfl, fun _ _ => rfl⟩
  · have hbulk : (bulkItems plan).run (handle es) w =
      (.ok (w.bulk World.updateItems plan).1, (w.bulk World.updateItems plan).2) := rfl
    rw [run_bind_ok hbulk]
    cases hr : (w.bulk World.updateItems plan).1 with
    | true => exact ⟨rfl, fun _ _ => rfl⟩
    | false => exact ⟨rfl, fun w' h => by simp at h⟩

/-- A case without a record that was added stays as it is stored. -/
theorem Tally.flushed_same (h : Tally render w₀ vs b w) (hw : w'.cases = w₀.cases) {k : Str}
    (hk : ∀ v ∈ ofCase k vs, v.added render = false ∧ (v.after render).items = v.case.items) :
    ((flushCases b).run (handle es) w').2.cases k = w₀.cases k := by
  obtain ⟨plan, hplan⟩ := run_casePlan es (modifiedCases b) w'
  rw [(run_flushCases hplan).1, ← hw]
  refine bulk_frame (fun hmem => ?_) w'
  obtain ⟨c, hget, hne⟩ := (h.mem_plan hplan).2.mp hmem
  obtain ⟨-, c₀, -, -, hcount, -, hsame⟩ := h.cached k c hget
  exact hne (by rw [hcount, hsame hk])

/-- The number of items for hits and events of a stored case. -/
def storedItems (w : World) (k : Str) : ℕ := ((w.cases k).map fun c => recordItems c.items).getD 0

/-- Where the flush succeeds, every case has grown by the records that were added to it. -/
theorem Tally.flushed_ok (h : Tally render w₀ vs b w) (hw : w'.cases = w₀.cases) {w₁ : World}
    (hrun : (flushCases b).run (handle es) w' = (.ok (), w₁)) (k : Str) :
    storedItems w₁ k = storedItems w₀ k + (ofCase k vs).countP (·.added render) := by
  obtain ⟨plan, hplan⟩ := run_casePlan es (modifiedCases b) w'
  obtain ⟨hsnd, hok⟩ := run_flushCases hplan
  rw [hrun] at hsnd
  have hsnd : w₁ = (w'.bulk World.updateItems plan).2 := hsnd
  obtain ⟨hitems, hmem⟩ := h.mem_plan hplan (k := k)
  rw [storedItems, storedItems, hsnd]
  rcases bulk_true (hok w₁ hrun) k with ⟨hk, hsame⟩ | ⟨u, hu, huk, c, hc, hi⟩
  · rw [hsame, hw]
    by_cases hcached : ∃ c, b.caseCache.get? k = some (some c)
    · obtain ⟨c, hget⟩ := hcached
      obtain ⟨-, c₀, hc₀, hpre, hcount, hgrow, -⟩ := h.cached k c hget
      -- a case that is not written has not grown
      have hlen : b.originalItemCounts.get? k = some c.items.length := by
        by_contra hne
        exact hk (hmem.mpr ⟨c, hget, hne⟩)
      rw [hcount, Option.some.injEq] at hlen
      rw [← hpre.eq_of_length hlen] at hgrow
      rw [hc₀, Option.map_some, Option.getD_some]
      exact hgrow
    · push Not at hcached
      rw [h.unseen k hcached, List.countP_nil, Nat.add_zero]
  · obtain ⟨c', hget, hi'⟩ := hitems u hu huk
    obtain ⟨-, c₀, hc₀, -, -, hgrow, -⟩ := h.cached k c' hget
    rw [hc, hc₀, Option.map_some, Option.map_some, Option.getD_some, Option.getD_some, hi, ← hi']
    exact hgrow

/-- The visits of all the cases. -/
theorem sum_ofCase (p : Visit → Bool) {S : Finset Str} (hS : ∀ v ∈ vs, v.caseId ∈ S) :
    ∑ k ∈ S, (ofCase k vs).countP p = vs.countP p := by
  induction vs with
  | nil => simp [ofCase]
  | cons v vs ih =>
    obtain ⟨hv, hrest⟩ := List.forall_mem_cons.mp hS
    have hone : ∀ k, (ofCase k (v :: vs)).countP p =
        (if v.caseId = k then [v].countP p else 0) + (ofCase k vs).countP p := by
      intro k
      rw [← List.singleton_append, ofCase_append, List.countP_append, ofCase_singleton]
      split <;> simp
    simp only [hone]
    rw [Finset.sum_add_distrib, ih hrest, Finset.sum_ite_eq, if_pos hv, ← List.countP_append]
    rfl

theorem countP_eq_iff {p q : Visit → Bool} (h : ∀ v, q v = true → p v = true) :
    vs.countP p = vs.countP q ↔ ∀ v ∈ vs, p v = true → q v = true := by
  induction vs with
  | nil => simp
  | cons v vs ih =>
    have hle : vs.countP q ≤ vs.countP p := List.countP_mono_left fun v _ => h v
    rw [List.countP_cons, List.countP_cons, List.forall_mem_cons, ← ih]
    cases hp : p v with
    | false =>
      have hq : q v = false := by
        by_contra hq
        have hpt := h v (by simpa using hq)
        simp [hp] at hpt
      simp [hq]
    | true =>
      cases hq : q v with
      | true => simp
      | false =>
        simp
        omega

/-- How `process_batch` ends: without rules, with the records not flushed, or with the cases
flushed. -/
inductive Finish (es : Elastic) (render : Str → Match → Str) (vs : List Visit) (w : World)
    (r : Except HowlerError Nat × World) : Prop where
  | idle (hvs : vs = []) (hw : r.2.cases = w.cases) (hn : ∀ n w', r = (.ok n, w') → n = 0)
  | raised (b : Batch) (w₁ : World) (ht : Tally render w vs b w₁) (hw : r.2.cases = w.cases)
      (hn : ∀ n w', r ≠ (.ok n, w'))
  | flushed (b : Batch) (w₁ w₂ : World) (ht : Tally render w vs b w₁) (hw : w₂.cases = w.cases)
      (hr : r.2 = ((flushCases b).run (handle es) w₂).2)
      (hn : ∀ n w', r = (.ok n, w') → (flushCases b).run (handle es) w₂ = (.ok (), w') ∧
        n = b.added)

theorem finish_processBatch (es : Elastic) (render : Str → Match → Str) (ids : List Str)
    (hk : w.Keyed) :
    Finish es render (visits es render ids w) w ((processBatch render ids).run (handle es) w) := by
  rw [visits, processBatch]
  split
  · refine .idle rfl rfl fun n w' h => ?_
    simpa using (Prod.mk.inj h).1.symm
  · rw [run_getActiveRules]
    have hrules := run_getActiveRules es w
    cases hr : activeRules w.time.replaceUtc (es.withRules w) with
    | error e =>
      rw [hr] at hrules
      rw [run_bind_error hrules]
      exact .idle rfl rfl fun n w' h => by simp at h
    | ok rules =>
      rw [hr] at hrules
      rw [run_bind_ok hrules]
      dsimp only
      split
      · next hnil =>
        rw [hnil]
        refine .idle rfl rfl fun n w' h => ?_
        simpa using (Prod.mk.inj h).1.symm
      · obtain ⟨b, w₁, hrun⟩ := run_evaluateRules_ok es render ids rules {} w
        have ht := (Tally.init render w).rules hk ids rules hrun
        rw [run_bind_ok hrun]
        have hhit := (@quiet_flushBacking es b .hit w₁).cases
        cases hr₂ : (flushBacking b .hit).run (handle es) w₁ with
        | mk r₂ w₂ =>
          rw [hr₂] at hhit
          cases r₂ with
          | error e =>
            rw [run_bind_error hr₂]
            exact .raised b w₁ ht (hhit.trans ht.cases) fun n w' h => by simp at h
          | ok u₂ =>
            rw [run_bind_ok hr₂]
            have hevent := (@quiet_flushBacking es b .event w₂).cases
            cases hr₃ : (flushBacking b .event).run (handle es) w₂ with
            | mk r₃ w₃ =>
              rw [hr₃] at hevent
              have hcases : w₃.cases = w.cases := (hevent.trans hhit).trans ht.cases
              cases r₃ with
              | error e =>
                rw [run_bind_error hr₃]
                exact .raised b w₁ ht hcases fun n w' h => by simp at h
              | ok u₃ =>
                rw [run_bind_ok hr₃, run_bind]
                cases hr₄ : (flushCases b).run (handle es) w₃ with
                | mk r₄ w₄ =>
                  cases r₄ with
                  | error e =>
                    refine .flushed b w₁ w₃ ht hcases (by rw [hr₄]) fun n w' h => ?_
                    simp at h
                  | ok u₄ =>
                    refine .flushed b w₁ w₃ ht hcases (by rw [hr₄]; rfl) fun n w' h => ?_
                    obtain ⟨hn, hw'⟩ := Prod.mk.inj h
                    rw [hr₄, ← hw']
                    exact ⟨rfl, (Except.ok.inj hn).symm⟩

/-- What `process_batch` leaves alone: the items of a case for which a record is not added, and the
cases to which no record is added. -/
structure LeavesRest (es : Elastic) (render : Str → Match → Str) (ids : List Str) (w : World) :
    Prop where
  items : ∀ v ∈ visits es render ids w, v.added render = false →
    (v.after render).items = v.case.items
  stored : ∀ k, (∀ v ∈ visits es render ids w, v.caseId = k → v.added render = false) →
    ((processBatch render ids).run (handle es) w).2.cases k = w.cases k

/-- The records that are not added leave their cases alone just if every visit is tidy, and the
number that is returned is that of the items by which the stored cases have grown just if no record
that is added refers to its case already. -/
theorem processBatch_counts_iff (es : Elastic) (render : Str → Match → Str) (ids : List Str)
    (w : World) (hk : w.Keyed) (S : Finset Str) (hS : ∀ k, w.cases k ≠ none → k ∈ S) :
    (LeavesRest es render ids w ↔ ∀ v ∈ visits es render ids w, v.Tidy render) ∧
    ∀ n w', (processBatch render ids).run (handle es) w = (.ok n, w') →
      (∑ k ∈ S, storedItems w' k = ∑ k ∈ S, storedItems w k + n ↔
        ∀ v ∈ visits es render ids w, v.NewlyReferred render) := by
  have hfinish := finish_processBatch es render ids hk
  constructor
  · constructor
    · intro h v hv
      exact tidy_iff.mp (h.items v hv)
    · intro htidy
      have hitems : ∀ v ∈ visits es render ids w, v.added render = false →
          (v.after render).items = v.case.items := fun v hv => tidy_iff.mpr (htidy v hv)
      refine ⟨hitems, fun k hno => ?_⟩
      cases hfinish with
      | idle hvs hw hn => rw [hw]
      | raised b w₁ ht hw hn => rw [hw]
      | flushed b w₁ w₂ ht hw hr hn =>
        rw [hr]
        refine ht.flushed_same hw fun v hv => ?_
        obtain ⟨hv, hvk⟩ := List.mem_filter.mp hv
        have hadd := hno v hv (by simpa using hvk)
        exact ⟨hadd, hitems v hv hadd⟩
  · intro n w' hrun
    rw [hrun] at hfinish
    cases hfinish with
    | idle hvs hw hn =>
      have hsame : ∀ k, storedItems w' k = storedItems w k := by
        intro k
        rw [storedItems, storedItems, ← hw]
      simp [hvs, hsame, hn n w' rfl]
    | raised b w₁ ht hw hn => exact absurd rfl (hn n w')
    | flushed b w₁ w₂ ht hw hr hn =>
      obtain ⟨hflush, hadded⟩ := hn n w' rfl
      have hknown : ∀ v ∈ visits es render ids w, v.caseId ∈ S := by
        intro v hv
        refine hS _ fun hnone => ?_
        have hmem : v ∈ ofCase v.caseId (visits es render ids w) := by simp [ofCase, hv]
        by_cases hcached : ∃ c, b.caseCache.get? v.caseId = some (some c)
        · obtain ⟨c, hget⟩ := hcached
          obtain ⟨-, c₀, hc₀, -⟩ := ht.cached _ c hget
          simp [hnone] at hc₀
        · push Not at hcached
          simp [ht.unseen _ hcached] at hmem
      have hsum : ∑ k ∈ S, storedItems w' k = ∑ k ∈ S, storedItems w k +
          (visits es render ids w).countP (·.added render) := by
        rw [← sum_ofCase _ hknown, ← Finset.sum_add_distrib]
        exact Finset.sum_congr rfl fun k _ => ht.flushed_ok hw hflush k
      rw [hsum, hadded, ht.added, Nat.add_left_cancel_iff, countP_eq_iff fun v => counted_imp]
      exact forall₂_congr fun v _ => newlyReferred_iff

end Flush

theorem processBatch_counts_iff_new :
    LeavesRest (findsHit []) (fun d _ => d) [['h']] (filingWorld []) ∧
    ∃ w', (processBatch (fun d _ => d) [['h']]).run (handle (findsHit [])) (filingWorld []) =
        (.ok 1, w') ∧
      ∑ k ∈ {['K']}, storedItems w' k = ∑ k ∈ {['K']}, storedItems (filingWorld []) k + 1 := by
  have hall : (visits (findsHit []) (fun d _ => d) [['h']] (filingWorld [])).all (fun v =>
      v.added (fun d _ => d) && v.counted (fun d _ => d)) = true := rfl
  have hadded : ∀ v ∈ visits (findsHit []) (fun d _ => d) [['h']] (filingWorld []),
      v.added (fun d _ => d) = true ∧ v.counted (fun d _ => d) = true := fun v hv =>
    Bool.and_eq_true_iff.mp (List.all_eq_true.mp hall v hv)
  have hone : ∀ k, (filingWorld []).cases k ≠ none → k ∈ ({['K']} : Finset Str) := by
    intro k hne
    have hfind : [filingCase []].find? (·.caseId = k) ≠ none := hne
    have hid : (filingCase []).caseId = k := by
      by_contra hk
      exact hfind (List.find?_cons_of_neg (by simpa using hk))
    exact Finset.mem_singleton.mpr hid.symm
  have hcounts := processBatch_counts_iff (findsHit []) (fun d _ => d) [['h']] (filingWorld [])
    (World.keyed_ofDocuments _ _ _ _) {['K']} hone
  refine ⟨hcounts.1.mpr fun v hv => ?_, _, rfl, (hcounts.2 1 _ rfl).mpr fun v hv => ?_⟩
  · refine tidy_iff.mp fun hno => ?_
    rw [(hadded v hv).1] at hno
    contradiction
  · exact newlyReferred_iff.mp fun _ => (hadded v hv).2

/-- A case without items, and a hit that refers to it. -/
def referringWorld : World :=
  .ofDocuments [filingCase []] [(.hit, { id := ['h'], related := [['K']], classification := ['C'] })]
    (fun n => List.replicate (n + 1) 'u') ⟨0, some 0, Datetime.zero_nonneg, Datetime.zero_le_maxWall⟩

/-- A hit that is in the case already leaves a folder behind, and a hit that only refers to the case
is added without being counted. -/
theorem folder_and_lost_count :
    (∃ c, ((processBatch (fun d _ => d) [['h']]).run (handle (findsHit [hitItem]))
        (filingWorld [hitItem])).2.cases ['K'] = some c ∧ c.items.length = 2 ∧
      recordItems c.items = 1) ∧
    ((processBatch (fun d _ => d) [['h']]).run (handle (findsHit [])) referringWorld).1 = .ok 0 ∧
    storedItems ((processBatch (fun d _ => d) [['h']]).run (handle (findsHit []))
      referringWorld).2 ['K'] = 1 ∧ storedItems referringWorld ['K'] = 0 := by
  exact ⟨⟨_, rfl, by decide, by decide⟩, rfl, rfl, rfl⟩

end Howler.Correlation
