import Howler.Cases.Service

namespace Howler.Cases

open Python Systems.Prog

section Deletion

variable {es : Elastic} {w w' : World} {ids : List Str}

/-- The case without the items that have one of the values. -/
def withoutValues (ids : List Str) (c : Case) : Case :=
  { c with items := c.items.filter (·.value ∉ ids) }

theorem withoutValues_withoutValues (c : Case) :
    withoutValues ids (withoutValues ids c) = withoutValues ids c := by
  simp [withoutValues, List.filter_filter]

theorem withoutValues_eq_self {c : Case} (h : ∀ i ∈ c.items, i.value ∉ ids) :
    withoutValues ids c = c := by
  have hitems : c.items.filter (·.value ∉ ids) = c.items :=
    List.filter_eq_self.mpr fun i hi => by simpa using h i hi
  rw [withoutValues, hitems]

/-- The loop takes the items with one of the values out of the cases it goes through. -/
theorem removeReferences_run (related : List Str) (hw : w.Keyed)
    (h : (removeReferences ids related).run (handle es) w = (.ok (), w')) :
    w'.records = w.records ∧ ∀ k, w'.cases k =
      if k ∈ related ∧ k ∉ ids then (w.cases k).map (withoutValues ids) else w.cases k := by
  induction related generalizing w with
  | nil =>
    have hw' : w = w' := by simpa [removeReferences] using h
    simp [hw']
  | cons k₀ related ih =>
    rw [removeReferences] at h
    by_cases hk₀ : k₀ ∈ ids
    · rw [if_pos hk₀] at h
      obtain ⟨hr, hc⟩ := ih hw h
      refine ⟨hr, fun k => ?_⟩
      rw [hc k]
      by_cases hk : k = k₀
      · simp [hk, hk₀]
      · simp [hk]
    · rw [if_neg hk₀, run_bind_ok (run_getCase es w k₀)] at h
      cases hc₀ : w.cases k₀ with
      | none =>
        simp only [hc₀] at h
        obtain ⟨hr, hc⟩ := ih hw h
        refine ⟨hr, fun k => ?_⟩
        rw [hc k]
        by_cases hk : k = k₀
        · simp [hk, hc₀]
        · simp [hk]
      | some c =>
        simp only [hc₀] at h
        obtain ⟨u, v, hsave, h⟩ := run_bind_eq_ok.mp h
        rw [run_saveCase] at hsave
        obtain rfl := World.write_ok hsave
        have hid : c.caseId = k₀ := hw.cases k₀ c hc₀
        have hkeyed : (World.setCase { w with writes := w.writes + 1 }
            (withoutValues ids c)).Keyed := by
          constructor
          · intro k d hd
            by_cases hk : k = k₀
            · have hd' : withoutValues ids c = d := by
                simpa [World.setCase, withoutValues, hid, hk] using hd
              rw [← hd', hk]
              exact hid
            · refine hw.cases k d ?_
              simpa [World.setCase, withoutValues, hid, Function.update_of_ne hk] using hd
          · exact hw.records
        obtain ⟨hr, hc⟩ := ih hkeyed h
        refine ⟨hr, fun k => ?_⟩
        rw [hc k]
        by_cases hk : k = k₀
        · have hupd : (World.setCase { w with writes := w.writes + 1 }
              (withoutValues ids c)).cases k = some (withoutValues ids c) := by
            simp [World.setCase, withoutValues, hid, hk]
          rw [hupd]
          by_cases hmem : k ∈ related <;>
            simp [hk, hk₀, hc₀, withoutValues_withoutValues]
        · have hupd : (World.setCase { w with writes := w.writes + 1 }
              (withoutValues ids c)).cases k = w.cases k := by
            simp [World.setCase, withoutValues, hid, Function.update_of_ne hk]
          rw [hupd]
          simp [hk]

/-- What is stored after a deletion that returns. -/
theorem deleteCases_run (hw : w.Keyed)
    (hsearch : ∀ k c, w.cases k = some c → (∃ i ∈ c.items, i.value ∈ ids) →
      k ∈ es.withItemValue w ids)
    (h : (deleteCases ids).run (handle es) w = (.ok (), w')) :
    w'.records = w.records ∧ ∀ k, w'.cases k =
      if k ∈ ids then none else (w.cases k).map (withoutValues ids) := by
  rw [deleteCases, run_bind_ok (run_casesWithItemValue es w ids)] at h
  obtain ⟨u, v, hloop, h⟩ := run_bind_eq_ok.mp h
  obtain ⟨hr, hc⟩ := removeReferences_run _ hw hloop
  rw [run_deleteCaseDocuments] at h
  obtain rfl := World.write_ok h
  refine ⟨hr, fun k => ?_⟩
  by_cases hk : k ∈ ids
  · simp [hk]
  · simp only [hk, if_false, hc k, not_false_eq_true, and_true]
    by_cases hmem : k ∈ es.withItemValue w ids
    · simp [hmem]
    · rw [if_neg hmem]
      cases hck : w.cases k with
      | none => rfl
      | some c =>
        have hno : ∀ i ∈ c.items, i.value ∉ ids := fun i hi hv =>
          hmem (hsearch k c hck ⟨i, hi, hv⟩)
        rw [Option.map_some, withoutValues_eq_self hno]

/-- What a deletion is for: the cases go, the others lose just the items that refer to them, and
no record refers to them any more. -/
structure DeletesJust (ids : List Str) (w w' : World) : Prop where
  cases : ∀ k, w'.cases k = if k ∈ ids then none else (w.cases k).map fun c =>
    { c with items := c.items.filter fun i => ¬ (i.type = .case ∧ i.value ∈ ids) }
  references : ∀ t k r, w'.records t k = some r → ∀ id ∈ ids, id ∉ r.related

theorem delete_cases_iff (hw : w.Keyed)
    (hsearch : ∀ k c, w.cases k = some c → (∃ i ∈ c.items, i.value ∈ ids) →
      k ∈ es.withItemValue w ids)
    (h : (deleteCases ids).run (handle es) w = (.ok (), w')) :
    DeletesJust ids w w' ↔
      (∀ k c, k ∉ ids → w.cases k = some c → ∀ i ∈ c.items, i.value ∈ ids → i.type = .case) ∧
      ∀ t k r, w.records t k = some r → ∀ id ∈ ids, id ∉ r.related := by
  obtain ⟨hr, hc⟩ := deleteCases_run hw hsearch h
  constructor
  · intro hj
    refine ⟨fun k c hk hck i hi hv => ?_, fun t k r hrec => hj.references t k r (hr ▸ hrec)⟩
    have hcases := (hc k).symm.trans (hj.cases k)
    simp only [hk, if_false, hck, Option.map_some, withoutValues, Option.some.injEq,
      Case.mk.injEq, true_and, and_true] at hcases
    by_contra ht
    have hmem : i ∈ c.items.filter (·.value ∉ ids) := by
      rw [hcases]
      simp [hi, ht]
    simp [hv] at hmem
  · intro ⟨hitems, hrel⟩
    refine ⟨fun k => ?_, fun t k r hrec => hrel t k r (hr ▸ hrec)⟩
    rw [hc k]
    by_cases hk : k ∈ ids
    · simp [hk]
    · simp only [hk, if_false]
      cases hck : w.cases k with
      | none => rfl
      | some c =>
        have hfilter : c.items.filter (·.value ∉ ids) =
            c.items.filter fun i => ¬ (i.type = .case ∧ i.value ∈ ids) := by
          refine List.filter_congr fun i hi => ?_
          by_cases hv : i.value ∈ ids
          · simp [hv, hitems k c hk hck i hi hv]
          · simp [hv]
        simp only [Option.map_some, withoutValues, hfilter]

end Deletion

/-- A case that refers to the case `A`. -/
def referringWorld : World := .ofDocuments
  [{ caseId := ['A'] },
   { caseId := ['B']
     items := [{ id := ['1'], parent := none, name := some ['n'], type := .case, value := ['A'] },
               { id := ['2'], parent := none, name := some ['m'], type := .folder,
                 value := ['m'] }] }]
  [] (fun n => List.replicate (n + 3) 'u') ⟨0, some 0, Datetime.zero_nonneg, Datetime.zero_le_maxWall⟩

/-- A search that finds the case `B`. -/
def findsB : Elastic where
  withRules _ := []
  withItemValue _ _ := [['B']]
  search _ _ _ _ := .ok []

theorem delete_cases_iff_referring :
    DeletesJust [['A']] referringWorld
        ((deleteCases [['A']]).run (handle findsB) referringWorld).2 ↔
      (∀ k c, k ∉ [['A']] → referringWorld.cases k = some c →
        ∀ i ∈ c.items, i.value ∈ [['A']] → i.type = .case) ∧
      ∀ t k r, referringWorld.records t k = some r → ∀ id ∈ [['A']], id ∉ r.related := by
  refine delete_cases_iff (World.keyed_ofDocuments _ _ _ _) ?_ (Prod.ext (by rfl) rfl)
  intro k c hc ⟨i, hi, hv⟩
  have hmem := List.mem_of_find?_eq_some hc
  have hk : c.caseId = k := by simpa using List.find?_some hc
  simp only [List.mem_cons, List.not_mem_nil, or_false] at hmem
  cases hmem with
  | inl h => simp [h] at hi
  | inr h => simpa [h, findsB] using hk.symm

/-- A case with a folder that has the name of the case `A`, with a hit in it, and a hit that lists
`A`. -/
def namesakeWorld : World := .ofDocuments
  [{ caseId := ['A'] },
   { caseId := ['B']
     items := [{ id := ['1'], parent := none, name := some ['A'], type := .folder, value := ['A'] },
               { id := ['2'], parent := some ['1'], name := some ['h'], type := .hit,
                 value := ['h'] }] }]
  [(.hit, { id := ['h'], related := [['A'], ['B']], classification := ['U'] })]
  (fun n => List.replicate (n + 3) 'u') ⟨0, some 0, Datetime.zero_nonneg, Datetime.zero_le_maxWall⟩

/-- The folder goes, its content stays without a parent, and the hit still lists the case. -/
theorem delete_cases_takes_folder :
    ((deleteCases [['A']]).run (handle findsB) namesakeWorld).1 = .ok () ∧
    (((deleteCases [['A']]).run (handle findsB) namesakeWorld).2.cases ['B']).map (·.items) =
      some [{ id := ['2'], parent := some ['1'], name := some ['h'], type := .hit,
              value := ['h'] }] ∧
    (((deleteCases [['A']]).run (handle findsB) namesakeWorld).2.records .hit ['h']).map
      (·.related) = some [['A'], ['B']] ∧
    ¬ DeletesJust [['A']] namesakeWorld
      ((deleteCases [['A']]).run (handle findsB) namesakeWorld).2 := by
  refine ⟨by rfl, by rfl, by rfl, fun h => ?_⟩
  exact h.references .hit ['h'] _ rfl ['A'] (by simp) (by decide)

end Howler.Cases
