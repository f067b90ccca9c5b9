import Howler.Cases.Appending
import Howler.Cases.Deletion
import Howler.Cases.Descent

namespace Howler.Cases

open Python Structures Systems.Prog

section Metadata

variable {w : World} {items : List CaseItem} {m : Metadata} {x : Str}

/-- The metadata that are collected, as a fold over the items. -/
def metadataOf (w : World) : List CaseItem → Metadata → Metadata
  | [], m => m
  | item :: items, m =>
    match metadataIndex item with
    | none => metadataOf w items m
    | some t =>
      match w.records t item.value with
      | none => metadataOf w items m
      | some r => metadataOf w items (m.addRecord t r)

theorem run_collectMetadata_eq (es : Elastic) (w : World) (items : List CaseItem) (m : Metadata) :
    (collectMetadata items m).run (handle es) w = (.ok (metadataOf w items m), w) := by
  induction items generalizing m with
  | nil => rfl
  | cons item items ih =>
    rw [collectMetadata, metadataOf]
    cases metadataIndex item with
    | none => exact ih m
    | some t =>
      dsimp only
      rw [run_bind_ok (run_getRecord es w t item.value)]
      cases w.records t item.value with
      | none => exact ih m
      | some r => exact ih _

theorem index_eq_some {type : CaseItemTypes} {t : RuleIndexTypes} :
    CaseItemTypes.index type = some t ↔ type = t.itemType := by
  cases type <;> cases t <;> simp [CaseItemTypes.index, RuleIndexTypes.itemType]

theorem metadataIndex_eq_some {item : CaseItem} {t : RuleIndexTypes} :
    metadataIndex item = some t ↔ item.value ≠ [] ∧ item.type = t.itemType := by
  rw [metadataIndex]
  by_cases h : item.value = []
  · simp [h]
  · simp [h, index_eq_some]

/-- The item stands for the record. -/
structure StandsFor (w : World) (item : CaseItem) (t : RuleIndexTypes) (r : Record) : Prop where
  value : item.value ≠ []
  type : item.type = t.itemType
  record : w.records t item.value = some r

/-- A hit has a value in its outline. -/
def InOutline (t : RuleIndexTypes) (r : Record) (P : Outline → Prop) : Prop :=
  t = .hit ∧ ∃ o, r.outline = some o ∧ P o

theorem addRecord_threats (m : Metadata) (t : RuleIndexTypes) (r : Record) :
    x ∈ (m.addRecord t r).threats ↔
      x ∈ m.threats ∨ x ≠ [] ∧ InOutline t r fun o => o.threat = some x := by
  cases t with
  | event => simp [Metadata.addRecord, InOutline]
  | hit =>
    cases ho : r.outline with
    | none => simp [Metadata.addRecord, InOutline, ho]
    | some o => simp [Metadata.addRecord, InOutline, ho, and_comm]

theorem addRecord_targets (m : Metadata) (t : RuleIndexTypes) (r : Record) :
    x ∈ (m.addRecord t r).targets ↔
      x ∈ m.targets ∨ x ≠ [] ∧ InOutline t r fun o => o.target = some x := by
  cases t with
  | event => simp [Metadata.addRecord, InOutline]
  | hit =>
    cases ho : r.outline with
    | none => simp [Metadata.addRecord, InOutline, ho]
    | some o => simp [Metadata.addRecord, InOutline, ho, and_comm]

theorem addRecord_indicators (m : Metadata) (t : RuleIndexTypes) (r : Record) :
    x ∈ (m.addRecord t r).indicators ↔ x ∈ m.indicators ∨
      x ≠ [] ∧ (x ∈ r.ecsRelated ∨ InOutline t r fun o => x ∈ o.indicators) := by
  cases t with
  | event => simp [Metadata.addRecord, InOutline, and_comm]
  | hit =>
    cases ho : r.outline with
    | none => simp [Metadata.addRecord, InOutline, ho, and_comm]
    | some o =>
      simp only [Metadata.addRecord, ho, InOutline]
      simp
      tauto

/-- A list of the metadata, if it is added to by each record that an item stands for. -/
theorem mem_metadataOf {field : Metadata → List Str} {P : RuleIndexTypes → Record → Prop}
    (hadd : ∀ m t r, x ∈ field (m.addRecord t r) ↔ x ∈ field m ∨ P t r) (items : List CaseItem)
    (m : Metadata) : x ∈ field (metadataOf w items m) ↔
      x ∈ field m ∨ ∃ i ∈ items, ∃ t r, StandsFor w i t r ∧ P t r := by
  induction items generalizing m with
  | nil => simp [metadataOf]
  | cons item items ih =>
    rw [metadataOf, List.exists_mem_cons_iff]
    cases hindex : metadataIndex item with
    | none =>
      have hnot : ¬∃ t r, StandsFor w item t r ∧ P t r := by
        intro h
        obtain ⟨t, r, hi, -⟩ := h
        have hsome := metadataIndex_eq_some.mpr ⟨hi.value, hi.type⟩
        rw [hindex] at hsome
        cases hsome
      rw [or_iff_right hnot]
      exact ih m
    | some t =>
      obtain ⟨hvalue, htype⟩ := metadataIndex_eq_some.mp hindex
      have hunique : ∀ t' r, StandsFor w item t' r → t' = t := fun t' r h =>
        RuleIndexTypes.itemType_inj (h.type.symm.trans htype)
      dsimp only
      cases hrecord : w.records t item.value with
      | none =>
        have hnot : ¬∃ t r, StandsFor w item t r ∧ P t r := by
          intro h
          obtain ⟨t', r, hi, -⟩ := h
          obtain rfl := hunique t' r hi
          rw [hi.record] at hrecord
          cases hrecord
        rw [or_iff_right hnot]
        exact ih m
      | some r =>
        have hone : (∃ t r, StandsFor w item t r ∧ P t r) ↔ P t r := by
          constructor
          · intro h
            obtain ⟨t', r', hi, hP⟩ := h
            obtain rfl := hunique t' r' hi
            rw [hi.record] at hrecord
            obtain rfl := Option.some.inj hrecord
            exact hP
          · intro hP
            exact ⟨t, r, ⟨hvalue, htype, hrecord⟩, hP⟩
        dsimp only
        rw [ih, hadd, hone, or_assoc]

/-- The list is sorted and without repetitions, and it has just the values that some record behind
an item gives. -/
structure DerivedList (w : World) (items : List CaseItem) (xs : List Str)
    (P : RuleIndexTypes → Record → Str → Prop) : Prop where
  sorted : xs.Pairwise (· ≤ ·)
  nodup : xs.Nodup
  mem : ∀ x, x ∈ xs ↔ x ≠ [] ∧ ∃ i ∈ items, ∃ t r, StandsFor w i t r ∧ P t r x

/-- The threats, the targets and the indicators are those of the records behind the items. -/
structure Derived (w : World) (c : Case) : Prop where
  threats : DerivedList w c.items c.threats fun t r x => InOutline t r fun o => o.threat = some x
  targets : DerivedList w c.items c.targets fun t r x => InOutline t r fun o => o.target = some x
  indicators : DerivedList w c.items c.indicators fun t r x =>
    x ∈ r.ecsRelated ∨ InOutline t r fun o => x ∈ o.indicators

theorem derivedList_sorted {field : Metadata → List Str}
    {P : RuleIndexTypes → Record → Str → Prop} (hempty : field {} = [])
    (hadd : ∀ x m t r, x ∈ field (m.addRecord t r) ↔ x ∈ field m ∨ x ≠ [] ∧ P t r x) :
    DerivedList w items (sorted (field (metadataOf w items {})).dedup) P := by
  refine ⟨List.pairwise_insertionSort _ _, nodup_sorted (List.nodup_dedup _), fun x => ?_⟩
  rw [mem_sorted, List.mem_dedup, mem_metadataOf (hadd x), hempty]
  constructor
  · intro h
    obtain ⟨i, hi, t, r, hstands, hne, hP⟩ := h.resolve_left (by simp)
    exact ⟨hne, i, hi, t, r, hstands, hP⟩
  · intro h
    obtain ⟨hne, i, hi, t, r, hstands, hP⟩ := h
    exact .inr ⟨i, hi, t, r, hstands, hne, hP⟩

theorem recomputed_derived (es : Elastic) (w : World) (c : Case) :
    ∃ c', (recomputeCaseMetadata c).run (handle es) w = (.ok c', w) ∧ Derived w c' ∧
      c' = { c with targets := c'.targets, threats := c'.threats, indicators := c'.indicators } := by
  refine ⟨_, (run_bind_ok (run_collectMetadata_eq es w c.items {}) _).trans rfl, ⟨?_, ?_, ?_⟩, rfl⟩
  · exact derivedList_sorted rfl fun x m t r => addRecord_threats m t r
  · exact derivedList_sorted rfl fun x m t r => addRecord_targets m t r
  · exact derivedList_sorted rfl fun x m t r => addRecord_indicators m t r

theorem DerivedList.congr {w' : World} {xs : List Str} {P : RuleIndexTypes → Record → Str → Prop}
    (h : DerivedList w items xs P) (hr : w'.records = w.records) : DerivedList w' items xs P := by
  have hstands : ∀ i t r, StandsFor w' i t r ↔ StandsFor w i t r := by
    intro i t r
    constructor
    · intro hi
      exact ⟨hi.value, hi.type, hr ▸ hi.record⟩
    · intro hi
      exact ⟨hi.value, hi.type, hr.symm ▸ hi.record⟩
  refine ⟨h.sorted, h.nodup, fun x => ?_⟩
  simp only [hstands]
  exact h.mem x

theorem Derived.congr {w' : World} {c : Case} (h : Derived w c) (hr : w'.records = w.records) :
    Derived w' c :=
  ⟨h.threats.congr hr, h.targets.congr hr, h.indicators.congr hr⟩

end Metadata

section BackReferences

/-- A hit or an event as it was read, with its version. -/
abbrev Backing := RuleIndexTypes × Record × ℕ

/-- The place where it is stored. -/
def backingKey (e : Backing) : RuleIndexTypes × Str := (e.1, e.2.1.id)

/-- The hit or event behind an item, if it exists. -/
def backingEntry (w : World) (item : CaseItem) : Option Backing :=
  match CaseItemTypes.index item.type with
  | none => none
  | some t => (w.records t item.value).map fun r => (t, r, w.versions t item.value)

def backingOf (w : World) (items : List CaseItem) : List Backing :=
  items.filterMap (backingEntry w)

/-- The save of one of them, without the reference. -/
def saveStripped (caseId : Str) (w : World) (e : Backing) : World :=
  w.wrote.setRecord e.1 (e.2.1.removeBackreference caseId)

theorem run_backingRecords (es : Elastic) (w : World) (items : List CaseItem) :
    (backingRecords items).run (handle es) w = (.ok (backingOf w items), w) := by
  induction items with
  | nil => rfl
  | cons item items ih =>
    rw [backingRecords]
    cases hindex : CaseItemTypes.index item.type with
    | none =>
      have hentry : backingEntry w item = none := by rw [backingEntry, hindex]
      rw [backingOf, List.filterMap_cons_none hentry]
      exact ih
    | some t =>
      dsimp only
      rw [run_bind_ok (run_getRecord es w t item.value), run_bind_ok ih]
      cases hrecord : w.records t item.value with
      | none =>
        have hentry : backingEntry w item = none := by rw [backingEntry, hindex]; simp [hrecord]
        rw [backingOf, backingOf, List.filterMap_cons_none hentry]
        rfl
      | some r =>
        have hentry : backingEntry w item = some (t, r, w.versions t item.value) := by
          rw [backingEntry, hindex]
          simp [hrecord]
        rw [backingOf, backingOf, List.filterMap_cons_some hentry]
        rfl

variable {es : Elastic} {caseId : Str} {w w' : World} {backing : List Backing} {e : Backing}

theorem run_removeBackreferences_cons (es : Elastic) (caseId : Str) (w : World) (e : Backing)
    (backing : List Backing) :
    (removeBackreferences caseId (e :: backing)).run (handle es) w =
      if w.versions e.1 e.2.1.id ≠ e.2.2 then (.error .versionConflict, w)
      else if w.faults w.writes then
        (.error (.dataStore "write failed".toList), w.wrote)
      else (removeBackreferences caseId backing).run (handle es) (saveStripped caseId w e) := by
  obtain ⟨t, r, version⟩ := e
  rw [removeBackreferences, run_bind, run_saveRecord]
  have hid : (r.removeBackreference caseId).id = r.id := rfl
  rw [hid]
  by_cases hversion : w.versions t r.id ≠ version
  · rw [if_pos hversion, if_pos hversion]
  · rw [if_neg hversion, if_neg hversion, World.write]
    by_cases hfault : w.faults w.writes = true
    · rw [if_pos hfault, if_pos hfault]
      rfl
    · rw [if_neg hfault, if_neg hfault]
      rfl

theorem saveStripped_versions (caseId : Str) (w : World) (e : Backing) (t : RuleIndexTypes)
    (k : Str) : (saveStripped caseId w e).versions t k =
      if (t, k) = backingKey e then w.versions t k + 1 else w.versions t k := by
  obtain ⟨t', r, version⟩ := e
  show Function.update w.versions t' (Function.update (w.versions t') r.id _) t k = _
  by_cases ht : t = t'
  · subst ht
    by_cases hk : k = r.id
    · subst hk
      simp [backingKey]
      rfl
    · simp [backingKey, hk]
  · simp [backingKey, ht]

theorem saveStripped_records (caseId : Str) (w : World) (e : Backing) (t : RuleIndexTypes)
    (k : Str) : (saveStripped caseId w e).records t k =
      if (t, k) = backingKey e then some (e.2.1.removeBackreference caseId)
      else w.records t k := by
  obtain ⟨t', r, version⟩ := e
  rw [saveStripped, World.setRecord_records]
  show (if t = t' ∧ k = r.id then _ else _) = _
  by_cases h : t = t' ∧ k = r.id
  · have hkey : (t, k) = backingKey (t', r, version) := by rw [h.1, h.2]; rfl
    rw [if_pos h, if_pos hkey]
  · have hkey : (t, k) ≠ backingKey (t', r, version) := fun heq =>
      h ⟨congrArg Prod.fst heq, congrArg Prod.snd heq⟩
    rw [if_neg h, if_neg hkey]
    rfl

/-- Versions go up. -/
theorem versions_le_of_run (backing : List Backing) (w : World) (t : RuleIndexTypes) (k : Str) :
    w.versions t k ≤
      ((removeBackreferences caseId backing).run (handle es) w).2.versions t k := by
  induction backing generalizing w with
  | nil => exact le_rfl
  | cons e backing ih =>
    rw [run_removeBackreferences_cons]
    split
    · exact le_rfl
    · split
      · exact le_rfl
      · have hle := ih (saveStripped caseId w e)
        rw [saveStripped_versions] at hle
        split at hle
        · omega
        · exact hle

/-- All of them are stored in the version that was read. -/
def Current (w : World) (backing : List Backing) : Prop :=
  ∀ e ∈ backing, e.2.2 = w.versions e.1 e.2.1.id

/-- The next writes are all taken. -/
def Taken (w : World) (n : ℕ) : Prop := ∀ j < n, w.faults (w.writes + j) = false

/-- A record that was written since it was read is not written again. -/
theorem not_ok_of_stale (he : e ∈ backing) (hstale : e.2.2 < w.versions e.1 e.2.1.id) (u : Unit)
    (w' : World) : (removeBackreferences caseId backing).run (handle es) w ≠ (.ok u, w') := by
  induction backing generalizing w with
  | nil => cases he
  | cons e' backing ih =>
    rw [run_removeBackreferences_cons]
    cases List.mem_cons.mp he with
    | inl heq =>
      subst heq
      rw [if_pos (by omega)]
      exact fun h => by cases h
    | inr hmem =>
      split
      · exact fun h => by cases h
      · split
        · exact fun h => by cases h
        · refine ih hmem ?_
          rw [saveStripped_versions]
          split <;> omega

theorem current_saveStripped (hcurrent : Current w (e :: backing))
    (hnew : backingKey e ∉ backing.map backingKey) : Current (saveStripped caseId w e) backing := by
  intro e' he'
  have hne : (e'.1, e'.2.1.id) ≠ backingKey e := fun heq =>
    hnew (heq ▸ List.mem_map_of_mem (f := backingKey) he')
  rw [saveStripped_versions, if_neg hne]
  exact hcurrent e' (List.mem_cons_of_mem _ he')

theorem taken_succ (n : ℕ) : Taken w (n + 1) ↔
    w.faults w.writes = false ∧ Taken (saveStripped caseId w e) n := by
  constructor
  · intro h
    refine ⟨h 0 (Nat.succ_pos n), fun j hj => ?_⟩
    have hnext := h (j + 1) (Nat.succ_lt_succ hj)
    rwa [Nat.add_comm j, ← Nat.add_assoc] at hnext
  · intro h j hj
    cases j with
    | zero => exact h.1
    | succ j =>
      have hnext := h.2 j (Nat.lt_of_succ_lt_succ hj)
      rw [Nat.add_comm j, ← Nat.add_assoc]
      exact hnext

/-- The loop goes through just where no record comes twice and all writes are taken. -/
theorem removeBackreferences_ok_iff (hcurrent : Current w backing) :
    (∃ w', (removeBackreferences caseId backing).run (handle es) w = (.ok (), w')) ↔
      (backing.map backingKey).Nodup ∧ Taken w backing.length := by
  induction backing generalizing w with
  | nil => simp [removeBackreferences, Taken]
  | cons e backing ih =>
    have hversion : w.versions e.1 e.2.1.id = e.2.2 := (hcurrent e List.mem_cons_self).symm
    rw [run_removeBackreferences_cons, if_neg (not_not.mpr hversion), List.map_cons,
      List.nodup_cons, List.length_cons, @taken_succ caseId _ e]
    cases hfault : w.faults w.writes with
    | true => simp
    | false =>
      by_cases hnew : backingKey e ∈ backing.map backingKey
      · obtain ⟨e', he', hkey⟩ := List.mem_map.mp hnew
        have hstale : e'.2.2 < (saveStripped caseId w e).versions e'.1 e'.2.1.id := by
          have hread := hcurrent e' (List.mem_cons_of_mem _ he')
          have hsame : (e'.1, e'.2.1.id) = backingKey e := hkey
          rw [saveStripped_versions, if_pos hsame]
          omega
        have hnot : ¬∃ w', (removeBackreferences caseId backing).run (handle es)
            (saveStripped caseId w e) = (.ok (), w') := fun h =>
          not_ok_of_stale he' hstale () h.choose h.choose_spec
        simp only [Bool.false_eq_true, if_false, hnot, hnew, not_true, false_and]
      · rw [if_neg Bool.false_ne_true, ih (current_saveStripped hcurrent hnew)]
        simp [hnew]

/-- What is stored after the loop. -/
structure Stripped (caseId : Str) (keys : List (RuleIndexTypes × Str)) (w w' : World) :
    Prop where
  cases : w'.cases = w.cases
  faults : w'.faults = w.faults
  writes : w'.writes = w.writes + keys.length
  records : ∀ t k, w'.records t k =
    if (t, k) ∈ keys then (w.records t k).map (·.removeBackreference caseId) else w.records t k

theorem stripped_of_ok (hnodup : (backing.map backingKey).Nodup)
    (hstored : ∀ e ∈ backing, w.records e.1 e.2.1.id = some e.2.1)
    (h : (removeBackreferences caseId backing).run (handle es) w = (.ok (), w')) :
    Stripped caseId (backing.map backingKey) w w' := by
  induction backing generalizing w with
  | nil =>
    have hw : w = w' := congrArg Prod.snd h
    subst hw
    exact ⟨rfl, rfl, rfl, fun t k => by simp⟩
  | cons e backing ih =>
    rw [run_removeBackreferences_cons] at h
    split at h
    · cases h
    · split at h
      · cases h
      · rw [List.map_cons, List.nodup_cons] at hnodup
        have hrest : ∀ e' ∈ backing, (saveStripped caseId w e).records e'.1 e'.2.1.id =
            some e'.2.1 := by
          intro e' he'
          have hne : (e'.1, e'.2.1.id) ≠ backingKey e := fun heq =>
            hnodup.1 (heq ▸ List.mem_map_of_mem (f := backingKey) he')
          rw [saveStripped_records, if_neg hne]
          exact hstored e' (List.mem_cons_of_mem _ he')
        obtain ⟨hcases, hfaults, hwrites, hrecords⟩ := ih hnodup.2 hrest h
        refine ⟨hcases, hfaults, ?_, fun t k => ?_⟩
        · have hone : (saveStripped caseId w e).writes = w.writes + 1 := rfl
          rw [hwrites, hone, List.map_cons, List.length_cons]
          omega
        · rw [hrecords, saveStripped_records, List.map_cons]
          by_cases hkey : (t, k) = backingKey e
          · have hnot : (t, k) ∉ backing.map backingKey := hkey ▸ hnodup.1
            have hread : w.records t k = some e.2.1 := by
              have hfirst := hstored e List.mem_cons_self
              obtain ⟨ht, hk⟩ := Prod.mk.inj hkey
              rw [ht, hk]
              exact hfirst
            rw [if_neg hnot, if_pos hkey, if_pos (by simp [hkey]), hread]
            rfl
          · have hmem : (t, k) ∈ backingKey e :: backing.map backingKey ↔
                (t, k) ∈ backing.map backingKey := by
              simp [hkey]
            simp only [hkey, if_false, hmem]

end BackReferences

section Removal

/-- No case, no hit and no event was written. -/
structure Unchanged (w w' : World) : Prop where
  cases : w'.cases = w.cases
  records : w'.records = w.records
  versions : w'.versions = w.versions

/-- The items with some ids are removed, and nothing else: the other items stay, the hits and events
behind the ones that go lose a reference to the case, and the metadata are derived again. -/
structure Removes (c : Case) (gone : Str → Prop) (w w' : World) (c' : Case) : Prop where
  cases : w'.cases = Function.update w.cases c.caseId (some c')
  items : c'.items.Sublist c.items ∧ ∀ i ∈ c.items, i ∈ c'.items ↔ ¬gone i.id
  fields : c' = { c with
    items := c'.items, targets := c'.targets, threats := c'.threats, indicators := c'.indicators }
  behind : ∀ i ∈ c.items, gone i.id → ∀ t, i.type = t.itemType →
    w'.records t i.value = (w.records t i.value).map (·.removeBackreference c.caseId)
  others : ∀ t k, (∀ i ∈ c.items, gone i.id → ¬(i.type = t.itemType ∧ i.value = k)) →
    w'.records t k = w.records t k
  derived : Derived w' c'

/-- What is asked of a removal: forced, it removes the items of the case that are named and all that
is below them; otherwise it removes the named items or leaves everything as it was. -/
structure RemovalMeets (c : Case) (itemIds : List Str) (force : Bool) (w : World)
    (result : Except HowlerError Case × World) : Prop where
  forced : force = true → (∀ a ∈ itemIds, a ∈ c.items.map (·.id)) → ∃ c', result.1 = .ok c'
  removes : ∀ c', result.1 = .ok c' → Removes c (Gone c.items force itemIds) w result.2 c'
  raises : ∀ e, result.1 = .error e → Unchanged w result.2

open Classical in
/-- The items that a request is about. -/
noncomputable def goneItems (items : List CaseItem) (force : Bool) (itemIds : List Str) :
    List CaseItem :=
  items.filter fun i => Gone items force itemIds i.id

/-- No hit or event is behind two of the items, and all writes are taken: one for each of the hits
and events, and that of the case. -/
structure Undisturbed (w : World) (items : List CaseItem) : Prop where
  distinct : ((backingOf w items).map backingKey).Nodup
  taken : Taken w ((backingOf w items).length + 1)

variable {es : Elastic} {caseId : Str} {c : Case} {w : World} {items : List CaseItem}
  {force : Bool} {itemIds ids : List Str}

theorem mem_goneItems {i : CaseItem} :
    i ∈ goneItems items force itemIds ↔ i ∈ items ∧ Gone items force itemIds i.id := by
  classical
  simp [goneItems]

/-- The items that the code goes through are the ones that the request is about. -/
theorem removed_perm (hnodup : (items.map (·.id)).Nodup)
    (hids : ∀ id, id ∈ ids ↔ Gone items force itemIds id) :
    (ids.dedup.filterMap (Case.itemById items)).Perm (goneItems items force itemIds) := by
  classical
  refine (List.perm_ext_iff_of_nodup ?_ ?_).mpr fun i => ?_
  · refine (List.nodup_dedup ids).filterMap fun a b i ha hb => ?_
    have hia := ((itemById_iff hnodup).mp ha).2
    have hib := ((itemById_iff hnodup).mp hb).2
    exact hia.symm.trans hib
  · exact (List.Nodup.of_map _ hnodup).filter _
  · rw [List.mem_filterMap, mem_goneItems]
    constructor
    · intro h
      obtain ⟨a, ha, hfind⟩ := h
      obtain ⟨hi, hid⟩ := (itemById_iff hnodup).mp hfind
      exact ⟨hi, (hids i.id).mp (hid ▸ List.mem_dedup.mp ha)⟩
    · intro h
      exact ⟨i.id, List.mem_dedup.mpr ((hids i.id).mpr h.2), (itemById_iff hnodup).mpr ⟨h.1, rfl⟩⟩

theorem mem_backingOf {e : Backing} : e ∈ backingOf w items ↔
    ∃ i ∈ items, i.type = e.1.itemType ∧ w.records e.1 i.value = some e.2.1 ∧
      e.2.2 = w.versions e.1 i.value := by
  obtain ⟨t, r, version⟩ := e
  rw [backingOf, List.mem_filterMap]
  refine exists_congr fun i => and_congr_right fun _ => ?_
  rw [backingEntry]
  cases hindex : CaseItemTypes.index i.type with
  | none =>
    have hnot : i.type ≠ t.itemType := fun h => by
      rw [index_eq_some.mpr h] at hindex
      cases hindex
    simp [hnot]
  | some t' =>
    have htype := index_eq_some.mp hindex
    dsimp only
    rw [Option.map_eq_some_iff]
    constructor
    · intro h
      obtain ⟨r', hr, heq⟩ := h
      obtain ⟨rfl, rfl, rfl⟩ : t' = t ∧ r' = r ∧ w.versions t' i.value = version := by
        simpa using heq
      exact ⟨htype, hr, rfl⟩
    · intro h
      obtain ⟨ht, hr, hv⟩ := h
      obtain rfl := RuleIndexTypes.itemType_inj (htype.symm.trans ht)
      exact ⟨r, hr, by rw [hv]⟩

theorem current_backingOf (hk : w.Keyed) (items : List CaseItem) :
    Current w (backingOf w items) := by
  intro e he
  obtain ⟨i, -, -, hr, hv⟩ := mem_backingOf.mp he
  rw [hk.records _ _ _ hr]
  exact hv

theorem stored_backingOf (hk : w.Keyed) (items : List CaseItem) :
    ∀ e ∈ backingOf w items, w.records e.1 e.2.1.id = some e.2.1 := by
  intro e he
  obtain ⟨i, -, -, hr, -⟩ := mem_backingOf.mp he
  rw [hk.records _ _ _ hr]
  exact hr

/-- The places that are written are those of the items with a hit or an event behind them. -/
theorem mem_keys_backingOf (hk : w.Keyed) {t : RuleIndexTypes} {k : Str} :
    (t, k) ∈ (backingOf w items).map backingKey ↔
      ∃ i ∈ items, i.type = t.itemType ∧ i.value = k ∧ ∃ r, w.records t k = some r := by
  rw [List.mem_map]
  constructor
  · intro h
    obtain ⟨e, he, hkey⟩ := h
    obtain ⟨i, hi, ht, hr, -⟩ := mem_backingOf.mp he
    obtain ⟨rfl, rfl⟩ := Prod.mk.inj hkey
    have hid := hk.records _ _ _ hr
    exact ⟨i, hi, ht, hid.symm, e.2.1, by rw [hid]; exact hr⟩
  · intro h
    obtain ⟨i, hi, ht, rfl, r, hr⟩ := h
    refine ⟨(t, r, w.versions t i.value), mem_backingOf.mpr ⟨i, hi, ht, hr, rfl⟩, ?_⟩
    rw [backingKey, hk.records _ _ _ hr]

theorem undisturbed_perm {items' : List CaseItem} (h : items.Perm items') :
    Undisturbed w items ↔ Undisturbed w items' := by
  have hperm : (backingOf w items).Perm (backingOf w items') := h.filterMap _
  constructor
  · intro hu
    exact ⟨(hperm.map _).nodup_iff.mp hu.distinct, hperm.length_eq ▸ hu.taken⟩
  · intro hu
    exact ⟨(hperm.map _).nodup_iff.mpr hu.distinct, hperm.length_eq ▸ hu.taken⟩

theorem taken_append (w : World) (n : ℕ) :
    Taken w (n + 1) ↔ Taken w n ∧ w.faults (w.writes + n) = false := by
  constructor
  · intro h
    exact ⟨fun j hj => h j (Nat.lt_succ_of_lt hj), h n (Nat.lt_succ_self n)⟩
  · intro h j hj
    cases Nat.lt_succ_iff_lt_or_eq.mp hj with
    | inl hlt => exact h.1 j hlt
    | inr heq => exact heq ▸ h.2

/-- Once a hit or an event was written, the store is not what it was. -/
theorem changed_of_write {e : Backing} {backing : List Backing}
    (hcurrent : Current w (e :: backing)) (hfault : w.faults w.writes = false) :
    w.versions e.1 e.2.1.id <
      ((removeBackreferences caseId (e :: backing)).run (handle es) w).2.versions e.1 e.2.1.id := by
  have hversion : w.versions e.1 e.2.1.id = e.2.2 := (hcurrent e List.mem_cons_self).symm
  rw [run_removeBackreferences_cons, if_neg (not_not.mpr hversion), hfault,
    if_neg Bool.false_ne_true]
  have hle := @versions_le_of_run es caseId backing (saveStripped caseId w e) e.1 e.2.1.id
  have hkey : (e.1, e.2.1.id) = backingKey e := rfl
  rw [saveStripped_versions, if_pos hkey] at hle
  omega

/-- The part of `remove_case_items` after the ids are known. -/
def removeFrom (c : Case) (ids : List Str) : Service Case := do
  let backing ← backingRecords (ids.dedup.filterMap (Case.itemById c.items))
  removeBackreferences c.caseId backing
  let case ← recomputeCaseMetadata { c with items := c.items.filter (·.id ∉ ids) }
  saveCase case
  return case

theorem itemById_isNone {a : Str} :
    (Case.itemById items a).isNone = true ↔ a ∉ items.map (·.id) := by
  rw [Option.isNone_iff_eq_none, Case.itemById, List.find?_eq_none, List.mem_map]
  constructor
  · intro h hmem
    obtain ⟨i, hi, hid⟩ := hmem
    exact h i (List.mem_reverse.mpr hi) (by simpa using hid)
  · intro h i hi hid
    exact h ⟨i, List.mem_reverse.mp hi, by simpa using hid⟩

theorem run_removeCaseItems_missing (hc : w.cases caseId = some c)
    (hmissing : ∃ a ∈ itemIds, a ∉ c.items.map (·.id)) :
    ∃ e, (removeCaseItems caseId itemIds force).run (handle es) w = (.error e, w) := by
  obtain ⟨a, ha, hnot⟩ := hmissing
  have hne : itemIds.filter (fun iid => (Case.itemById c.items iid).isNone) ≠ [] :=
    List.ne_nil_of_mem (List.mem_filter.mpr ⟨ha, itemById_isNone.mpr hnot⟩)
  rw [removeCaseItems, run_bind_ok (run_fetchCase_some es _ hc)]
  dsimp only
  rw [if_pos hne]
  exact ⟨_, rfl⟩

theorem run_removeCaseItems_known (hc : w.cases caseId = some c)
    (hknown : ∀ a ∈ itemIds, a ∈ c.items.map (·.id)) :
    (removeCaseItems caseId itemIds force).run (handle es) w =
      match Case.idsToRemove c.items force itemIds with
      | .error e => (.error e, w)
      | .ok ids => (removeFrom c ids).run (handle es) w := by
  have hnil : itemIds.filter (fun iid => (Case.itemById c.items iid).isNone) = [] := by
    refine List.filter_eq_nil_iff.mpr fun a ha hnone => ?_
    exact itemById_isNone.mp hnone (hknown a ha)
  rw [removeCaseItems, run_bind_ok (run_fetchCase_some es _ hc)]
  dsimp only
  rw [hnil, if_neg (not_not.mpr rfl)]
  have hids := run_fromExcept (handle es) (Case.idsToRemove c.items force itemIds) w
  cases hr : Case.idsToRemove c.items force itemIds with
  | error e => rfl
  | ok ids =>
    rw [hr] at hids
    exact run_bind_ok hids _

/-- What a loop that fails has done. -/
theorem unchanged_of_loop_error {backing : List Backing} {e : HowlerError} {w₁ : World}
    (hcurrent : Current w backing)
    (h : (removeBackreferences caseId backing).run (handle es) w = (.error e, w₁)) :
    Unchanged w w₁ ↔ w.faults w.writes = true := by
  cases backing with
  | nil => cases h
  | cons e₀ backing =>
    cases hfault : w.faults w.writes with
    | true =>
      have hversion : w.versions e₀.1 e₀.2.1.id = e₀.2.2 := (hcurrent e₀ List.mem_cons_self).symm
      rw [run_removeBackreferences_cons, if_neg (not_not.mpr hversion), hfault, if_pos rfl] at h
      obtain rfl : w.wrote = w₁ := congrArg Prod.snd h
      exact iff_of_true ⟨rfl, rfl, rfl⟩ rfl
    | false =>
      have hlt := @changed_of_write es caseId _ _ _ hcurrent hfault
      rw [h] at hlt
      refine iff_of_false (fun hu => ?_) Bool.false_ne_true
      rw [hu.versions] at hlt
      exact lt_irrefl _ hlt

/-- What was done before the save of the case fails. -/
theorem unchanged_of_save_error {backing : List Backing} {w₁ : World} (hcurrent : Current w backing)
    (hwrites : w₁.writes = w.writes + backing.length) (hfaults : w₁.faults = w.faults)
    (h : (removeBackreferences caseId backing).run (handle es) w = (.ok (), w₁))
    (hsave : w₁.faults w₁.writes = true) :
    Unchanged w w₁.wrote ↔ w.faults w.writes = true := by
  cases backing with
  | nil =>
    obtain rfl : w = w₁ := congrArg Prod.snd h
    exact iff_of_true ⟨rfl, rfl, rfl⟩ hsave
  | cons e₀ backing =>
    have hok := (@removeBackreferences_ok_iff es caseId _ _ hcurrent).mp ⟨w₁, h⟩
    have hfault : w.faults w.writes = false := hok.2 0 (Nat.succ_pos _)
    have hlt := @changed_of_write es caseId _ _ _ hcurrent hfault
    rw [h] at hlt
    refine iff_of_false (fun hu => ?_) (by simp [hfault])
    have hversions : w₁.versions = w.versions := hu.versions
    rw [hversions] at hlt
    exact lt_irrefl _ hlt

theorem removes_of_stripped {removed : List CaseItem} {w₁ : World} {c' : Case} (hk : w.Keyed)
    (hids : ∀ id, id ∈ ids ↔ Gone c.items force itemIds id)
    (hperm : removed.Perm (goneItems c.items force itemIds))
    (hstripped : Stripped c.caseId ((backingOf w removed).map backingKey) w w₁)
    (hderived : Derived w₁ c') (hitems : c'.items = c.items.filter (·.id ∉ ids))
    (hfields : c' = { c with
      items := c'.items, targets := c'.targets, threats := c'.threats,
      indicators := c'.indicators }) :
    Removes c (Gone c.items force itemIds) w (w₁.wrote.setCase c') c' := by
  have hcaseId : c'.caseId = c.caseId := by rw [hfields]
  have hmem : ∀ i, i ∈ removed ↔ i ∈ c.items ∧ Gone c.items force itemIds i.id := fun i =>
    hperm.mem_iff.trans mem_goneItems
  refine ⟨?_, ⟨?_, fun i hi => ?_⟩, hfields, fun i hi hgone t ht => ?_, fun t k hother => ?_,
    hderived.congr rfl⟩
  · show Function.update w₁.cases c'.caseId (some c') = _
    rw [hstripped.cases, hcaseId]
  · rw [hitems]
    exact List.filter_sublist
  · rw [hitems, List.mem_filter, ← hids i.id]
    simp [hi]
  · refine (hstripped.records t i.value).trans ?_
    split
    · rfl
    · next hnot =>
      cases hr : w.records t i.value with
      | none => rfl
      | some r =>
        exact absurd ((mem_keys_backingOf hk).mpr ⟨i, (hmem i).mpr ⟨hi, hgone⟩, ht, rfl, r, hr⟩) hnot
  · refine (hstripped.records t k).trans (if_neg fun hkey => ?_)
    obtain ⟨i, hi, ht, hvalue, -⟩ := (mem_keys_backingOf hk).mp hkey
    obtain ⟨hi, hgone⟩ := (hmem i).mp hi
    exact hother i hi hgone ⟨ht, hvalue⟩

/-- A request that is not refused goes through where nothing disturbs it, and otherwise it raises;
then everything is as it was only where the first write failed. -/
theorem removeFrom_cases (hk : w.Keyed) (hf : ItemForest c.items)
    (hids : ∀ id, id ∈ ids ↔ Gone c.items force itemIds id) :
    (Undisturbed w (goneItems c.items force itemIds) ∧
      ∃ c' w', (removeFrom c ids).run (handle es) w = (.ok c', w') ∧
        Removes c (Gone c.items force itemIds) w w' c') ∨
    (¬Undisturbed w (goneItems c.items force itemIds) ∧
      ∃ e w', (removeFrom c ids).run (handle es) w = (.error e, w') ∧
        (Unchanged w w' ↔ w.faults w.writes = true)) := by
  have hperm := removed_perm hf.nodup hids
  rw [← undisturbed_perm hperm]
  generalize hremoved : ids.dedup.filterMap (Case.itemById c.items) = removed at hperm
  have hcurrent := current_backingOf hk removed
  have hloop := @removeBackreferences_ok_iff es c.caseId _ _ hcurrent
  rw [removeFrom, hremoved, run_bind_ok (run_backingRecords es w removed)]
  cases hrun : (removeBackreferences c.caseId (backingOf w removed)).run (handle es) w with
  | mk r w₁ =>
    cases r with
    | error e =>
      refine .inr ⟨fun hu => ?_, e, w₁, run_bind_error hrun _, unchanged_of_loop_error hcurrent hrun⟩
      obtain ⟨w', hok⟩ := hloop.mpr ⟨hu.distinct, fun j hj => hu.taken j (Nat.lt_succ_of_lt hj)⟩
      rw [hrun] at hok
      cases hok
    | ok u =>
      obtain ⟨hnodup, htaken⟩ := hloop.mp ⟨w₁, hrun⟩
      have hstripped := stripped_of_ok hnodup (stored_backingOf hk removed) hrun
      have hwrites : w₁.writes = w.writes + (backingOf w removed).length := by
        rw [hstripped.writes, List.length_map]
      obtain ⟨c', hrecompute, hderived, hfields⟩ :=
        recomputed_derived es w₁ { c with items := c.items.filter (·.id ∉ ids) }
      rw [run_bind_ok hrun, run_bind_ok hrecompute]
      cases hsave : w₁.faults w₁.writes with
      | true =>
        have hfailed : (saveCase c').run (handle es) w₁ =
            (.error (.dataStore "write failed".toList), w₁.wrote) := by
          rw [run_saveCase, World.write, if_pos hsave]
          rfl
        refine .inr ⟨fun hu => ?_, _, _, run_bind_error hfailed _,
          unchanged_of_save_error hcurrent hwrites hstripped.faults hrun hsave⟩
        have hlast := ((taken_append w _).mp hu.taken).2
        rw [hstripped.faults, hwrites, hlast] at hsave
        cases hsave
      | false =>
        have hsaved : (saveCase c').run (handle es) w₁ = (.ok (), w₁.wrote.setCase c') := by
          rw [run_saveCase, World.write, if_neg (by simp [hsave])]
          rfl
        have hlast : w.faults (w.writes + (backingOf w removed).length) = false := by
          rw [← hwrites, ← hstripped.faults]
          exact hsave
        refine .inl ⟨⟨hnodup, (taken_append w _).mpr ⟨htaken, hlast⟩⟩, c', _,
          run_bind_ok hsaved _, ?_⟩
        exact removes_of_stripped hk hids hperm hstripped hderived (by rw [hfields]) (by rw [hfields])

end Removal

section Requests

variable {es : Elastic} {caseId : Str} {c : Case} {w : World}

/-- A move that succeeds changes nothing but the parent of the item. -/
def MoveMeets (c : Case) (itemId : Str) (newParent : Option Str) (w : World)
    (result : Except HowlerError Case × World) : Prop :=
  ∀ c', result.1 = .ok c' →
    c' = { c with items := c.items.map fun i =>
      if i.id = itemId then { i with parent := optionalText newParent } else i } ∧
    result.2.cases = Function.update w.cases c.caseId (some c') ∧
    result.2.records = w.records ∧ result.2.versions = w.versions

/-- The check for a descendant ends, and it finds the ancestor just where the parents lead to it. -/
def DescendantMeets (items : List CaseItem) (candidateId ancestorId : Str) : Prop :=
  (∃ n, ∀ m, n ≤ m → descendantWalk items ancestorId m candidateId =
    some (Case.isDescendant items candidateId ancestorId)) ∧
  (Case.isDescendant items candidateId ancestorId = true ↔
    Reaches (parentOf items) ancestorId candidateId)

theorem moveCaseItem_meets (hc : w.cases caseId = some c) (hnodup : (c.items.map (·.id)).Nodup)
    (itemId : Str) (newParent : Option Str) :
    MoveMeets c itemId newParent w ((moveCaseItem caseId itemId newParent).run (handle es) w) := by
  intro c' hok
  cases hrun : (moveCaseItem caseId itemId newParent).run (handle es) w with
  | mk r w' =>
    rw [hrun] at hok
    dsimp only at hok
    subst hok
    rw [moveCaseItem, run_bind_ok (run_fetchCase_some es _ hc)] at hrun
    dsimp only at hrun
    split at hrun
    · simp at hrun
    · split at hrun
      · simp at hrun
      · obtain ⟨u, w₁, hcheck, hrun⟩ := run_bind_eq_ok.mp hrun
        rw [run_fromExcept] at hcheck
        obtain rfl : w = w₁ := congrArg Prod.snd hcheck
        split at hrun
        · simp at hrun
        · obtain ⟨u', w₂, hsave, hrun⟩ := run_bind_eq_ok.mp hrun
          rw [run_saveCase] at hsave
          obtain rfl := World.write_ok hsave
          rw [run_pure, Prod.mk.injEq, Except.ok.injEq] at hrun
          obtain ⟨rfl, rfl⟩ := hrun
          refine ⟨?_, rfl, rfl, rfl⟩
          rw [updateItem_eq_map hnodup]

theorem descendant_meets (items : List CaseItem) (candidateId ancestorId : Str) :
    DescendantMeets items candidateId ancestorId :=
  ⟨⟨items.length + 2, fun _ hm => descendantWalk_eq items candidateId ancestorId hm⟩,
    isDescendant_iff items candidateId ancestorId⟩

/-- What removals, moves and the check for descendants are to do. -/
structure ItemsMeet (es : Elastic) (w : World) (caseId : Str) (c : Case) (itemIds : List Str)
    (force : Bool) : Prop where
  removal : RemovalMeets c itemIds force w
    ((removeCaseItems caseId itemIds force).run (handle es) w)
  move : ∀ itemId newParent, MoveMeets c itemId newParent w
    ((moveCaseItem caseId itemId newParent).run (handle es) w)
  descendant : ∀ items candidateId ancestorId, DescendantMeets items candidateId ancestorId

theorem removal_iff (hk : w.Keyed) (hc : w.cases caseId = some c) (hf : ItemForest c.items)
    (itemIds : List Str) (force : Bool) :
    RemovalMeets c itemIds force w ((removeCaseItems caseId itemIds force).run (handle es) w) ↔
      Refused c.items force itemIds ∨ Undisturbed w (goneItems c.items force itemIds) ∨
        force = false ∧ w.faults w.writes = true := by
  have hunchanged : Unchanged w w := ⟨rfl, rfl, rfl⟩
  by_cases hknown : ∀ a ∈ itemIds, a ∈ c.items.map (·.id)
  · rw [run_removeCaseItems_known hc hknown]
    cases idsToRemove_cases hf force hknown with
    | inr h =>
      obtain ⟨href, e, he⟩ := h
      rw [he]
      refine iff_of_true ⟨fun hforce _ => ?_, fun c' h => (nomatch h), fun _ _ => hunchanged⟩
        (.inl href)
      cases href with
      | inl hmissing =>
        obtain ⟨a, ha, hnot⟩ := hmissing
        exact absurd (hknown a ha) hnot
      | inr hchild => rw [hchild.1] at hforce; cases hforce
    | inl h =>
      obtain ⟨href, ids, hids, hmem⟩ := h
      rw [hids]
      dsimp only
      rw [or_iff_right href]
      cases @removeFrom_cases es _ _ _ _ _ hk hf hmem with
      | inl h =>
        obtain ⟨hu, c', w', hrun, hremoves⟩ := h
        rw [hrun]
        refine iff_of_true ⟨fun _ _ => ⟨c', rfl⟩, fun c'' h => ?_, fun e h => (nomatch h)⟩ (.inl hu)
        obtain rfl := Except.ok.inj h
        exact hremoves
      | inr h =>
        obtain ⟨hu, e, w', hrun, hsame⟩ := h
        rw [hrun, or_iff_right hu]
        constructor
        · intro hmeets
          cases force with
          | true =>
            obtain ⟨c', h⟩ := hmeets.forced rfl hknown
            cases h
          | false => exact ⟨rfl, hsame.mp (hmeets.raises e rfl)⟩
        · intro h
          obtain ⟨rfl, hfault⟩ := h
          exact ⟨fun h => (nomatch h), fun c' h => (nomatch h), fun _ _ => hsame.mpr hfault⟩
  · have hmissing : ∃ a ∈ itemIds, a ∉ c.items.map (·.id) := by
      simpa using hknown
    obtain ⟨e, hrun⟩ := @run_removeCaseItems_missing es _ _ _ force _ hc hmissing
    rw [hrun]
    exact iff_of_true ⟨fun _ hall => absurd hall hknown, fun c' h => (nomatch h),
      fun _ _ => hunchanged⟩ (.inl (.inl hmissing))

/-- Removals, moves and the check for descendants do what they are for exactly when the removal is
refused, when nothing disturbs it, or when it is not forced and its very first write fails. -/
theorem case_items_iff (hk : w.Keyed) (hc : w.cases caseId = some c) (hf : ItemForest c.items)
    (itemIds : List Str) (force : Bool) :
    ItemsMeet es w caseId c itemIds force ↔
      Refused c.items force itemIds ∨ Undisturbed w (goneItems c.items force itemIds) ∨
        force = false ∧ w.faults w.writes = true := by
  rw [← @removal_iff es _ _ _ hk hc hf itemIds force]
  constructor
  · intro h
    exact h.removal
  · intro h
    exact ⟨h, fun itemId newParent => moveCaseItem_meets hc hf.nodup itemId newParent,
      descendant_meets⟩

end Requests

/-- A folder with a hit and another folder in it, which has an event. -/
def folderItems : List CaseItem :=
  [{ id := ['1'], parent := none, name := some ['a'], type := .folder, value := ['a'] },
   { id := ['2'], parent := some ['1'], name := some ['b'], type := .folder, value := ['b'] },
   { id := ['3'], parent := some ['1'], name := some ['c'], type := .hit, value := ['h'] },
   { id := ['4'], parent := some ['2'], name := some ['d'], type := .event, value := ['e'] },
   { id := ['5'], parent := none, name := some ['x'], type := .hit, value := ['g'] }]

def folderWorld : World := .ofDocuments [{ caseId := ['A'], items := folderItems }]
  [(.hit, { id := ['h'], related := [['A']], classification := ['U'] }),
    (.hit, { id := ['g'], related := [['A']], classification := ['U'] }),
    (.event, { id := ['e'], related := [['A']], classification := ['U'] })]
  (fun n => List.replicate (n + 6) 'u') ⟨0, some 0, Datetime.zero_nonneg, Datetime.zero_le_maxWall⟩

theorem folderItems_forest : ItemForest folderItems := by
  refine ⟨by decide, fun i hi p hp => ?_, fun id => (id.headD '0').toNat, fun i hi p hp => ?_⟩
  · have hall : ∀ i ∈ folderItems, ∀ p ∈ i.parent, ∃ f ∈ folderItems, f.id = p ∧ f.type = .folder := by
      decide
    exact hall i hi p hp
  · have hall : ∀ i ∈ folderItems, ∀ p ∈ i.parent,
        (p.headD '0').toNat < (i.id.headD '0').toNat := by decide
    exact hall i hi p hp

/-- The folder goes with all that is in it. -/
theorem case_items_iff_folder :
    ItemsMeet findsB folderWorld ['A'] { caseId := ['A'], items := folderItems } [['1']] true := by
  refine (case_items_iff (World.keyed_ofDocuments _ _ _ _) rfl folderItems_forest [['1']] true).mpr
    (.inr (.inl ⟨?_, fun _ _ => rfl⟩))
  have hall : ((backingOf folderWorld folderItems).map backingKey).Nodup := by decide
  exact ((List.filter_sublist.filterMap _).map _).nodup hall

/-- Two items for one hit. -/
def twinItems : List CaseItem :=
  [{ id := ['1'], parent := none, name := some ['a'], type := .hit, value := ['h'] },
   { id := ['2'], parent := none, name := some ['b'], type := .hit, value := ['h'] }]

def twinWorld : World := .ofDocuments [{ caseId := ['A'], items := twinItems }]
  [(.hit, { id := ['h'], related := [['A']], classification := ['U'] })]
  (fun n => List.replicate (n + 3) 'u') ⟨0, some 0, Datetime.zero_nonneg, Datetime.zero_le_maxWall⟩

theorem twinItems_forest : ItemForest twinItems := by
  refine ⟨by decide, fun i hi p hp => ?_, fun _ => 0, fun i hi p hp => ?_⟩
  · have hroot : i.parent = none := by
      have hall : ∀ i ∈ twinItems, i.parent = none := by decide
      exact hall i hi
    rw [hroot] at hp
    cases hp
  · have hroot : i.parent = none := by
      have hall : ∀ i ∈ twinItems, i.parent = none := by decide
      exact hall i hi
    rw [hroot] at hp
    cases hp

/-- The hit loses the reference with the first item, and then the version is not the one that was
read: the removal raises. -/
theorem twins_half_removed :
    ItemForest twinItems ∧
    ((removeCaseItems ['A'] [['1'], ['2']] false).run (handle findsB) twinWorld).1 =
      .error .versionConflict ∧
    (((removeCaseItems ['A'] [['1'], ['2']] false).run (handle findsB) twinWorld).2.records .hit
      ['h']).map (·.related) = some [] ∧
    ¬ItemsMeet findsB twinWorld ['A'] { caseId := ['A'], items := twinItems } [['1'], ['2']]
      false := by
  have hraised : ((removeCaseItems ['A'] [['1'], ['2']] false).run (handle findsB) twinWorld).1 =
      .error .versionConflict := by rfl
  have hrelated : (((removeCaseItems ['A'] [['1'], ['2']] false).run (handle findsB)
      twinWorld).2.records .hit ['h']).map (·.related) = some [] := by rfl
  refine ⟨twinItems_forest, hraised, hrelated, fun h => ?_⟩
  have hsame := (h.removal.raises _ hraised).records
  rw [hsame] at hrelated
  have hstored : (twinWorld.records .hit ['h']).map (·.related) = some [['A']] := by rfl
  rw [hstored] at hrelated
  cases hrelated

end Howler.Cases
