import Howler.Datastore.AliasActions
import Howler.Datastore.Bootstrap

namespace Howler.Datastore

open Python Systems Prog

/-- `{name}-{k:06d}`, the name that a rollover gives. -/
def rolloverIndex (name : Str) (k : ℕ) : Str :=
  let digits := Nat.toDigits 10 k
  name ++ '-' :: (List.replicate (6 - digits.length) '0' ++ digits)

theorem rolloverIndex_inj {name : Str} {j k : ℕ} (h : rolloverIndex name j = rolloverIndex name k) :
    j = k := by
  have hdigits := (List.cons.inj (List.append_cancel_left h)).2
  have hvalue := congrArg (fun cs => Nat.ofDigitChars 10 cs 0) hdigits
  simpa only [Nat.ofDigitChars_append, Nat.ofDigitChars_replicate_zero, Nat.mul_zero,
    Nat.ofDigitChars_ten_toDigits] using hvalue

/-- The last of the names in their order. -/
theorem getLast?_sorted {names : List Str} {latest : Str} :
    (sorted names).getLast? = some latest ↔ latest ∈ names ∧ ∀ n ∈ names, n ≤ latest := by
  have hsorted : (sorted names).Pairwise (· ≤ ·) := List.pairwise_insertionSort _ _
  have hlast : ∀ last, (sorted names).getLast? = some last →
      last ∈ names ∧ ∀ n ∈ names, n ≤ last := by
    intro last h
    obtain ⟨init, hinit⟩ := List.getLast?_eq_some_iff.mp h
    constructor
    · rw [← mem_sorted, hinit]
      simp
    · intro n hn
      rw [← mem_sorted, hinit, List.mem_append, List.mem_singleton] at hn
      rw [hinit, List.pairwise_append] at hsorted
      cases hn with
      | inl hn => exact hsorted.2.2 n hn last (by simp)
      | inr hn => exact hn.le
  constructor
  · exact hlast latest
  · intro h
    cases hl : (sorted names).getLast? with
    | none =>
      rw [List.getLast?_eq_none_iff] at hl
      exact absurd (mem_sorted.mpr h.1) (by simp [hl])
    | some last =>
      obtain ⟨hmem, hle⟩ := hlast last hl
      rw [le_antisymm (h.2 last hmem) (hle latest h.1)]

section Repair

variable {D : Type} {name latest : Str} {c : Cluster D}

theorem hotIndex_not_prefix (name : Str) : ¬ ilmPrefix name <+: hotIndex name := by
  intro h
  exact absurd ((List.prefix_append_right_inj name).mp h) (by decide)

theorem isRemoveIndex_aliasActions (table : Dict Str AliasData) :
    ∀ act ∈ aliasActions name latest table, act.isRemoveIndex = false := by
  intro act hact
  rw [aliasActions, List.mem_append, List.mem_flatMap] at hact
  cases hact with
  | inl h =>
    obtain ⟨e, -, h⟩ := h
    rw [repairAction] at h
    split at h
    · simp_all [AliasAction.isRemoveIndex]
    · split at h
      · simp_all [AliasAction.isRemoveIndex]
      · simp at h
  | inr h =>
    simp only [latestAction] at h
    split at h
    · simp at h
    · simp_all [AliasAction.isRemoveIndex]

theorem filter_repairAction (m n : Str) (data : AliasData) :
    (repairAction name latest m data).filter (·.index = n) =
      if m = n then repairAction name latest m data else [] := by
  rw [repairAction]
  split
  · by_cases h : m = n <;> simp [AliasAction.index, h]
  · split
    · by_cases h : m = n <;> simp [AliasAction.index, h]
    · simp

/-- What the actions do to an index that has the alias is said in its entry. -/
theorem filter_flatMap_repairAction {table : Dict Str AliasData} (h : (Dict.keys table).Nodup)
    (n : Str) : (table.flatMap fun e => repairAction name latest e.1 e.2).filter (·.index = n) =
      match Dict.get? table n with
      | some data => repairAction name latest n data
      | none => [] := by
  induction table with
  | nil => rfl
  | cons e table ih =>
    obtain ⟨m, data⟩ := e
    obtain ⟨hm, htable⟩ := List.nodup_cons.mp h
    rw [List.flatMap_cons, List.filter_append, ih htable, filter_repairAction, Dict.get?_cons]
    by_cases hn : m = n
    · have hnone : Dict.get? table n = none := (Dict.get?_eq_none_iff _ _).mpr (hn ▸ hm)
      rw [hnone, if_pos hn, if_pos hn.symm]
      simp [hn]
    · rw [if_neg hn, if_neg (Ne.symm hn)]
      simp

/-- The alias data of an index after the repair. -/
theorem aliasData_repaired (hlatest : latest ∈ c.names) (hhot : latest ≠ hotIndex name) (n : Str) :
    ((aliasActions name latest (c.aliasTable name)).foldl AliasAction.apply c).aliasData n name =
      if n = latest then some { (c.aliasData n name).getD {} with isWriteIndex := some true }
      else if n = hotIndex name then none
      else (c.aliasData n name).map fun data =>
        if isWrite data then { data with isWriteIndex := some false } else data := by
  have hnone : n ∉ c.names → c.aliasData n name = none := by
    intro h
    cases hn : c.index? n with
    | none => simp [Cluster.aliasData, hn]
    | some ix => exact absurd ((c.mem_names n).mpr ⟨ix, hn⟩) h
  rw [AliasAction.aliasData_foldl_apply (isRemoveIndex_aliasActions _)]
  rw [aliasActions, List.filter_append,
    filter_flatMap_repairAction (c.nodup_keys_aliasTable name), List.foldl_append,
    Cluster.get?_aliasTable]
  simp only [latestAction, Cluster.get?_aliasTable]
  by_cases hl : n = latest
  · subst hl
    rw [if_pos hlatest, if_pos rfl]
    cases hd : c.aliasData n name with
    | none => simp [isWrite, AliasAction.index, AliasAction.onData]
    | some data =>
      obtain ⟨flag, other⟩ := data
      rcases flag with _ | _ | _ <;>
        simp [isWrite, repairAction, hhot, AliasAction.index, AliasAction.onData]
  · rw [if_neg hl]
    have hfilter : ∀ data, ((if isWrite data then []
        else [AliasAction.add latest name { data with isWriteIndex := some true }]).filter
          (·.index = n)) = [] := by
      intro data
      split <;> simp [AliasAction.index, Ne.symm hl]
    rw [hfilter, List.foldl_nil]
    by_cases hm : n ∈ c.names
    · rw [if_pos hm]
      cases hd : c.aliasData n name with
      | none => simp
      | some data =>
        by_cases hh : n = hotIndex name
        · simp [repairAction, hh, AliasAction.onData]
        · by_cases hw : isWrite data
          · simp [repairAction, hh, hl, hw, AliasAction.onData]
          · simp [repairAction, hh, hl, hw]
    · rw [if_neg hm, hnone hm]
      simp

theorem mem_behind_repaired (hlatest : latest ∈ c.names) (hhot : latest ≠ hotIndex name) (n : Str) :
    n ∈ ((aliasActions name latest (c.aliasTable name)).foldl AliasAction.apply c).behind name ↔
      n = latest ∨ (n ∈ c.behind name ∧ n ≠ hotIndex name) := by
  rw [Cluster.mem_behind, aliasData_repaired hlatest hhot, Cluster.mem_behind]
  by_cases hl : n = latest
  · simp [hl]
  · by_cases hh : n = hotIndex name
    · simp [hh, Ne.symm hhot]
    · cases c.aliasData n name <;> simp [hl, hh]

theorem mem_writeIndices_repaired (hlatest : latest ∈ c.names) (hhot : latest ≠ hotIndex name)
    (n : Str) :
    n ∈ ((aliasActions name latest (c.aliasTable name)).foldl AliasAction.apply c).writeIndices name ↔
      n = latest := by
  rw [Cluster.mem_writeIndices, aliasData_repaired hlatest hhot]
  by_cases hl : n = latest
  · simp [hl]
  · by_cases hh : n = hotIndex name
    · simp [hh, Ne.symm hhot]
    · cases hd : c.aliasData n name with
      | none => simp [hl, hh]
      | some data =>
        by_cases hw : isWrite data
        · simp [hl, hh, hw]
        · have hflag : data.isWriteIndex ≠ some true := by
            intro h
            simp [isWrite, h] at hw
          simp [hl, hh, hw, hflag]

end Repair

section Runs

variable {D : Type} {copying : Copying D} {name : Str} {c : Cluster D} {ds : List Delivery}
  {t : Cluster D × List Delivery}

/-- The handler of the runs below. -/
abbrev Cluster.faulty (copying : Copying D) :
    Handler (api.fallible ClusterError) (Cluster D × List Delivery) :=
  (Cluster.server copying).behind .connection

theorem run_ask_ok {r : Request} {a : r.Reply}
    (h : (ask r).run (Cluster.faulty copying) (c, ds) = (.ok a, t)) :
    c.serve copying r = .ok (a, t.1) :=
  run_request_ok h

theorem run_putWriteBlock_ok {n : Str} {on : Bool} {a : Unit}
    (h : (ask (.putWriteBlock n on)).run (Cluster.faulty copying) (c, ds) = (.ok a, t)) :
    n ∈ c.names ∧ t.1 = c.modify n fun ix => { ix with blocked := on } := by
  have hserve := run_ask_ok h
  rw [Cluster.serve] at hserve
  split at hserve
  · next hn => exact ⟨hn, (Prod.mk.inj (Except.ok.inj hserve)).2.symm⟩
  · cases hserve

theorem serve_map_ok {x : Except ClusterError (Cluster D)} {c' : Cluster D}
    (h : (do .ok ((), ← x) : Except ClusterError (Unit × Cluster D)) = .ok ((), c')) :
    x = .ok c' := by
  cases x with
  | error e => cases h
  | ok c₁ =>
    cases h
    rfl

theorem run_updateAliases_ok {actions : List AliasAction} {a : Unit}
    (h : (ask (.updateAliases actions)).run (Cluster.faulty copying) (c, ds) = (.ok a, t)) :
    c.updateAliases actions = .ok t.1 :=
  serve_map_ok (run_ask_ok h)

theorem run_putAlias_ok {n al : Str} {data : AliasData} {a : Unit}
    (h : (ask (.putAlias n al data)).run (Cluster.faulty copying) (c, ds) = (.ok a, t)) :
    c.updateAliases [.add n al data] = .ok t.1 :=
  serve_map_ok (run_ask_ok h)

theorem run_clone_ok {n target : Str} {a : Unit}
    (h : (ask (.clone n target)).run (Cluster.faulty copying) (c, ds) = (.ok a, t)) :
    c.clone n target = .ok t.1 :=
  serve_map_ok (run_ask_ok h)

theorem run_create_ok {n : Str} {al : Option Str} {a : Unit}
    (h : (ask (.create n al)).run (Cluster.faulty copying) (c, ds) = (.ok a, t)) :
    c.create n (Index.withAlias al) = .ok t.1 :=
  serve_map_ok (run_ask_ok h)

theorem run_repairAlias_ok {latest : Str} {a : Unit}
    (h : (repairAlias name latest).run (Cluster.faulty copying) (c, ds) = (.ok a, t)) :
    t.1 = (aliasActions name latest (c.aliasTable name)).foldl AliasAction.apply c := by
  obtain ⟨isAlias, t₁, h₁, h⟩ := run_bind_eq_ok.mp h
  obtain ⟨hisAlias, ht₁⟩ := Prod.mk.inj (Except.ok.inj (run_ask_ok h₁))
  obtain ⟨c₁, ds₁⟩ := t₁
  obtain rfl : c = c₁ := ht₁
  by_cases hb : c.behind name = []
  · -- the single action that gives the alias to the latest index
    have hfalse : isAlias = false := by simp [← hisAlias, hb]
    rw [hfalse] at h
    have htable : c.aliasTable name = [] := by
      rw [List.eq_nil_iff_forall_not_mem]
      intro e he
      have hmem := (c.mem_behind name e.1).mpr ⟨e.2, (c.mem_aliasTable name e).mp he⟩
      simp [hb] at hmem
    have hactions : aliasActions name latest (c.aliasTable name) =
        [.add latest name { isWriteIndex := some true }] := by
      rw [htable]
      rfl
    have hremove := @isRemoveIndex_aliasActions name latest (c.aliasTable name)
    rw [hactions] at hremove ⊢
    exact AliasAction.updateAliases_eq_ok hremove c (run_putAlias_ok h)
  · have htrue : isAlias = true := by simp [← hisAlias, hb]
    rw [htrue] at h
    obtain ⟨aliasIndices, t₂, h₂, h⟩ := run_bind_eq_ok.mp h
    obtain ⟨htable, ht₂⟩ := Prod.mk.inj (Except.ok.inj (run_ask_ok h₂))
    obtain ⟨c₂, ds₂⟩ := t₂
    obtain rfl : c = c₂ := ht₂
    rw [htable]
    by_cases hactions : aliasActions name latest aliasIndices = []
    · simp only [hactions, ne_eq, not_true_eq_false, if_false] at h
      rw [hactions, ← (Prod.mk.inj h).2]
      rfl
    · simp only [ne_eq, hactions, not_false_eq_true, if_true] at h
      exact AliasAction.updateAliases_eq_ok (isRemoveIndex_aliasActions _) _
        (run_updateAliases_ok h)

/-- A first rollover index with the documents of the legacy index, which leaves the alias. -/
structure Started (name : Str) (c c' : Cluster D) : Prop where
  fresh : ilmInitialIndex name ∉ c.names
  names : ∀ n, n ∈ c'.names ↔ n = ilmInitialIndex name ∨ n ∈ c.names
  docs : ∀ n k, c'.doc? n k =
    if n = ilmInitialIndex name then c.doc? (hotIndex name) k else c.doc? n k
  aliasData : ∀ n, c'.aliasData n name =
    if n = ilmInitialIndex name then some { isWriteIndex := some true }
    else if n = hotIndex name then none else c.aliasData n name
  unblocked : ∀ ix, c'.index? (ilmInitialIndex name) = some ix → ix.blocked = false
  single : (c'.writeIndices name).length ≤ 1

theorem create_eq_ok {n : Str} {ix : Index D} {c' : Cluster D} (h : c.create n ix = .ok c') :
    n ∉ c.names ∧ c' = c.put n ix ∧ ∀ a ∈ Dict.keys ix.aliases, (c'.writeIndices a).length ≤ 1 := by
  rw [Cluster.create] at h
  split at h
  · cases h
  · next hn =>
    split at h
    · cases h
    · rw [Cluster.checked] at h
      split at h
      · next hchecked =>
        obtain rfl := Except.ok.inj h
        exact ⟨hn, rfl, fun a ha => (hchecked a ha).2⟩
      · cases h

theorem writeIndices_updateAliases {actions : List AliasAction} {c' : Cluster D}
    (h : c.updateAliases actions = .ok c') {n al : Str} {data : AliasData}
    (hact : .add n al data ∈ actions) : (c'.writeIndices al).length ≤ 1 := by
  simp only [Cluster.updateAliases, Cluster.checked] at h
  split at h
  · split at h
    · next hchecked =>
      obtain rfl := Except.ok.inj h
      have hrest : AliasAction.add n al data ∈ actions.filter (!·.isRemoveIndex) :=
        List.mem_filter.mpr ⟨hact, rfl⟩
      exact (hchecked al (List.mem_filterMap.mpr ⟨_, hrest, rfl⟩)).2
    · cases h
  · cases h

theorem initial_ne_hot (name : Str) : ilmInitialIndex name ≠ hotIndex name := by
  intro h
  exact absurd (List.append_cancel_left h) (by decide)

theorem ilmPrefix_initial (name : Str) : ilmPrefix name <+: ilmInitialIndex name :=
  (List.prefix_append_right_inj name).mpr (by decide)

theorem run_createInitial_ok {i : Str} (hfresh : ilmInitialIndex name ∉ c.names)
    (hhot : hotIndex name ∉ c.names)
    (h : (createInitial name).run (Cluster.faulty copying) (c, ds) = (.ok i, t)) :
    i = ilmInitialIndex name ∧ Started name c t.1 := by
  obtain ⟨_, t₁, h₁, h⟩ := run_bind_eq_ok.mp h
  obtain ⟨hi, ht⟩ := Prod.mk.inj h
  refine ⟨(Except.ok.inj hi).symm, ?_⟩
  rw [← ht]
  have hcreate : c.create (ilmInitialIndex name) (Index.withAlias (some name)) = .ok t₁.1 := by
    rw [run_catch] at h₁
    cases hask : (ask (.create (ilmInitialIndex name) (some name))).run (Cluster.faulty copying)
        (c, ds) with
    | mk r t₂ =>
      rw [hask] at h₁
      cases r with
      | ok a =>
        obtain rfl := (Prod.mk.inj h₁).2
        exact run_create_ok hask
      | error e =>
        -- an index of that name would have been found
        by_cases he : e = .resourceAlreadyExists
        · cases run_request_error hask with
          | inl hlost =>
            rw [hlost] at he
            cases he
          | inr hrefused =>
            rw [Cluster.server, Cluster.serve, Cluster.create, if_neg hfresh, Cluster.checked,
              he] at hrefused
            split at hrefused
            · cases hrefused
            · split at hrefused
              · cases hrefused
              · cases hrefused
        · simp only [he, if_false] at h₁
          cases h₁
  obtain ⟨-, hput, hsingle⟩ := create_eq_ok hcreate
  have hindex : ∀ n, t₁.1.index? n = if n = ilmInitialIndex name
      then some (Index.withAlias (some name)) else c.index? n := by
    intro n
    rw [hput, Cluster.index?_put]
  have hnone : c.index? (hotIndex name) = none := (c.index?_eq_none).mpr hhot
  constructor
  · exact hfresh
  · intro n
    rw [hput, Cluster.mem_names_put]
  · intro n k
    rw [Cluster.doc?, hindex, Cluster.doc?, hnone]
    by_cases hn : n = ilmInitialIndex name
    · simp [hn, Index.withAlias]
    · simp [hn, Cluster.doc?]
  · intro n
    rw [Cluster.aliasData, hindex]
    by_cases hn : n = ilmInitialIndex name
    · simp [hn, Index.withAlias, Dict.get?_cons]
    · by_cases hh : n = hotIndex name
      · simp [hh, hnone, Ne.symm (initial_ne_hot name)]
      · simp [hn, hh, Cluster.aliasData]
  · intro ix hix
    rw [hindex, if_pos rfl, Option.some.injEq] at hix
    rw [← hix]
    rfl
  · exact hsingle name (by simp [Index.withAlias, Dict.keys])

/-- A failed migration is not reported as a success. -/
theorem run_rollback_throw (indexName : Str) (e : ClusterError) (s : Cluster D × List Delivery)
    (a : Unit) :
    (do rollback name indexName; throw e : Task Unit).run (Cluster.faulty copying) s ≠ (.ok a, t) := by
  intro h
  obtain ⟨_, t₁, -, h⟩ := run_bind_eq_ok.mp h
  cases h

/-- The actions that give the alias to the new index. -/
def swapActions (name : Str) (hasAlias : Bool) : List AliasAction :=
  let add := AliasAction.add (ilmInitialIndex name) name { isWriteIndex := some true }
  if hasAlias then [add, .remove (hotIndex name) name] else [add]

theorem run_copyHot_ok {a : Unit} {ix : Index D} (hix : c.index? (hotIndex name) = some ix)
    (h : (copyHot name (hotIndex name)).run (Cluster.faulty copying) (c, ds) = (.ok a, t)) :
    ∃ c₁ : Cluster D, ilmInitialIndex name ∉ c.names ∧
      c₁.updateAliases (swapActions name (c.aliasData (hotIndex name) name).isSome) = .ok t.1 ∧
      (∀ n, n ∈ c₁.names ↔ n = ilmInitialIndex name ∨ n ∈ c.names) ∧
      ∀ n, c₁.index? n = if n = ilmInitialIndex name
        then some { docs := ix.docs } else c.index? n := by
  obtain ⟨_, ⟨c₁, ds₁⟩, h₁, h⟩ := run_bind_eq_ok.mp h
  obtain ⟨_, ⟨c₂, ds₂⟩, h₂, h⟩ := run_bind_eq_ok.mp h
  obtain ⟨hasAlias, ⟨c₃, ds₃⟩, h₃, h⟩ := run_bind_eq_ok.mp h
  have hclone := run_clone_ok h₁
  obtain ⟨-, hopen⟩ := run_putWriteBlock_ok h₂
  obtain ⟨halias, hc₃⟩ := Prod.mk.inj (Except.ok.inj (run_ask_ok h₃))
  have hcreate : c.create (ilmInitialIndex name) { docs := ix.docs, blocked := true } = .ok c₁ := by
    rw [Cluster.clone, hix] at hclone
    simp only at hclone
    split at hclone
    · exact hclone
    · cases hclone
  obtain ⟨hfresh, hput, -⟩ := create_eq_ok hcreate
  have hindex : ∀ n, c₂.index? n = if n = ilmInitialIndex name
      then some { docs := ix.docs } else c.index? n := by
    intro n
    have hc₂ : c₂ = _ := hopen
    rw [hc₂, Cluster.index?_modify, hput, Cluster.index?_put]
    by_cases hn : n = ilmInitialIndex name
    · simp [hn]
    · simp [hn]
  refine ⟨c₂, hfresh, ?_, ?_, hindex⟩
  · have hdata : c₂.aliasData (hotIndex name) name = c.aliasData (hotIndex name) name := by
      rw [Cluster.aliasData, hindex, if_neg (initial_ne_hot name).symm, Cluster.aliasData]
    obtain rfl : c₂ = c₃ := hc₃
    rw [← hdata, swapActions]
    have hal : (c₂.aliasData (hotIndex name) name).isSome = hasAlias := halias
    rw [hal]
    exact run_updateAliases_ok h
  · intro n
    have hc₂ : c₂ = _ := hopen
    rw [hc₂, Cluster.names_modify, hput, Cluster.mem_names_put]

theorem swapActions_spec (name : Str) (hasAlias : Bool) :
    (∀ act ∈ swapActions name hasAlias, act.isRemoveIndex = false ∧
      (act.index = ilmInitialIndex name ∨ act.index = hotIndex name)) ∧
    .add (ilmInitialIndex name) name { isWriteIndex := some true } ∈ swapActions name hasAlias := by
  cases hasAlias <;> simp [swapActions, AliasAction.isRemoveIndex, AliasAction.index]

theorem run_migrate_ok {i : Str} (hhot : hotIndex name ∈ c.names)
    (h : (migrate name (hotIndex name)).run (Cluster.faulty copying) (c, ds) = (.ok i, t)) :
    i = ilmInitialIndex name ∧ Started name c t.1 := by
  obtain ⟨_, ⟨c₁, ds₁⟩, h₁, h⟩ := run_bind_eq_ok.mp h
  obtain ⟨_, ⟨c₂, ds₂⟩, h₂, h⟩ := run_bind_eq_ok.mp h
  obtain ⟨_, ⟨c₃, ds₃⟩, h₃, h⟩ := run_bind_eq_ok.mp h
  obtain ⟨hi, rfl⟩ := Prod.mk.inj h
  refine ⟨(Except.ok.inj hi).symm, ?_⟩
  obtain ⟨ix, hix⟩ := (c.mem_names _).mp hhot
  have hblocked : c₁ = c.modify (hotIndex name) fun ix => { ix with blocked := true } :=
    (run_putWriteBlock_ok h₁).2
  have hopened : c₃ = c₂.modify (hotIndex name) fun ix => { ix with blocked := false } :=
    (run_putWriteBlock_ok h₃).2
  have hcopy : (copyHot name (hotIndex name)).run (Cluster.faulty copying) (c₁, ds₁) =
      (.ok (), (c₂, ds₂)) := by
    rw [run_catch] at h₂
    cases hr : (copyHot name (hotIndex name)).run (Cluster.faulty copying) (c₁, ds₁) with
    | mk r s' =>
      rw [hr] at h₂
      cases r with
      | ok a => exact h₂
      | error e => exact absurd h₂ (run_rollback_throw _ _ _ _)
  have hix₁ : c₁.index? (hotIndex name) = some { ix with blocked := true } := by
    rw [hblocked, Cluster.index?_modify, if_pos rfl, hix]
    rfl
  obtain ⟨c', hfresh, hswap, hnames, hindex⟩ := run_copyHot_ok hix₁ hcopy
  obtain ⟨hacts, hadd⟩ := swapActions_spec name (c₁.aliasData (hotIndex name) name).isSome
  have hfold : c₂ = (swapActions name (c₁.aliasData (hotIndex name) name).isSome).foldl
      AliasAction.apply c' :=
    AliasAction.updateAliases_eq_ok (fun act hact => (hacts act hact).1) c' hswap
  have hdata₁ : c₁.aliasData (hotIndex name) name = ix.aliases.get? name := by
    rw [Cluster.aliasData, hix₁]
    rfl
  have hne := initial_ne_hot name
  have hnames₁ : c₁.names = c.names := by rw [hblocked, Cluster.names_modify]
  rw [hnames₁] at hnames hfresh
  have hnames₂ : c₂.names = c'.names :=
    hfold ▸ AliasAction.names_foldl_apply (fun act hact => (hacts act hact).1) c'
  have hdoc : ∀ n k, c₃.doc? n k = c'.doc? n k := by
    intro n k
    rw [← AliasAction.doc?_foldl_apply (fun act hact => (hacts act hact).1) c' n k, ← hfold,
      hopened, Cluster.doc?, Cluster.index?_modify, Cluster.doc?]
    split
    · cases c₂.index? n <;> rfl
    · rfl
  have hdata : ∀ n, c₃.aliasData n name = c₂.aliasData n name := by
    intro n
    rw [hopened, Cluster.aliasData, Cluster.index?_modify, Cluster.aliasData]
    split
    · cases c₂.index? n <;> rfl
    · rfl
  have hold : ∀ n, n ≠ ilmInitialIndex name → n ≠ hotIndex name → c₁.index? n = c.index? n := by
    intro n _ hn
    rw [hblocked, Cluster.index?_modify, if_neg hn]
  constructor
  · exact hfresh
  · intro n
    rw [hopened, Cluster.names_modify, hnames₂, hnames]
  · intro n k
    rw [hdoc, Cluster.doc?, hindex, Cluster.doc?, Cluster.doc?, hix]
    by_cases hn : n = ilmInitialIndex name
    · simp [hn]
    · by_cases hh : n = hotIndex name
      · simp [hh, hix₁, hix, hne.symm]
      · simp [hn, hold n hn hh]
  · intro n
    rw [hdata, hfold, AliasAction.aliasData_foldl_apply fun act hact => (hacts act hact).1]
    by_cases hn : n = ilmInitialIndex name
    · have hmem : n ∈ c'.names := (hnames n).mpr (.inl hn)
      rw [if_pos hmem, if_pos hn, hn]
      cases (c₁.aliasData (hotIndex name) name).isSome <;>
        simp [swapActions, AliasAction.index, AliasAction.onData, hne.symm]
    · rw [if_neg hn]
      by_cases hh : n = hotIndex name
      · have hmem : n ∈ c'.names := (hnames n).mpr (.inr (hh ▸ hhot))
        rw [if_pos hmem, if_pos hh, hh, Cluster.aliasData, hindex, if_neg hne.symm, hix₁, hdata₁]
        cases hal : ix.aliases.get? name <;>
          simp [swapActions, AliasAction.index, AliasAction.onData, hne, hal]
      · rw [if_neg hh]
        have hnone : (swapActions name (c₁.aliasData (hotIndex name) name).isSome).filter
            (·.index = n) = [] := by
          rw [List.filter_eq_nil_iff]
          intro act hact
          cases (hacts act hact).2 with
          | inl h => simp [h, Ne.symm hn]
          | inr h => simp [h, Ne.symm hh]
        rw [hnone, List.foldl_nil, Cluster.aliasData, hindex, if_neg hn, hold n hn hh]
        by_cases hmem : n ∈ c'.names
        · rw [if_pos hmem, Cluster.aliasData]
        · have hnot : n ∉ c.names := fun h => hmem ((hnames n).mpr (.inr h))
          rw [if_neg hmem, Cluster.aliasData, c.index?_eq_none.mpr hnot]
          rfl
  · intro ix' hix'
    have hacts' := AliasAction.index?_foldl_apply (fun act hact => (hacts act hact).1) c'
      (ilmInitialIndex name)
    rw [hopened, Cluster.index?_modify, if_neg hne, hfold, hacts', hindex, if_pos rfl,
      Option.map_some, Option.some.injEq] at hix'
    rw [← hix', AliasAction.onIndexAll_blocked]
  · have hwrite : c₃.writeIndices name = c₂.writeIndices name := by
      rw [Cluster.writeIndices, Cluster.writeIndices, hopened, Cluster.names_modify]
      apply List.filter_congr
      intro n _
      rw [← hdata n, hopened]
    rw [hwrite]
    exact writeIndices_updateAliases hswap hadd

end Runs

end Howler.Datastore
