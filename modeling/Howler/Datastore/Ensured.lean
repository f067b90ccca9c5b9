import Howler.Datastore.WriteIndex

namespace Howler.Datastore

open Python Systems Prog

variable {D : Type} (copying : Copying D) (name : Str)

/-- The rollover index with the highest number. -/
def Highest (c : Cluster D) (n : Str) : Prop :=
  n ∈ c.names ∧ ∃ k, n = rolloverIndex name k ∧ ∀ j, rolloverIndex name j ∈ c.names → j ≤ k

/-- The names of the collection's own indices. -/
def IsPhysical (n : Str) : Prop :=
  n = name ∨ n = hotIndex name ∨ ∃ k, n = rolloverIndex name k

/-- An index of the collection, or a copy of one that is gone. -/
def BelongsTo (c : Cluster D) (n : Str) : Prop :=
  IsPhysical name n ∨ ∃ m, IsPhysical name m ∧ m ∉ c.names ∧ n = m ++ "__reindex".toList

/-- A document of the collection. -/
def Document (c : Cluster D) (key : Str) (d : D) : Prop :=
  ∃ n, BelongsTo name c n ∧ c.doc? n key = some d

/-- One of the indices has the document, and no other one has a document of its id. -/
def FoundOnce (c : Cluster D) (indices : Str → Prop) (key : Str) (d : D) : Prop :=
  ∃ n, indices n ∧ c.doc? n key = some d ∧ ∀ m, indices m → (c.doc? m key).isSome → m = n

/-- What the collection is left in: one write index, which is the latest and accepts writes, every
document behind the alias once, and nothing more to do. -/
structure Settled (before after : Cluster D) (indexName : Str) : Prop where
  highest : Highest name after indexName
  write : ∀ n, n ∈ after.writeIndices name ↔ n = indexName
  unblocked : ∀ ix, after.index? indexName = some ix → ix.blocked = false
  documents : ∀ key d, Document name before key d →
    FoundOnce after (· ∈ after.behind name) key d
  again : ∀ (indexName' : Str) (ds : List Delivery),
    Ends (Cluster.faulty copying) (ensureCollectionIlm name indexName') (after, ds)
      (fun i t => i = indexName ∧ t.1 = after) (fun t => t.1 = after)

/-- The indices whose documents will be behind the alias: those that have it, the latest rollover
index, and without a rollover index the legacy one. -/
def Serves (c : Cluster D) (n : Str) : Prop :=
  (n ∈ c.behind name ∧ n ≠ hotIndex name) ∨ Highest name c n ∨
    (n = hotIndex name ∧ ∀ k, rolloverIndex name k ∉ c.names)

/-- The rollover index with the highest number is the last of the names that the pattern `{name}-0*`
finds, and is not blocked, and no document is in two places or in none of those that will count. -/
structure Ready (c : Cluster D) : Prop where
  last : ∀ n ∈ c.names, ilmPrefix name <+: n →
    ∃ m, Highest name c m ∧ ilmPrefix name <+: m ∧ n ≤ m
  found : ∀ k, rolloverIndex name k ∈ c.names → ∃ n ∈ c.names, ilmPrefix name <+: n
  unblocked : ∀ n ix, Highest name c n → c.index? n = some ix → ix.blocked = false
  documents : ∀ key d, Document name c key d → FoundOnce c (Serves name c) key d

variable {name}

theorem Highest.unique {c : Cluster D} {m n : Str} (hm : Highest name c m) (hn : Highest name c n) :
    m = n := by
  obtain ⟨hmem, j, rfl, hj⟩ := hm
  obtain ⟨hmem', k, rfl, hk⟩ := hn
  rw [le_antisymm (hk j hmem) (hj k hmem')]

theorem highest_congr {c c' : Cluster D} (h : ∀ n, n ∈ c'.names ↔ n ∈ c.names) (n : Str) :
    Highest name c' n ↔ Highest name c n := by
  simp only [Highest, h]

theorem foundOnce_congr {c c' : Cluster D} {P P' : Str → Prop} (hP : ∀ n, P' n ↔ P n)
    (hdoc : ∀ n key, c'.doc? n key = c.doc? n key) (key : Str) (d : D) :
    FoundOnce c' P' key d ↔ FoundOnce c P key d := by
  simp only [FoundOnce, hP, hdoc]

theorem existing_eq (c : Cluster D) : ∀ n, n ∈ c.names.filter (ilmPrefix name).isPrefixOf ↔
    n ∈ c.names ∧ ilmPrefix name <+: n := by
  intro n
  rw [List.mem_filter, List.isPrefixOf_iff_prefix]

variable {copying}

/-- The run when there are indices that the pattern finds. -/
theorem run_ensure_existing {c : Cluster D} {latest indexName i : Str} {ds : List Delivery}
    {t : Cluster D × List Delivery}
    (hlatest : (sorted (c.names.filter (ilmPrefix name).isPrefixOf)).getLast? = some latest)
    (h : (ensureCollectionIlm name indexName).run (Cluster.faulty copying) (c, ds) = (.ok i, t)) :
    i = latest ∧ t.1 = (aliasActions name latest (c.aliasTable name)).foldl AliasAction.apply c := by
  obtain ⟨existing, ⟨c₁, ds₁⟩, h₁, h⟩ := run_bind_eq_ok.mp h
  obtain ⟨rfl, hc₁⟩ := Prod.mk.inj (Except.ok.inj (run_ask_ok h₁))
  obtain rfl : c = c₁ := hc₁
  simp only [hlatest] at h
  obtain ⟨_, ⟨c₂, ds₂⟩, h₂, h⟩ := run_bind_eq_ok.mp h
  obtain ⟨hi, rfl⟩ := Prod.mk.inj h
  exact ⟨(Except.ok.inj hi).symm, run_repairAlias_ok h₂⟩

/-- The run when there are none. -/
theorem run_ensure_fresh {c : Cluster D} {i : Str} {ds : List Delivery}
    {t : Cluster D × List Delivery} (hnone : ∀ n ∈ c.names, ¬ ilmPrefix name <+: n)
    (h : (ensureCollectionIlm name (hotIndex name)).run (Cluster.faulty copying) (c, ds) =
      (.ok i, t)) : i = ilmInitialIndex name ∧ Started name c t.1 := by
  obtain ⟨existing, ⟨c₁, ds₁⟩, h₁, h⟩ := run_bind_eq_ok.mp h
  obtain ⟨rfl, hc₁⟩ := Prod.mk.inj (Except.ok.inj (run_ask_ok h₁))
  obtain rfl : c = c₁ := hc₁
  have hempty : c.names.filter (ilmPrefix name).isPrefixOf = [] := by
    rw [List.eq_nil_iff_forall_not_mem]
    intro n hn
    obtain ⟨hmem, hprefix⟩ := (existing_eq c n).mp hn
    exact hnone n hmem hprefix
  simp only [hempty] at h
  obtain ⟨found, ⟨c₂, ds₂⟩, h₂, h⟩ := run_bind_eq_ok.mp h
  obtain ⟨hfound, hc₂⟩ := Prod.mk.inj (Except.ok.inj (run_ask_ok h₂))
  obtain rfl : c = c₂ := hc₂
  by_cases hhot : hotIndex name ∈ c.names
  · have htrue : found = true := by simp [← hfound, hhot]
    rw [htrue] at h
    exact run_migrate_ok hhot h
  · have hfalse : found = false := by simp [← hfound, hhot]
    rw [hfalse] at h
    have hinitial : ilmInitialIndex name ∉ c.names := fun hmem =>
      hnone _ hmem (ilmPrefix_initial name)
    exact run_createInitial_ok hinitial hhot h

/-- A request that changes nothing, whether it is answered or not. -/
theorem ends_ask_read {c : Cluster D} {r : Request} {a : r.Reply}
    (h : c.serve copying r = .ok (a, c)) (ds : List Delivery) :
    Ends (Cluster.faulty copying) (ask r) (c, ds) (fun a' t => a' = a ∧ t.1 = c)
      (fun t => t.1 = c) := by
  constructor
  · intro a' t hrun
    have hserve := run_ask_ok hrun
    rw [h] at hserve
    obtain ⟨ha, ht⟩ := Prod.mk.inj (Except.ok.inj hserve)
    exact ⟨ha.symm, ht.symm⟩
  · intro e t hrun
    cases run_request_snd (S := Cluster.server copying) (c := r) c ds with
    | inl hsame =>
      rw [ask] at hrun
      rwa [hrun] at hsame
    | inr hserved =>
      obtain ⟨a', ha'⟩ := hserved
      rw [ask] at hrun
      rw [hrun, Cluster.server, h] at ha'
      exact (Prod.mk.inj (Except.ok.inj ha')).2.symm

/-- Nothing is left to do when the latest index is the write index and the legacy one is gone. -/
theorem ensure_again {c : Cluster D} {latest : Str}
    (hlatest : (sorted (c.names.filter (ilmPrefix name).isPrefixOf)).getLast? = some latest)
    (hwrite : ∀ n, n ∈ c.writeIndices name ↔ n = latest) (hhot : hotIndex name ∉ c.behind name)
    (indexName : Str) (ds : List Delivery) :
    Ends (Cluster.faulty copying) (ensureCollectionIlm name indexName) (c, ds)
      (fun i t => i = latest ∧ t.1 = c) (fun t => t.1 = c) := by
  obtain ⟨data, hdata, hflag⟩ := (c.mem_writeIndices name latest).mp ((hwrite latest).mpr rfl)
  have hbehind : latest ∈ c.behind name := (c.mem_behind name latest).mpr ⟨data, hdata⟩
  have hactions : aliasActions name latest (c.aliasTable name) = [] := by
    rw [aliasActions, List.append_eq_nil_iff, List.flatMap_eq_nil_iff]
    constructor
    · intro e he
      have hmem := (c.mem_aliasTable name e).mp he
      have hne : e.1 ≠ hotIndex name := fun h =>
        hhot (h ▸ (c.mem_behind name e.1).mpr ⟨e.2, hmem⟩)
      have hother : ¬ (e.1 ≠ latest ∧ isWrite e.2 = true) := by
        rintro ⟨hl, hw⟩
        have hflag' : e.2.isWriteIndex = some true := by
          cases hf : e.2.isWriteIndex with
          | none => simp [isWrite, hf] at hw
          | some b => simpa [isWrite, hf] using hw
        exact hl ((hwrite e.1).mp ((c.mem_writeIndices name e.1).mpr ⟨e.2, hmem, hflag'⟩))
      rw [repairAction, if_neg hne, if_neg hother]
    · simp [latestAction, Cluster.get?_aliasTable, hdata, isWrite, hflag]
  refine Ends.bind (ends_ask_read rfl ds) ?_
  intro existing t ht
  obtain ⟨c₁, ds₁⟩ := t
  obtain ⟨hexisting, hc₁⟩ := ht
  obtain rfl : c = c₁ := hc₁.symm
  simp only [hexisting, hlatest]
  have hrepair : Ends (Cluster.faulty copying) (repairAlias name latest) (c, ds₁)
      (fun _ t => t.1 = c) (fun t => t.1 = c) := by
    refine Ends.bind (ends_ask_read rfl ds₁) ?_
    intro isAlias t ht
    obtain ⟨c₂, ds₂⟩ := t
    obtain ⟨hisAlias, hc₂⟩ := ht
    obtain rfl : c = c₂ := hc₂.symm
    have htrue : isAlias = true := by simpa [hisAlias] using List.ne_nil_of_mem hbehind
    rw [if_pos htrue]
    refine Ends.bind (ends_ask_read rfl ds₂) ?_
    intro table t ht
    obtain ⟨c₃, ds₃⟩ := t
    obtain ⟨htable, hc₃⟩ := ht
    obtain rfl : c = c₃ := hc₃.symm
    simp only [htable, hactions, ne_eq, not_true_eq_false, if_false]
    exact ends_pure rfl
  exact hrepair.bind fun _ t ht => ends_pure ⟨rfl, ht⟩

section Existing

variable {c : Cluster D} {latest : Str}

/-- Whether the latest index found has the highest number decides which indices serve. -/
theorem serves_iff (h : Highest name c latest) (n : Str) : Serves name c n ↔
    n = latest ∨ (n ∈ c.behind name ∧ n ≠ hotIndex name) := by
  have hlegacy : ¬ ∀ k, rolloverIndex name k ∉ c.names := by
    obtain ⟨hmem, k, rfl, -⟩ := h
    exact fun hnone => hnone k hmem
  rw [Serves]
  constructor
  · intro hn
    obtain hn | hn | hn := hn
    · exact .inr hn
    · exact .inl (hn.unique h)
    · exact absurd hn.2 hlegacy
  · intro hn
    cases hn with
    | inl hn => exact .inr (.inl (hn ▸ h))
    | inr hn => exact .inl hn

theorem settled_existing_iff
    (hlatest : (sorted (c.names.filter (ilmPrefix name).isPrefixOf)).getLast? = some latest) :
    Settled copying name c
        ((aliasActions name latest (c.aliasTable name)).foldl AliasAction.apply c) latest ↔
      Ready name c := by
  have hremove := @isRemoveIndex_aliasActions name latest (c.aliasTable name)
  have hnames := AliasAction.names_foldl_apply hremove c
  have hdoc := AliasAction.doc?_foldl_apply hremove c
  have hindex := AliasAction.index?_foldl_apply hremove c
  obtain ⟨hfound, hlast⟩ := getLast?_sorted.mp hlatest
  obtain ⟨hmem, hprefix⟩ := (existing_eq c latest).mp hfound
  have hne : latest ≠ hotIndex name := fun h => hotIndex_not_prefix name (h ▸ hprefix)
  have hbehind := mem_behind_repaired hmem hne
  have hwrite := mem_writeIndices_repaired hmem hne
  have hnames' : ∀ n, n ∈ ((aliasActions name latest (c.aliasTable name)).foldl
      AliasAction.apply c).names ↔ n ∈ c.names := fun n => by rw [hnames]
  constructor
  · intro h
    have hhighest : Highest name c latest := (highest_congr hnames' latest).mp h.highest
    constructor
    · intro n hn hnprefix
      exact ⟨latest, hhighest, hprefix, hlast n ((existing_eq c n).mpr ⟨hn, hnprefix⟩)⟩
    · intro _ _
      exact ⟨latest, hmem, hprefix⟩
    · intro n ix hn hix
      rw [hn.unique hhighest] at hix
      have hblocked := h.unblocked _ ((hindex latest).trans (congrArg _ hix))
      rwa [AliasAction.onIndexAll_blocked] at hblocked
    · intro key d hd
      apply (foundOnce_congr (fun n => ?_) hdoc key d).mp (h.documents key d hd)
      rw [hbehind, serves_iff hhighest]
  · intro h
    have hhighest : Highest name c latest := by
      obtain ⟨m, hm, hmprefix, hle⟩ := h.last latest hmem hprefix
      have hge := hlast m ((existing_eq c m).mpr ⟨hm.1, hmprefix⟩)
      rwa [le_antisymm hle hge]
    constructor
    · exact (highest_congr hnames' latest).mpr hhighest
    · exact hwrite
    · intro ix hix
      rw [hindex, Option.map_eq_some_iff] at hix
      obtain ⟨ix', hix', rfl⟩ := hix
      rw [AliasAction.onIndexAll_blocked]
      exact h.unblocked latest ix' hhighest hix'
    · intro key d hd
      apply (foundOnce_congr (fun n => ?_) hdoc key d).mpr (h.documents key d hd)
      rw [hbehind, serves_iff hhighest]
    · have hhot : hotIndex name ∉ ((aliasActions name latest (c.aliasTable name)).foldl
          AliasAction.apply c).behind name := by
        rw [hbehind]
        simp [hne.symm]
      exact ensure_again (by rw [hnames]; exact hlatest) hwrite hhot

end Existing

section Fresh

theorem serves_fresh {c : Cluster D} (hnumbers : ∀ k, rolloverIndex name k ∉ c.names) (n : Str) :
    Serves name c n ↔ (n ∈ c.behind name ∧ n ≠ hotIndex name) ∨ n = hotIndex name := by
  rw [Serves]
  constructor
  · intro hn
    obtain hn | ⟨hmem, k, rfl, -⟩ | hn := hn
    · exact .inl hn
    · exact absurd hmem (hnumbers k)
    · exact .inr hn.1
  · intro hn
    cases hn with
    | inl hn => exact .inl hn
    | inr hn => exact .inr (.inr ⟨hn, hnumbers⟩)

variable {c c' : Cluster D} (hc : Started name c c') (hnone : ∀ n ∈ c.names, ¬ ilmPrefix name <+: n)
include hc

theorem mem_behind_started (n : Str) : n ∈ c'.behind name ↔
    n = ilmInitialIndex name ∨ (n ∈ c.behind name ∧ n ≠ hotIndex name) := by
  rw [Cluster.mem_behind, hc.aliasData, Cluster.mem_behind]
  by_cases hn : n = ilmInitialIndex name
  · simp [hn]
  · by_cases hh : n = hotIndex name
    · simp [hh, (initial_ne_hot name).symm]
    · simp [hn, hh]

theorem mem_writeIndices_started (n : Str) :
    n ∈ c'.writeIndices name ↔ n = ilmInitialIndex name := by
  have hinitial : ilmInitialIndex name ∈ c'.writeIndices name := by
    rw [Cluster.mem_writeIndices, hc.aliasData, if_pos rfl]
    exact ⟨_, rfl, rfl⟩
  constructor
  · intro hn
    obtain ⟨m, hm⟩ : ∃ m, c'.writeIndices name = [m] := by
      rw [← List.length_eq_one_iff]
      have hpos := List.length_pos_of_mem hn
      have hsingle := hc.single
      omega
    rw [hm, List.mem_singleton] at hn hinitial
    rw [hn, hinitial]
  · intro hn
    rwa [hn]

/-- The documents of the legacy index are found in the first rollover index. -/
theorem foundOnce_started (key : Str) (d : D) :
    FoundOnce c' (· ∈ c'.behind name) key d ↔
      FoundOnce c (fun n => (n ∈ c.behind name ∧ n ≠ hotIndex name) ∨ n = hotIndex name) key d := by
  have hold : ∀ n, n ∈ c.behind name → n ≠ ilmInitialIndex name := fun n hn h =>
    hc.fresh (h ▸ (List.mem_filter.mp hn).1)
  have hdocs : ∀ n, n ∈ c.behind name → c'.doc? n key = c.doc? n key := fun n hn => by
    rw [hc.docs, if_neg (hold n hn)]
  have hinitial : c'.doc? (ilmInitialIndex name) key = c.doc? (hotIndex name) key := by
    rw [hc.docs, if_pos rfl]
  have hback : ∀ n, n ∈ c.behind name ∧ n ≠ hotIndex name → n ∈ c'.behind name := fun n hn =>
    (mem_behind_started hc n).mpr (.inr hn)
  have hmem : ilmInitialIndex name ∈ c'.behind name := (mem_behind_started hc _).mpr (.inl rfl)
  constructor
  · intro ⟨n, hn, hd, hunique⟩
    cases (mem_behind_started hc n).mp hn with
    | inl hinit =>
      refine ⟨hotIndex name, .inr rfl, by rw [← hinitial, ← hinit, hd], ?_⟩
      intro m hm hsome
      cases hm with
      | inl hm =>
        have heq := hunique m (hback m hm) (by rwa [hdocs m hm.1])
        exact absurd (heq.trans hinit) (hold m hm.1)
      | inr hm => exact hm
    | inr hbehind =>
      refine ⟨n, .inl hbehind, by rw [← hdocs n hbehind.1, hd], ?_⟩
      intro m hm hsome
      cases hm with
      | inl hm => exact hunique m (hback m hm) (by rwa [hdocs m hm.1])
      | inr hm =>
        have heq := hunique _ hmem (by rwa [hinitial, ← hm])
        exact absurd heq.symm (hold n hbehind.1)
  · intro ⟨n, hn, hd, hunique⟩
    cases hn with
    | inl hbehind =>
      refine ⟨n, hback n hbehind, by rw [hdocs n hbehind.1, hd], ?_⟩
      intro m hm hsome
      cases (mem_behind_started hc m).mp hm with
      | inl hinit =>
        have heq := hunique _ (.inr rfl) (by rwa [← hinitial, ← hinit])
        exact absurd heq.symm hbehind.2
      | inr hm => exact hunique m (.inl hm) (by rwa [← hdocs m hm.1])
    | inr hhot =>
      refine ⟨ilmInitialIndex name, hmem, by rw [hinitial, ← hhot, hd], ?_⟩
      intro m hm hsome
      cases (mem_behind_started hc m).mp hm with
      | inl hinit => exact hinit
      | inr hm =>
        have heq := hunique m (.inl hm) (by rwa [← hdocs m hm.1])
        exact absurd (heq.trans hhot) hm.2

include hnone

theorem highest_started_iff :
    Highest name c' (ilmInitialIndex name) ↔ ∀ k, rolloverIndex name k ∉ c.names := by
  constructor
  · intro ⟨_, k, hk, hall⟩ j hj
    have hk : 1 = k := rolloverIndex_inj hk
    have hle : j ≤ 1 := hk ▸ hall j ((hc.names _).mpr (.inr hj))
    -- the names of the numbers 0 and 1 are found by the pattern
    obtain rfl | rfl : j = 0 ∨ j = 1 := by omega
    · exact hnone _ hj ((List.prefix_append_right_inj name).mpr (by decide))
    · exact hnone _ hj (ilmPrefix_initial name)
  · intro h
    refine ⟨(hc.names _).mpr (.inl rfl), 1, rfl, ?_⟩
    intro j hj
    cases (hc.names _).mp hj with
    | inl heq => exact (rolloverIndex_inj (k := 1) heq).le
    | inr hmem => exact absurd hmem (h j)

theorem settled_started_iff : Settled copying name c c' (ilmInitialIndex name) ↔ Ready name c := by
  constructor
  · intro h
    have hnumbers := (highest_started_iff hc hnone).mp h.highest
    constructor
    · intro n hn hprefix
      exact absurd hprefix (hnone n hn)
    · intro k hk
      exact absurd hk (hnumbers k)
    · intro n ix ⟨hmem, k, hk, _⟩ _
      exact absurd (hk ▸ hmem) (hnumbers k)
    · intro key d hd
      have hfound := (foundOnce_started hc key d).mp (h.documents key d hd)
      exact (foundOnce_congr (fun n => serves_fresh hnumbers n) (fun _ _ => rfl) key d).mpr hfound
  · intro h
    have hnumbers : ∀ k, rolloverIndex name k ∉ c.names := by
      intro k hk
      obtain ⟨n, hn, hprefix⟩ := h.found k hk
      exact hnone n hn hprefix
    constructor
    · exact (highest_started_iff hc hnone).mpr hnumbers
    · exact mem_writeIndices_started hc
    · exact hc.unblocked
    · intro key d hd
      have hfound := (foundOnce_congr (fun n => serves_fresh hnumbers n) (fun _ _ => rfl) key
        d).mp (h.documents key d hd)
      exact (foundOnce_started hc key d).mpr hfound
    · have hlatest : (sorted (c'.names.filter (ilmPrefix name).isPrefixOf)).getLast? =
          some (ilmInitialIndex name) := by
        rw [getLast?_sorted, existing_eq]
        refine ⟨⟨(hc.names _).mpr (.inl rfl), ilmPrefix_initial name⟩, ?_⟩
        intro n hn
        obtain ⟨hmem, hprefix⟩ := (existing_eq c' n).mp hn
        cases (hc.names n).mp hmem with
        | inl heq => exact heq.le
        | inr hold => exact absurd hprefix (hnone n hold)
      have hhot : hotIndex name ∉ c'.behind name := by
        rw [mem_behind_started hc]
        simp [(initial_ne_hot name).symm]
      exact ensure_again hlatest (mem_writeIndices_started hc) hhot

end Fresh

/-- A successful run leaves one write index, the latest, that accepts writes, and every document
behind the alias once, exactly when it starts from a cluster that is ready for it. -/
theorem ensure_settles_iff {c : Cluster D} {i : Str} {ds : List Delivery}
    {t : Cluster D × List Delivery}
    (h : (ensureCollectionIlm name (hotIndex name)).run (Cluster.faulty copying) (c, ds) =
      (.ok i, t)) : Settled copying name c t.1 i ↔ Ready name c := by
  cases hlatest : (sorted (c.names.filter (ilmPrefix name).isPrefixOf)).getLast? with
  | some latest =>
    obtain ⟨rfl, ht⟩ := run_ensure_existing hlatest h
    rw [ht]
    exact settled_existing_iff hlatest
  | none =>
    have hnone : ∀ n ∈ c.names, ¬ ilmPrefix name <+: n := by
      intro n hn hprefix
      rw [List.getLast?_eq_none_iff] at hlatest
      have hmem := mem_sorted.mpr ((existing_eq c n).mpr ⟨hn, hprefix⟩)
      simp [hlatest] at hmem
    obtain ⟨rfl, hstarted⟩ := run_ensure_fresh hnone h
    exact settled_started_iff hstarted hnone

/-- A collection from before the rollover indices. -/
def legacy : Cluster Unit :=
  ⟨[("hits_hot".toList, { docs := [("a".toList, ())], aliases := [("hits".toList, {})] })], by decide⟩

def legacyAfter : Cluster Unit × List Delivery :=
  ((ensureCollectionIlm "hits".toList "hits_hot".toList).run (Cluster.faulty Copying.all) (legacy, [])).2

theorem ensure_settles_legacy :
    Settled Copying.all "hits".toList legacy legacyAfter.1 "hits-000001".toList ↔
      Ready "hits".toList legacy :=
  @ensure_settles_iff _ _ _ _ _ [] legacyAfter rfl

theorem nodup_noAliases : (Dict.keys ([] : Dict Str AliasData)).Nodup := List.nodup_nil

/-- A collection with a copy that an interrupted reindex left. -/
def leftover : Cluster Unit :=
  ⟨[("hits-000001".toList,
      { docs := [("a".toList, ())], aliases := [("hits".toList, { isWriteIndex := some true })] }),
    ("hits-000001__reindex".toList, { docs := [("a".toList, ())], nodup := nodup_noAliases })],
    by decide⟩

def leftoverAfter : Cluster Unit × List Delivery :=
  ((ensureCollectionIlm "hits".toList "hits_hot".toList).run (Cluster.faulty Copying.all)
    (leftover, [])).2

/-- The copy becomes the write index, and the documents are found in it and in the original. -/
theorem leftover_copy_serves :
    (ensureCollectionIlm "hits".toList "hits_hot".toList).run (Cluster.faulty Copying.all)
        (leftover, []) = (.ok "hits-000001__reindex".toList, leftoverAfter) ∧
      leftoverAfter.1.writeIndices "hits".toList = ["hits-000001__reindex".toList] ∧
      ¬ Settled Copying.all "hits".toList leftover leftoverAfter.1 "hits-000001__reindex".toList := by
  refine ⟨rfl, by decide +kernel, fun h => ?_⟩
  have hdoc : Document "hits".toList leftover "a".toList () :=
    ⟨"hits-000001".toList, .inl (.inr (.inr ⟨1, rfl⟩)), rfl⟩
  obtain ⟨n, -, -, hunique⟩ := h.documents _ _ hdoc
  have horiginal := hunique "hits-000001".toList (by decide +kernel) rfl
  have hcopy := hunique "hits-000001__reindex".toList (by decide +kernel) rfl
  exact absurd (horiginal.trans hcopy.symm) (by decide)

end Howler.Datastore
