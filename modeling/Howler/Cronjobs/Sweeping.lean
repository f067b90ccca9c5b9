import Mathlib
import Howler.Cronjobs.Retention

namespace Howler.Cronjobs

open Python Systems Systems.Prog Ingestion

section Sweeping

variable {H : Type} {around : Surroundings H} {s t u : Store H} {qs qs' : List Str}

/-- A query finds a hit. -/
def Surroundings.matches (around : Surroundings H) (query : Str) (h : H) : Bool :=
  match around.finds query with
  | .ok matched => matched h
  | .error _ => false

/-- The hits that none of some queries finds are left, and the analytics are as they were. -/
structure Swept (around : Surroundings H) (s : Store H) (qs : List Str) (t : Store H) : Prop where
  hits : t.hits = s.hits.filter fun h => !qs.any fun query => around.matches query h
  analytics : t.analytics = s.analytics

theorem Swept.refl (s : Store H) : Swept around s [] s := by
  refine ⟨?_, rfl⟩
  simp

theorem Swept.trans (h : Swept around s qs t) (h' : Swept around t qs' u) :
    Swept around s (qs ++ qs') u := by
  refine ⟨?_, h'.analytics.trans h.analytics⟩
  rw [h'.hits, h.hits, List.filter_filter]
  refine List.filter_congr fun x _ => ?_
  rw [List.any_append, Bool.not_or, Bool.and_comm]

theorem swept_delete {query : Str} {a : Bool}
    (h : server around (.deleteHits query) s = .ok (a, t)) : Swept around s [query] t := by
  rw [server] at h
  cases hfinds : around.finds query with
  | error e =>
    rw [hfinds] at h
    cases h
  | ok matched =>
    rw [hfinds] at h
    cases h
    refine ⟨List.filter_congr fun x _ => ?_, rfl⟩
    simp [Surroundings.matches, hfinds]

end Sweeping

section Parts

variable {H : Type} {around : Surroundings H} {lost : RetentionError} {s : Store H} {α β : Type}
  {rule : RetentionRule} {rules : List RetentionRule}

/-- How a part of the job ends from a store, whatever requests fail. -/
def Yields (around : Surroundings H) (lost : RetentionError) (p : Job α) (s : Store H)
    (Q : α → Store H → Prop) (E : RetentionError → Store H → Prop) : Prop :=
  ∀ deliveries, p.Keeps ((server around).behind lost) (Harmless (server around) fun _ _ _ => False)
    (fun _ => True) (fun a t => Q a t.1) (fun e t => E e t.1) (s, deliveries)

theorem Yields.bind {p : Job α} {f : α → Job β} {M : α → Store H → Prop} {Q : β → Store H → Prop}
    {E : RetentionError → Store H → Prop} (hp : Yields around lost p s M E)
    (hf : ∀ a t, M a t → Yields around lost (f a) t Q E) : Yields around lost (p >>= f) s Q E :=
  fun deliveries => (hp deliveries).bind fun a t _ hM => hf a t.1 hM t.2

theorem Yields.mono {p : Job α} {Q Q' : α → Store H → Prop} {E E' : RetentionError → Store H → Prop}
    (hp : Yields around lost p s Q E) (hQ : ∀ a t, Q a t → Q' a t) (hE : ∀ e t, E e t → E' e t) :
    Yields around lost p s Q' E' :=
  fun deliveries => (hp deliveries).mono (fun _ h => h) (fun a t h => hQ a t.1 h)
    fun e t h => hE e t.1 h

theorem yields_pure {a : α} {Q : α → Store H → Prop} {E : RetentionError → Store H → Prop}
    (h : Q a s) : Yields around lost (pure a) s Q E := fun _ => keeps_pure trivial h

theorem yields_bind_ok {x : Except RetentionError α} {a : α} {f : α → Job β}
    {Q : β → Store H → Prop} {E : RetentionError → Store H → Prop} (hx : x = .ok a)
    (hf : Yields around lost (f a) s Q E) : Yields around lost (fromExcept x >>= f) s Q E := by
  subst hx
  exact hf

theorem yields_bind_error {x : Except RetentionError α} {e : RetentionError} {f : α → Job β}
    {Q : β → Store H → Prop} {E : RetentionError → Store H → Prop} (hx : x = .error e) (h : E e s) :
    Yields around lost (fromExcept x >>= f) s Q E := by
  subst hx
  exact fun _ => keeps_throw trivial h

/-- A request has its effect or none, and it may raise either way. -/
theorem yields_request {c : Command} {Q : c.Answer → Store H → Prop}
    {E : RetentionError → Store H → Prop}
    (hok : ∀ a t, server around c s = .ok (a, t) → Q a t) (hbefore : ∀ e, E e s)
    (hafter : ∀ a t, server around c s = .ok (a, t) → E lost t) :
    Yields around lost (ask c) s Q E := by
  intro deliveries
  exact keeps_request (S := server around) (c := c) (R := fun _ => True) (Q := Q) (E := E) trivial
    (fun a t h => ⟨trivial, hok a t h⟩) (fun e _ _ => hbefore e) fun a t h _ => hafter a t h

/-- A question that is answered. -/
theorem yields_answer {c : Command} {r : c.Answer} (hserve : server around c s = .ok (r, s)) :
    Yields around lost (ask c) s (fun a t => t = s ∧ a = r) fun _ t => t = s := by
  have hsame {a : c.Answer} {t : Store H} (h : server around c s = .ok (a, t)) : t = s ∧ a = r := by
    rw [hserve] at h
    cases h
    exact ⟨rfl, rfl⟩
  exact yields_request (fun _ _ h => hsame h) (fun _ => rfl) fun _ _ h => (hsame h).1

theorem yields_commit : Yields around lost (ask .commitHits) s (fun _ t => t = s)
    fun _ t => t = s :=
  (yields_answer (c := .commitHits) (r := ()) rfl).mono (fun _ _ h => h.1) fun _ _ h => h

theorem yields_count (query : Str) : Yields around lost (ask (.countHits query)) s
    (fun _ t => t = s) fun _ t => t = s := by
  have hsame {a : ℕ} {t : Store H} (h : server around (.countHits query) s = .ok (a, t)) : t = s := by
    rw [server] at h
    cases hfinds : around.finds query with
    | error e =>
      rw [hfinds] at h
      cases h
    | ok matched =>
      rw [hfinds] at h
      cases h
      rfl
  exact yields_request (fun _ _ h => hsame h) (fun _ => rfl) fun _ _ h => hsame h

/-- What may have happened to the hits that a query finds. -/
def MaySweep (around : Surroundings H) (s : Store H) (query : Str) (t : Store H) : Prop :=
  Swept around s [] t ∨ Swept around s [query] t

theorem yields_delete (query : Str) : Yields around lost (ask (.deleteHits query)) s
    (fun _ t => Swept around s [query] t) fun _ t => MaySweep around s query t :=
  yields_request (fun _ _ h => swept_delete h) (fun _ => .inl (.refl s))
    fun _ _ h => .inr (swept_delete h)

theorem yields_deleteFor (cutoff : Str) : Yields around lost (deleteFor rule cutoff) s
    (fun r t => (∃ n, r = ⟨rule.name, .ok n cutoff⟩) ∧ Swept around s [combinedQuery rule cutoff] t)
    fun _ t => MaySweep around s (combinedQuery rule cutoff) t := by
  refine Yields.bind ((yields_count _).mono (fun _ _ h => h) fun _ t ht => ?_) fun n t ht => ?_
  · subst ht
    exact .inl (.refl _)
  subst ht
  refine Yields.bind (yields_delete _) fun _ t ht => ?_
  refine Yields.bind (yields_commit.mono (fun _ _ h => h) fun _ u hu => ?_) fun _ u hu => ?_
  · subst hu
    exact .inr ht
  · subst hu
    exact yields_pure ⟨⟨n, rfl⟩, ht⟩

end Parts

section Rules

variable {H : Type} {around : Surroundings H} {lost : RetentionError} {s : Store H}
  {rule : RetentionRule} {rules : List RetentionRule}

/-- What is logged of a rule, with the queries whose hits it deleted: a rule whose deletion or whose
commit fails may have deleted its hits all the same. -/
inductive Outcome (around : Surroundings H) (rule : RetentionRule) :
    RuleResult → List Str → Prop where
  | skipped (hdisabled : rule.enabled = false) : Outcome around rule ⟨rule.name, .skipped⟩ []
  | ok {cutoff : Str} (n : ℕ) (henabled : rule.enabled = true)
      (hcutoff : around.cutoffOf rule = .ok cutoff) :
      Outcome around rule ⟨rule.name, .ok n cutoff⟩ [combinedQuery rule cutoff]
  | error {cutoff : Str} {qs : List Str} (henabled : rule.enabled = true)
      (hcutoff : around.cutoffOf rule = .ok cutoff) (hqs : qs.Sublist [combinedQuery rule cutoff]) :
      Outcome around rule ⟨rule.name, .error (combinedQuery rule cutoff)⟩ qs

/-- What is logged of rules, each in its turn. -/
inductive Outcomes (around : Surroundings H) :
    List RetentionRule → List RuleResult → List Str → Prop where
  | nil : Outcomes around [] [] []
  | cons {rule : RetentionRule} {rules : List RetentionRule} {result : RuleResult}
      {results : List RuleResult} {qs qs' : List Str} (h : Outcome around rule result qs)
      (hrest : Outcomes around rules results qs') :
      Outcomes around (rule :: rules) (result :: results) (qs ++ qs')

/-- The rules before one whose date is out of range. -/
def OutOfRange (around : Surroundings H) (rules : List RetentionRule) (e : RetentionError)
    (qs : List Str) : Prop :=
  ∃ before rule after results, rules = before ++ rule :: after ∧ rule.enabled = true ∧
    around.cutoffOf rule = .error e ∧ Outcomes around before results qs

theorem yields_executeRule : Yields around lost (executeRule around rule) s
    (fun r t => ∃ qs, Outcome around rule r qs ∧ Swept around s qs t)
    fun e t => t = s ∧ rule.enabled = true ∧ around.cutoffOf rule = .error e := by
  unfold executeRule
  cases henabled : rule.enabled with
  | false => exact yields_pure ⟨[], .skipped henabled, .refl s⟩
  | true =>
    rw [Bool.not_true, if_neg Bool.false_ne_true]
    cases hcutoff : around.cutoffOf rule with
    | error e => exact yields_bind_error rfl ⟨rfl, rfl, rfl⟩
    | ok cutoff =>
      refine yields_bind_ok rfl fun deliveries => ?_
      have hdelete : Yields around lost (deleteFor rule cutoff) s
          (fun r t => ∃ qs, Outcome around rule r qs ∧ Swept around s qs t)
          fun _ t => MaySweep around s (combinedQuery rule cutoff) t := by
        refine (yields_deleteFor cutoff).mono (fun r t ht => ?_) fun _ _ h => h
        obtain ⟨⟨n, rfl⟩, hswept⟩ := ht
        exact ⟨_, .ok n henabled hcutoff, hswept⟩
      refine (hdelete deliveries).catch fun e t _ ht => ?_
      refine keeps_pure trivial ?_
      cases ht with
      | inl hswept => exact ⟨[], .error henabled hcutoff (List.nil_sublist _), hswept⟩
      | inr hswept => exact ⟨_, .error henabled hcutoff (List.Sublist.refl _), hswept⟩

theorem yields_executeRules : Yields around lost (executeRules around rules) s
    (fun results t => ∃ qs, Outcomes around rules results qs ∧ Swept around s qs t)
    fun e t => ∃ qs, OutOfRange around rules e qs ∧ Swept around s qs t := by
  induction rules generalizing s with
  | nil => exact yields_pure ⟨[], .nil, .refl s⟩
  | cons rule rules ih =>
    refine Yields.bind (yields_executeRule.mono (fun _ _ h => h) fun e t ht => ?_) fun r t ht => ?_
    · obtain ⟨rfl, henabled, hcutoff⟩ := ht
      exact ⟨[], ⟨[], rule, rules, [], rfl, henabled, hcutoff, .nil⟩, .refl t⟩
    obtain ⟨qs, houtcome, hswept⟩ := ht
    refine Yields.bind (ih.mono (fun _ _ h => h) fun e u hu => ?_) fun results u hu => ?_
    · obtain ⟨qs', ⟨before, rule', after, results, rfl, henabled, hcutoff, hbefore⟩, hswept'⟩ := hu
      exact ⟨qs ++ qs', ⟨rule :: before, rule', after, r :: results, rfl, henabled, hcutoff,
        .cons houtcome hbefore⟩, hswept.trans hswept'⟩
    · obtain ⟨qs', houtcomes, hswept'⟩ := hu
      exact yields_pure ⟨qs ++ qs', .cons houtcome houtcomes, hswept.trans hswept'⟩

end Rules

section Analytics

variable {H : Type} {around : Surroundings H} {lost : RetentionError} {s : Store H}

/-- The analytics that are left. -/
def cleaned (around : Surroundings H) (s : Store H) : List Analytic :=
  if around.aggregates then s.analytics.filter fun a =>
    !around.unmatched (around.matchedNames s.hits s.analytics.length) a
  else s.analytics

/-- The hits are as they were, and the analytics are cleaned if the job gets so far. -/
def MayClean (around : Surroundings H) (s t : Store H) : Prop :=
  t.hits = s.hits ∧ (t.analytics = s.analytics ∨ t.analytics = cleaned around s)

theorem yields_findAnalyticsWithHits : Yields around lost findAnalyticsWithHits s
    (fun r t => t = s ∧ r = if s.analytics.length ≠ 0 ∧ around.aggregates = false then none
      else some (around.matchedNames s.hits s.analytics.length))
    fun _ t => t = s := by
  refine Yields.bind (yields_answer (c := .countAnalytics) (r := s.analytics.length) rfl)
    fun n t ht => ?_
  rw [ht.1, ht.2]
  by_cases hzero : s.analytics.length ≠ 0
  · rw [if_pos hzero]
    refine (yields_answer (c := .matchedAnalytics s.analytics.length) rfl).mono (fun r t ht => ?_)
      fun _ _ h => h
    refine ⟨ht.1, ht.2.trans ?_⟩
    cases around.aggregates <;> simp [hzero]
  · rw [if_neg hzero]
    refine yields_pure ⟨rfl, ?_⟩
    simp only [ne_eq, not_not] at hzero
    simp [hzero, Surroundings.matchedNames]

theorem yields_removeAnalytics : Yields around lost removeAnalyticsWithoutHits s
    (fun _ t => t.hits = s.hits ∧ t.analytics = cleaned around s) fun _ t => MayClean around s t := by
  refine Yields.bind (yields_findAnalyticsWithHits.mono (fun _ _ h => h) fun _ t ht => ?_)
    fun r t ht => ?_
  · rw [ht]
    exact ⟨rfl, .inl rfl⟩
  obtain ⟨rfl, rfl⟩ := ht
  by_cases hnone : t.analytics.length ≠ 0 ∧ around.aggregates = false
  · rw [if_pos hnone]
    refine yields_pure ⟨rfl, ?_⟩
    rw [cleaned, hnone.2, if_neg Bool.false_ne_true]
  rw [if_neg hnone]
  have hcleaned : cleaned around t = t.analytics.filter fun a =>
      !around.unmatched (around.matchedNames t.hits t.analytics.length) a := by
    unfold cleaned
    cases haggregates : around.aggregates with
    | true => rw [if_pos rfl]
    | false =>
      have hempty : t.analytics = [] := by
        by_contra hne
        exact hnone ⟨fun h => hne (List.length_eq_zero_iff.mp h), haggregates⟩
      simp [hempty]
  have hdelete {a : Bool} {u : Store H} (h : server around
      (.deleteAnalytics (around.matchedNames t.hits t.analytics.length)) t = .ok (a, u)) : u.hits = t.hits ∧ u.analytics = cleaned around t := by
    cases h
    exact ⟨rfl, hcleaned.symm⟩
  refine Yields.bind (M := fun _ u => u.hits = t.hits ∧ u.analytics = cleaned around t)
    (yields_request (fun _ _ h => hdelete h) (fun _ => ⟨rfl, .inl rfl⟩)
      fun _ _ h => ⟨(hdelete h).1, .inr (hdelete h).2⟩) fun _ u hu => ?_
  refine (yields_answer (c := .commitAnalytics) (r := ()) rfl).mono (fun _ v hv => ?_)
    fun _ v hv => ?_
  · rw [hv.1]
    exact hu
  · rw [hv]
    exact ⟨hu.1, .inr hu.2⟩

end Analytics

section Execute

variable {H : Type} {around : Surroundings H} {lost : RetentionError} {s : Store H}
  {rules : List RetentionRule}

/-- How far the job gets that raises. -/
inductive Stopped (around : Surroundings H) (rules : List RetentionRule) (e : RetentionError) :
    List Str → Prop where
  | atCutoff (hcutoff : around.cutoff = .error e) : Stopped around rules e []
  | atSweep {cutoff : Str} {qs : List Str} (hcutoff : around.cutoff = .ok cutoff)
      (hqs : qs.Sublist [sweepQuery cutoff]) : Stopped around rules e qs
  | atRule {cutoff : Str} {qs : List Str} (hcutoff : around.cutoff = .ok cutoff)
      (hrule : OutOfRange around rules e qs) : Stopped around rules e (sweepQuery cutoff :: qs)
  | atAnalytics {cutoff : Str} {results : List RuleResult} {qs : List Str}
      (hcutoff : around.cutoff = .ok cutoff) (hrules : Outcomes around rules results qs) :
      Stopped around rules e (sweepQuery cutoff :: qs)

/-- The job has run to its end. -/
def Finished (around : Surroundings H) (rules : List RetentionRule) (results : List RuleResult)
    (qs : List Str) : Prop :=
  ∃ cutoff qs', around.cutoff = .ok cutoff ∧ qs = sweepQuery cutoff :: qs' ∧
    Outcomes around rules results qs'

/-- The hits that none of some queries finds are left. -/
def HitsLeft (around : Surroundings H) (s : Store H) (qs : List Str) (t : Store H) : Prop :=
  t.hits = s.hits.filter fun h => !qs.any fun query => around.matches query h

theorem yields_sweep : Yields around lost (sweep around) s
    (fun _ t => ∃ cutoff, around.cutoff = .ok cutoff ∧ Swept around s [sweepQuery cutoff] t)
    fun e t => ∃ qs, Stopped around rules e qs ∧ Swept around s qs t := by
  unfold sweep
  cases hcutoff : around.cutoff with
  | error e => exact yields_bind_error rfl ⟨[], .atCutoff hcutoff, .refl s⟩
  | ok cutoff =>
    refine yields_bind_ok rfl ?_
    refine Yields.bind ((yields_delete (sweepQuery cutoff)).mono (fun _ _ h => h) fun e t ht => ?_)
      fun _ t ht => ?_
    · cases ht with
      | inl hswept => exact ⟨[], .atSweep hcutoff (List.nil_sublist _), hswept⟩
      | inr hswept => exact ⟨_, .atSweep hcutoff (List.Sublist.refl _), hswept⟩
    · refine yields_commit.mono (fun _ u hu => ?_) fun _ u hu => ?_
      · subst hu
        exact ⟨cutoff, rfl, ht⟩
      · subst hu
        exact ⟨_, .atSweep hcutoff (List.Sublist.refl _), ht⟩

theorem yields_execute : Yields around lost (execute around rules) s
    (fun results t => t.analytics = cleaned around ⟨t.hits, s.analytics⟩ ∧
      ∃ qs, Finished around rules results qs ∧ HitsLeft around s qs t)
    fun e t => ∃ qs, Stopped around rules e qs ∧ HitsLeft around s qs t := by
  refine Yields.bind ((@yields_sweep H around lost s rules).mono (fun _ _ h => h) fun e t ht => ?_)
    fun _ t ht => ?_
  · obtain ⟨qs, hstopped, hswept⟩ := ht
    exact ⟨qs, hstopped, hswept.hits⟩
  obtain ⟨cutoff, hcutoff, hswept⟩ := ht
  refine Yields.bind (yields_executeRules.mono (fun _ _ h => h) fun e u hu => ?_) fun results u hu => ?_
  · obtain ⟨qs, hrule, hswept'⟩ := hu
    exact ⟨_, .atRule hcutoff hrule, (hswept.trans hswept').hits⟩
  obtain ⟨qs, houtcomes, hswept'⟩ := hu
  have hall := hswept.trans hswept'
  refine Yields.bind (yields_removeAnalytics.mono (fun _ _ h => h) fun e v hv => ?_) fun _ v hv => ?_
  · exact ⟨_, .atAnalytics hcutoff houtcomes, hv.1.trans hall.hits⟩
  · refine yields_pure ⟨?_, _, ⟨cutoff, qs, hcutoff, rfl, houtcomes⟩, hv.1.trans hall.hits⟩
    rw [hv.2, hv.1, ← hall.analytics]

end Execute

section Main

variable {H : Type} {around : Surroundings H} {lost : RetentionError} {s : Store H}
  {rules : List RetentionRule}

/-- Whatever requests fail, the hits that are left are those that no query of what has been done
finds. A rule whose requests fail keeps no other rule from its turn; only a date that is out of
range does. -/
theorem execute_sweeps (around : Surroundings H) (lost : RetentionError)
    (rules : List RetentionRule) (s : Store H) (deliveries : List Delivery) :
    let result := (execute around rules).run ((server around).behind lost) (s, deliveries)
    (∀ results, result.1 = .ok results →
      ∃ qs, Finished around rules results qs ∧ HitsLeft around s qs result.2.1) ∧
    ∀ e, result.1 = .error e →
      ∃ qs, Stopped around rules e qs ∧ HitsLeft around s qs result.2.1 := by
  have hrun := (@yields_execute H around lost s rules deliveries).run fun _ _ _ _ h => h
  exact ⟨fun results h => (hrun.1 results _ (Prod.ext h rfl)).2,
    fun e h => hrun.2 e _ (Prod.ext h rfl)⟩

/-- The names that are asked for are in lower case as they are. -/
theorem map_lower_matchedNames (around : Surroundings H) (hits : List H) (size : ℕ) :
    (around.matchedNames hits size).map around.lower = around.matchedNames hits size := by
  refine (List.map_congr_left fun name hname => ?_).trans (List.map_id _)
  have hmem := (perm_buckets _).mem_iff.mp (List.mem_of_mem_take hname)
  obtain ⟨h, -, rfl⟩ := List.mem_map.mp (List.mem_dedup.mp hmem)
  exact around.lower_lower _

theorem mem_cleaned (haggregates : around.aggregates = true) (a : Analytic) :
    a ∈ cleaned around s ↔ a ∈ s.analytics ∧ (a.unruled = false ∨
      around.lower a.name ∈ around.matchedNames s.hits s.analytics.length) := by
  rw [cleaned, if_pos haggregates, List.mem_filter, Surroundings.unmatched, map_lower_matchedNames]
  cases a.unruled <;> simp

/-- Where the hits name only analytics that are stored, all their names are asked for. -/
theorem mem_matchedNames
    (hstored : ∀ h ∈ s.hits, ∃ a ∈ s.analytics, around.lower a.name = around.lower (around.analytic h))
    (name : Str) : name ∈ around.matchedNames s.hits s.analytics.length ↔
      ∃ h ∈ s.hits, around.lower (around.analytic h) = name := by
  have hperm := perm_buckets (s.hits.map fun h => around.lower (around.analytic h))
  have hsubset : (s.hits.map fun h => around.lower (around.analytic h)).dedup ⊆
      s.analytics.map fun a => around.lower a.name := by
    intro x hx
    obtain ⟨h, hh, rfl⟩ := List.mem_map.mp (List.mem_dedup.mp hx)
    obtain ⟨a, ha, hname⟩ := hstored h hh
    exact hname ▸ List.mem_map_of_mem ha
  have hlength : (buckets (s.hits.map fun h => around.lower (around.analytic h))).length ≤
      s.analytics.length := by
    have hle := (List.subperm_of_subset (List.nodup_dedup _) hsubset).length_le
    rwa [← hperm.length_eq, List.length_map] at hle
  rw [Surroundings.matchedNames, List.take_of_length_le hlength, hperm.mem_iff, List.mem_dedup,
    List.mem_map]

/-- The analytics that are left have a rule, or their names are among those asked for: these are as
many of the most frequent names of hits as there are analytics, and so all of them where the hits
name only analytics that are stored. Names that differ in case are one name. -/
theorem analytics_kept {deliveries : List Delivery} {results : List RuleResult}
    {t : Store H × List Delivery} (haggregates : around.aggregates = true)
    (hrun : (execute around rules).run ((server around).behind lost) (s, deliveries) =
      (.ok results, t)) :
    (∀ a, a ∈ t.1.analytics ↔ a ∈ s.analytics ∧ (a.unruled = false ∨
      around.lower a.name ∈ around.matchedNames t.1.hits s.analytics.length)) ∧
    ((∀ h ∈ t.1.hits, ∃ a ∈ s.analytics, around.lower a.name = around.lower (around.analytic h)) →
      ∀ a, a ∈ t.1.analytics ↔ a ∈ s.analytics ∧ (a.unruled = false ∨
        ∃ h ∈ t.1.hits, around.lower (around.analytic h) = around.lower a.name)) := by
  have hyields := (@yields_execute H around lost s rules deliveries).run fun _ _ _ _ h => h
  have hanalytics := (hyields.1 results t hrun).1
  have hkept (a : Analytic) : a ∈ t.1.analytics ↔ a ∈ s.analytics ∧ (a.unruled = false ∨
      around.lower a.name ∈ around.matchedNames t.1.hits s.analytics.length) := by
    rw [hanalytics]
    exact mem_cleaned (s := ⟨t.1.hits, s.analytics⟩) haggregates a
  refine ⟨hkept, fun hstored a => ?_⟩
  rw [hkept a, mem_matchedNames (s := ⟨t.1.hits, s.analytics⟩) hstored (around.lower a.name)]

/-- Hits that are the names of their analytics, of which the old ones are found. -/
def namedHits : Surroundings Str where
  cutoff := .ok "2024-01-01".toList
  cutoffOf _ := .error .overflowError
  finds _ := .ok fun h => h == "old".toList
  analytic h := h
  lower name := name.map Char.toLower
  lower_lower name := by simp

def threeAnalytics : Store Str :=
  ⟨["old".toList, "new".toList, "NEW".toList], [⟨['1'], "old".toList, none, none⟩,
    ⟨['2'], "New".toList, none, none⟩, ⟨['3'], "ruled".toList, some ['r'], none⟩]⟩

theorem analytics_kept_threeAnalytics : ∃ results t,
    (execute namedHits []).run ((server namedHits).behind (.elastic [])) (threeAnalytics, []) =
      (.ok results, t) ∧ t.1.analytics.map (·.analyticId) = [['2'], ['3']] ∧
      ∀ a, a ∈ t.1.analytics ↔ a ∈ threeAnalytics.analytics ∧
        (a.unruled = false ∨ namedHits.lower a.name ∈ namedHits.matchedNames t.1.hits 3) :=
  ⟨_, _, rfl, by rfl,
    (@analytics_kept _ namedHits (.elastic []) threeAnalytics [] [] _ _ rfl rfl).1⟩

end Main

end Howler.Cronjobs
