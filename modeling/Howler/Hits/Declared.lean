import Howler.Hits.Workflow

namespace Howler.Hits

open Python

namespace Workflow

variable {κ : Type}

/-- The last transition declared under a key. -/
def lastUnder (ts : List (Transition κ)) (k : Str) : Option (Transition κ) :=
  (ts.filter fun t => k ∈ keys t).getLast?

theorem lastUnder_snoc (ts : List (Transition κ)) (t : Transition κ) (k : Str) :
    lastUnder (ts ++ [t]) k = if k ∈ keys t then some t else lastUnder ts k := by
  rw [lastUnder, lastUnder, List.filter_append, List.getLast?_append]
  by_cases hk : k ∈ keys t
  · simp [hk]
  · simp [hk]

theorem get?_foldl_set (d : Dict Str (Transition κ)) (t : Transition κ) (ks : List Str) (k : Str) :
    Dict.get? ((ks.map fun k => (k, t)).foldl (fun d e => d.set e.1 e.2) d) k =
      if k ∈ ks then some t else d.get? k := by
  induction ks generalizing d with
  | nil => simp
  | cons k' ks ih =>
    rw [List.map_cons, List.foldl_cons, ih, Dict.get?_set]
    by_cases hk : k ∈ ks
    · simp [hk]
    · by_cases heq : k = k'
      · simp [heq]
      · simp [hk, heq]

theorem register_snoc (ts : List (Transition κ)) (t : Transition κ) :
    register (ts ++ [t]) =
      ((keys t).map fun k => (k, t)).foldl (fun d e => d.set e.1 e.2) (register ts) := by
  rw [register, List.flatMap_append, List.foldl_append]
  simp [register]

/-- A later transition takes the place of an earlier one with the same key. -/
theorem get?_register (ts : List (Transition κ)) (k : Str) :
    (register ts).get? k = lastUnder ts k := by
  induction ts using List.reverseRecOn with
  | nil => rfl
  | append_singleton ts t ih => rw [register_snoc, get?_foldl_set, lastUnder_snoc, ih]

theorem nodup_keys_register (ts : List (Transition κ)) : (Dict.keys (register ts)).Nodup := by
  rw [register]
  generalize ts.flatMap (fun t => (keys t).map fun k => (k, t)) = es
  have hfold : ∀ d : Dict Str (Transition κ), (Dict.keys d).Nodup →
      (Dict.keys (es.foldl (fun d e => d.set e.1 e.2) d)).Nodup := by
    induction es with
    | nil => exact fun d hd => hd
    | cons e es ih => exact fun d hd => ih _ (Dict.nodup_keys_set hd e.1 e.2)
  exact hfold [] List.nodup_nil

/-- A transition that no later one has taken the place of under all its keys. -/
def Kept (ts : List (Transition κ)) (t : Transition κ) : Prop := ∃ k, lastUnder ts k = some t

theorem mem_register (ts : List (Transition κ)) (t : Transition κ) :
    t ∈ (register ts).map Prod.snd ↔ Kept ts t := by
  constructor
  · intro h
    obtain ⟨⟨k, t'⟩, he, rfl⟩ := List.mem_map.mp h
    exact ⟨k, (get?_register ts k).symm.trans (Dict.get?_of_mem (nodup_keys_register ts) he)⟩
  · intro h
    obtain ⟨k, hk⟩ := h
    exact List.mem_map_of_mem (Dict.mem_of_get? ((get?_register ts k).trans hk))

/-- The transition declared for a status and a name: under both, or else under the name alone. -/
def declared (ts : List (Transition κ)) (status name : Str) : Option (Transition κ) :=
  (lastUnder ts (status ++ name)).or (lastUnder ts name)

theorem find_register (statusProp : Field) (ts : List (Transition κ)) (status name : Str) :
    find ⟨statusProp, register ts⟩ status name = declared ts status name := by
  rw [find, get?_register, get?_register, declared]

/-- The transition whose actions run, if the engine does not refuse. -/
def allowed (wf : Workflow κ) (status name : Str) : Option (Transition κ) :=
  (wf.find status name).filter fun t => !t.source.excludes status

/-- The updates of a transition that is allowed. -/
def perform (statusProp : Field) (name : Str) (t : Transition κ) (args : κ) :
    Except HitError (List OdmUpdateOperation) := do
  let updates ← collectUpdates t.transition args t.actions []
  let updates ← setDest statusProp name updates t.dest
  return updates.map (·.2)

theorem transition_eq (wf : Workflow κ) (status name : Str) (args : κ) :
    wf.transition status name args =
      match wf.allowed status name with
      | none => .error (notAllowed status name)
      | some t => perform wf.statusProp name t args := by
  rw [transition, allowed]
  cases wf.find status name with
  | none => rfl
  | some t =>
    cases hex : t.source.excludes status with
    | true =>
      rw [Option.filter_some, if_neg (by simp [hex])]
      simp [hex]
    | false =>
      rw [Option.filter_some, if_pos (by simp [hex])]
      simp [hex, perform]

end Workflow

/-- A source is the status, contains it, or is absent. -/
def Source.admits : Source → Str → Bool
  | .absent, _ | .any, _ => true
  | .one s, status => s = status
  | .many ss, status => ss = [] ∨ status ∈ ss

namespace Workflow

variable {κ : Type}

/-- The declared transitions of a name whose source admits a status. -/
def candidates (ts : List (Transition κ)) (status name : Str) : List (Transition κ) :=
  ts.filter fun t => t.transition = name ∧ t.source.admits status

/-- What is offered for a status is what is not refused, and what runs is the one transition that
is declared for it. -/
structure Agrees (wf : Workflow κ) (ts : List (Transition κ)) (status name : Str) : Prop where
  offered : ∃ names, wf.getTransitions status = .ok names ∧
    (name ∈ names ↔ wf.allowed status name ≠ none)
  only : ∀ t, wf.allowed status name = some t → candidates ts status name = [t]

/-- A kept transition of a name has a source in which the status occurs, or none. -/
def Listed (ts : List (Transition κ)) (status name : Str) : Prop :=
  ∃ t, Kept ts t ∧ t.transition = name ∧ t.source.offers status = .ok true

/-- The transition that is declared for a status and a name is the only candidate, or it is one from
a list of other statuses and none of the name is listed. -/
structure Consistent (ts : List (Transition κ)) (status name : Str) : Prop where
  sourced : ∀ t, Kept ts t → t.source ≠ .absent
  settled : (∃ t, candidates ts status name = [t] ∧ declared ts status name = some t) ∨
    (∀ t, declared ts status name = some t → t.source.excludes status = true) ∧
      ¬ Listed ts status name

section Spec

variable {statusProp : Field} {ts : List (Transition κ)} {status name : Str}

theorem offers_ne_absent {s : Source} : (∃ b, s.offers status = .ok b) ↔ s ≠ .absent := by
  cases s <;> simp [Source.offers]

/-- An admitted status is not excluded, and it is offered. -/
theorem admits_spec {s : Source} (hs : s.admits status = true) :
    s.excludes status = false ∧ (s ≠ .absent → s.offers status = .ok true) := by
  cases s with
  | absent => simp [Source.excludes]
  | any => simp [Source.excludes, Source.offers]
  | one s =>
    have heq : s = status := by simpa [Source.admits] using hs
    subst heq
    simp [Source.excludes, Source.offers]
  | many ss =>
    have hin : ss = [] ∨ status ∈ ss := by simpa [Source.admits] using hs
    constructor
    · cases hin with
      | inl hnil => simp [Source.excludes, hnil]
      | inr hmem => simp [Source.excludes, hmem]
    · simp [Source.offers, hin]

theorem getTransitions_ok {wf : Workflow κ} {names : Finset Str}
    (h : wf.getTransitions status = .ok names) :
    (∀ t ∈ wf.transitions.map Prod.snd, t.source ≠ .absent) ∧
      (name ∈ names ↔ ∃ t ∈ wf.transitions.map Prod.snd, t.transition = name ∧
        t.source.offers status = .ok true) := by
  obtain ⟨tests, htests, h⟩ := bind_eq_ok.mp h
  obtain rfl := Except.ok.inj h
  constructor
  · intro t ht
    obtain ⟨y, -, hy⟩ := ok_of_mapM_ok htests ht
    obtain ⟨b, hb, -⟩ := bind_eq_ok.mp hy
    exact offers_ne_absent.mp ⟨b, hb⟩
  · rw [List.mem_toFinset, List.reduceOption_mem_iff, mem_of_mapM_ok htests]
    constructor
    · intro hex
      obtain ⟨t, ht, hy⟩ := hex
      obtain ⟨b, hb, hy⟩ := bind_eq_ok.mp hy
      have hif : (if b then some t.transition else none) = some name := Except.ok.inj hy
      cases b with
      | false => simp at hif
      | true => exact ⟨t, ht, by simpa using hif, hb⟩
    · intro hex
      obtain ⟨t, ht, rfl, hoff⟩ := hex
      exact ⟨t, ht, by rw [hoff]; rfl⟩

theorem exists_getTransitions {wf : Workflow κ}
    (h : ∀ t ∈ wf.transitions.map Prod.snd, t.source ≠ .absent) :
    ∃ names, wf.getTransitions status = .ok names := by
  have htests := exists_mapM_ok (f := fun t : Transition κ => do
      let offered ← t.source.offers status
      return if offered then some t.transition else none) fun t ht => by
    obtain ⟨b, hb⟩ := offers_ne_absent.mpr (h t ht)
    exact ⟨_, by rw [hb]; rfl⟩
  obtain ⟨tests, htests⟩ := htests
  exact ⟨_, by rw [getTransitions, htests]; rfl⟩

theorem new_ok {wf : Workflow κ} (h : Workflow.new statusProp ts = .ok wf) :
    wf = ⟨statusProp, register ts⟩ := by
  rw [Workflow.new] at h
  split at h
  · contradiction
  · split at h
    · contradiction
    · exact (Except.ok.inj h).symm

theorem allowed_register (t : Transition κ) :
    allowed ⟨statusProp, register ts⟩ status name = some t ↔
      declared ts status name = some t ∧ t.source.excludes status = false := by
  rw [allowed, find_register, Option.filter_eq_some_iff]
  simp

theorem kept_of_declared {t : Transition κ} (h : declared ts status name = some t) : Kept ts t := by
  cases Option.or_eq_some_iff.mp h with
  | inl h => exact ⟨_, h⟩
  | inr h => exact ⟨_, h.2⟩

/-- What is offered agrees with what is allowed exactly where the declarations are consistent. -/
theorem transitions_agree_iff {wf : Workflow κ} (h : Workflow.new statusProp ts = .ok wf)
    (status name : Str) :
    (∀ args, wf.transition status name args =
      match wf.allowed status name with
      | none => .error (notAllowed status name)
      | some t => perform statusProp name t args) ∧
    (Agrees wf ts status name ↔ Consistent ts status name) := by
  obtain rfl := new_ok h
  refine ⟨fun args => transition_eq _ status name args, ?_⟩
  constructor
  · intro hagrees
    obtain ⟨names, hnames, hoffered⟩ := hagrees.offered
    obtain ⟨hsourced, hmem⟩ := @getTransitions_ok _ _ name _ _ hnames
    refine ⟨fun t ht => hsourced t ((mem_register ts t).mpr ht), ?_⟩
    cases hallowed : allowed ⟨statusProp, register ts⟩ status name with
    | some t => exact .inl ⟨t, hagrees.only t hallowed, ((allowed_register t).mp hallowed).1⟩
    | none =>
      refine .inr ⟨fun t ht => ?_, fun hlisted => ?_⟩
      · by_contra hno
        have hsome : allowed ⟨statusProp, register ts⟩ status name = some t :=
          (allowed_register t).mpr ⟨ht, by simpa using hno⟩
        rw [hallowed] at hsome
        contradiction
      · obtain ⟨t, hkept, hname, hoff⟩ := hlisted
        exact hoffered.mp (hmem.mpr ⟨t, (mem_register ts t).mpr hkept, hname, hoff⟩) hallowed
  · intro hcons
    have hsourced : ∀ t ∈ (register ts).map Prod.snd, t.source ≠ .absent :=
      fun t ht => hcons.sourced t ((mem_register ts t).mp ht)
    obtain ⟨names, hnames⟩ : ∃ names, getTransitions ⟨statusProp, register ts⟩ status = .ok names :=
      exists_getTransitions hsourced
    have hmem := (@getTransitions_ok _ _ name _ _ hnames).2
    cases hcons.settled with
    | inl hone =>
      obtain ⟨t, hcand, hdecl⟩ := hone
      have ht : t ∈ candidates ts status name := by simp [hcand]
      obtain ⟨hname, hadmits⟩ : t.transition = name ∧ t.source.admits status = true := by
        simpa using (List.mem_filter.mp ht).2
      obtain ⟨hex, hoff⟩ := admits_spec hadmits
      have hkept := kept_of_declared hdecl
      have hallowed : allowed ⟨statusProp, register ts⟩ status name = some t :=
        (allowed_register t).mpr ⟨hdecl, hex⟩
      have hlisted : name ∈ names :=
        hmem.mpr ⟨t, (mem_register ts t).mpr hkept, hname, hoff (hcons.sourced t hkept)⟩
      refine ⟨⟨names, hnames, by simp [hlisted, hallowed]⟩, fun t' ht' => ?_⟩
      rw [← Option.some.inj (hallowed.symm.trans ht')]
      exact hcand
    | inr hnone =>
      have hallowed : allowed ⟨statusProp, register ts⟩ status name = none := by
        cases hsome : allowed ⟨statusProp, register ts⟩ status name with
        | none => rfl
        | some t =>
          obtain ⟨hdecl, hex⟩ := (allowed_register t).mp hsome
          have hin := hnone.1 t hdecl
          rw [hex] at hin
          contradiction
      have hlisted : name ∉ names := by
        intro hin
        obtain ⟨t, ht, hname, hoff⟩ := hmem.mp hin
        exact hnone.2 ⟨t, (mem_register ts t).mp ht, hname, hoff⟩
      refine ⟨⟨names, hnames, by simp [hlisted, hallowed]⟩, fun t ht => ?_⟩
      rw [hallowed] at ht
      contradiction

end Spec

/-- A transition that is offered for every part of the status that it starts from. -/
def closing : Transition Unit :=
  { source := .one "reopened".toList, transition := "close".toList, actions := [] }

def reopened : List (Transition Unit) := [closing]

theorem transitions_agree_reopened :
    Agrees ⟨.status, register reopened⟩ reopened "reopened".toList "close".toList ↔
      Consistent reopened "reopened".toList "close".toList :=
  (@transitions_agree_iff _ .status reopened _ rfl "reopened".toList "close".toList).2

/-- The transition is offered for the status `open`, and refused for it. -/
theorem reopened_offered_and_refused :
    Workflow.new .status reopened = .ok ⟨.status, register reopened⟩ ∧
      ¬ Agrees ⟨.status, register reopened⟩ reopened "open".toList "close".toList := by
  refine ⟨rfl, fun hagrees => ?_⟩
  obtain ⟨names, hnames, hoffered⟩ := hagrees.offered
  have hoff : Source.offers (.one "reopened".toList) "open".toList = .ok true := by
    rw [Source.offers]
    exact congrArg Except.ok (by decide)
  have hmem : closing ∈ (register reopened).map Prod.snd := List.mem_singleton.mpr rfl
  have hin : "close".toList ∈ names := (getTransitions_ok hnames).2.mpr ⟨closing, hmem, rfl, hoff⟩
  exact hoffered.mp hin rfl

end Workflow

end Howler.Hits
