import Mathlib.Data.Finset.Dedup
import Mathlib.Data.List.ReduceOption
import Howler.Python.Raising
import Howler.Hits.Model

namespace Howler.Hits

open Python

/-- The statuses that a transition starts from. The key `source` may be absent, or be `None`. -/
inductive Source where
  | absent
  | any
  | one (status : Str)
  | many (statuses : List Str)
  deriving DecidableEq, Repr

/-- The check of the source of a transition that was found, where it is a list. -/
def Source.excludes : Source → Str → Bool
  | many statuses, status => statuses ≠ [] ∧ status ∉ statuses
  | _, _ => false

/-- The test of `get_transitions`: of a text it takes every part. -/
def Source.offers : Source → Str → Except HitError Bool
  | absent, _ => .error .key
  | any, _ => .ok true
  | one s, status => .ok (s = [] ∨ status <:+: s)
  | many statuses, status => .ok (statuses = [] ∨ status ∈ statuses)

/-- A transition of a workflow whose actions take arguments of type `κ`. -/
structure Transition (κ : Type) where
  source : Source := .any
  transition : Str
  dest : Option Str := none
  actions : List (Str → κ → Except HitError (List OdmUpdateOperation))

structure Workflow (κ : Type) where
  statusProp : Field
  transitions : Dict Str (Transition κ)

namespace Workflow

variable {κ : Type}

def validateTransition (t : Transition κ) : Bool :=
  t.source ≠ .one [] ∧ t.transition ≠ [] ∧ t.dest ≠ some []

/-- The keys under which a transition is kept. -/
def keys (t : Transition κ) : List Str :=
  match t.source with
  | .absent | .any | .many [] => [t.transition]
  | .one s => [s ++ t.transition]
  | .many ss => ss.map (· ++ t.transition)

/-- The transitions by their keys. -/
def register (transitions : List (Transition κ)) : Dict Str (Transition κ) :=
  (transitions.flatMap fun t => (keys t).map fun k => (k, t)).foldl (fun d e => d.set e.1 e.2) []

/-- `Workflow.__init__`. -/
def new (statusProp : Field) (transitions : List (Transition κ)) :
    Except HitError (Workflow κ) :=
  if transitions.all validateTransition = false then
    .error (.workflow "One or more transitions provided were invalid.".toList)
  else if ¬ (transitions.flatMap fun t => (keys t).map (· ++ t.dest.getD [])).Nodup then
    .error (.workflow
      "There are duplicate transitions (same source, transition and dest values).".toList)
  else .ok { statusProp := statusProp, transitions := register transitions }

def notAllowed (status transition : Str) : HitError :=
  .workflow ("Current status '".toList ++ status ++ "' does not allow the '".toList ++ transition ++
    "' transition.".toList)

/-- One more update. Two updates of a field have the same value. -/
def addUpdate (transition : Str) (updates : Dict Field OdmUpdateOperation)
    (u : OdmUpdateOperation) : Except HitError (Dict Field OdmUpdateOperation) :=
  match updates.get? u.key with
  | none => .ok (updates.set u.key u)
  | some old =>
    if old.value = u.value then .ok (updates.set u.key u)
    else .error (.workflow ("Transition ".toList ++ transition ++
      " attempted to update the same property ".toList ++ u.key.key ++
      " with                             different values.".toList))

/-- The updates of all the actions. -/
def collectUpdates (transition : Str) (args : κ) :
    List (Str → κ → Except HitError (List OdmUpdateOperation)) →
      Dict Field OdmUpdateOperation → Except HitError (Dict Field OdmUpdateOperation)
  | [], updates => .ok updates
  | action :: actions, updates => do
    let us ← action transition args
    let updates ← us.foldlM (addUpdate transition) updates
    collectUpdates transition args actions updates

/-- The update of the status to a destination. -/
def destUpdate (statusProp : Field) (dest : Str) : OdmUpdateOperation :=
  { operation := .set, key := statusProp, value := some dest }

/-- The destination goes on top of the updates. -/
def setDest (statusProp : Field) (transition : Str) (updates : Dict Field OdmUpdateOperation) :
    Option Str → Except HitError (Dict Field OdmUpdateOperation)
  | none => .ok updates
  | some dest =>
    match updates.get? statusProp with
    | none => .ok (updates.set statusProp (destUpdate statusProp dest))
    | some u =>
      if u.value = some dest then .ok (updates.set statusProp (destUpdate statusProp dest))
      else .error (.workflow ("Transition ".toList ++ transition ++
        " attempted to update the status ".toList ++ statusProp.key ++
        " with                         a different value than the transition destination.".toList))

/-- The transition of a name from a status, or from any. -/
def find (wf : Workflow κ) (currentStatus transition : Str) : Option (Transition κ) :=
  (wf.transitions.get? (currentStatus ++ transition)).or (wf.transitions.get? transition)

/-- `Workflow.transition`. -/
def transition (wf : Workflow κ) (currentStatus transition : Str) (args : κ) :
    Except HitError (List OdmUpdateOperation) :=
  match wf.find currentStatus transition with
  | none => .error (notAllowed currentStatus transition)
  | some t =>
    if t.source.excludes currentStatus then
      .error (notAllowed currentStatus transition)
    else do
      let updates ← collectUpdates t.transition args t.actions []
      let updates ← setDest wf.statusProp transition updates t.dest
      return updates.map (·.2)

/-- `Workflow.get_transitions`. -/
def getTransitions (wf : Workflow κ) (currentStatus : Str) : Except HitError (Finset Str) := do
  let names ← (wf.transitions.map Prod.snd).mapM fun t => do
    let offered ← t.source.offers currentStatus
    return if offered then some t.transition else none
  return names.reduceOption.toFinset

section Spec

variable {κ : Type} {name : Str} {args : κ} {u op : OdmUpdateOperation}
  {updates updates' : Dict Field OdmUpdateOperation}

/-- The updates are kept under their fields. -/
def Keyed (updates : Dict Field OdmUpdateOperation) : Prop :=
  (Dict.keys updates).Nodup ∧ ∀ k u, (k, u) ∈ updates → u.key = k

theorem Keyed.set (h : Keyed updates) (u : OdmUpdateOperation) :
    Keyed (updates.set u.key u) := by
  refine ⟨Dict.nodup_keys_set h.1 _ _, fun k v hv => ?_⟩
  cases Dict.mem_set hv with
  | inl heq =>
    obtain ⟨rfl, rfl⟩ := Prod.mk.inj heq
    rfl
  | inr hv => exact h.2 k v hv

/-- What an update leaves of the updates before: the fields keep their values. -/
structure Extends (updates updates' : Dict Field OdmUpdateOperation)
    (added : List OdmUpdateOperation) : Prop where
  keyed : Keyed updates'
  kept : ∀ k u, updates.get? k = some u → ∃ u', updates'.get? k = some u' ∧ u'.value = u.value
  present : ∀ u ∈ added, ∃ u', updates'.get? u.key = some u' ∧ u'.value = u.value
  source : ∀ k u, (k, u) ∈ updates' → (k, u) ∈ updates ∨ u ∈ added

theorem Extends.refl (h : Keyed updates) : Extends updates updates [] :=
  ⟨h, fun _ u hu => ⟨u, hu, rfl⟩, by simp, fun _ _ hu => .inl hu⟩

theorem Extends.trans {updates'' : Dict Field OdmUpdateOperation}
    {added added' : List OdmUpdateOperation} (h : Extends updates updates' added)
    (h' : Extends updates' updates'' added') : Extends updates updates'' (added ++ added') := by
  refine ⟨h'.keyed, fun k u hu => ?_, fun u hu => ?_, fun k u hu => ?_⟩
  · obtain ⟨u', hu', hv⟩ := h.kept k u hu
    obtain ⟨u'', hu'', hv'⟩ := h'.kept k u' hu'
    exact ⟨u'', hu'', hv'.trans hv⟩
  · cases List.mem_append.mp hu with
    | inl hu =>
      obtain ⟨u', hu', hv⟩ := h.present u hu
      obtain ⟨u'', hu'', hv'⟩ := h'.kept _ u' hu'
      exact ⟨u'', hu'', hv'.trans hv⟩
    | inr hu => exact h'.present u hu
  · cases h'.source k u hu with
    | inl hu => exact (h.source k u hu).imp_right (List.mem_append_left _)
    | inr hu => exact .inr (List.mem_append_right _ hu)

theorem extends_set (h : Keyed updates) (hu : ∀ old, updates.get? u.key = some old →
    old.value = u.value) : Extends updates (updates.set u.key u) [u] := by
  refine ⟨h.set u, fun k v hv => ?_, fun v hv => ?_, fun k v hv => ?_⟩
  · rw [Dict.get?_set]
    by_cases hk : k = u.key
    · subst hk
      exact ⟨u, if_pos rfl, (hu v hv).symm⟩
    · exact ⟨v, by rw [if_neg hk, hv], rfl⟩
  · obtain rfl := List.mem_singleton.mp hv
    exact ⟨v, by rw [Dict.get?_set, if_pos rfl], rfl⟩
  · cases Dict.mem_set hv with
    | inl heq =>
      obtain ⟨rfl, rfl⟩ := Prod.mk.inj heq
      exact .inr (List.mem_singleton.mpr rfl)
    | inr hv => exact .inl hv

theorem extends_addUpdate (h : Keyed updates) (hadd : addUpdate name updates u = .ok updates') :
    Extends updates updates' [u] := by
  rw [addUpdate] at hadd
  cases hold : updates.get? u.key with
  | none =>
    rw [hold] at hadd
    obtain rfl := Except.ok.inj hadd
    exact extends_set h fun old ho => by simp [hold] at ho
  | some old =>
    rw [hold] at hadd
    dsimp only at hadd
    split at hadd
    · next hv =>
      obtain rfl := Except.ok.inj hadd
      refine extends_set h fun old' ho => ?_
      obtain rfl := Option.some.inj (hold.symm.trans ho)
      exact hv
    · contradiction

theorem extends_foldlM {us : List OdmUpdateOperation} (h : Keyed updates)
    (hfold : us.foldlM (addUpdate name) updates = .ok updates') :
    Extends updates updates' us := by
  induction us generalizing updates with
  | nil =>
    obtain rfl := Except.ok.inj hfold
    exact .refl h
  | cons u us ih =>
    rw [List.foldlM_cons] at hfold
    obtain ⟨mid, hmid, hfold⟩ := bind_eq_ok.mp hfold
    have hadd := extends_addUpdate h hmid
    exact hadd.trans (ih hadd.keyed hfold)

theorem extends_collectUpdates
    {actions : List (Str → κ → Except HitError (List OdmUpdateOperation))} (h : Keyed updates)
    (hc : collectUpdates name args actions updates = .ok updates') :
    ∃ added, Extends updates updates' added ∧
      (∀ action ∈ actions, ∃ us, action name args = .ok us ∧ ∀ u ∈ us, u ∈ added) ∧
      ∀ u ∈ added, ∃ action ∈ actions, ∃ us, action name args = .ok us ∧ u ∈ us := by
  induction actions generalizing updates with
  | nil =>
    obtain rfl := Except.ok.inj hc
    exact ⟨[], .refl h, by simp, by simp⟩
  | cons action actions ih =>
    obtain ⟨us, hus, hc⟩ := bind_eq_ok.mp hc
    obtain ⟨mid, hmid, hc⟩ := bind_eq_ok.mp hc
    have hfold := extends_foldlM h hmid
    obtain ⟨added, hext, hdone, hsource⟩ := ih hfold.keyed hc
    refine ⟨us ++ added, hfold.trans hext, fun a ha => ?_, fun u hu => ?_⟩
    · cases List.mem_cons.mp ha with
      | inl ha => exact ⟨us, ha ▸ hus, fun u hu => List.mem_append_left _ hu⟩
      | inr ha =>
        obtain ⟨us', hus', hsub⟩ := hdone a ha
        exact ⟨us', hus', fun u hu => List.mem_append_right _ (hsub u hu)⟩
    · cases List.mem_append.mp hu with
      | inl hu => exact ⟨action, List.mem_cons_self, us, hus, hu⟩
      | inr hu =>
        obtain ⟨a, ha, hrest⟩ := hsource u hu
        exact ⟨a, List.mem_cons_of_mem _ ha, hrest⟩

theorem extends_setDest {statusProp : Field} {dest : Option Str} (h : Keyed updates)
    (hs : setDest statusProp name updates dest = .ok updates') :
    Extends updates updates' (dest.toList.map (destUpdate statusProp)) := by
  cases dest with
  | none =>
    obtain rfl := Except.ok.inj hs
    exact .refl h
  | some dest =>
    rw [setDest] at hs
    cases hold : updates.get? statusProp with
    | none =>
      rw [hold] at hs
      obtain rfl := Except.ok.inj hs
      exact extends_set (u := destUpdate statusProp dest) h fun old ho => by
        have ho : updates.get? statusProp = some old := ho
        simp [hold] at ho
    | some old =>
      rw [hold] at hs
      dsimp only at hs
      split at hs
      · next hv =>
        obtain rfl := Except.ok.inj hs
        refine extends_set (u := destUpdate statusProp dest) h fun old' ho => ?_
        obtain rfl := Option.some.inj (hold.symm.trans ho)
        exact hv
      · contradiction

theorem mem_of_register {ts : List (Transition κ)} {k : Str} {t : Transition κ}
    (h : (register ts).get? k = some t) : t ∈ ts ∧ k ∈ keys t := by
  cases Dict.mem_of_get?_foldl_set h with
  | inr h => simp at h
  | inl h =>
    obtain ⟨t', ht, hkey⟩ := List.mem_flatMap.mp h
    obtain ⟨k', hk', heq⟩ := List.mem_map.mp hkey
    obtain ⟨rfl, rfl⟩ := Prod.mk.inj heq
    exact ⟨ht, hk'⟩

theorem mem_of_find {statusProp : Field} {ts : List (Transition κ)} {status : Str}
    {t : Transition κ} (h : find ⟨statusProp, register ts⟩ status name = some t) :
    t ∈ ts ∧ (status ++ name ∈ keys t ∨ name ∈ keys t) := by
  cases Option.or_eq_some_iff.mp h with
  | inl h => exact (mem_of_register h).imp_right .inl
  | inr h => exact (mem_of_register h.2).imp_right .inr

/-- What the updates of a transition are. -/
structure Generates (statusProp : Field) (t : Transition κ) (args : κ)
    (ups : List OdmUpdateOperation) : Prop where
  distinct : (ups.map (·.key)).Nodup
  done : ∀ action ∈ t.actions, ∃ us, action t.transition args = .ok us ∧
    ∀ u ∈ us, ∃ op ∈ ups, op.key = u.key ∧ op.value = u.value
  source : ∀ op ∈ ups, (∃ action ∈ t.actions, ∃ us, action t.transition args = .ok us ∧ op ∈ us) ∨
    ∃ dest, t.dest = some dest ∧ op = destUpdate statusProp dest
  status : ∀ dest, t.dest = some dest → ∃ op ∈ ups, op.key = statusProp ∧ op.value = some dest

theorem transition_ok {wf : Workflow κ} {status : Str} {ups : List OdmUpdateOperation}
    (h : wf.transition status name args = .ok ups) :
    ∃ t, wf.find status name = some t ∧ Generates wf.statusProp t args ups := by
  rw [transition] at h
  cases hf : wf.find status name with
  | none =>
    rw [hf] at h
    contradiction
  | some t =>
    rw [hf] at h
    dsimp only at h
    split at h
    · contradiction
    · obtain ⟨mid, hmid, h⟩ := bind_eq_ok.mp h
      obtain ⟨last, hlast, h⟩ := bind_eq_ok.mp h
      obtain rfl := Except.ok.inj h
      have hnil : Keyed [] := ⟨List.nodup_nil, by simp⟩
      obtain ⟨added, hext, hdone, hsource⟩ := extends_collectUpdates hnil hmid
      have hdest := extends_setDest hext.keyed hlast
      have hall := hext.trans hdest
      have hmem : ∀ k u, last.get? k = some u → u ∈ last.map (·.2) ∧ u.key = k := fun k u hu =>
        ⟨List.mem_map_of_mem (f := (·.2)) (Dict.mem_of_get? hu),
          hall.keyed.2 k u (Dict.mem_of_get? hu)⟩
      refine ⟨t, rfl, ?_, fun action ha => ?_, fun op hop => ?_, fun dest hd => ?_⟩
      · have hkeys : (last.map (·.2)).map (·.key) = Dict.keys last := by
          rw [List.map_map]
          exact List.map_congr_left fun e he => hall.keyed.2 e.1 e.2 he
        rw [hkeys]
        exact hall.keyed.1
      · obtain ⟨us, hus, hsub⟩ := hdone action ha
        refine ⟨us, hus, fun u hu => ?_⟩
        obtain ⟨u', hu', hv⟩ := hall.present u (List.mem_append_left _ (hsub u hu))
        exact ⟨u', (hmem _ u' hu').1, (hmem _ u' hu').2, hv⟩
      · obtain ⟨⟨k, u⟩, he, rfl⟩ := List.mem_map.mp hop
        cases hall.source k u he with
        | inl he => contradiction
        | inr he =>
          cases List.mem_append.mp he with
          | inl he => exact .inl (hsource u he)
          | inr he =>
            obtain ⟨dest, hd, rfl⟩ := List.mem_map.mp he
            exact .inr ⟨dest, Option.mem_toList.mp hd, rfl⟩
      · obtain ⟨u', hu', hv⟩ := hdest.present (destUpdate wf.statusProp dest) (by simp [hd])
        exact ⟨u', (hmem _ u' hu').1, (hmem _ u' hu').2, hv⟩

end Spec

end Workflow

end Howler.Hits
