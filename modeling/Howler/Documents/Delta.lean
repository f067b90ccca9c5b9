import Howler.Python.Dict
import Howler.Python.Raising
import Howler.Python.Text

namespace Howler.Documents

open Python

/-- A document of nested maps, with scalars of a type. -/
inductive Doc (S : Type) where
  | null
  | scalar (s : S)
  | obj (fields : List (Str × Doc S))

/-- What Python does with scalars: `==` and `bool`. -/
class Scalars (S : Type) extends BEq S where
  truthy : S → Bool

/-- What is raised where a scalar is used as a map. -/
inductive MapError where
  | notMap
  deriving DecidableEq

namespace Doc

variable {S : Type}

/-- What holds of a map if it holds of its values, and of what is not a map, holds of all values. -/
theorem mapInduction {P : Doc S → Prop} (null : P .null) (scalar : ∀ s, P (.scalar s))
    (obj : ∀ fields, (∀ e ∈ fields, P (Prod.snd e)) → P (.obj fields)) (d : Doc S) : P d := by
  refine @Doc.rec S P (fun fields => ∀ e ∈ fields, P e.2) (fun e => P e.2) null scalar obj
    ?_ ?_ ?_ d
  · intro e he
    contradiction
  · intro e fields he hfields e' he'
    cases List.mem_cons.mp he' with
    | inl heq => exact heq ▸ he
    | inr hmem => exact hfields e' hmem
  · intro k v hv
    exact hv

/-- `d.get(k, {})`. -/
def getOrEmpty : Doc S → Str → Except MapError (Doc S)
  | obj fields, k => .ok ((Dict.get? fields k).getD (obj []))
  | _, _ => .error .notMap

/-- `d[k] = v`. -/
def assign : Doc S → Str → Doc S → Except MapError (Doc S)
  | obj fields, k, v => .ok (obj (Dict.set fields k v))
  | _, _, _ => .error .notMap

/-- `bool(d)`. -/
def truthy [Scalars S] : Doc S → Bool
  | null => false
  | scalar s => Scalars.truthy s
  | obj fields => !fields.isEmpty

section Update

mutual

/-- The loop over the items of the second map. -/
def updateItems (stopKeys : List Str) (allowRecursion : Bool) (d : Doc S) :
    List (Str × Doc S) → Except MapError (Doc S)
  | [] => .ok d
  | (k, v) :: u => do
    let v ← updateValue stopKeys allowRecursion d k v
    let d ← d.assign k v
    updateItems stopKeys allowRecursion d u

/-- The value that a key gets. -/
def updateValue (stopKeys : List Str) (allowRecursion : Bool) (d : Doc S) (k : Str) :
    Doc S → Except MapError (Doc S)
  | obj u =>
    if allowRecursion then do
      match ← d.getOrEmpty k with
      | null => .ok (obj u)
      | inner => updateItems stopKeys (k ∉ stopKeys) inner u
    else .ok (obj u)
  | v => .ok v

end

/-- `recursive_update`. -/
def recursiveUpdate [Scalars S] (stopKeys : List Str) (allowRecursion : Bool) :
    Doc S → Doc S → Except MapError (Doc S)
  | null, u => .ok (if u.truthy then u else obj [])
  | d, null => .ok d
  | d, obj u => updateItems stopKeys allowRecursion d u
  | _, scalar _ => .error .notMap

end Update

section Equality

variable [Scalars S]

mutual

/-- `d == d'`. -/
def same : Doc S → Doc S → Bool
  | null, null => true
  | scalar s, scalar t => s == t
  | obj fields, obj fields' => fields.length == fields'.length && sameItems fields fields'
  | _, _ => false

def sameItems : List (Str × Doc S) → Dict Str (Doc S) → Bool
  | [], _ => true
  | (k, v) :: fields, fields' =>
    (match Dict.get? fields' k with
    | some w => same v w
    | none => false) && sameItems fields fields'

end

end Equality

section Delta

/-- The loop over the second map: `out[k2] = v2` for the keys that the first one does not have. -/
def addMissing (d1 d2 out : Dict Str (Doc S)) : Dict Str (Doc S) :=
  (d2.filter fun e => e.1 ∉ Dict.keys d1).foldl (fun out e => Dict.set out e.1 e.2) out

variable [Scalars S]

mutual

/-- The loop over the first map. -/
def deltaItems (stopKeys : List Str) (allowRecursion : Bool) :
    List (Str × Doc S) → Dict Str (Doc S) → Dict Str (Doc S) → Except MapError (Dict Str (Doc S))
  | [], _, out => .ok out
  | (k, v) :: d1, d2, out => do
    match ← deltaValue stopKeys allowRecursion k v (Dict.get? d2 k) with
    | some w => deltaItems stopKeys allowRecursion d1 d2 (Dict.set out k w)
    | none => deltaItems stopKeys allowRecursion d1 d2 out

/-- What the delta has for a key, if anything. A scalar in the place of the second map raises: at the
latest its items are asked for. -/
def deltaValue (stopKeys : List Str) (allowRecursion : Bool) (k : Str) :
    Doc S → Option (Doc S) → Except MapError (Option (Doc S))
  | obj d1, w =>
    if allowRecursion then
      match w.getD (obj []) with
      | null => .ok (some (obj d1) |>.filter truthy)
      | scalar _ => .error .notMap
      | obj d2 => do
        let out ← deltaItems stopKeys (k ∉ stopKeys) d1 d2 []
        return some (obj (addMissing d1 d2 out)) |>.filter truthy
    else .ok (w.filter fun w => !same (obj d1) w)
  | v, w => .ok (w.filter fun w => !same v w)

end

/-- `get_recursive_delta`. -/
def getRecursiveDelta (stopKeys : List Str) (allowRecursion : Bool) :
    Doc S → Doc S → Except MapError (Doc S)
  | null, d2 => .ok d2
  | d1, null => .ok d1
  | obj d1, obj d2 => do
    let out ← deltaItems stopKeys allowRecursion d1 d2 []
    return obj (addMissing d1 d2 out)
  | _, _ => .error .notMap

end Delta

/-- The maps have distinct keys. -/
inductive Keyed : Doc S → Prop
  | null : Keyed null
  | scalar (s : S) : Keyed (scalar s)
  | obj {fields : List (Str × Doc S)} : (Dict.keys fields).Nodup →
    (∀ e ∈ fields, Keyed (Prod.snd e)) → Keyed (obj fields)

/-- `recursive_update(d, u)`. -/
abbrev update [Scalars S] (d u : Doc S) : Except MapError (Doc S) := recursiveUpdate [] true d u

/-- `get_recursive_delta(d1, d2)`. -/
abbrev delta [Scalars S] (d1 d2 : Doc S) : Except MapError (Doc S) := getRecursiveDelta [] true d1 d2

/-- The delta of two documents updates the first one as the second one does. -/
def DeltaUpdates [Scalars S] (d1 d2 : Doc S) : Prop :=
  ∃ change result, delta d1 d2 = .ok change ∧ update d1 change = .ok result ∧
    update d1 d2 = .ok result

mutual

/-- Below a key of both documents, a map meets a map, a scalar meets no map with keys, and scalars
that Python takes for equal are. -/
def Meets [Scalars S] : Doc S → Doc S → Prop
  | obj d1, obj d2 => MeetsItems d1 d2
  | obj _, _ => False
  | scalar s, scalar t => (s == t) = true → s = t
  | scalar _, obj d2 => d2 = []
  | _, _ => True

def MeetsItems [Scalars S] : List (Str × Doc S) → Dict Str (Doc S) → Prop
  | [], _ => True
  | (k, v) :: d1, d2 => (∀ w, Dict.get? d2 k = some w → Meets v w) ∧ MeetsItems d1 d2

end

section Items

variable {f g us : Dict Str (Doc S)} {d r u v w : Doc S} {k : Str}

theorem keyed_get? (h : Keyed (Doc.obj f)) (hv : Dict.get? f k = some v) : Keyed v := by
  cases h with
  | obj _ hvalues => exact hvalues (k, v) (Dict.mem_of_get? hv)

theorem Keyed.nodup (h : Keyed (Doc.obj f)) : (Dict.keys f).Nodup := by
  cases h with
  | obj hnodup _ => exact hnodup

/-- The value of a key depends on what the key has. -/
theorem updateValue_congr (h : Dict.get? f k = Dict.get? g k) :
    updateValue [] true (obj f) k v = updateValue [] true (obj g) k v := by
  cases v with
  | obj u => rw [updateValue, updateValue, getOrEmpty, getOrEmpty, h]
  | _ => rfl

/-- What an update of a map gives. -/
structure Updated (f us g : Dict Str (Doc S)) : Prop where
  keys : Dict.keys g = Dict.keys f ++ (Dict.keys us).filter (· ∉ Dict.keys f)
  other : ∀ k, Dict.get? us k = none → Dict.get? g k = Dict.get? f k
  value : ∀ k v, Dict.get? us k = some v →
    ∃ w, updateValue [] true (obj f) k v = .ok w ∧ Dict.get? g k = some w

theorem Updated.nodup (h : Updated f us g) (hf : (Dict.keys f).Nodup)
    (hus : (Dict.keys us).Nodup) : (Dict.keys g).Nodup := by
  rw [h.keys]
  refine hf.append (hus.sublist List.filter_sublist) fun k hk hk' => ?_
  have hnot := (List.mem_filter.mp hk').2
  simp only [decide_eq_true_eq] at hnot
  exact hnot hk

theorem updated_of_ok (hnodup : (Dict.keys us).Nodup)
    (h : updateItems [] true (obj f) us = .ok r) : ∃ g, r = obj g ∧ Updated f us g := by
  induction us generalizing f with
  | nil =>
    obtain rfl := Except.ok.inj h
    refine ⟨f, rfl, by simp [Dict.keys], fun _ _ => rfl, fun k v hv => ?_⟩
    cases hv
  | cons e us ih =>
    obtain ⟨k, v⟩ := e
    obtain ⟨hk, hnodup⟩ := List.nodup_cons.mp hnodup
    have hnone : Dict.get? us k = none := (Dict.get?_eq_none_iff _ _).mpr hk
    rw [updateItems] at h
    obtain ⟨w, hw, h⟩ := bind_eq_ok.mp h
    rw [assign] at h
    obtain ⟨g, rfl, hg⟩ := ih hnodup h
    refine ⟨g, rfl, ?_, fun k' hk' => ?_, fun k' v' hv' => ?_⟩
    · have hcons : Dict.keys ((k, v) :: us) = k :: Dict.keys us := rfl
      have hfilter : (Dict.keys us).filter (· ∉ Dict.keys (Dict.set f k w)) =
          (Dict.keys us).filter (· ∉ Dict.keys f) := by
        refine List.filter_congr fun k' hk' => ?_
        have hne : k' ≠ k := fun heq => hk (heq ▸ hk')
        simp [Dict.mem_keys_set, hne]
      rw [hg.keys, hfilter, Dict.keys_set, hcons, List.filter_cons]
      by_cases hmem : k ∈ Dict.keys f <;> simp [hmem]
    · rw [Dict.get?_cons] at hk'
      by_cases heq : k' = k
      · rw [if_pos heq] at hk'
        cases hk'
      · rw [if_neg heq] at hk'
        rw [hg.other k' hk', Dict.get?_set, if_neg heq]
    · rw [Dict.get?_cons] at hv'
      by_cases heq : k' = k
      · rw [if_pos heq] at hv'
        obtain rfl := Option.some.inj hv'
        subst heq
        exact ⟨w, hw, by rw [hg.other k' hnone, Dict.get?_set, if_pos rfl]⟩
      · rw [if_neg heq] at hv'
        obtain ⟨w', hw', hget⟩ := hg.value k' v' hv'
        refine ⟨w', ?_, hget⟩
        rw [← hw']
        exact updateValue_congr (by rw [Dict.get?_set, if_neg heq])

theorem exists_updated (hnodup : (Dict.keys us).Nodup)
    (h : ∀ k v, Dict.get? us k = some v → ∃ w, updateValue [] true (obj f) k v = .ok w) :
    ∃ g, updateItems [] true (obj f) us = .ok (obj g) ∧ Updated f us g := by
  have hok : ∃ r, updateItems [] true (obj f) us = .ok r := by
    induction us generalizing f with
    | nil => exact ⟨_, rfl⟩
    | cons e us ih =>
      obtain ⟨k, v⟩ := e
      obtain ⟨hk, hnodup⟩ := List.nodup_cons.mp hnodup
      obtain ⟨w, hw⟩ := h k v (by rw [Dict.get?_cons, if_pos rfl])
      obtain ⟨r, hr⟩ := ih (f := Dict.set f k w) hnodup fun k' v' hv' => by
        have hne : k' ≠ k := by
          intro heq
          rw [heq, (Dict.get?_eq_none_iff _ _).mpr hk] at hv'
          cases hv'
        obtain ⟨w', hw'⟩ := h k' v' (by rw [Dict.get?_cons, if_neg hne, hv'])
        refine ⟨w', ?_⟩
        rw [← hw']
        exact updateValue_congr (by rw [Dict.get?_set, if_neg hne])
      refine ⟨r, ?_⟩
      rw [updateItems, hw]
      exact hr
  obtain ⟨r, hr⟩ := hok
  obtain ⟨g, rfl, hg⟩ := updated_of_ok hnodup hr
  exact ⟨g, hr, hg⟩

end Items

section Inner

variable {f g : Dict Str (Doc S)} {d u v w : Doc S} {k : Str}

/-- What a value becomes where it is updated. -/
def updateInner : Doc S → Doc S → Except MapError (Doc S)
  | null, obj u => .ok (obj u)
  | v, obj u => updateItems [] true v u
  | _, w => .ok w

theorem updateValue_eq :
    updateValue [] true (obj f) k w = updateInner ((Dict.get? f k).getD (obj [])) w := by
  cases w with
  | obj u =>
    rw [updateValue, if_pos rfl, getOrEmpty]
    cases (Dict.get? f k).getD (obj []) <;> simp [updateInner] <;> rfl
  | _ => cases (Dict.get? f k).getD (obj []) <;> rfl

/-- No update of an empty map raises. -/
theorem exists_updateInner_empty (h : Keyed w) :
    ∃ r, updateInner (obj []) w = .ok r := by
  induction w using mapInduction with
  | null => exact ⟨_, rfl⟩
  | scalar s => exact ⟨_, rfl⟩
  | obj us ih =>
    obtain ⟨r, hr, -⟩ := exists_updated (f := []) h.nodup fun k v hv => by
      obtain ⟨r, hr⟩ := ih (k, v) (Dict.mem_of_get? hv) (keyed_get? h hv)
      exact ⟨r, updateValue_eq.trans hr⟩
    exact ⟨_, hr⟩

/-- A document updated with itself. -/
theorem updateInner_self (h : Keyed v) : updateInner v v = .ok v := by
  induction v using mapInduction with
  | null => rfl
  | scalar s => rfl
  | obj f ih =>
    have hvalue : ∀ k v, Dict.get? f k = some v →
        updateValue [] true (obj f) k v = .ok v := by
      intro k v hv
      rw [updateValue_eq, hv]
      exact ih (k, v) (Dict.mem_of_get? hv) (keyed_get? h hv)
    obtain ⟨g, hg, hupdated⟩ := exists_updated (f := f) h.nodup fun k v hv => ⟨v, hvalue k v hv⟩
    have heq : f = g := by
      apply Dict.ext_get? h.nodup
      · rw [hupdated.keys]
        simp
      · intro k
        cases hv : Dict.get? f k with
        | none => rw [hupdated.other k hv, hv]
        | some v =>
          obtain ⟨w, hw, hget⟩ := hupdated.value k v hv
          rw [hvalue k v hv] at hw
          rw [hget, ← Except.ok.inj hw]
    have hself : updateInner (obj f) (obj f) = updateItems [] true (obj f) f := rfl
    rw [hself, hg, heq]

end Inner

section Changes

variable {f g out ext : Dict Str (Doc S)}

/-- What the second map has for the keys of the first one is skipped. -/
theorem addMissing_eq (hnodup : (Dict.keys g).Nodup) (h : ∀ k ∈ Dict.keys out, k ∈ Dict.keys f) :
    addMissing f g out = out ++ g.filter fun e => e.1 ∉ Dict.keys f := by
  apply Dict.foldl_set_of_fresh
  · have hsub : (Dict.keys (g.filter fun e => e.1 ∉ Dict.keys f)).Sublist (Dict.keys g) :=
      List.filter_sublist.map _
    exact hnodup.sublist hsub
  · intro k hk hmem
    obtain ⟨e, he, rfl⟩ := List.mem_map.mp hk
    have hf := (List.mem_filter.mp he).2
    simp only [decide_eq_true_eq] at hf
    exact hf (h _ hmem)

variable [Scalars S]

/-- What the loop over the first map adds to the delta. -/
structure Changes (f g ext : Dict Str (Doc S)) : Prop where
  nodup : (Dict.keys ext).Nodup
  keys : ∀ k ∈ Dict.keys ext, k ∈ Dict.keys f
  value : ∀ k v, Dict.get? f k = some v →
    deltaValue [] true k v (Dict.get? g k) = .ok (Dict.get? ext k)

/-- The delta with what it gets for a key. -/
def addChange (out : Dict Str (Doc S)) (k : Str) : Option (Doc S) → Dict Str (Doc S)
  | some w => Dict.set out k w
  | none => out

theorem deltaItems_cons (f g out : Dict Str (Doc S)) (k : Str) (v : Doc S) :
    deltaItems [] true ((k, v) :: f) g out =
      (deltaValue [] true k v (Dict.get? g k) >>= fun c =>
        deltaItems [] true f g (addChange out k c)) := by
  rw [deltaItems]
  cases deltaValue [] true k v (Dict.get? g k) with
  | error e => rfl
  | ok c => cases c <;> rfl

theorem changes_of_ok (hnodup : (Dict.keys f).Nodup) (hfresh : ∀ k ∈ Dict.keys f, k ∉ Dict.keys out)
    {result : Dict Str (Doc S)} (h : deltaItems [] true f g out = .ok result) :
    ∃ ext, result = out ++ ext ∧ Changes f g ext := by
  induction f generalizing out with
  | nil =>
    obtain rfl := Except.ok.inj h
    refine ⟨[], by simp, by simp [Dict.keys], by simp [Dict.keys], fun k v hv => ?_⟩
    cases hv
  | cons e f ih =>
    obtain ⟨k, v⟩ := e
    obtain ⟨hk, hnodup⟩ := List.nodup_cons.mp hnodup
    rw [deltaItems_cons] at h
    obtain ⟨c, hc, h⟩ := bind_eq_ok.mp h
    have hout : k ∉ Dict.keys out := hfresh k (List.mem_cons_self ..)
    have htail : ∀ k' ∈ Dict.keys f, k' ∉ Dict.keys out := fun k' hk' =>
      hfresh k' (List.mem_cons_of_mem _ hk')
    cases c with
    | none =>
      obtain ⟨ext, rfl, hext⟩ := ih hnodup htail h
      refine ⟨ext, rfl, hext.nodup, fun k' hk' => List.mem_cons_of_mem _ (hext.keys k' hk'),
        fun k' v' hv' => ?_⟩
      rw [Dict.get?_cons] at hv'
      by_cases heq : k' = k
      · rw [if_pos heq] at hv'
        obtain rfl := Option.some.inj hv'
        subst heq
        rw [hc, (Dict.get?_eq_none_iff ext k').mpr fun hmem => hk (hext.keys k' hmem)]
      · rw [if_neg heq] at hv'
        exact hext.value k' v' hv'
    | some w =>
      have hset : Dict.set out k w = out ++ [(k, w)] := Dict.set_of_not_mem hout w
      have hfresh' : ∀ k' ∈ Dict.keys f, k' ∉ Dict.keys (Dict.set out k w) := by
        intro k' hk' hmem
        rcases (Dict.mem_keys_set out k k' w).mp hmem with heq | hmem
        · exact hk (heq ▸ hk')
        · exact htail k' hk' hmem
      obtain ⟨ext, rfl, hext⟩ := ih hnodup hfresh' h
      refine ⟨(k, w) :: ext, ?_, ?_, ?_, fun k' v' hv' => ?_⟩
      · simp [hset]
      · exact List.nodup_cons.mpr ⟨fun hmem => hk (hext.keys k hmem), hext.nodup⟩
      · intro k' hk'
        rcases List.mem_cons.mp hk' with heq | hmem
        · exact heq ▸ List.mem_cons_self ..
        · exact List.mem_cons_of_mem _ (hext.keys k' hmem)
      · rw [Dict.get?_cons] at hv' ⊢
        by_cases heq : k' = k
        · rw [if_pos heq] at hv' ⊢
          obtain rfl := Option.some.inj hv'
          rw [heq, hc]
        · rw [if_neg heq] at hv' ⊢
          exact hext.value k' v' hv'

theorem exists_changes (h : ∀ k v, (k, v) ∈ f →
      ∃ c, deltaValue [] true k v (Dict.get? g k) = .ok c) :
    ∃ result, deltaItems [] true f g out = .ok result := by
  induction f generalizing out with
  | nil => exact ⟨_, rfl⟩
  | cons e f ih =>
    obtain ⟨k, v⟩ := e
    obtain ⟨c, hc⟩ := h k v (List.mem_cons_self ..)
    obtain ⟨result, hresult⟩ := @ih (addChange out k c)
      fun k' v' hmem => h k' v' (List.mem_cons_of_mem _ hmem)
    refine ⟨result, ?_⟩
    rw [deltaItems_cons, hc]
    exact hresult

/-- The delta has nothing for what the second map does not have. -/
theorem deltaValue_none (v : Doc S) (k : Str) : deltaValue [] true k v none = .ok none := by
  have hitems : ∀ f : Dict Str (Doc S), (∀ e ∈ f, ∀ k, deltaValue [] true k e.2 none = .ok none) →
      deltaItems [] true f [] [] = .ok [] := by
    intro f
    induction f with
    | nil => simp [deltaItems]
    | cons e f ih =>
      intro h
      have hnone : Dict.get? ([] : Dict Str (Doc S)) e.1 = none := rfl
      rw [deltaItems_cons, hnone, h e (List.mem_cons_self ..)]
      exact ih fun e' he' => h e' (List.mem_cons_of_mem _ he')
  induction v using mapInduction generalizing k with
  | null => rfl
  | scalar s => rfl
  | obj f ih =>
    rw [deltaValue]
    simp [hitems f fun e he k => ih e he k, addMissing, truthy]

end Changes

section Change

variable {f g ext : Dict Str (Doc S)} {k : Str}

theorem get?_change_of_mem (hk : k ∈ Dict.keys f) :
    Dict.get? (ext ++ g.filter fun e => e.1 ∉ Dict.keys f) k = Dict.get? ext k := by
  rw [Dict.get?_append, Dict.get?_filter fun k => decide (k ∉ Dict.keys f)]
  simp [hk]

variable (hext : ∀ k ∈ Dict.keys ext, k ∈ Dict.keys f)

include hext

theorem get?_change_of_not_mem (hk : k ∉ Dict.keys f) :
    Dict.get? (ext ++ g.filter fun e => e.1 ∉ Dict.keys f) k = Dict.get? g k := by
  have hnone : Dict.get? ext k = none :=
    (Dict.get?_eq_none_iff _ _).mpr fun hmem => hk (hext k hmem)
  rw [Dict.get?_append, Dict.get?_filter fun k => decide (k ∉ Dict.keys f), hnone]
  simp [hk]

theorem keys_change :
    (Dict.keys (ext ++ g.filter fun e => e.1 ∉ Dict.keys f)).filter (· ∉ Dict.keys f) =
      (Dict.keys g).filter (· ∉ Dict.keys f) := by
  have hold : (Dict.keys ext).filter (· ∉ Dict.keys f) = [] := by
    rw [List.filter_eq_nil_iff]
    intro k hk
    simpa using hext k hk
  have hnew : Dict.keys (g.filter fun e => e.1 ∉ Dict.keys f) =
      (Dict.keys g).filter (· ∉ Dict.keys f) := by
    unfold Dict.keys
    rw [List.filter_map]
    rfl
  have happend : ∀ d d' : Dict Str (Doc S), Dict.keys (d ++ d') = Dict.keys d ++ Dict.keys d' :=
    fun _ _ => List.map_append
  rw [happend, List.filter_append, hold, hnew, List.nil_append, List.filter_filter]
  simp

theorem nodup_change (hnodup : (Dict.keys ext).Nodup) (hg : (Dict.keys g).Nodup) :
    (Dict.keys (ext ++ g.filter fun e => e.1 ∉ Dict.keys f)).Nodup := by
  unfold Dict.keys
  rw [List.map_append]
  refine hnodup.append (hg.sublist (List.filter_sublist.map _)) fun k hk hk' => ?_
  obtain ⟨e, he, rfl⟩ := List.mem_map.mp hk'
  have hf := (List.mem_filter.mp he).2
  simp only [decide_eq_true_eq] at hf
  exact hf (hext _ hk)

end Change

section Main

variable {f g : Dict Str (Doc S)} {v w : Doc S} {k : Str}

/-- A new key gets a value. -/
theorem exists_updateValue_new (hg : Keyed (Doc.obj g)) (hk : k ∉ Dict.keys f)
    (hw : Dict.get? g k = some w) : ∃ x, updateValue [] true (obj f) k w = .ok x := by
  obtain ⟨x, hx⟩ := exists_updateInner_empty (keyed_get? hg hw)
  refine ⟨x, ?_⟩
  rw [updateValue_eq, (Dict.get?_eq_none_iff _ _).mpr hk]
  exact hx

/-- What a value becomes where it is updated with what the delta has for it, if anything. -/
def updateChange (v : Doc S) : Option (Doc S) → Except MapError (Doc S)
  | some c => updateInner v c
  | none => .ok v

variable [Scalars S]

/-- The delta updates the value of a key as the second map does. -/
def ValueUpdates (k : Str) (v w : Doc S) : Prop :=
  ∃ c r, deltaValue [] true k v (some w) = .ok c ∧ updateChange v c = .ok r ∧
    updateInner v w = .ok r

/-- The delta of two maps updates the first one as the second one does. -/
def ItemsUpdate (f g : Dict Str (Doc S)) : Prop :=
  ∃ out r, deltaItems [] true f g [] = .ok out ∧
    updateItems [] true (obj f) (addMissing f g out) = .ok r ∧ updateItems [] true (obj f) g = .ok r

/-- What becomes of the value of a key of the first map. -/
theorem updates_of_items {ext a b : Dict Str (Doc S)} (hext : Changes f g ext)
    (ha : Updated f (ext ++ g.filter fun e => e.1 ∉ Dict.keys f) a) (hb : Updated f g b)
    (hv : Dict.get? f k = some v) (hw : Dict.get? g k = some w) :
    ∃ c x y, deltaValue [] true k v (some w) = .ok c ∧ updateChange v c = .ok x ∧
      updateInner v w = .ok y ∧ Dict.get? a k = some x ∧ Dict.get? b k = some y := by
  have hk : k ∈ Dict.keys f := (Dict.mem_keys_iff f k).mpr ⟨v, hv⟩
  have hdelta := hext.value k v hv
  rw [hw] at hdelta
  obtain ⟨y, hy, hbk⟩ := hb.value k w hw
  rw [updateValue_eq, hv] at hy
  cases hc : Dict.get? ext k with
  | none =>
    refine ⟨none, v, y, hc ▸ hdelta, rfl, hy, ?_, hbk⟩
    rw [ha.other k (by rw [get?_change_of_mem hk, hc]), hv]
  | some c =>
    obtain ⟨x, hx, hak⟩ := ha.value k c (by rw [get?_change_of_mem hk, hc])
    rw [updateValue_eq, hv] at hx
    exact ⟨some c, x, y, hc ▸ hdelta, hx, hy, hak, hbk⟩

/-- The delta can be applied where the value of each key can be updated. -/
theorem exists_updated_change {ext : Dict Str (Doc S)} (hg : Keyed (Doc.obj g)) (hext : Changes f g ext)
    (h : ∀ k v w, Dict.get? f k = some v → Dict.get? g k = some w → ValueUpdates k v w) :
    ∃ a, updateItems [] true (obj f) (ext ++ g.filter fun e => e.1 ∉ Dict.keys f) = .ok (obj a) ∧
      Updated f (ext ++ g.filter fun e => e.1 ∉ Dict.keys f) a := by
  apply exists_updated (nodup_change hext.keys hext.nodup hg.nodup)
  intro k c hc
  by_cases hk : k ∈ Dict.keys f
  · rw [get?_change_of_mem hk] at hc
    obtain ⟨v, hv⟩ := (Dict.mem_keys_iff f k).mp hk
    have hdelta := hext.value k v hv
    cases hw : Dict.get? g k with
    | none =>
      rw [hw, deltaValue_none, hc] at hdelta
      cases hdelta
    | some w =>
      obtain ⟨c', x, hc', hx, -⟩ := h k v w hv hw
      rw [hw, hc', hc] at hdelta
      obtain rfl := Except.ok.inj hdelta
      refine ⟨x, ?_⟩
      rw [updateValue_eq, hv]
      exact hx
  · rw [get?_change_of_not_mem hext.keys hk] at hc
    exact exists_updateValue_new hg hk hc

/-- The two updates agree where they do on the value of each key. -/
theorem updated_eq {ext a b : Dict Str (Doc S)} (hf : Keyed (Doc.obj f)) (hg : Keyed (Doc.obj g))
    (hext : Changes f g ext)
    (ha : Updated f (ext ++ g.filter fun e => e.1 ∉ Dict.keys f) a) (hb : Updated f g b)
    (h : ∀ k v w, Dict.get? f k = some v → Dict.get? g k = some w → ValueUpdates k v w) :
    a = b := by
  apply Dict.ext_get?
  · exact ha.nodup hf.nodup (nodup_change hext.keys hext.nodup hg.nodup)
  · rw [ha.keys, hb.keys, keys_change hext.keys]
  · intro k
    cases hv : Dict.get? f k with
    | none =>
      have hk : k ∉ Dict.keys f := (Dict.get?_eq_none_iff _ _).mp hv
      have hchange := get?_change_of_not_mem (g := g) hext.keys hk
      cases hw : Dict.get? g k with
      | none => rw [ha.other k (hchange.trans hw), hb.other k hw]
      | some w =>
        obtain ⟨x, hx, hak⟩ := ha.value k w (hchange.trans hw)
        obtain ⟨y, hy, hbk⟩ := hb.value k w hw
        rw [hx] at hy
        rw [hak, hbk, Except.ok.inj hy]
    | some v =>
      have hk : k ∈ Dict.keys f := (Dict.mem_keys_iff f k).mpr ⟨v, hv⟩
      cases hw : Dict.get? g k with
      | none =>
        have hdelta := hext.value k v hv
        rw [hw, deltaValue_none] at hdelta
        have hnone : Dict.get? ext k = none := (Except.ok.inj hdelta).symm
        rw [ha.other k ((get?_change_of_mem hk).trans hnone), hb.other k hw]
      | some w =>
        obtain ⟨c, x, y, hc, hx, hy, hak, hbk⟩ := updates_of_items hext ha hb hv hw
        obtain ⟨c', z, hc', hz, hz'⟩ := h k v w hv hw
        rw [hc] at hc'
        obtain rfl := Except.ok.inj hc'
        rw [hx] at hz
        rw [hy] at hz'
        rw [hak, hbk, Except.ok.inj hz, Except.ok.inj hz']

/-- The delta updates a map as the second map does where it does so below each key of both. -/
theorem items_update_iff (hf : Keyed (Doc.obj f)) (hg : Keyed (Doc.obj g)) :
    ItemsUpdate f g ↔
      ∀ k v w, Dict.get? f k = some v → Dict.get? g k = some w → ValueUpdates k v w := by
  have hfresh : ∀ k ∈ Dict.keys f, k ∉ Dict.keys ([] : Dict Str (Doc S)) := by simp [Dict.keys]
  constructor
  · rintro ⟨out, r, hout, hchange, hupdate⟩ k v w hv hw
    obtain ⟨ext, rfl, hext⟩ := changes_of_ok hf.nodup hfresh hout
    rw [addMissing_eq hg.nodup hext.keys] at hchange
    obtain ⟨a, rfl, ha⟩ := updated_of_ok (nodup_change hext.keys hext.nodup hg.nodup) hchange
    obtain ⟨b, hab, hb⟩ := updated_of_ok hg.nodup hupdate
    obtain ⟨c, x, y, hc, hx, hy, hak, hbk⟩ := updates_of_items hext ha hb hv hw
    obtain rfl : a = b := by simpa using hab
    rw [hak] at hbk
    obtain rfl := Option.some.inj hbk
    exact ⟨c, x, hc, hx, hy⟩
  · intro h
    obtain ⟨out, hout⟩ := @exists_changes _ f g [] _ fun k v hmem => by
      have hv := Dict.get?_of_mem hf.nodup hmem
      cases hw : Dict.get? g k with
      | none => exact ⟨none, deltaValue_none v k⟩
      | some w =>
        obtain ⟨c, -, hc, -⟩ := h k v w hv hw
        exact ⟨c, hc⟩
    obtain ⟨ext, rfl, hext⟩ := changes_of_ok hf.nodup hfresh hout
    obtain ⟨a, hchange, ha⟩ := exists_updated_change hg hext h
    obtain ⟨b, hupdate, hb⟩ := exists_updated (f := f) hg.nodup fun k w hw => by
      by_cases hk : k ∈ Dict.keys f
      · obtain ⟨v, hv⟩ := (Dict.mem_keys_iff f k).mp hk
        obtain ⟨-, x, -, -, hx⟩ := h k v w hv hw
        exact ⟨x, by rw [updateValue_eq, hv]; exact hx⟩
      · exact exists_updateValue_new hg hk hw
    obtain rfl : a = b := updated_eq hf hg hext ha hb h
    refine ⟨_, obj a, hout, ?_, hupdate⟩
    rw [addMissing_eq hg.nodup hext.keys]
    exact hchange

theorem meetsItems_iff : MeetsItems f g ↔
    ∀ k v, (k, v) ∈ f → ∀ w, Dict.get? g k = some w → Meets v w := by
  induction f with
  | nil => simp [MeetsItems]
  | cons e f ih =>
    obtain ⟨k, v⟩ := e
    rw [MeetsItems, ih, Dict.forall_mem_cons]

theorem valueUpdates_obj_iff : ValueUpdates k (obj f) (obj g) ↔ ItemsUpdate f g := by
  have hdelta : deltaValue [] true k (obj f) (some (obj g)) =
      (deltaItems [] true f g [] >>= fun out =>
        pure ((some (obj (addMissing f g out))).filter truthy)) := by
    rw [deltaValue]
    simp
  constructor
  · rintro ⟨c, r, hc, hr, hupdate⟩
    rw [hdelta] at hc
    obtain ⟨out, hout, hc⟩ := bind_eq_ok.mp hc
    obtain rfl := Except.ok.inj hc
    refine ⟨out, r, hout, ?_, hupdate⟩
    cases hchange : addMissing f g out with
    | nil =>
      rw [hchange] at hr
      exact hr
    | cons e change =>
      rw [hchange] at hr
      exact hr
  · rintro ⟨out, r, hout, hchange, hupdate⟩
    refine ⟨(some (obj (addMissing f g out))).filter truthy, r, ?_, ?_, hupdate⟩
    · rw [hdelta, hout]
      rfl
    · cases h : addMissing f g out with
      | nil =>
        rw [h] at hchange
        exact hchange
      | cons e change =>
        rw [h] at hchange
        exact hchange

theorem valueUpdates_iff (hv : Keyed v) (hw : Keyed w) : ValueUpdates k v w ↔ Meets v w := by
  induction v using mapInduction generalizing k w with
  | null =>
    have hmeets : Meets (S := S) null w := by cases w <;> trivial
    refine iff_of_true ?_ hmeets
    cases w with
    | null => exact ⟨none, null, rfl, rfl, rfl⟩
    | scalar t => exact ⟨some (scalar t), scalar t, rfl, rfl, rfl⟩
    | obj g => exact ⟨some (obj g), obj g, rfl, rfl, rfl⟩
  | scalar s =>
    cases w with
    | null => exact iff_of_true ⟨some null, null, rfl, rfl, rfl⟩ trivial
    | scalar t =>
      have hdelta : deltaValue [] true k (scalar s) (some (scalar t)) =
          .ok ((some (scalar t)).filter fun w => !same (scalar s) w) := rfl
      rw [Meets]
      by_cases heq : (s == t) = true
      · simp only [heq, true_implies]
        constructor
        · rintro ⟨c, r, hc, hr, hupdate⟩
          rw [hdelta] at hc
          obtain rfl := Except.ok.inj hc
          simp only [Option.filter, same, heq] at hr
          obtain rfl := Except.ok.inj hr
          exact (scalar.inj (Except.ok.inj hupdate)).symm
        · rintro rfl
          exact ⟨none, scalar s, by rw [hdelta]; simp [Option.filter, same, heq], rfl, rfl⟩
      · refine iff_of_true ⟨some (scalar t), scalar t, ?_, rfl, rfl⟩ fun h => absurd h heq
        rw [hdelta]
        simp [Option.filter, same, heq]
    | obj g =>
      rw [Meets]
      constructor
      · rintro ⟨c, r, -, -, hupdate⟩
        cases g with
        | nil => rfl
        | cons e g =>
          obtain ⟨k', v⟩ := e
          have hitems : updateItems [] true (scalar s) ((k', v) :: g) = .ok r := hupdate
          rw [updateItems] at hitems
          obtain ⟨x, -, hassign⟩ := bind_eq_ok.mp hitems
          cases hassign
      · rintro rfl
        exact ⟨some (obj []), scalar s, rfl, rfl, rfl⟩
  | obj f ih =>
    cases w with
    | null =>
      refine iff_of_false ?_ (by simp [Meets])
      rintro ⟨c, r, hc, hr, hupdate⟩
      obtain rfl := Except.ok.inj hupdate
      have hself : updateInner (obj f) (obj f) = .ok (obj f) := updateInner_self hv
      obtain rfl := Except.ok.inj hc
      cases f with
      | nil => cases hr
      | cons e f =>
        have hr' : updateInner (obj (e :: f)) (obj (e :: f)) = .ok null := hr
        rw [hself] at hr'
        cases hr'
    | scalar t =>
      refine iff_of_false ?_ (by simp [Meets])
      rintro ⟨c, r, hc, -⟩
      cases hc
    | obj g =>
      rw [valueUpdates_obj_iff, items_update_iff hv hw, Meets, meetsItems_iff]
      constructor
      · intro h k v hmem w hget
        have hvalue := Dict.get?_of_mem hv.nodup hmem
        exact (ih (k, v) hmem (keyed_get? hv hvalue) (keyed_get? hw hget)).mp (h k v w hvalue hget)
      · intro h k v w hvalue hget
        have hmem := Dict.mem_of_get? hvalue
        exact (ih (k, v) hmem (keyed_get? hv hvalue) (keyed_get? hw hget)).mpr (h k v hmem w hget)

/-- The delta of two documents updates the first one as the second one does where the first one is
null, or a map and the second one null, or where both are maps that meet. -/
theorem delta_updates_iff {d1 d2 : Doc S} (h1 : Keyed d1) (h2 : Keyed d2) :
    DeltaUpdates d1 d2 ↔
      d1 = null ∨ ∃ f, d1 = obj f ∧ (d2 = null ∨ ∃ g, d2 = obj g ∧ MeetsItems f g) := by
  cases d1 with
  | null =>
    have hupdate : update null d2 = .ok (if d2.truthy then d2 else obj []) := by cases d2 <;> rfl
    have hdelta : delta null d2 = .ok d2 := by cases d2 <;> rfl
    exact iff_of_true ⟨d2, _, hdelta, hupdate, hupdate⟩ (.inl rfl)
  | scalar s =>
    refine iff_of_false ?_ (by simp)
    rintro ⟨change, r, hchange, hr, -⟩
    cases d2 with
    | null =>
      obtain rfl := Except.ok.inj hchange
      cases hr
    | scalar t => cases hchange
    | obj g => cases hchange
  | obj f =>
    cases d2 with
    | null => exact iff_of_true ⟨obj f, obj f, rfl, updateInner_self h1, rfl⟩ (by simp)
    | scalar t =>
      refine iff_of_false ?_ (by simp)
      rintro ⟨change, r, hchange, -⟩
      cases hchange
    | obj g =>
      have hitems : DeltaUpdates (obj f) (obj g) ↔ ItemsUpdate f g := by
        constructor
        · rintro ⟨change, r, hchange, hr, hupdate⟩
          obtain ⟨out, hout, hchange⟩ := bind_eq_ok.mp hchange
          obtain rfl := Except.ok.inj hchange
          exact ⟨out, r, hout, hr, hupdate⟩
        · rintro ⟨out, r, hout, hr, hupdate⟩
          refine ⟨obj (addMissing f g out), r, ?_, hr, hupdate⟩
          rw [delta, getRecursiveDelta, hout]
          rfl
      rw [hitems, ← valueUpdates_obj_iff (k := []), valueUpdates_iff h1 h2, Meets]
      simp

end Main

section Integers

/-- Integers as scalars. -/
instance : Scalars Int where
  truthy n := n ≠ 0

/-- `{"a": {"b": n}}`. -/
def nested (n : Int) : Doc Int := obj [("a".toList, obj [("b".toList, scalar n)])]

theorem keyed_single {S : Type} {k : Str} {d : Doc S} (h : Keyed d) :
    Keyed (Doc.obj [(k, d)]) := by
  refine .obj (by simp [Dict.keys]) fun e he => ?_
  obtain rfl := List.mem_singleton.mp he
  exact h

theorem keyed_nested (n : Int) : Keyed (nested n) := keyed_single (keyed_single (.scalar n))

/-- One scalar for another, two maps down. -/
theorem delta_updates_nested : DeltaUpdates (nested 1) (nested 2) := by
  refine (delta_updates_iff (keyed_nested 1) (keyed_nested 2)).mpr ?_
  refine .inr ⟨_, rfl, .inr ⟨_, rfl, fun w hw => ?_, trivial⟩⟩
  obtain rfl := Option.some.inj hw
  refine ⟨fun w hw => ?_, trivial⟩
  obtain rfl := Option.some.inj hw
  intro heq
  cases heq

/-- A null in the place of a map is lost. -/
theorem null_lost : ¬ ∀ d1 d2 : Doc Int, Keyed d1 → Keyed d2 → DeltaUpdates d1 d2 := by
  intro h
  obtain ⟨change, r, hchange, hr, hupdate⟩ :=
    h _ _ (keyed_nested 1) (keyed_single (k := "a".toList) .null)
  obtain rfl := Except.ok.inj hchange
  obtain rfl := Except.ok.inj hr
  cases hupdate

end Integers

end Doc

end Howler.Documents
