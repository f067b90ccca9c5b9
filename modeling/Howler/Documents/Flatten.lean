import Howler.Datastore.Masks
import Howler.Documents.Collect

namespace Howler.Documents

open Python Structures Json Datastore

def isDict : Json → Bool
  | .obj _ => true
  | _ => false

section Flatten

/-- `result.update(other)`. -/
def update (result other : Dict Str Json) : Dict Str Json :=
  other.foldl (fun d e => Dict.set d e.1 e.2) result

mutual

/-- `_flatten_recursive`, which adds to a result. Without valid keys every map is flattened. -/
def flattenRecursive (validKeys : List Str) (pre : Str) :
    List (Str × Json) → Dict Str Json → Dict Str Json
  | [], result => result
  | (key, value) :: mapping, result =>
    flattenRecursive validKeys pre mapping
      (flattenValue validKeys (curPath pre key) value result)

def flattenValue (validKeys : List Str) (currentKey : Str) : Json → Dict Str Json → Dict Str Json
  | .obj mapping, result =>
    if validKeys ≠ [] ∧ leadsOn validKeys currentKey = false then
      Dict.set result currentKey (.obj mapping)
    else update result (flattenRecursive validKeys currentKey mapping [])
  | value, result => Dict.set result currentKey value

end

/-- `flatten`. -/
def flatten (data : Dict Str Json) (parentKey : Str) (validKeys : List Str) : Dict Str Json :=
  flattenRecursive validKeys parentKey data []

end Flatten

section FlattenDeep

inductive FlattenError where
  | attribute
  | outOfFuel
  deriving DecidableEq

/-- A flat document, and what was added to lists of the given one. -/
abbrev Flat := Dict Str Object × List (Str × List Json)

/-- What a value adds to a list. -/
def elements : Json → List Json
  | .list xs => xs
  | v => [v]

/-- The list that a first value makes: its own one if it has one. -/
def Object.listed (o : Object) : Object :=
  match o.value with
  | .list _ => o
  | v => ⟨.list [v], false⟩

/-- A value below an entry of a list. -/
def absorb (final : Flat) (fullKey : Str) (child : Object) : Except FlattenError Flat :=
  match final.1.get? fullKey with
  | none => .ok (final.1.set fullKey child.listed, final.2)
  | some ⟨.list xs, given⟩ =>
    .ok (final.1.set fullKey ⟨.list (xs ++ elements child.value), given⟩,
      final.2 ++ if given then [(fullKey, elements child.value)] else [])
  | some _ => .error .attribute

/-- The values below an entry of the list at a key. -/
def absorbAll (final : Flat) (key : Str) (flat : Flat) : Except FlattenError Flat :=
  flat.1.foldlM (fun final e => absorb final (key ++ '.' :: e.1) e.2) (final.1, final.2 ++ flat.2)

def flattenItem (deep : Json → Except FlattenError Flat) (final : Flat) (item : Str × Json) :
    Except FlattenError Flat :=
  match item.2 with
  | .list xs =>
    if xs.any isDict then
      xs.foldlM (fun final entry => do absorbAll final item.1 (← deep entry)) final
    else .ok (final.1.set item.1 ⟨item.2, true⟩, final.2)
  | _ => .ok (final.1.set item.1 ⟨item.2, true⟩, final.2)

def flattenDeepFor : ℕ → Json → Except FlattenError Flat
  | 0, _ => .error .outOfFuel
  | n + 1, .obj data => (flatten data [] []).foldlM (flattenItem (flattenDeepFor n)) ([], [])
  | _ + 1, _ => .error .attribute

mutual

/-- How many lists there are inside of one another. -/
def height : Json → ℕ
  | .obj fields => heightFields fields
  | .list xs => heightList xs + 1
  | _ => 0

def heightFields : List (Str × Json) → ℕ
  | [] => 0
  | (_, v) :: fields => max (height v) (heightFields fields)

def heightList : List Json → ℕ
  | [] => 0
  | x :: xs => max (height x) (heightList xs)

end

/-- `flatten_deep`. -/
def flattenDeep (data : Json) : Except FlattenError Flat := flattenDeepFor (height data + 1) data

end FlattenDeep

section Update

variable {result other fields : Dict Str Json}

theorem update_eq_append (h : (Dict.keys (result ++ other)).Nodup) :
    update result other = result ++ other := by
  induction other generalizing result with
  | nil => simp [update]
  | cons e other ih =>
    have hkeys : Dict.keys (result ++ e :: other) =
        Dict.keys result ++ e.1 :: Dict.keys other := by simp [Dict.keys]
    have hfresh : e.1 ∉ Dict.keys result := by
      rw [hkeys] at h
      intro hmem
      exact (List.nodup_append.mp h).2.2 e.1 hmem e.1 (by simp) rfl
    have hstep : update result (e :: other) = update (Dict.set result e.1 e.2) other := rfl
    rw [hstep, Dict.set_of_not_mem hfresh, ih (by simpa using h)]
    simp

/-- The values of a document that are not maps, with the keys on the way to them. -/
def places (fields : Dict Str Json) : List (List Str × Json) :=
  (leavesFields keyed fields).filter fun l => !isDict l.2

/-- The values at or below a value that are not maps. -/
def placesOf (j : Json) : List (List Str × Json) := (leaves keyed j).filter fun l => !isDict l.2

theorem places_cons (k : Str) (v : Json) (fields : Dict Str Json) :
    places ((k, v) :: fields) =
      ((placesOf v).map fun l => (k :: l.1, l.2)) ++ places fields := by
  rw [places, leavesFields, List.filter_append, List.filter_map]
  rfl

theorem placesOf_obj (fields : Dict Str Json) : placesOf (.obj fields) = places fields := by
  cases fields with
  | nil => rfl
  | cons e fields => rw [placesOf, leaves_obj (by simp), places]

theorem placesOf_of_not_obj {j : Json} (h : ∀ fields, j ≠ .obj fields) : placesOf j = [([], j)] := by
  rw [placesOf, leaves_of_not_obj h]
  cases j with
  | obj fields => exact absurd rfl (h fields)
  | _ => rfl

/-- The text that the code gives to a path after a prefix. -/
def spell (pre : Str) (p : List Str) : Str := p.foldl curPath pre

/-- The flat form of values at paths. -/
def spelled (pre : Str) (ls : List (List Str × Json)) : Dict Str Json :=
  ls.map fun l => (spell pre l.1, l.2)

/-- What `flattenValue` is to make of a value. -/
def FlattensValue (v : Json) : Prop :=
  ∀ currentKey result, (Dict.keys (result ++ spelled currentKey (placesOf v))).Nodup →
    flattenValue [] currentKey v result = result ++ spelled currentKey (placesOf v)

theorem keys_append_left {d d' : Dict Str Json} (h : (Dict.keys (d ++ d')).Nodup) :
    (Dict.keys d).Nodup ∧ (Dict.keys d').Nodup := by
  rw [Dict.keys, List.map_append] at h
  exact ⟨(List.nodup_append.mp h).1, (List.nodup_append.mp h).2.1⟩

theorem flattenRecursive_eq {pre : Str} (hvalues : ∀ e ∈ fields, FlattensValue e.2)
    (h : (Dict.keys (result ++ spelled pre (places fields))).Nodup) :
    flattenRecursive [] pre fields result = result ++ spelled pre (places fields) := by
  induction fields generalizing result with
  | nil => simp [flattenRecursive, places, leavesFields, spelled]
  | cons e fields ih =>
    obtain ⟨k, v⟩ := e
    have hsplit : spelled pre (places ((k, v) :: fields)) =
        spelled (curPath pre k) (placesOf v) ++ spelled pre (places fields) := by
      rw [places_cons, spelled, List.map_append, List.map_map]
      rfl
    rw [hsplit, ← List.append_assoc] at h
    have hv := hvalues (k, v) (by simp) (curPath pre k) result (keys_append_left h).1
    rw [flattenRecursive, hv, ih (fun e he => hvalues e (List.mem_cons_of_mem _ he)) h, hsplit,
      List.append_assoc]

theorem flattensValue (v : Json) : FlattensValue v := by
  induction v using objInduction with
  | leaf v hv =>
    intro currentKey result h
    rw [placesOf_of_not_obj hv] at h ⊢
    have hkeys : Dict.keys (result ++ spelled currentKey [([], v)]) =
        Dict.keys result ++ [currentKey] := by simp [Dict.keys, spelled, spell]
    rw [hkeys] at h
    have hfresh : currentKey ∉ Dict.keys result := fun hmem =>
      (List.nodup_append.mp h).2.2 currentKey hmem currentKey (by simp) rfl
    have hset : flattenValue [] currentKey v result = Dict.set result currentKey v := by
      cases v with
      | obj fields => exact absurd rfl (hv fields)
      | _ => rfl
    rw [hset, Dict.set_of_not_mem hfresh]
    rfl
  | obj fields ih =>
    intro currentKey result h
    rw [placesOf_obj] at h ⊢
    have hflat := @flattenRecursive_eq [] _ _ ih (by simpa using (keys_append_left h).2)
    rw [flattenValue, if_neg (by simp), hflat, List.nil_append, update_eq_append h]

/-- Flattening gives the values that are not maps their texts. -/
theorem flatten_eq (h : (Dict.keys (spelled [] (places fields))).Nodup) :
    flatten fields [] [] = spelled [] (places fields) := by
  have hflat := @flattenRecursive_eq [] _ _ (fun e _ => flattensValue e.2) (by simpa using h)
  simpa [flatten] using hflat

end Update

end Howler.Documents
