import Howler.Structures.Json

namespace Howler.Datastore

open Python Structures

section Patterns

/-- The rest of a pattern after a star. -/
def globStar (rest : Str → Bool) : Str → Bool
  | [] => rest []
  | c :: s => rest (c :: s) || globStar rest s

/-- The expression of a pattern, in which a star stands for any text. -/
def glob : Str → Str → Bool
  | [], s => s = []
  | p :: ps, s =>
    if p = '*' then globStar (glob ps) s
    else match s with
      | [] => false
      | c :: s => c = p && glob ps s

/-- `expand_field_patterns` for the paths of a model. -/
def expandFieldPatterns (knownPaths patterns : List Str) : List Str :=
  patterns.flatMap fun pattern =>
    if '*' ∈ pattern then knownPaths.filter (glob pattern) else [pattern]

end Patterns

section Pruning

/-- The path of a key. -/
def curPath (pre key : Str) : Str := if pre = [] then key else pre ++ '.' :: key

/-- Some allowed path leads on from the path. -/
def leadsOn (allowed : List Str) (path : Str) : Bool :=
  allowed.any fun p => (path ++ ['.']).isPrefixOf p

mutual

/-- `prune_to_paths`. -/
def pruneToPaths (allowed : List Str) (pre : Str) : Json → Json
  | .obj fields => .obj (pruneFields allowed pre fields)
  | .list xs => .list (pruneList allowed pre xs)
  | .null => .null
  | .bool b => .bool b
  | .num n => .num n
  | .str s => .str s

def pruneFields (allowed : List Str) (pre : Str) : List (Str × Json) → List (Str × Json)
  | [] => []
  | (k, v) :: fields =>
    if curPath pre k ∈ allowed then (k, v) :: pruneFields allowed pre fields
    else if leadsOn allowed (curPath pre k) then
      (k, pruneToPaths allowed (curPath pre k) v) :: pruneFields allowed pre fields
    else pruneFields allowed pre fields

def pruneList (allowed : List Str) (pre : Str) : List Json → List Json
  | [] => []
  | x :: xs => pruneToPaths allowed pre x :: pruneList allowed pre xs

end

theorem mem_keys_pruneFields {allowed : List Str} {pre k : Str} {fields : List (Str × Json)}
    (h : k ∈ Dict.keys (pruneFields allowed pre fields)) : k ∈ Dict.keys fields := by
  induction fields with
  | nil => simp [pruneFields, Dict.keys] at h
  | cons e fields ih =>
    obtain ⟨k', v⟩ := e
    rw [pruneFields] at h
    split at h
    · cases List.mem_cons.mp h with
      | inl heq => exact List.mem_cons.mpr (.inl heq)
      | inr hmem => exact List.mem_cons_of_mem _ (ih hmem)
    · split at h
      · cases List.mem_cons.mp h with
        | inl heq => exact List.mem_cons.mpr (.inl heq)
        | inr hmem => exact List.mem_cons_of_mem _ (ih hmem)
      · exact List.mem_cons_of_mem _ (ih h)

theorem nodup_keys_pruneFields {fields : Dict Str Json} (h : (Dict.keys fields).Nodup)
    (allowed : List Str) (pre : Str) : (Dict.keys (pruneFields allowed pre fields)).Nodup := by
  induction fields with
  | nil => simp [pruneFields, Dict.keys]
  | cons e fields ih =>
    obtain ⟨k, v⟩ := e
    obtain ⟨hk, hfields⟩ := List.nodup_cons.mp h
    have hnot : k ∉ Dict.keys (pruneFields allowed pre fields) :=
      fun hmem => hk (mem_keys_pruneFields hmem)
    rw [pruneFields]
    split
    · exact List.nodup_cons.mpr ⟨hnot, ih hfields⟩
    · split
      · exact List.nodup_cons.mpr ⟨hnot, ih hfields⟩
      · exact ih hfields

/-- What is kept of a key. -/
theorem get?_pruneFields {fields : Dict Str Json} (h : (Dict.keys fields).Nodup)
    (allowed : List Str) (pre k : Str) :
    Dict.get? (pruneFields allowed pre fields) k =
      if curPath pre k ∈ allowed then Dict.get? fields k
      else if leadsOn allowed (curPath pre k) then
        (Dict.get? fields k).map (pruneToPaths allowed (curPath pre k))
      else none := by
  induction fields with
  | nil => simp [pruneFields]
  | cons e fields ih =>
    obtain ⟨k', v⟩ := e
    obtain ⟨hk', hfields⟩ := List.nodup_cons.mp h
    have hnone : k = k' → Dict.get? fields k = none := by
      intro hk
      rw [hk]
      exact (Dict.get?_eq_none_iff _ _).mpr hk'
    have htail := ih hfields
    rw [pruneFields]
    by_cases hk : k = k'
    · have hn := hnone hk
      subst hk
      by_cases hallowed : curPath pre k ∈ allowed
      · rw [if_pos hallowed, if_pos hallowed, Dict.get?_cons, Dict.get?_cons, if_pos rfl, if_pos rfl]
      · rw [if_neg hallowed, if_neg hallowed] at *
        by_cases hleads : leadsOn allowed (curPath pre k) = true
        · rw [if_pos hleads, if_pos hleads, Dict.get?_cons, Dict.get?_cons, if_pos rfl, if_pos rfl]
          rfl
        · rw [if_neg hleads, if_neg hleads] at *
          exact htail
    · rw [Dict.get?_cons, if_neg hk, ← htail]
      split
      · rw [Dict.get?_cons, if_neg hk]
      · split
        · rw [Dict.get?_cons, if_neg hk]
        · rfl

end Pruning

end Howler.Datastore
