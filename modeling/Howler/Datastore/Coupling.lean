import Howler.Datastore.Compiled
import Howler.Datastore.Writes

namespace Howler.Datastore

open Python Structures

/-- What the writes to a collection need to know of its model. -/
structure ESCollection where
  rt : Runtime
  engine : Engine
  isUc : Bool
  knownPaths : List Str
  fields : Dict Str FieldCheck
  values : Painless.Values
  scripts : Painless.Engine values

variable (C : ESCollection)

section Runs

inductive Write where
  | save (place : Place) (create : Bool) (data : Instance C.isUc)
  | insert (indexes : List Str) (docId : Str) (doc : Instance C.isUc) (index : Str)
  | index (indexes : List Str) (docId : Str) (doc : Instance C.isUc) (index : Str)
  | upsert (indexes : List Str) (docId : Str) (doc : Instance C.isUc) (index : Str)
  | bulkUpdate (indexes : List Str) (docId : Str) (doc : Instance C.isUc) (index : Str)
      (fields : Option (List Str))
  | update (place : Place) (ops : List (Str × Str × Json))
  | updateByQuery (found : Place → Bool) (ops : List (Str × Str × Json))

def performAll (ops : List BulkOperation) (s : Store) : Store := ops.foldl (fun s o => o.perform s) s

/-- The operations of a request are sent if it could be built. -/
def send (request : Except PyError (List BulkOperation)) (s : Store) : Store :=
  match request with
  | .ok ops => performAll ops s
  | .error _ => s

/-- `save`: the document is put where its version was read. -/
def saveOperation (place : Place) (create : Bool) (data : Instance C.isUc) :
    Except PyError (List BulkOperation) := do
  let saved ← savedDoc C.rt C.engine place.2 data
  return [(place, if create then .create saved else .index saved)]

/-- A script on the documents that are chosen. A document on which it fails stays. -/
def runScript (ops : List (Str × Str × Json)) (chosen : Place → Bool) (s : Store) : Store :=
  match validateOperations C.fields ops with
  | .error _ => s
  | .ok ops =>
    let script := createScripts ops
    fun p => if chosen p then
        (s p).map fun doc => (C.scripts.run script.source script.params doc).getD doc
      else s p

def Write.step : Write C → Store → Store
  | save place create data => send (saveOperation C place create data)
  | insert indexes docId doc target =>
    send (addInsertOperation C.rt C.engine indexes docId doc target)
  | index indexes docId doc target =>
    send (addIndexOperation C.rt C.engine indexes docId doc target)
  | upsert indexes docId doc target =>
    send (addUpsertOperation C.rt C.engine indexes docId doc target)
  | bulkUpdate indexes docId doc target fields =>
    send (addUpdateOperation C.rt C.engine C.knownPaths indexes docId doc target fields)
  | update place ops => runScript C ops fun p => p = place
  | updateByQuery found ops => runScript C ops found

end Runs

section Coupled

def classificationKey : Str := "classification".toList

/-- A marking and the fields that are derived from it. -/
def markFields (c : Str) (parts : Dict Str Json) : Dict Str Json :=
  (classificationKey, .str c) :: parts

def markKeys : List Str := classificationKey :: accessKeys

/-- The values of the fields are those of one marking. -/
def Together (v : Str → Json) : Prop :=
  v classificationKey = .null ∨ ∃ c parts, accessParts C.rt C.engine C.isUc c = .ok parts ∧
    ∀ e ∈ markFields c parts, v e.1 = e.2

/-- A stored document has the access fields of its classification. -/
def Coupled (doc : Json) : Prop := ∃ fields, doc = .obj fields ∧ Together C (Json.entry fields)

variable {C}

theorem keys_accessParts {rt : Runtime} {E : Engine} {isUc : Bool} {c : Str} {parts : Dict Str Json}
    (h : accessParts rt E isUc c = .ok parts) :
    Dict.keys parts = accessKeys ∧ ∀ e ∈ parts, ∀ fields, e.2 ≠ .obj fields := by
  obtain ⟨p, -, h⟩ := bind_eq_ok.mp h
  obtain rfl := Except.ok.inj h
  constructor
  · rfl
  · intro e he fields
    simp only [accessFields, List.mem_cons, List.not_mem_nil, or_false] at he
    cases hlvl : p.accessLvl with
    | _ =>
      rw [hlvl] at he
      rcases he with rfl | rfl | rfl | rfl
      all_goals simp [lvlJson]

theorem nodup_markKeys : markKeys.Nodup := by decide +kernel

theorem keys_markFields {c : Str} {parts : Dict Str Json}
    (h : accessParts C.rt C.engine C.isUc c = .ok parts) :
    Dict.keys (markFields c parts) = markKeys := by
  rw [markFields, markKeys, ← (keys_accessParts h).1]
  rfl

theorem mem_markKeys {c : Str} {parts : Dict Str Json} {e : Str × Json}
    (h : accessParts C.rt C.engine C.isUc c = .ok parts) (he : e ∈ markFields c parts) :
    e.1 ∈ markKeys := by
  rw [← keys_markFields h]
  exact List.mem_map_of_mem he

theorem Together.congr {v w : Str → Json} (h : Together C v) (hvw : ∀ k ∈ markKeys, w k = v k) :
    Together C w := by
  cases h with
  | inl hnull =>
    left
    rw [hvw _ (by simp [markKeys]), hnull]
  | inr hmark =>
    obtain ⟨c, parts, hparts, hv⟩ := hmark
    right
    refine ⟨c, parts, hparts, ?_⟩
    intro e he
    rw [hvw _ (mem_markKeys hparts he), hv e he]

/-- Values of one marking are written: all of them, or over values of the same marking. -/
theorem Together.write {v w : Str → Json} (h : Together C v) {c : Str} {parts : Dict Str Json}
    (hparts : accessParts C.rt C.engine C.isUc c = .ok parts)
    (hw : ∀ e ∈ markFields c parts, w e.1 = v e.1 ∨ w e.1 = e.2)
    (hall : v classificationKey = .str c ∨ ∀ e ∈ markFields c parts, w e.1 = e.2) :
    Together C w := by
  right
  refine ⟨c, parts, hparts, ?_⟩
  cases hall with
  | inr hall => exact hall
  | inl hsame =>
    have hv : ∀ e ∈ markFields c parts, v e.1 = e.2 := by
      cases h with
      | inl hnull =>
        rw [hsame] at hnull
        cases hnull
      | inr hmark =>
        obtain ⟨c', parts', hparts', hv'⟩ := hmark
        have hc : Json.str c = .str c' := hsame.symm.trans (hv' (classificationKey, .str c') (by
          simp [markFields]))
        obtain rfl := Json.str.inj hc
        rw [hparts] at hparts'
        obtain rfl := Except.ok.inj hparts'
        exact hv'
    intro e he
    cases hw e he with
    | inl hold => rw [hold, hv e he]
    | inr hnew => exact hnew

end Coupled

variable {C}

section Documents

/-- The last of the fields that hold a marking. -/
def lastMarking : List (Str × Held) → Option (Bool × Str)
  | [] => none
  | (_, .value _) :: held => lastMarking held
  | (_, .marking isUc c) :: held => some ((lastMarking held).getD (isUc, c))

/-- The last marking of the document has the access fields of its classification. -/
def Instance.WellMarked (C : ESCollection) (d : Instance C.isUc) : Prop :=
  ∀ isUc c, lastMarking d.held = some (isUc, c) →
    ∃ c', Dict.get? d.held classificationKey = some (.marking C.isUc c') ∧
      accessParts C.rt C.engine isUc c = accessParts C.rt C.engine C.isUc c'

def Held.json : Held → Json
  | value j => j
  | marking _ c => .str c

theorem get?_updateAll_of_not_mem {d other : Dict Str Json} {k : Str} (hk : k ∉ Dict.keys other) :
    Dict.get? (updateAll d other) k = Dict.get? d k := by
  induction other generalizing d with
  | nil => rfl
  | cons e other ih =>
    have hne : k ≠ e.1 := fun h => hk (by simp [Dict.keys, h])
    have htail : k ∉ Dict.keys other := fun h => hk (List.mem_cons_of_mem _ h)
    have hset := ih (d := Dict.set d e.1 e.2) htail
    rw [Dict.get?_set, if_neg hne] at hset
    exact hset

theorem get?_updateAll {d other : Dict Str Json} (hnodup : (Dict.keys other).Nodup)
    {e : Str × Json} (he : e ∈ other) : Dict.get? (updateAll d other) e.1 = some e.2 := by
  induction other generalizing d with
  | nil => cases he
  | cons e' other ih =>
    obtain ⟨hk, htail⟩ := List.nodup_cons.mp hnodup
    cases List.mem_cons.mp he with
    | inl heq =>
      subst heq
      have hset := get?_updateAll_of_not_mem (d := Dict.set d e.1 e.2) hk
      rw [Dict.get?_set, if_pos rfl] at hset
      exact hset
    | inr hmem => exact ih htail hmem

theorem nodup_updateAll {d : Dict Str Json} (h : (Dict.keys d).Nodup) (other : List (Str × Json)) :
    (Dict.keys (updateAll d other)).Nodup := by
  induction other generalizing d with
  | nil => exact h
  | cons e other ih => exact ih (Dict.nodup_keys_set h e.1 e.2)

/-- What one field adds to the primitives. -/
theorem addPrimitive_spec {rt : Runtime} {E : Engine} {out out' : Dict Str Json} {key : Str}
    {held : Held} (h : addPrimitive rt E out key held = .ok out') :
    (∀ k, k ∉ accessKeys → Dict.get? out' k =
      if k = key then some held.json else Dict.get? out k) ∧
    (match held with
      | .value _ => ∀ k ∈ accessKeys, k ≠ key → Dict.get? out' k = Dict.get? out k
      | .marking isUc c => ∃ parts, accessParts rt E isUc c = .ok parts ∧
          ∀ e ∈ parts, Dict.get? out' e.1 = some e.2) ∧
    ((Dict.keys out).Nodup → (Dict.keys out').Nodup) := by
  cases held with
  | value j =>
    obtain rfl := Except.ok.inj h
    refine ⟨fun k _ => Dict.get?_set .., ?_, fun hnodup => Dict.nodup_keys_set hnodup _ _⟩
    intro k _ hk
    rw [Dict.get?_set, if_neg hk]
  | marking isUc c =>
    obtain ⟨parts, hparts, h⟩ := bind_eq_ok.mp h
    obtain rfl := Except.ok.inj h
    have hkeys := (keys_accessParts hparts).1
    refine ⟨?_, ⟨parts, hparts, ?_⟩, ?_⟩
    · intro k hk
      rw [get?_updateAll_of_not_mem (hkeys ▸ hk), Dict.get?_set]
      rfl
    · intro e he
      exact get?_updateAll (by rw [hkeys]; decide +kernel) he
    · intro hnodup
      exact nodup_updateAll (Dict.nodup_keys_set hnodup _ _) _

theorem foldlM_addPrimitive {rt : Runtime} {E : Engine} {held : Dict Str Held}
    {out out' : Dict Str Json} (hheld : (Dict.keys held).Nodup)
    (hnamed : ∀ k ∈ accessKeys, k ∉ Dict.keys held)
    (h : held.foldlM (fun out e => addPrimitive rt E out e.1 e.2) out = .ok out') :
    (∀ k, k ∉ accessKeys → Dict.get? out' k =
      ((Dict.get? held k).map Held.json).or (Dict.get? out k)) ∧
    (match lastMarking held with
      | none => ∀ k ∈ accessKeys, Dict.get? out' k = Dict.get? out k
      | some (isUc, c) => ∃ parts, accessParts rt E isUc c = .ok parts ∧
          ∀ e ∈ parts, Dict.get? out' e.1 = some e.2) ∧
    ((Dict.keys out).Nodup → (Dict.keys out').Nodup) := by
  induction held generalizing out with
  | nil =>
    obtain rfl := Except.ok.inj h
    exact ⟨fun k _ => by simp, fun k _ => rfl, id⟩
  | cons e held ih =>
    obtain ⟨key, v⟩ := e
    obtain ⟨hkey, htail⟩ := List.nodup_cons.mp hheld
    rw [List.foldlM_cons] at h
    obtain ⟨mid, hmid, hrest⟩ := bind_eq_ok.mp h
    have hstep := addPrimitive_spec hmid
    have hnamedTail : ∀ k ∈ accessKeys, k ∉ Dict.keys held :=
      fun k hk hmem => hnamed k hk (List.mem_cons_of_mem _ hmem)
    have hkeyAccess : ∀ k ∈ accessKeys, k ≠ key :=
      fun k hk heq => hnamed k hk (heq ▸ List.mem_cons_self)
    obtain ⟨hvalues, hmarks, hnodup⟩ := ih htail hnamedTail hrest
    refine ⟨?_, ?_, fun hn => hnodup (hstep.2.2 hn)⟩
    · intro k hk
      rw [hvalues k hk, hstep.1 k hk, Dict.get?_cons]
      by_cases heq : k = key
      · subst heq
        have hnone : Dict.get? held k = none := (Dict.get?_eq_none_iff _ _).mpr hkey
        simp [hnone]
      · simp [heq]
    · cases v with
      | value j =>
        rw [lastMarking]
        cases hlast : lastMarking held with
        | none =>
          rw [hlast] at hmarks
          intro k hk
          rw [hmarks k hk]
          exact hstep.2.1 k hk (hkeyAccess k hk)
        | some marking =>
          rw [hlast] at hmarks
          exact hmarks
      | marking isUc c =>
        rw [lastMarking]
        cases hlast : lastMarking held with
        | none =>
          rw [hlast] at hmarks
          obtain ⟨parts, hparts, hout⟩ := hstep.2.1
          refine ⟨parts, hparts, ?_⟩
          intro e he
          have hmem : e.1 ∈ accessKeys := by
            rw [← (keys_accessParts hparts).1]
            exact List.mem_map_of_mem he
          rw [hmarks e.1 hmem, hout e he]
        | some marking =>
          rw [hlast] at hmarks
          exact hmarks

theorem exists_asPrimitives {rt : Runtime} {E : Engine} {isUc : Bool} {d : Instance isUc}
    (h : ∀ e ∈ d.held, ∀ isUc c, e.2 = .marking isUc c →
      ∃ parts, accessParts rt E isUc c = .ok parts) : ∃ out, d.asPrimitives rt E = .ok out := by
  have hfold : ∀ (held : List (Str × Held)) (out : Dict Str Json),
      (∀ e ∈ held, ∀ isUc c, e.2 = .marking isUc c →
        ∃ parts, accessParts rt E isUc c = .ok parts) →
      ∃ out', held.foldlM (fun out e => addPrimitive rt E out e.1 e.2) out = .ok out' := by
    intro held
    induction held with
    | nil => exact fun out _ => ⟨out, rfl⟩
    | cons e held ih =>
      intro out hheld
      have hstep : ∃ mid, addPrimitive rt E out e.1 e.2 = .ok mid := by
        cases hv : e.2 with
        | value j => exact ⟨_, rfl⟩
        | marking isUc c =>
          obtain ⟨parts, hparts⟩ := hheld e (by simp) isUc c hv
          rw [addPrimitive, hparts]
          exact ⟨_, rfl⟩
      obtain ⟨mid, hmid⟩ := hstep
      obtain ⟨out', hout'⟩ := ih mid fun e he => hheld e (by simp [he])
      refine ⟨out', ?_⟩
      rw [List.foldlM_cons, hmid]
      exact hout'
  exact hfold d.held [] h

theorem lastMarking_ne_none {held : Dict Str Held} {k : Str} {isUc : Bool} {c : Str}
    (h : Dict.get? held k = some (.marking isUc c)) : lastMarking held ≠ none := by
  have hmem := Dict.mem_of_get? h
  induction held with
  | nil => cases hmem
  | cons e held ih =>
    obtain ⟨key, v⟩ := e
    cases v with
    | marking isUc' c' => simp [lastMarking]
    | value j =>
      rw [lastMarking]
      have hne : k ≠ key := by
        intro heq
        rw [Dict.get?_cons, if_pos heq] at h
        cases h
      rw [Dict.get?_cons, if_neg hne] at h
      exact ih h (Dict.mem_of_get? h)

/-- The primitives of a document with a classification hold it with its access fields, those of
another hold neither. -/
theorem asPrimitives_marks {d : Instance C.isUc} (hd : d.WellMarked C) {out : Dict Str Json}
    (h : d.asPrimitives C.rt C.engine = .ok out) :
    (Dict.keys out).Nodup ∧
      ((Dict.get? d.held classificationKey = none ∧ ∀ k ∈ markKeys, Dict.get? out k = none) ∨
        ∃ c parts, Dict.get? d.held classificationKey = some (.marking C.isUc c) ∧
          accessParts C.rt C.engine C.isUc c = .ok parts ∧
          ∀ e ∈ markFields c parts, Dict.get? out e.1 = some e.2) := by
  obtain ⟨hvalues, hmarks, hnodup⟩ := foldlM_addPrimitive d.nodup d.named h
  have hclass := hvalues classificationKey (by decide +kernel)
  refine ⟨hnodup (by simp [Dict.keys]), ?_⟩
  cases hget : Dict.get? d.held classificationKey with
  | none =>
    left
    refine ⟨rfl, ?_⟩
    have hlast : lastMarking d.held = none := by
      cases hlast : lastMarking d.held with
      | none => rfl
      | some marking =>
        obtain ⟨c, hc, -⟩ := hd marking.1 marking.2 hlast
        rw [hget] at hc
        cases hc
    rw [hlast] at hmarks
    intro k hk
    cases List.mem_cons.mp hk with
    | inl heq => rw [heq, hclass, hget]; rfl
    | inr hmem => exact hmarks k hmem
  | some v =>
    right
    obtain ⟨c, rfl⟩ := d.marked v hget
    obtain ⟨marking, hlast⟩ := Option.ne_none_iff_exists'.mp (lastMarking_ne_none hget)
    obtain ⟨c', hc', hsame⟩ := hd marking.1 marking.2 hlast
    rw [hget] at hc'
    obtain rfl : c = c' := (Held.marking.inj (Option.some.inj hc')).2
    rw [hlast] at hmarks
    obtain ⟨parts, hparts, hout⟩ := hmarks
    refine ⟨c, parts, rfl, hsame ▸ hparts, ?_⟩
    intro e he
    cases List.mem_cons.mp he with
    | inl heq => rw [heq, hclass, hget]; rfl
    | inr hmem => exact hout e hmem

end Documents

section Bodies

theorem merge_of_ne_obj {j : Json} (hj : ∀ fields, j ≠ .obj fields) (stored : Json) :
    Json.merge stored j = j := by
  cases j with
  | obj fields => exact absurd rfl (hj fields)
  | _ => cases stored <;> rfl

theorem ne_obj_of_mem_markFields {c : Str} {parts : Dict Str Json}
    (hparts : accessParts C.rt C.engine C.isUc c = .ok parts) {e : Str × Json}
    (he : e ∈ markFields c parts) (fields : Dict Str Json) : e.2 ≠ .obj fields := by
  cases List.mem_cons.mp he with
  | inl heq =>
    rw [heq]
    simp
  | inr hmem => exact (keys_accessParts hparts).2 e hmem fields

/-- A body that has the values of one marking, all or over a document with that marking. -/
theorem coupled_merge {stored : Json} (hstored : Coupled C stored) {body : Dict Str Json}
    (hnodup : (Dict.keys body).Nodup)
    (hbody : (∀ k ∈ markKeys, Dict.get? body k = none) ∨
      ∃ c parts, accessParts C.rt C.engine C.isUc c = .ok parts ∧
        (∀ e ∈ markFields c parts, Dict.get? body e.1 = none ∨ Dict.get? body e.1 = some e.2) ∧
        (Json.getAt [classificationKey] stored = some (.str c) ∨
          ∀ e ∈ markFields c parts, Dict.get? body e.1 = some e.2)) :
    Coupled C (Json.merge stored (.obj body)) := by
  obtain ⟨fields, rfl, hfields⟩ := hstored
  refine ⟨Json.mergeFields fields body, rfl, ?_⟩
  have hnone : ∀ k, Dict.get? body k = none →
      Json.entry (Json.mergeFields fields body) k = Json.entry fields k := by
    intro k hk
    rw [Json.entry, Json.get?_mergeFields hnodup, hk]
    rfl
  cases hbody with
  | inl hbody => exact hfields.congr fun k hk => hnone k (hbody k hk)
  | inr hbody =>
    obtain ⟨c, parts, hparts, hvalues, hall⟩ := hbody
    have hsome : ∀ e ∈ markFields c parts, Dict.get? body e.1 = some e.2 →
        Json.entry (Json.mergeFields fields body) e.1 = e.2 := by
      intro e he hget
      rw [Json.entry, Json.get?_mergeFields hnodup, hget]
      exact merge_of_ne_obj (ne_obj_of_mem_markFields hparts he) _
    apply hfields.write hparts
    · intro e he
      exact (hvalues e he).imp (hnone e.1) (hsome e he)
    · cases hall with
      | inl hsame => exact .inl (Option.some.inj hsame)
      | inr hall => exact .inr fun e he => hsome e he (hall e he)

/-- A document with its id. -/
theorem coupled_savedDoc {d : Instance C.isUc} (hd : d.WellMarked C) {docId : Str} {saved : Json}
    (h : savedDoc C.rt C.engine docId d = .ok saved) :
    Coupled C saved ∧ ∀ stored, Coupled C stored → Coupled C (Json.merge stored saved) := by
  obtain ⟨out, hout, h⟩ := bind_eq_ok.mp h
  obtain rfl := Except.ok.inj h
  obtain ⟨hnodup, hmarks⟩ := asPrimitives_marks hd hout
  have hid : ∀ k ∈ markKeys,
      Dict.get? (Dict.set out "id".toList (.str docId)) k = Dict.get? out k := by
    intro k hk
    have hne : k ≠ "id".toList := by
      intro heq
      subst heq
      exact absurd hk (by decide +kernel)
    rw [Dict.get?_set, if_neg hne]
  have hbody : (∀ k ∈ markKeys, Dict.get? (Dict.set out "id".toList (.str docId)) k = none) ∨
      ∃ c parts, accessParts C.rt C.engine C.isUc c = .ok parts ∧ ∀ e ∈ markFields c parts,
        Dict.get? (Dict.set out "id".toList (.str docId)) e.1 = some e.2 := by
    cases hmarks with
    | inl hnone =>
      left
      intro k hk
      rw [hid k hk, hnone.2 k hk]
    | inr hmark =>
      right
      obtain ⟨c, parts, -, hparts, hvalues⟩ := hmark
      refine ⟨c, parts, hparts, ?_⟩
      intro e he
      rw [hid e.1 (mem_markKeys hparts he), hvalues e he]
  constructor
  · refine ⟨_, rfl, ?_⟩
    cases hbody with
    | inl hnone =>
      left
      rw [Json.entry, hnone _ (by simp [markKeys])]
      rfl
    | inr hmark =>
      right
      obtain ⟨c, parts, hparts, hvalues⟩ := hmark
      refine ⟨c, parts, hparts, ?_⟩
      intro e he
      rw [Json.entry, hvalues e he]
      rfl
  · intro stored hstored
    apply coupled_merge hstored (Dict.nodup_keys_set hnodup _ _)
    cases hbody with
    | inl hnone => exact .inl hnone
    | inr hmark =>
      obtain ⟨c, parts, hparts, hvalues⟩ := hmark
      exact .inr ⟨c, parts, hparts, fun e he => .inr (hvalues e he), .inr hvalues⟩

/-- A key of a document that the patterns keep. -/
def Selects (allowed : List Str) (k : Str) : Prop := k ∈ allowed ∨ leadsOn allowed k = true

theorem pruneList_map_str (allowed : List Str) (pre : Str) (xs : List Str) :
    pruneList allowed pre (xs.map .str) = xs.map .str := by
  induction xs with
  | nil => rfl
  | cons x xs ih => rw [List.map_cons, pruneList, ih, pruneToPaths]

theorem pruneToPaths_markFields {c : Str} {parts : Dict Str Json}
    (hparts : accessParts C.rt C.engine C.isUc c = .ok parts) {e : Str × Json}
    (he : e ∈ markFields c parts) (allowed : List Str) (pre : Str) :
    pruneToPaths allowed pre e.2 = e.2 := by
  obtain ⟨p, -, h⟩ := bind_eq_ok.mp hparts
  obtain rfl := Except.ok.inj h
  simp only [markFields, accessFields, List.mem_cons, List.not_mem_nil, or_false] at he
  cases hlvl : p.accessLvl with
  | _ =>
    rw [hlvl] at he
    rcases he with rfl | rfl | rfl | rfl | rfl
    all_goals simp [lvlJson, pruneToPaths, pruneList_map_str]

/-- What patterns keep of the marking. -/
theorem get?_pruned {out : Dict Str Json} (hnodup : (Dict.keys out).Nodup) {c : Str}
    {parts : Dict Str Json} (hparts : accessParts C.rt C.engine C.isUc c = .ok parts)
    {e : Str × Json} (he : e ∈ markFields c parts) (hout : Dict.get? out e.1 = some e.2)
    (allowed : List Str) :
    (Selects allowed e.1 → Dict.get? (pruneFields allowed [] out) e.1 = some e.2) ∧
      (¬ Selects allowed e.1 → Dict.get? (pruneFields allowed [] out) e.1 = none) := by
  have hpath : curPath [] e.1 = e.1 := rfl
  rw [get?_pruneFields hnodup, hpath, hout, Option.map_some, pruneToPaths_markFields hparts he]
  rw [Selects]
  by_cases hallowed : e.1 ∈ allowed
  · simp [hallowed]
  · by_cases hleads : leadsOn allowed e.1 = true
    · simp [hallowed, hleads]
    · simp [hallowed, hleads]

end Bodies

end Howler.Datastore
