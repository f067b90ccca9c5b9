import Howler.Datastore.Writes
import Howler.Python.Raising
import Howler.Structures.Addresses

namespace Howler.Datastore

open Python Structures Json

section Selection

variable (allowed : List Str)

/-- A key on the way to the place is kept with all that is below it. -/
def selected : Str → Address → Bool
  | _, [] => false
  | pre, .key k :: a => curPath pre k ∈ allowed || selected (curPath pre k) a
  | pre, .index _ :: a => selected pre a

/-- Every key on the way to the place leads on to an allowed path. -/
def leading : Str → Address → Bool
  | _, [] => true
  | pre, .key k :: a => leadsOn allowed (curPath pre k) && leading (curPath pre k) a
  | pre, .index _ :: a => leading pre a

/-- A map on the way to the place has no entry for it. -/
def absent : Address → Json → Bool
  | .key k :: a, obj fields =>
    match Dict.get? fields k with
    | some v => absent a v
    | none => true
  | _, _ => false

/-- The place is in a value that takes the place of the stored one: one of the two is not a map. -/
def overwritten : Str → Address → Json → Json → Bool
  | _, [], obj _, obj _ => false
  | pre, .key k :: a, obj stored, obj fields =>
    match Dict.get? fields k with
    | some v => leadsOn allowed (curPath pre k) && overwritten (curPath pre k) a (entry stored k) v
    | none => false
  | _, _, _, _ => true

/-- Where a value is written for the selected places, and nowhere else. -/
def Exact (stored doc result : Json) : Prop :=
  ∀ a, (selected allowed [] a = true → top (lookup a result) = top (lookup a doc)) ∧
    (selected allowed [] a = false → leaf (lookup a result) = leaf (lookup a stored))

/-- Nothing is stored at a selected place for which the document has no entry. -/
def NothingCleared (stored doc : Json) : Prop :=
  ∀ a, selected allowed [] a = true → absent a doc = true → lookup a stored = null

/-- Nothing but what is written is stored outside the selected places in a value that is replaced. -/
def NothingDropped (stored doc : Json) : Prop :=
  ∀ a, selected allowed [] a = false → overwritten allowed [] a stored doc = true →
    leaf (lookup a stored) = if leading allowed [] a then leaf (lookup a doc) else null

end Selection

section Pruned

variable {allowed : List Str}

theorem leadsOn_of_selected {pre : Str} {a : Address} (hpre : pre ≠ [])
    (h : selected allowed pre a = true) : leadsOn allowed pre = true := by
  induction a generalizing pre with
  | nil => cases h
  | cons s a ih =>
    cases s with
    | index i => exact ih hpre h
    | key k =>
      have hpath : curPath pre k = pre ++ '.' :: k := if_neg hpre
      rw [selected, Bool.or_eq_true, decide_eq_true_eq, hpath] at h
      rw [leadsOn, List.any_eq_true]
      cases h with
      | inl hmem => exact ⟨_, hmem, List.isPrefixOf_iff_prefix.mpr ⟨k, by simp⟩⟩
      | inr hdeep =>
        have hne : pre ++ '.' :: k ≠ [] := by simp
        have hleads := ih hne hdeep
        rw [leadsOn, List.any_eq_true] at hleads
        obtain ⟨p, hp, hprefix⟩ := hleads
        obtain ⟨rest, rfl⟩ := List.isPrefixOf_iff_prefix.mp hprefix
        exact ⟨_, hp, List.isPrefixOf_iff_prefix.mpr ⟨k ++ ['.'] ++ rest, by simp⟩⟩

theorem getD_pruneList (pre : Str) (xs : List Json) (i : ℕ) :
    (pruneList allowed pre xs).getD i null = pruneToPaths allowed pre (xs.getD i null) := by
  induction xs generalizing i with
  | nil => simp [pruneList, pruneToPaths]
  | cons x xs ih =>
    cases i with
    | zero => rfl
    | succ i => exact ih i

/-- What is kept under a key. -/
theorem entry_pruneFields {fields : Dict Str Json} (hnodup : (Dict.keys fields).Nodup) (pre k : Str) :
    entry (pruneFields allowed pre fields) k =
      if curPath pre k ∈ allowed then entry fields k
      else if leadsOn allowed (curPath pre k) then
        pruneToPaths allowed (curPath pre k) (entry fields k)
      else null := by
  rw [entry, get?_pruneFields hnodup]
  split
  · rfl
  · split
    · rw [entry]
      cases Dict.get? fields k with
      | none => simp [pruneToPaths]
      | some v => rfl
    · rfl

theorem keyed_pruneToPaths {pre : Str} {doc : Json} (h : Keyed doc) :
    Keyed (pruneToPaths allowed pre doc) := by
  intro a
  induction a generalizing pre doc with
  | nil =>
    intro fields hfields
    cases doc with
    | obj gs =>
      rw [lookup, pruneToPaths] at hfields
      obtain rfl := Json.obj.inj hfields
      exact nodup_keys_pruneFields h.nodup _ _
    | _ => simp [lookup, pruneToPaths] at hfields
  | cons s a ih =>
    intro fields hfields
    cases doc with
    | obj gs =>
      cases s with
      | index i => simp [lookup, pruneToPaths] at hfields
      | key k =>
        rw [pruneToPaths, lookup, entry_pruneFields h.nodup] at hfields
        split at hfields
        · exact h.entry k a fields hfields
        · split at hfields
          · exact ih (h.entry k) fields hfields
          · rw [lookup_null] at hfields
            cases hfields
    | list xs =>
      cases s with
      | key k => simp [lookup, pruneToPaths] at hfields
      | index i =>
        rw [pruneToPaths, lookup, getD_pruneList] at hfields
        exact ih (h.getD i) fields hfields
    | _ => cases s <;> simp [lookup, pruneToPaths] at hfields

/-- The names on the way have a path: below a path, or at the top where no name is empty. -/
def Rooted (pre : Str) (doc : Json) : Prop :=
  pre ≠ [] ∨ ∃ fields, doc = obj fields ∧ [] ∉ Dict.keys fields

/-- A name that is there has a path. -/
theorem curPath_ne_nil {pre k : Str} {fields : Dict Str Json} (h : Rooted pre (obj fields)) {v : Json}
    (hv : Dict.get? fields k = some v) : curPath pre k ≠ [] := by
  rw [curPath]
  split
  · next hpre =>
    cases h with
    | inl hne => exact absurd hpre hne
    | inr htop =>
      obtain ⟨fields', heq, hkeys⟩ := htop
      obtain rfl := Json.obj.inj heq
      intro hk
      exact hkeys (hk ▸ (Dict.mem_keys_iff fields k).mpr ⟨v, hv⟩)
  · simp

/-- What pruning leaves at a place: all of a selected value, and else what leads on. -/
theorem lookup_pruneToPaths {pre : Str} {a : Address} {doc : Json} (hkeyed : Keyed doc)
    (hroot : Rooted pre doc) :
    (selected allowed pre a = true → lookup a (pruneToPaths allowed pre doc) = lookup a doc) ∧
    (selected allowed pre a = false → leaf (lookup a (pruneToPaths allowed pre doc)) =
      if leading allowed pre a then leaf (lookup a doc) else null) := by
  induction a generalizing pre doc with
  | nil =>
    constructor
    · intro h
      cases h
    · intro _
      cases doc with
      | _ => simp [lookup, pruneToPaths, leading, leaf]
  | cons s a ih =>
    cases s with
    | index i =>
      cases doc with
      | list xs =>
        have hpre : pre ≠ [] := by
          cases hroot with
          | inl hne => exact hne
          | inr htop =>
            obtain ⟨fields, heq, -⟩ := htop
            cases heq
        have htail := @ih pre _ (hkeyed.getD i) (.inl hpre)
        rw [pruneToPaths, lookup, lookup, getD_pruneList, selected, leading]
        exact htail
      | _ => simp [lookup, pruneToPaths, leaf]
    | key k =>
      cases doc with
      | obj fields =>
        rw [pruneToPaths, lookup, lookup, entry_pruneFields hkeyed.nodup, selected, leading]
        cases hget : Dict.get? fields k with
        | none =>
          have hentry : entry fields k = null := by rw [entry, hget]; rfl
          have hnull : (if curPath pre k ∈ allowed then entry fields k
              else if leadsOn allowed (curPath pre k) then
                pruneToPaths allowed (curPath pre k) (entry fields k) else null) = null := by
            rw [hentry, pruneToPaths]
            split
            · rfl
            · split <;> rfl
          rw [hnull, hentry, lookup_null]
          simp [leaf]
        | some v =>
          have hne := curPath_ne_nil hroot hget
          by_cases hallowed : curPath pre k ∈ allowed
          · simp [hallowed]
          · by_cases hleads : leadsOn allowed (curPath pre k) = true
            · have htail := @ih (curPath pre k) _ (hkeyed.entry k) (.inl hne)
              rw [if_neg hallowed, if_pos hleads]
              simpa [hallowed, hleads] using htail
            · have hnot : selected allowed (curPath pre k) a = false := by
                rw [← Bool.not_eq_true]
                exact fun h => hleads (leadsOn_of_selected hne h)
              rw [if_neg hallowed, if_neg hleads, lookup_null]
              simp [hallowed, hleads, hnot, leaf]
      | _ => simp [lookup, pruneToPaths, leaf]

/-- A place that is not selected is replaced by what is kept where the value above it is. -/
theorem meeting_pruneToPaths {pre : Str} {a : Address} {stored doc : Json} (hkeyed : Keyed doc)
    (ha : selected allowed pre a = false) :
    meeting a stored (pruneToPaths allowed pre doc) = .replaced ↔
      overwritten allowed pre a stored doc = true := by
  induction a generalizing pre stored doc with
  | nil =>
    cases stored with
    | obj gs =>
      cases doc with
      | _ => simp [meeting, pruneToPaths, overwritten]
    | _ =>
      cases doc with
      | _ => simp [meeting, overwritten]
  | cons s a ih =>
    cases stored with
    | obj gs =>
      cases doc with
      | obj fields =>
        cases s with
        | index i => simp [meeting, overwritten]
        | key k =>
          rw [selected, Bool.or_eq_false_iff, decide_eq_false_iff_not] at ha
          obtain ⟨hallowed, hdeep⟩ := ha
          rw [pruneToPaths, meeting, overwritten, get?_pruneFields hkeyed.nodup, if_neg hallowed]
          cases hget : Dict.get? fields k with
          | none => simp
          | some v =>
            by_cases hleads : leadsOn allowed (curPath pre k) = true
            · have htail := @ih (curPath pre k) (entry gs k) _ (hkeyed.get? hget) hdeep
              simpa [hleads] using htail
            · simp [hleads]
      | _ => cases s <;> simp [meeting, pruneToPaths, overwritten]
    | _ =>
      cases doc with
      | _ => cases s <;> simp [meeting, overwritten]

/-- Where the document has no entry, the stored value stays or there is none. -/
theorem meeting_of_absent {a : Address} {stored doc : Json} (h : absent a doc = true) :
    meeting a stored doc = .kept ∨ lookup a stored = null := by
  induction a generalizing stored doc with
  | nil => cases h
  | cons s a ih =>
    cases s with
    | index i => cases h
    | key k =>
      cases stored with
      | obj gs =>
        cases doc with
        | obj fields =>
          rw [absent] at h
          rw [meeting, lookup]
          cases hget : Dict.get? fields k with
          | none => exact .inl rfl
          | some v =>
            rw [hget] at h
            exact ih h
        | _ => cases h
      | _ => exact .inr rfl

theorem absent_of_meeting {a : Address} {stored doc : Json} (h : meeting a stored doc = .kept) :
    absent a doc = true := by
  induction a generalizing stored doc with
  | nil =>
    cases stored with
    | obj gs => cases doc <;> cases h
    | _ => cases doc <;> cases h
  | cons s a ih =>
    cases stored with
    | obj gs =>
      cases doc with
      | obj fields =>
        cases s with
        | index i => cases h
        | key k =>
          rw [meeting] at h
          rw [absent]
          cases hget : Dict.get? fields k with
          | none => rfl
          | some v =>
            rw [hget] at h
            exact ih h
      | _ => cases s <;> cases h
    | _ => cases doc <;> cases s <;> cases h

/-- For a selected place pruning takes no entry away. -/
theorem absent_pruneToPaths {pre : Str} {a : Address} {doc : Json} (hkeyed : Keyed doc)
    (hroot : Rooted pre doc) (ha : selected allowed pre a = true) :
    absent a (pruneToPaths allowed pre doc) = absent a doc := by
  induction a generalizing pre doc with
  | nil => cases ha
  | cons s a ih =>
    cases s with
    | index i => cases doc <;> rfl
    | key k =>
      cases doc with
      | obj fields =>
        rw [selected, Bool.or_eq_true, decide_eq_true_eq] at ha
        rw [pruneToPaths, absent, absent, get?_pruneFields hkeyed.nodup]
        by_cases hallowed : curPath pre k ∈ allowed
        · rw [if_pos hallowed]
        · have hdeep := ha.resolve_left hallowed
          rw [if_neg hallowed]
          cases hget : Dict.get? fields k with
          | none => simp
          | some v =>
            have hne := curPath_ne_nil hroot hget
            rw [if_pos (leadsOn_of_selected hne hdeep)]
            exact ih (hkeyed.get? hget) (.inl hne) hdeep
      | _ => rfl

/-- A merge of what is kept is exact where nothing is cleared and nothing dropped. -/
theorem exact_merge_iff {stored doc : Json} (hkeyed : Keyed doc) (hroot : Rooted [] doc) :
    Exact allowed stored doc (merge stored (pruneToPaths allowed [] doc)) ↔
      NothingCleared allowed stored doc ∧ NothingDropped allowed stored doc := by
  have hmerge : ∀ a, _ := fun a =>
    @lookup_merge a stored _ (@keyed_pruneToPaths allowed [] _ hkeyed)
  have hprune := fun a => @lookup_pruneToPaths allowed [] a doc hkeyed hroot
  constructor
  · intro hexact
    constructor
    · intro a ha habsent
      rw [← absent_pruneToPaths hkeyed hroot ha] at habsent
      cases @meeting_of_absent a stored _ habsent with
      | inr hnull => exact hnull
      | inl hkept =>
        have hm := hmerge a
        rw [hkept] at hm
        have hdoc : lookup a doc = null := by rw [← (hprune a).1 ha, hm.2]
        have htop := (hexact a).1 ha
        rw [hm.1, hdoc] at htop
        exact top_eq_null.mp htop
    · intro a ha hover
      have hm := hmerge a
      rw [(meeting_pruneToPaths hkeyed ha).mpr hover] at hm
      rw [← (hexact a).2 ha, hm, (hprune a).2 ha]
  · rintro ⟨hcleared, hdropped⟩ a
    have hm := hmerge a
    cases hmeet : meeting a stored (pruneToPaths allowed [] doc) with
    | replaced =>
      rw [hmeet] at hm
      constructor
      · intro ha
        rw [hm, (hprune a).1 ha]
      · intro ha
        rw [hm, (hprune a).2 ha, hdropped a ha ((meeting_pruneToPaths hkeyed ha).mp hmeet)]
    | kept =>
      rw [hmeet] at hm
      constructor
      · intro ha
        have habsent := absent_of_meeting hmeet
        rw [absent_pruneToPaths hkeyed hroot ha] at habsent
        rw [hm.1, hcleared a ha habsent, ← (hprune a).1 ha, hm.2]
      · intro ha
        rw [hm.1]
    | both =>
      rw [hmeet] at hm
      obtain ⟨merged, fields, fields', hmerged, hstored, hkept⟩ := hm
      constructor
      · intro ha
        rw [hmerged, ← (hprune a).1 ha, hkept]
        rfl
      · intro ha
        rw [hmerged, hstored]
        rfl

end Pruned

section Updates

/-- The fields of a document: distinct names that are not empty, with values of that kind. -/
structure Named (out : Dict Str Json) : Prop where
  nodup : (Dict.keys out).Nodup
  nonempty : [] ∉ Dict.keys out
  keyed : ∀ e ∈ out, Keyed e.2

theorem Named.set {out : Dict Str Json} (h : Named out) {k : Str} {v : Json} (hk : k ≠ [])
    (hv : Keyed v) : Named (Dict.set out k v) where
  nodup := Dict.nodup_keys_set h.nodup k v
  nonempty := by
    rw [Dict.mem_keys_set]
    intro hmem
    cases hmem with
    | inl heq => exact hk heq.symm
    | inr hmem => exact h.nonempty hmem
  keyed := by
    intro e he
    cases Dict.mem_set he with
    | inl heq => rw [heq]; exact hv
    | inr hmem => exact h.keyed e hmem

theorem Named.updateAll {out other : Dict Str Json} (h : Named out)
    (hother : ∀ e ∈ other, e.1 ≠ [] ∧ Keyed e.2) : Named (updateAll out other) := by
  induction other generalizing out with
  | nil => exact h
  | cons e other ih =>
    have he := hother e (by simp)
    exact ih (h.set he.1 he.2) fun e he => hother e (by simp [he])

theorem named_accessFields (parts : AccessControlParts) {e : Str × Json}
    (he : e ∈ accessFields parts) : e.1 ≠ [] ∧ Keyed e.2 := by
  have hlist : ∀ xs : List Str, Keyed (.list (xs.map .str)) := by
    intro xs
    apply keyed_list
    intro x hx
    obtain ⟨s, -, rfl⟩ := List.mem_map.mp hx
    exact keyed_str s
  have hlvl : Keyed (lvlJson parts.accessLvl) := by
    cases parts.accessLvl with
    | idx n => exact keyed_num n
    | text s => exact keyed_str s
  have hnames : [] ∉ accessKeys := by decide +kernel
  have hkey : e.1 ∈ accessKeys := List.mem_map_of_mem (f := Prod.fst) he
  refine ⟨fun heq => hnames (heq ▸ hkey), ?_⟩
  simp only [accessFields, List.mem_cons, List.not_mem_nil, or_false] at he
  rcases he with rfl | rfl | rfl | rfl
  · exact hlvl
  · exact hlist _
  · exact hlist _
  · exact hlist _

variable {rt : Runtime} {E : Engine} {isUc : Bool}

/-- The primitives of an instance are fields of this kind. -/
theorem named_asPrimitives {d : Instance isUc} {out : Dict Str Json}
    (h : d.asPrimitives rt E = .ok out) : Named out := by
  have hfold : ∀ (held : List (Str × Held)) (out out' : Dict Str Json), Named out →
      [] ∉ Dict.keys held → (∀ e ∈ held, ∀ j, e.2 = .value j → Keyed j) →
      held.foldlM (fun out e => addPrimitive rt E out e.1 e.2) out = .ok out' → Named out' := by
    intro held
    induction held with
    | nil =>
      intro out out' hout _ _ h
      obtain rfl := Except.ok.inj h
      exact hout
    | cons e held ih =>
      intro out out' hout hnonempty hkeyed h
      rw [List.foldlM_cons] at h
      obtain ⟨mid, hmid, hrest⟩ := bind_eq_ok.mp h
      have he : e.1 ≠ [] := fun heq => hnonempty (by simp [Dict.keys, heq])
      have hmidNamed : Named mid := by
        cases hv : e.2 with
        | value j =>
          rw [hv] at hmid
          obtain rfl := Except.ok.inj hmid
          exact hout.set he (hkeyed e (by simp) j hv)
        | marking uc c =>
          rw [hv] at hmid
          obtain ⟨parts, hparts, hmid⟩ := bind_eq_ok.mp hmid
          obtain rfl := Except.ok.inj hmid
          obtain ⟨p, -, hparts⟩ := bind_eq_ok.mp hparts
          obtain rfl := Except.ok.inj hparts
          exact (hout.set he (keyed_str c)).updateAll fun e he => named_accessFields p he
      exact ih mid out' hmidNamed (fun hmem => hnonempty (List.mem_cons_of_mem _ hmem))
        (fun e he => hkeyed e (by simp [he])) hrest
  have hempty : Named [] := ⟨by simp [Dict.keys], by simp [Dict.keys], by simp⟩
  exact hfold d.held [] out hempty d.nonempty d.keyed h

/-- The request of an update with patterns. -/
theorem addUpdateOperation_pruned {d : Instance isUc} {out : Dict Str Json}
    (hout : d.asPrimitives rt E = .ok out) (knownPaths patterns indexes : List Str)
    (docId index : Str) :
    addUpdateOperation rt E knownPaths indexes docId d index (some patterns) =
      .ok ((updateTargets indexes index).map fun i => ((i, docId),
        .update (pruneToPaths (expandFieldPatterns knownPaths patterns) [] (.obj out)) false)) := by
  rw [addUpdateOperation, updateBody, hout]
  rfl

/-- What such an update leaves is exact just where it clears and drops nothing. -/
theorem exact_updated_iff {d : Instance isUc} {out : Dict Str Json}
    (hout : d.asPrimitives rt E = .ok out) (allowed : List Str) (stored : Json) :
    Exact allowed stored (.obj out) (merge stored (pruneToPaths allowed [] (.obj out))) ↔
      NothingCleared allowed stored (.obj out) ∧ NothingDropped allowed stored (.obj out) := by
  have hnamed := named_asPrimitives hout
  exact exact_merge_iff (keyed_obj hnamed.nodup hnamed.keyed) (.inr ⟨out, rfl, hnamed.nonempty⟩)

/-- An update with patterns writes the selected places and nothing else exactly where it clears and
drops nothing. -/
theorem update_exact_iff {d : Instance isUc} {out : Dict Str Json}
    (hout : d.asPrimitives rt E = .ok out) (knownPaths patterns indexes : List Str)
    (docId index : Str) (stored : Dict Str Json) :
    ∃ action result, addUpdateOperation rt E knownPaths indexes docId d index (some patterns) =
        .ok ((updateTargets indexes index).map fun i => ((i, docId), action)) ∧
      action.apply (some (.obj stored)) = some result ∧
      (Exact (expandFieldPatterns knownPaths patterns) (.obj stored) (.obj out) result ↔
        NothingCleared (expandFieldPatterns knownPaths patterns) (.obj stored) (.obj out) ∧
          NothingDropped (expandFieldPatterns knownPaths patterns) (.obj stored) (.obj out)) :=
  ⟨_, _, addUpdateOperation_pruned hout knownPaths patterns indexes docId index, rfl,
    exact_updated_iff hout _ _⟩

end Updates

section Cases

def itemJson (name kind : Str) : Json := .obj [("name".toList, .str name), ("type".toList, .str kind)]

theorem keyed_itemJson (name kind : Str) : Keyed (itemJson name kind) := by
  have hnodup : (["name".toList, "type".toList] : List Str).Nodup := by decide +kernel
  apply keyed_obj
  · exact hnodup
  intro e he
  simp only [List.mem_cons, List.not_mem_nil, or_false] at he
  rcases he with rfl | rfl
  · exact keyed_str name
  · exact keyed_str kind

/-- A case with a title and one item. -/
def caseOf (title name kind : Str) : Instance false where
  held := [("title".toList, .value (.str title)), ("items".toList, .value (.list [itemJson name kind]))]
  nodup := by
    have hnodup : (["title".toList, "items".toList] : List Str).Nodup := by decide +kernel
    exact hnodup
  named := by
    have hnamed : ∀ k ∈ accessKeys, k ∉ ["title".toList, "items".toList] := by decide +kernel
    exact hnamed
  nonempty := by
    have hnonempty : [] ∉ ["title".toList, "items".toList] := by decide +kernel
    exact hnonempty
  keyed := by
    intro e he j hj
    simp only [List.mem_cons, List.not_mem_nil, or_false] at he
    rcases he with rfl | rfl
    · exact Held.value.inj hj ▸ keyed_str title
    · rw [← Held.value.inj hj]
      apply keyed_list
      intro x hx
      rw [List.mem_singleton.mp hx]
      exact keyed_itemJson name kind
  marked := by
    intro v hv
    have hkeys : "classification".toList ∉ ["title".toList, "items".toList] := by decide +kernel
    exact absurd ((Dict.mem_keys_iff _ _).mpr ⟨v, hv⟩) hkeys

def casePaths : List Str := ["title".toList, "items.name".toList, "items.type".toList]

/-- What is stored of a case. -/
def caseJson (title name kind : Str) : Dict Str Json :=
  [("title".toList, .str title), ("items".toList, .list [itemJson name kind])]

theorem asPrimitives_caseOf (rt : Runtime) (E : Engine) (title name kind : Str) :
    (caseOf title name kind).asPrimitives rt E = .ok (caseJson title name kind) := rfl

/-- The engine of an instance without markings. -/
def unmarked : Engine where
  originalDefinition :=
    { enforce := some false, dynamicGroups := none, levels := none, required := none, groups := none,
      subgroups := none, unrestricted := none, restricted := none }

/-- The title of a case is written over another. -/
theorem update_exact_iff_title : ∃ action result,
    addUpdateOperation .ascii unmarked casePaths ["case".toList] "1".toList
        (caseOf "new".toList "b".toList "hit".toList) [] (some ["ti*".toList]) =
      .ok ((updateTargets ["case".toList] []).map fun i => ((i, "1".toList), action)) ∧
    action.apply (some (.obj (caseJson "old".toList "a".toList "file".toList))) = some result ∧
    (Exact (expandFieldPatterns casePaths ["ti*".toList])
        (.obj (caseJson "old".toList "a".toList "file".toList))
        (.obj (caseJson "new".toList "b".toList "hit".toList)) result ↔
      NothingCleared (expandFieldPatterns casePaths ["ti*".toList])
          (.obj (caseJson "old".toList "a".toList "file".toList))
          (.obj (caseJson "new".toList "b".toList "hit".toList)) ∧
        NothingDropped (expandFieldPatterns casePaths ["ti*".toList])
          (.obj (caseJson "old".toList "a".toList "file".toList))
          (.obj (caseJson "new".toList "b".toList "hit".toList))) :=
  update_exact_iff (asPrimitives_caseOf .ascii unmarked _ _ _) _ _ _ _ _ _

/-- An update of the type of an item loses its name. -/
theorem name_of_item_lost : ∃ action result,
    addUpdateOperation .ascii unmarked casePaths ["case".toList] "1".toList
        (caseOf "new".toList "b".toList "hit".toList) [] (some ["items.type".toList]) =
      .ok ((updateTargets ["case".toList] []).map fun i => ((i, "1".toList), action)) ∧
    action.apply (some (.obj (caseJson "old".toList "a".toList "file".toList))) = some result ∧
    ¬ Exact (expandFieldPatterns casePaths ["items.type".toList])
      (.obj (caseJson "old".toList "a".toList "file".toList))
      (.obj (caseJson "new".toList "b".toList "hit".toList)) result := by
  have hout := asPrimitives_caseOf .ascii unmarked "new".toList "b".toList "hit".toList
  refine ⟨_, _, addUpdateOperation_pruned hout .., rfl, ?_⟩
  intro hexact
  have hname := ((exact_updated_iff hout _ _).mp hexact).2 [.key "items".toList, .index 0, .key "name".toList]
    (by decide +kernel) (by decide +kernel)
  have hleading : leading (expandFieldPatterns casePaths ["items.type".toList]) []
      [.key "items".toList, .index 0, .key "name".toList] = false := by decide +kernel
  rw [hleading] at hname
  have hstored : leaf (lookup [.key "items".toList, .index 0, .key "name".toList]
      (.obj (caseJson "old".toList "a".toList "file".toList))) = .str "a".toList := rfl
  rw [hstored] at hname
  cases hname

end Cases

end Howler.Datastore
