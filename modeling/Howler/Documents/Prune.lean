import Howler.Structures.Leaves

namespace Howler.Documents

open Python Structures

section Select

variable {f g : Str → Json → Option Json} {fields : List (Str × Json)}

/-- The items that a function of key and value keeps, with what it keeps of them. -/
def select (f : Str → Json → Option Json) (fields : List (Str × Json)) : List (Str × Json) :=
  fields.flatMap fun e => (f e.1 e.2).toList.map fun v => (e.1, v)

theorem select_cons (k : Str) (v : Json) :
    select f ((k, v) :: fields) = (f k v).toList.map (fun v => (k, v)) ++ select f fields := by
  simp [select]

theorem keys_select_sublist : (Dict.keys (select f fields)).Sublist (Dict.keys fields) := by
  induction fields with
  | nil => exact .refl _
  | cons e fields ih =>
    obtain ⟨k, v⟩ := e
    rw [select_cons]
    cases f k v with
    | none => exact ih.cons k
    | some w => exact ih.cons_cons k

/-- Items with distinct keys are selected in the same way where each of them is. -/
theorem select_eq_iff (hnodup : (Dict.keys fields).Nodup) :
    select f fields = select g fields ↔ ∀ k v, (k, v) ∈ fields → f k v = g k v := by
  induction fields with
  | nil => simp [select]
  | cons e fields ih =>
    obtain ⟨k, v⟩ := e
    obtain ⟨hk, hnodup⟩ := List.nodup_cons.mp hnodup
    have hnone : ∀ h : Str → Json → Option Json, ∀ w, (k, w) ∉ select h fields := by
      intro h w hmem
      exact hk (keys_select_sublist.subset (List.mem_map.mpr ⟨(k, w), hmem, rfl⟩))
    rw [select_cons, select_cons]
    constructor
    · intro heq
      have hhead : f k v = g k v := by
        cases hf : f k v with
        | none =>
          cases hg : g k v with
          | none => rfl
          | some w =>
            rw [hf, hg] at heq
            have hmem : (k, w) ∈ select f fields := by
              have hw : select f fields = (k, w) :: select g fields := heq
              rw [hw]
              exact List.mem_cons_self ..
            exact absurd hmem (hnone f w)
        | some u =>
          cases hg : g k v with
          | none =>
            rw [hf, hg] at heq
            have hmem : (k, u) ∈ select g fields := by
              have hu : (k, u) :: select f fields = select g fields := heq
              rw [← hu]
              exact List.mem_cons_self ..
            exact absurd hmem (hnone g u)
          | some w =>
            rw [hf, hg] at heq
            exact congrArg some (Prod.mk.inj (List.cons.inj heq).1).2
      rw [hhead] at heq
      exact Dict.forall_mem_cons.mpr ⟨hhead, (ih hnodup).mp (List.append_cancel_left heq)⟩
    · intro h
      obtain ⟨hhead, htail⟩ := Dict.forall_mem_cons.mp h
      rw [hhead, (ih hnodup).mpr htail]

theorem select_some (fields : List (Str × Json)) : select (fun _ v => some v) fields = fields := by
  induction fields with
  | nil => rfl
  | cons e fields ih =>
    obtain ⟨k, v⟩ := e
    rw [select_cons, ih]
    rfl

theorem select_eq_self_iff (hnodup : (Dict.keys fields).Nodup) :
    select f fields = fields ↔ ∀ k v, (k, v) ∈ fields → f k v = some v := by
  rw [← select_eq_iff hnodup, select_some]

end Select

section Prune

variable {F : Type} (fields : Dict Str F) (mappingClass : F → Bool)

/-- `f"{parent_key}.{key}" if parent_key else key`. -/
def childKey (parent key : Str) : Str := if parent ≠ [] then parent ++ ['.'] ++ key else key

/-- `isinstance(fields.get(key, None), mapping_class)`. -/
def isMapping (key : Str) : Bool := (Dict.get? fields key).any mappingClass

/-- The keys that start with a text. -/
def starting (keys : List Str) (pre : Str) : List Str := keys.filter fun k => pre.isPrefixOf k

mutual

/-- The loop of `prune`. -/
def pruneItems (keys : List Str) (parent : Str) : List (Str × Json) → List (Str × Json)
  | [] => []
  | (key, val) :: data =>
    let curKey := childKey parent key
    let kept := if isMapping fields mappingClass curKey then some val
      else pruneValue keys curKey val
    kept.toList.map (fun v => (key, v)) ++ pruneItems keys parent data

/-- What is kept of a value that is no mapping. -/
def pruneValue (keys : List Str) (curKey : Str) : Json → Option Json
  | .obj data =>
    let childKeys := starting keys curKey
    if childKeys.length > 0 then
      some (.obj (Dict.ofItems (pruneItems childKeys curKey data)))
    else none
  | .list val =>
    -- the loop over the entries asks whether the list is a dict: every entry is kept as it is
    if curKey ∉ keys ∧ (starting keys curKey).length = 0 then none else some (.list val)
  | val => if curKey ∈ keys then some val else none

end

/-- `prune`. -/
def prune (keys : List Str) (data : List (Str × Json)) : List (Str × Json) :=
  Dict.ofItems (pruneItems fields mappingClass keys [] data)

end Prune

section Restrict

variable {F : Type} (fields : Dict Str F) (mappingClass : F → Bool) (keys : List Str)

/-- A requested path, or what is on the way to one. -/
def Leads (path : Str) : Prop := ∃ k ∈ keys, k = path ∨ (path ++ ['.']) <+: k

instance (path : Str) : Decidable (Leads keys path) := inferInstanceAs (Decidable (∃ _ ∈ _, _ ∨ _))

def isObj : Json → Bool
  | .obj _ => true
  | _ => false

mutual

/-- A document restricted to its requested leaves, and to the mappings among what is on the way to
them. -/
def restrict (parent : Str) : List (Str × Json) → List (Str × Json)
  | [] => []
  | (key, val) :: data =>
    let path := childKey parent key
    let kept := if isMapping fields mappingClass path then some val else restrictValue path val
    kept.toList.map (fun v => (key, v)) ++ restrict parent data

/-- A map, or a list with maps, is restricted where it leads to a requested path; a list without maps
is a leaf. -/
def restrictValue (path : Str) : Json → Option Json
  | .obj data => if Leads keys path then some (.obj (restrict path data)) else none
  | .list val =>
    if val.any isObj then if Leads keys path then some (.list (restrictEntries path val)) else none
    else if path ∈ keys then some (.list val) else none
  | val => if path ∈ keys then some val else none

def restrictEntries (path : Str) : List Json → List Json
  | [] => []
  | entry :: val => (restrictEntry path entry).toList ++ restrictEntries path val

/-- An entry of a list with maps. -/
def restrictEntry (path : Str) : Json → Option Json
  | .obj data => some (.obj (restrict path data))
  | entry => if path ∈ keys then some entry else none

end

mutual

/-- Every leaf is requested. -/
def Whole (parent : Str) : List (Str × Json) → Prop
  | [] => True
  | (key, val) :: data =>
    (isMapping fields mappingClass (childKey parent key) ∨ WholeValue (childKey parent key) val) ∧
      Whole parent data

def WholeValue (path : Str) : Json → Prop
  | .obj data => Leads keys path ∧ Whole path data
  | .list val =>
    if val.any isObj then Leads keys path ∧ WholeEntries path val else path ∈ keys
  | _ => path ∈ keys

def WholeEntries (path : Str) : List Json → Prop
  | [] => True
  | entry :: val => WholeEntry path entry ∧ WholeEntries path val

def WholeEntry (path : Str) : Json → Prop
  | .obj data => Whole path data
  | _ => path ∈ keys

end

mutual

/-- Nothing but what leads to a requested path has a path that a requested one starts with, and lists
that do are requested, or whole where they have maps. -/
def Clean (parent : Str) : List (Str × Json) → Prop
  | [] => True
  | (key, val) :: data =>
    (isMapping fields mappingClass (childKey parent key) ∨ CleanValue (childKey parent key) val) ∧
      Clean parent data

def CleanValue (path : Str) : Json → Prop
  | .obj data => starting keys path ≠ [] → Leads keys path ∧ Clean path data
  | .list val => starting keys path ≠ [] →
    if val.any isObj then Leads keys path ∧ WholeEntries fields mappingClass keys path val
    else path ∈ keys
  | _ => True

end

end Restrict

section Keys

variable {keys : List Str} {p q : Str}

theorem mem_starting {k : Str} : k ∈ starting keys p ↔ k ∈ keys ∧ p <+: k := by
  simp [starting]

theorem Leads.starting_ne_nil (h : Leads keys p) : starting keys p ≠ [] := by
  obtain ⟨k, hk, hp⟩ := h
  refine List.ne_nil_of_mem (mem_starting.mpr ⟨hk, ?_⟩)
  rcases hp with rfl | hp
  · exact List.prefix_refl _
  · exact (List.prefix_append p ['.']).trans hp

theorem leads_of_mem (h : p ∈ keys) : Leads keys p := ⟨p, h, .inl rfl⟩

theorem starting_starting (h : q <+: p) : starting (starting keys q) p = starting keys p := by
  rw [starting, starting, List.filter_filter, starting]
  refine List.filter_congr fun k _ => ?_
  by_cases hp : p <+: k
  · simp [hp, h.trans hp]
  · simp [hp]

theorem mem_starting_of_prefix (h : q <+: p) : p ∈ starting keys q ↔ p ∈ keys := by
  simp [mem_starting, h]

theorem prefix_childKey (parent key : Str) : parent <+: childKey parent key := by
  unfold childKey
  split_ifs with hparent
  · rw [List.append_assoc]
    exact List.prefix_append _ _
  · rw [not_not.mp hparent]
    exact List.nil_prefix

end Keys

section Proofs

variable {F : Type} (fields : Dict Str F) (mappingClass : F → Bool) (keys : List Str)

/-- What is kept of an item. -/
def pruneItem (parent key : Str) (val : Json) : Option Json :=
  if isMapping fields mappingClass (childKey parent key) then some val
  else pruneValue fields mappingClass keys (childKey parent key) val

def restrictItem (parent key : Str) (val : Json) : Option Json :=
  if isMapping fields mappingClass (childKey parent key) then some val
  else restrictValue fields mappingClass keys (childKey parent key) val

theorem pruneItems_eq (parent : Str) (data : List (Str × Json)) :
    pruneItems fields mappingClass keys parent data =
      select (pruneItem fields mappingClass keys parent) data := by
  induction data with
  | nil => rfl
  | cons e data ih =>
    obtain ⟨key, val⟩ := e
    rw [pruneItems, ih, select_cons]
    rfl

theorem restrict_eq (parent : Str) (data : List (Str × Json)) :
    restrict fields mappingClass keys parent data =
      select (restrictItem fields mappingClass keys parent) data := by
  induction data with
  | nil => rfl
  | cons e data ih =>
    obtain ⟨key, val⟩ := e
    rw [restrict, ih, select_cons]
    rfl

/-- Keys that do not start as the path does are of no account. -/
theorem pruneValue_starting {p q : Str} (h : q <+: p) (val : Json) :
    pruneValue fields mappingClass (starting keys q) p val =
      pruneValue fields mappingClass keys p val := by
  cases val with
  | obj data => simp only [pruneValue, starting_starting h]
  | list val => simp only [pruneValue, starting_starting h, mem_starting_of_prefix h]
  | null => simp only [pruneValue, mem_starting_of_prefix h]
  | bool b => simp only [pruneValue, mem_starting_of_prefix h]
  | num n => simp only [pruneValue, mem_starting_of_prefix h]
  | str s => simp only [pruneValue, mem_starting_of_prefix h]

theorem pruneItems_starting (p : Str) (data : List (Str × Json)) :
    pruneItems fields mappingClass (starting keys p) p data =
      pruneItems fields mappingClass keys p data := by
  have hitem : pruneItem fields mappingClass (starting keys p) p =
      pruneItem fields mappingClass keys p := by
    funext key val
    rw [pruneItem, pruneItem, pruneValue_starting fields mappingClass keys (prefix_childKey p key)]
  rw [pruneItems_eq, pruneItems_eq, hitem]

theorem pruneValue_obj (p : Str) (data : List (Str × Json)) :
    pruneValue fields mappingClass keys p (.obj data) =
      if starting keys p ≠ [] then
        some (.obj (Dict.ofItems (pruneItems fields mappingClass keys p data)))
      else none := by
  rw [pruneValue, pruneItems_starting]
  simp [List.length_pos_iff]

theorem pruneValue_list (p : Str) (val : List Json) :
    pruneValue fields mappingClass keys p (.list val) =
      if starting keys p ≠ [] then some (.list val) else none := by
  rw [pruneValue]
  by_cases hp : p ∈ keys
  · have hne : starting keys p ≠ [] := (leads_of_mem hp).starting_ne_nil
    simp [hp, hne]
  · simp [hp]

theorem ofItems_pruneItems {parent : Str} {data : List (Str × Json)}
    (h : (Dict.keys data).Nodup) :
    Dict.ofItems (pruneItems fields mappingClass keys parent data) =
      select (pruneItem fields mappingClass keys parent) data := by
  rw [pruneItems_eq]
  exact Dict.ofItems_eq (h.sublist keys_select_sublist)

theorem whole_iff (parent : Str) (data : List (Str × Json)) :
    Whole fields mappingClass keys parent data ↔ ∀ key val, (key, val) ∈ data →
      isMapping fields mappingClass (childKey parent key) ∨
        WholeValue fields mappingClass keys (childKey parent key) val := by
  induction data with
  | nil => simp [Whole]
  | cons e data ih =>
    obtain ⟨key, val⟩ := e
    rw [Whole, ih, Dict.forall_mem_cons]

theorem clean_iff (parent : Str) (data : List (Str × Json)) :
    Clean fields mappingClass keys parent data ↔ ∀ key val, (key, val) ∈ data →
      isMapping fields mappingClass (childKey parent key) ∨
        CleanValue fields mappingClass keys (childKey parent key) val := by
  induction data with
  | nil => simp [Clean]
  | cons e data ih =>
    obtain ⟨key, val⟩ := e
    rw [Clean, ih, Dict.forall_mem_cons]

/-- Entries that make up a list again are all kept as they are. -/
theorem restrictEntries_eq_iff (p : Str) (val : List Json) :
    restrictEntries fields mappingClass keys p val = val ↔
      ∀ entry ∈ val, restrictEntry fields mappingClass keys p entry = some entry := by
  have hlength : ∀ val, (restrictEntries fields mappingClass keys p val).length ≤ val.length := by
    intro val
    induction val with
    | nil => simp [restrictEntries]
    | cons entry val ih =>
      rw [restrictEntries]
      cases restrictEntry fields mappingClass keys p entry <;> simp <;> omega
  induction val with
  | nil => simp [restrictEntries]
  | cons entry val ih =>
    rw [restrictEntries, List.forall_mem_cons]
    cases hentry : restrictEntry fields mappingClass keys p entry with
    | none =>
      refine iff_of_false (fun heq => ?_) (by simp)
      have hle := hlength val
      have heq' := congrArg List.length heq
      simp only [Option.toList_none, List.nil_append, List.length_cons] at heq'
      omega
    | some kept =>
      have hcons : (some kept).toList ++ restrictEntries fields mappingClass keys p val =
          kept :: restrictEntries fields mappingClass keys p val := rfl
      rw [hcons, List.cons.injEq, Option.some.injEq]
      exact and_congr_right fun _ => ih

theorem wholeEntries_iff (p : Str) (val : List Json) :
    WholeEntries fields mappingClass keys p val ↔
      ∀ entry ∈ val, WholeEntry fields mappingClass keys p entry := by
  induction val with
  | nil => simp [WholeEntries]
  | cons entry val ih => rw [WholeEntries, ih, List.forall_mem_cons]

theorem restrictItem_eq_iff {parent key : Str} {val : Json} {P : Prop}
    (h : restrictValue fields mappingClass keys (childKey parent key) val = some val ↔ P) :
    restrictItem fields mappingClass keys parent key val = some val ↔
      isMapping fields mappingClass (childKey parent key) ∨ P := by
  rw [restrictItem]
  cases isMapping fields mappingClass (childKey parent key) <;> simp [h]

/-- A document is its own restriction where every leaf is requested. -/
theorem restrictValue_eq_iff {j : Json} (h : Json.Keyed j) (p : Str) :
    (restrictValue fields mappingClass keys p j = some j ↔
      WholeValue fields mappingClass keys p j) ∧
    (restrictEntry fields mappingClass keys p j = some j ↔
      WholeEntry fields mappingClass keys p j) := by
  induction j using Json.treeInduction generalizing p with
  | leaf j hlist hobj =>
    cases j with
    | list xs => exact absurd rfl (hlist xs)
    | obj data => exact absurd rfl (hobj data)
    | _ => simp [restrictValue, restrictEntry, WholeValue, WholeEntry]
  | list xs ih =>
    constructor
    · rw [restrictValue, WholeValue]
      split_ifs with hany hleads hmem
      · rw [wholeEntries_iff]
        simp only [Option.some.injEq, Json.list.injEq, restrictEntries_eq_iff]
        constructor
        · exact fun heq => ⟨hleads, fun entry he =>
            (ih entry he (Json.Keyed.of_mem h he) p).2.mp (heq entry he)⟩
        · exact fun hwhole entry he => (ih entry he (Json.Keyed.of_mem h he) p).2.mpr (hwhole.2 entry he)
      · simp [hleads]
      · simp [hmem]
      · simp [hmem]
    · simp [restrictEntry, WholeEntry]
  | obj data ih =>
    have hdata : restrict fields mappingClass keys p data = data ↔
        Whole fields mappingClass keys p data := by
      rw [restrict_eq, select_eq_self_iff h.nodup, whole_iff]
      refine forall_congr' fun key => forall_congr' fun val => forall_congr' fun hmem => ?_
      have hval : Json.Keyed val := h.get? (Dict.get?_of_mem h.nodup hmem)
      exact restrictItem_eq_iff fields mappingClass keys (ih (key, val) hmem hval _).1
    constructor
    · rw [restrictValue, WholeValue]
      split_ifs with hleads
      · simp [hdata, hleads]
      · simp [hleads]
    · simp [restrictEntry, WholeEntry, hdata]

/-- Items are pruned to their restriction where each of them is. -/
theorem pruneItems_eq_iff {parent : Str} {data : List (Str × Json)}
    (hnodup : (Dict.keys data).Nodup)
    (h : ∀ key val, (key, val) ∈ data →
      (pruneValue fields mappingClass keys (childKey parent key) val =
        restrictValue fields mappingClass keys (childKey parent key) val ↔
          CleanValue fields mappingClass keys (childKey parent key) val)) :
    Dict.ofItems (pruneItems fields mappingClass keys parent data) =
      restrict fields mappingClass keys parent data ↔
        Clean fields mappingClass keys parent data := by
  rw [ofItems_pruneItems fields mappingClass keys hnodup, restrict_eq, select_eq_iff hnodup,
    clean_iff]
  refine forall_congr' fun key => forall_congr' fun val => forall_congr' fun hmem => ?_
  rw [pruneItem, restrictItem]
  cases isMapping fields mappingClass (childKey parent key) <;> simp [h key val hmem]

/-- A value is pruned to its restriction where it is clean. -/
theorem pruneValue_eq_iff {j : Json} (h : Json.Keyed j) (p : Str) :
    pruneValue fields mappingClass keys p j = restrictValue fields mappingClass keys p j ↔
      CleanValue fields mappingClass keys p j := by
  induction j using Json.treeInduction generalizing p with
  | leaf j hlist hobj =>
    cases j with
    | list xs => exact absurd rfl (hlist xs)
    | obj data => exact absurd rfl (hobj data)
    | _ => simp [pruneValue, restrictValue, CleanValue]
  | list xs ih =>
    rw [pruneValue_list, restrictValue, CleanValue]
    by_cases hstart : starting keys p = []
    · have hleads : ¬ Leads keys p := fun h => h.starting_ne_nil hstart
      have hmem : p ∉ keys := fun h => hleads (leads_of_mem h)
      simp [hstart, hleads, hmem]
    · simp only [ne_eq, hstart, not_false_eq_true, if_true, true_implies]
      split_ifs with hany hleads hmem
      · have hwhole := (restrictEntries_eq_iff fields mappingClass keys p xs).trans
          (forall_congr' fun entry => forall_congr' fun he =>
            (restrictValue_eq_iff fields mappingClass keys (Json.Keyed.of_mem h he) p).2)
        simp only [Option.some.injEq, Json.list.injEq, hleads, true_and]
        rw [eq_comm, hwhole, wholeEntries_iff]
      · simp [hleads]
      · simp [hmem]
      · simp [hmem]
  | obj data ih =>
    rw [pruneValue_obj, restrictValue, CleanValue]
    by_cases hstart : starting keys p = []
    · have hleads : ¬ Leads keys p := fun h => h.starting_ne_nil hstart
      simp [hstart, hleads]
    · simp only [ne_eq, hstart, not_false_eq_true, if_true, true_implies]
      split_ifs with hleads
      · simp only [Option.some.injEq, Json.obj.injEq, hleads, true_and]
        refine pruneItems_eq_iff fields mappingClass keys h.nodup fun key val hmem => ?_
        exact ih (key, val) hmem (h.get? (Dict.get?_of_mem h.nodup hmem)) _
      · simp [hleads]

/-- `prune` restricts a document to its requested leaves where the document is clean. -/
theorem prune_iff {data : List (Str × Json)} (h : Json.Keyed (.obj data)) :
    prune fields mappingClass keys data = restrict fields mappingClass keys [] data ↔
      Clean fields mappingClass keys [] data :=
  pruneItems_eq_iff fields mappingClass keys h.nodup fun _ _ hmem =>
    pruneValue_eq_iff fields mappingClass keys (h.get? (Dict.get?_of_mem h.nodup hmem)) _

end Proofs

section Leaves

variable {F : Type} (fields : Dict Str F) (mappingClass : F → Bool) (keys : List Str)

mutual

/-- The leaves of a document with their paths, but for those of mappings. -/
def leafItems (parent : Str) : List (Str × Json) → List (Str × Json)
  | [] => []
  | (key, val) :: data =>
    (if isMapping fields mappingClass (childKey parent key) then []
      else leafValues (childKey parent key) val) ++ leafItems parent data

def leafValues (path : Str) : Json → List (Str × Json)
  | .obj data => leafItems path data
  | .list val => if val.any isObj then leafEntries path val else [(path, .list val)]
  | val => [(path, val)]

def leafEntries (path : Str) : List Json → List (Str × Json)
  | [] => []
  | entry :: val => leafEntry path entry ++ leafEntries path val

def leafEntry (path : Str) : Json → List (Str × Json)
  | .obj data => leafItems path data
  | entry => [(path, entry)]

end

/-- The requested ones of some leaves. -/
def requested (leaves : List (Str × Json)) : List (Str × Json) := leaves.filter fun l => l.1 ∈ keys

theorem requested_eq_nil {leaves : List (Str × Json)} {p : Str} (hp : ¬ Leads keys p)
    (h : ∀ l ∈ leaves, l.1 = p ∨ (p ++ ['.']) <+: l.1) : requested keys leaves = [] := by
  refine List.filter_eq_nil_iff.mpr fun l hl => ?_
  rw [decide_eq_true_eq]
  exact fun hmem => hp ⟨l.1, hmem, h l hl⟩

theorem prefix_of_childKey {parent key path : Str} (hparent : parent ≠ [])
    (h : path = childKey parent key ∨ (childKey parent key ++ ['.']) <+: path) :
    (parent ++ ['.']) <+: path := by
  have hchild : (parent ++ ['.']) <+: childKey parent key := by
    rw [childKey, if_pos hparent]
    exact List.prefix_append _ _
  rcases h with rfl | h
  · exact hchild
  · exact hchild.trans ((List.prefix_append _ _).trans h)

theorem childKey_ne_nil {parent : Str} (hparent : parent ≠ []) (key : Str) :
    childKey parent key ≠ [] := by
  rw [childKey, if_pos hparent]
  simp

/-- The leaves of a value are at its path or below. -/
theorem leafValues_below (j : Json) {p : Str} (hp : p ≠ []) :
    (∀ l ∈ leafValues fields mappingClass p j, l.1 = p ∨ (p ++ ['.']) <+: l.1) ∧
      ∀ l ∈ leafEntry fields mappingClass p j, l.1 = p ∨ (p ++ ['.']) <+: l.1 := by
  induction j using Json.treeInduction generalizing p with
  | leaf j hlist hobj =>
    cases j with
    | list xs => exact absurd rfl (hlist xs)
    | obj data => exact absurd rfl (hobj data)
    | _ => simp [leafValues, leafEntry]
  | list xs ih =>
    refine ⟨?_, by simp [leafEntry]⟩
    rw [leafValues]
    split_ifs with hany
    · clear hany
      induction xs with
      | nil => simp [leafEntries]
      | cons x xs ihxs =>
        rw [leafEntries]
        intro l hl
        rcases List.mem_append.mp hl with hl | hl
        · exact (ih x (List.mem_cons_self ..) hp).2 l hl
        · exact ihxs (fun y hy => ih y (List.mem_cons_of_mem _ hy)) l hl
    · simp
  | obj data ih =>
    have hdata : ∀ l ∈ leafItems fields mappingClass p data, (p ++ ['.']) <+: l.1 := by
      induction data with
      | nil => simp [leafItems]
      | cons e data ihdata =>
        obtain ⟨key, val⟩ := e
        rw [leafItems]
        intro l hl
        rcases List.mem_append.mp hl with hl | hl
        · split_ifs at hl with hmapping
          · cases hl
          · exact prefix_of_childKey hp
              ((ih (key, val) (List.mem_cons_self ..) (childKey_ne_nil hp key)).1 l hl)
        · exact ihdata (fun e he => ih e (List.mem_cons_of_mem _ he)) l hl
    exact ⟨fun l hl => .inr (hdata l hl), fun l hl => .inr (hdata l hl)⟩

theorem requested_append (leaves leaves' : List (Str × Json)) :
    requested keys (leaves ++ leaves') = requested keys leaves ++ requested keys leaves' :=
  List.filter_append ..

/-- The leaves of the items that are kept, where those of each item are the requested ones. -/
theorem leafItems_restrict {parent : Str} {data : List (Str × Json)}
    (h : ∀ e ∈ data, ((restrictValue fields mappingClass keys (childKey parent e.1) e.2).elim []
      (leafValues fields mappingClass (childKey parent e.1))) =
        requested keys (leafValues fields mappingClass (childKey parent e.1) e.2)) :
    leafItems fields mappingClass parent (restrict fields mappingClass keys parent data) =
      requested keys (leafItems fields mappingClass parent data) := by
  induction data with
  | nil => rfl
  | cons e data ih =>
    obtain ⟨key, val⟩ := e
    have hitem := h (key, val) (List.mem_cons_self ..)
    have hrest := ih fun e he => h e (List.mem_cons_of_mem _ he)
    rw [restrict, leafItems, requested_append, ← hrest]
    cases hmapping : isMapping fields mappingClass (childKey parent key) with
    | true => simp [leafItems, hmapping, requested]
    | false =>
      simp only [Bool.false_eq_true, if_false]
      rw [← hitem]
      cases hval : restrictValue fields mappingClass keys (childKey parent key) val with
      | none => simp
      | some kept => simp [leafItems, hmapping]

theorem any_restrictEntries {p : Str} {xs : List Json} (h : xs.any isObj = true) :
    (restrictEntries fields mappingClass keys p xs).any isObj = true := by
  induction xs with
  | nil => cases h
  | cons x xs ih =>
    rw [restrictEntries, List.any_append]
    cases x with
    | obj data => simp [restrictEntry, isObj]
    | _ =>
      have hxs : xs.any isObj = true := by simpa [isObj] using h
      rw [ih hxs, Bool.or_true]

theorem leafValues_restrict (j : Json) {p : Str} (hp : p ≠ []) :
    (restrictValue fields mappingClass keys p j).elim [] (leafValues fields mappingClass p) =
        requested keys (leafValues fields mappingClass p j) ∧
      (restrictEntry fields mappingClass keys p j).elim [] (leafEntry fields mappingClass p) =
        requested keys (leafEntry fields mappingClass p j) := by
  induction j using Json.treeInduction generalizing p with
  | leaf j hlist hobj =>
    cases j with
    | list xs => exact absurd rfl (hlist xs)
    | obj data => exact absurd rfl (hobj data)
    | _ =>
      by_cases hmem : p ∈ keys <;>
        simp [restrictValue, restrictEntry, leafValues, leafEntry, requested, hmem]
  | list xs ih =>
    constructor
    · rw [restrictValue]
      split_ifs with hany hleads hmem
      · rw [Option.elim_some, leafValues, leafValues, if_pos hany,
          if_pos (any_restrictEntries fields mappingClass keys hany)]
        clear hany
        induction xs with
        | nil => rfl
        | cons x xs ihxs =>
          have hx := (ih x (List.mem_cons_self ..) hp).2
          have hxs := ihxs fun y hy => ih y (List.mem_cons_of_mem _ hy)
          rw [restrictEntries, leafEntries, requested_append, ← hx, ← hxs]
          cases restrictEntry fields mappingClass keys p x <;> simp [leafEntries]
      · exact (requested_eq_nil keys hleads (leafValues_below fields mappingClass _ hp).1).symm
      · simp [leafValues, hany, requested, hmem]
      · simp [leafValues, hany, requested, hmem]
    · by_cases hmem : p ∈ keys <;> simp [restrictEntry, leafEntry, requested, hmem]
  | obj data ih =>
    have hdata : leafItems fields mappingClass p (restrict fields mappingClass keys p data) =
        requested keys (leafItems fields mappingClass p data) :=
      leafItems_restrict fields mappingClass keys fun e he => (ih e he (childKey_ne_nil hp e.1)).1
    constructor
    · rw [restrictValue]
      split_ifs with hleads
      · exact hdata
      · exact (requested_eq_nil keys hleads (leafValues_below fields mappingClass _ hp).1).symm
    · exact hdata

/-- What is left of a document are its requested leaves. -/
theorem leaves_restrict {data : List (Str × Json)} (h : ∀ e ∈ data, e.1 ≠ []) :
    leafItems fields mappingClass [] (restrict fields mappingClass keys [] data) =
      requested keys (leafItems fields mappingClass [] data) :=
  leafItems_restrict fields mappingClass keys fun e he =>
    (leafValues_restrict fields mappingClass keys e.2 (by simpa [childKey] using h e he)).1

end Leaves

section Entries

/-- `[{"id": 1, "name": 2}]` under `items`. -/
def itemsDoc : List (Str × Json) :=
  [("items".toList, .list [.obj [("id".toList, .num 1), ("name".toList, .num 2)]])]

theorem keyed_itemsDoc : Json.Keyed (.obj itemsDoc) := by
  refine Json.keyed_obj (by decide) fun e he => ?_
  obtain rfl := List.mem_singleton.mp he
  refine Json.keyed_list fun x hx => ?_
  obtain rfl := List.mem_singleton.mp hx
  refine Json.keyed_obj (by decide) fun e he => ?_
  simp only [List.mem_cons, List.not_mem_nil, or_false] at he
  rcases he with rfl | rfl
  · exact Json.keyed_num 1
  · exact Json.keyed_num 2

/-- A table without fields. -/
def noFields : Dict Str Unit := []

/-- Both fields of the entry are requested. -/
theorem prune_itemsDoc : prune noFields (fun _ => true)
    ["items.id".toList, "items.name".toList] itemsDoc =
      restrict noFields (fun _ => true) ["items.id".toList, "items.name".toList] [] itemsDoc := by
  refine (prune_iff noFields (fun _ => true) _ keyed_itemsDoc).mpr ?_
  have hleads : Leads ["items.id".toList, "items.name".toList] "items".toList := by decide
  refine ⟨.inr fun _ => ⟨hleads, ?_, trivial⟩, trivial⟩
  refine ⟨.inr ?_, .inr ?_, trivial⟩
  · have hid : "items.id".toList ∈ ["items.id".toList, "items.name".toList] := by decide
    exact hid
  · have hname : "items.name".toList ∈ ["items.id".toList, "items.name".toList] := by decide
    exact hname

/-- An entry keeps what is not requested. -/
theorem entry_not_restricted :
    ¬ ∀ (keys : List Str) (data : List (Str × Json)), Json.Keyed (.obj data) →
      (∀ e ∈ data, '.' ∉ e.1) →
      prune noFields (fun _ => true) keys data =
        restrict noFields (fun _ => true) keys [] data := by
  intro h
  have heq := h ["items.id".toList] itemsDoc keyed_itemsDoc (by decide)
  have hprune : prune noFields (fun _ => true) ["items.id".toList] itemsDoc = itemsDoc := by rfl
  have hrestrict : restrict noFields (fun _ => true) ["items.id".toList] [] itemsDoc =
      [("items".toList, .list [.obj [("id".toList, .num 1)]])] := by rfl
  rw [hprune, hrestrict] at heq
  simp [itemsDoc] at heq

end Entries

end Howler.Documents
