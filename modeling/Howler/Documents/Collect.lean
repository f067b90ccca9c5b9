import Howler.Structures.Leaves
import Howler.Python.Raising

namespace Howler.Documents

open Python Structures Json

/-- A value, and whether it is an object of the document that is given. -/
structure Object where
  value : Json
  given : Bool

/-- What the loop of `flat_to_nested` keeps, and what it puts into maps of the given document. -/
structure Collected where
  subData : Dict Str Object := []
  nestedKeys : List Str := []
  writes : List (Str × Str × Json) := []

/-- The map that a dotted key goes into: the one that is there, or a new one. -/
def opened (c : Collected) (child : Str) : Dict Str Json × Bool :=
  match c.subData.get? child with
  | some ⟨.obj fields, given⟩ => (fields, given)
  | _ => ([], false)

/-- One key of the loop. -/
def collect (c : Collected) (key : Str) (value : Json) : Collected :=
  if '.' ∈ key then
    let child := (partition ['.'] key).1
    let subKey := (partition ['.'] key).2
    { subData := c.subData.set child
        ⟨.obj (Dict.set (opened c child).1 subKey value), (opened c child).2⟩
      nestedKeys := c.nestedKeys ++ [child]
      writes := c.writes ++ if (opened c child).2 then [(child, subKey, value)] else [] }
  else { c with subData := c.subData.set key ⟨value, true⟩ }

def collectAll (data : Dict Str Json) : Collected := data.foldl (fun c e => collect c e.1 e.2) {}

/-- `sub_data` as a document. -/
def Collected.values (c : Collected) : Dict Str Json := c.subData.mapItems fun _ o => o.value

inductive NestError where
  | attribute
  | outOfFuel
  deriving DecidableEq

/-- A nested document, and what was put into maps of the given one. -/
abbrev Nested := Dict Str Json × List (Str × Str × Json)

/-- The value of a key nested by `nest`. -/
def enter (nest : Dict Str Json → Except NestError Nested) (r : Nested) (key : Str) :
    Except NestError Nested :=
  match r.1.get? key with
  | some (.obj fields) => do
    let inner ← nest fields
    return (r.1.set key (.obj inner.1), r.2 ++ inner.2)
  | _ => .error .attribute

def flatToNestedFor : ℕ → Dict Str Json → Except NestError Nested
  | 0, _ => .error .outOfFuel
  | n + 1, data =>
    (collectAll data).nestedKeys.foldlM (enter (flatToNestedFor n))
      ((collectAll data).values, (collectAll data).writes)

mutual

/-- The size of the keys of a value. -/
def weight : Json → ℕ
  | .obj fields => weightFields fields
  | _ => 0

def weightFields : List (Str × Json) → ℕ
  | [] => 0
  | (k, v) :: fields => k.length + 1 + weight v + weightFields fields

end

/-- `flat_to_nested`. -/
def flatToNested (data : Dict Str Json) : Except NestError Nested :=
  flatToNestedFor (weightFields data + 1) data

/-- The steps that a key stands for. -/
abbrev dotted (key : Str) : List Str := key.splitOn '.'

/-- The leaves of a document with their full paths. -/
abbrev fullLeaves (data : Dict Str Json) : List (List Str × Json) := leaves dotted (.obj data)

mutual

/-- No key of the maps of a value has a dot. -/
def undotted : Json → Bool
  | .obj fields => undottedFields fields
  | _ => true

def undottedFields : List (Str × Json) → Bool
  | [] => true
  | (k, v) :: fields => '.' ∉ k && undotted v && undottedFields fields

end

/-- What `flat_to_nested` is for. -/
def Nests (data : Dict Str Json) : Prop :=
  ∃ result, flatToNested data = .ok (result, []) ∧ Keyed (.obj result) ∧
    undotted (.obj result) = true ∧ (∀ l, l ∈ fullLeaves result ↔ l ∈ fullLeaves data) ∧
    ∀ data', Keyed (.obj data') → Equal (.obj data) (.obj data') →
      ∃ result', flatToNested data' = .ok (result', []) ∧ Equal (.obj result) (.obj result')

/-- No map that a key has is spelled with dots in part, inside of it or beside it. -/
def Separate (data : Dict Str Json) : Prop :=
  ∀ k v, (k, .obj v) ∈ data →
    undotted (.obj v) = true ∧ ∀ k' ∈ Dict.keys data, ¬ (k ++ ['.']) <+: k'

section Undotted

variable {fields : Dict Str Json} {j : Json}

theorem undotted_obj : undotted (.obj fields) = true ↔
    ∀ e ∈ fields, '.' ∉ e.1 ∧ undotted e.2 = true := by
  rw [undotted]
  induction fields with
  | nil => simp [undottedFields]
  | cons e fields ih =>
    obtain ⟨k, w⟩ := e
    rw [undottedFields, Bool.and_eq_true, Bool.and_eq_true, ih, decide_eq_true_eq]
    simp

theorem undotted_iff : undotted j = true ↔ ∀ p u, (p, u) ∈ leaves keyed j → ∀ k ∈ p, '.' ∉ k := by
  induction j using objInduction with
  | leaf j h =>
    rw [leaves_of_not_obj h]
    cases j with
    | obj fields => exact absurd rfl (h fields)
    | _ => simp [undotted]
  | obj fields ih =>
    rw [undotted_obj]
    constructor
    · intro h p u hp k hk
      cases p with
      | nil => contradiction
      | cons k' p =>
        obtain ⟨k₀, v, hmem, hk₀, hv⟩ := (mem_leaves_cons fun e _ => ⟨e.1, rfl⟩).mp hp
        obtain rfl := List.singleton_inj.mp hk₀
        obtain ⟨hdot, hund⟩ := h _ hmem
        cases List.mem_cons.mp hk with
        | inl heq => exact heq ▸ hdot
        | inr hk => exact (ih _ hmem).mp hund p u hv k hk
    · intro h e he
      have hmem : ∀ p u, (p, u) ∈ leaves keyed e.2 → (e.1 :: p, u) ∈ leaves keyed (.obj fields) :=
        fun p u hp => (mem_leaves_cons fun e _ => ⟨e.1, rfl⟩).mpr ⟨e.1, e.2, he, rfl, hp⟩
      obtain ⟨p, u, hp⟩ := exists_mem_leaves keyed e.2
      refine ⟨h _ u (hmem p u hp) e.1 (by simp), (ih e he).mpr ?_⟩
      intro p u hp k hk
      exact h _ u (hmem p u hp) k (List.mem_cons_of_mem _ hk)

/-- The leaves of an undotted document are by its own keys. -/
theorem leaves_undotted (h : undotted j = true) : leaves dotted j = leaves keyed j := by
  induction j using objInduction with
  | leaf j hj => rw [leaves_of_not_obj hj, leaves_of_not_obj hj]
  | obj fields ih =>
    rw [undotted_obj] at h
    rw [leaves, leaves, leavesFields_eq, leavesFields_eq]
    have hmap : (fields.flatMap fun e => (leaves dotted e.2).map fun l =>
          (dotted e.1 ++ l.1, l.2)) =
        fields.flatMap fun e => (leaves keyed e.2).map fun l => (keyed e.1 ++ l.1, l.2) := by
      refine List.flatMap_congr fun e he => ?_
      rw [dotted, splitOn_eq_singleton (h e he).1, ih e he (h e he).2]
    rw [hmap]

end Undotted

theorem partition_dot {key : Str} (h : '.' ∈ key) : ∃ child subKey,
    partition ['.'] key = (child, subKey) ∧ key = child ++ '.' :: subKey ∧ '.' ∉ child := by
  induction key with
  | nil => contradiction
  | cons c cs ih =>
    rw [partition]
    by_cases hc : c = '.'
    · subst hc
      exact ⟨[], cs, by simp [List.isPrefixOf], rfl, by simp⟩
    · have hp : ['.'].isPrefixOf (c :: cs) = false := by simp [List.isPrefixOf, Ne.symm hc]
      obtain ⟨child, subKey, hpart, hkey, hdot⟩ := ih (List.mem_of_ne_of_mem (Ne.symm hc) h)
      refine ⟨c :: child, subKey, ?_, by rw [hkey]; rfl, ?_⟩
      · simp [hp, hpart]
      · simp [hdot, Ne.symm hc]

theorem splitOn_dot {child : Str} (h : '.' ∉ child) (subKey : Str) :
    (child ++ '.' :: subKey).splitOn '.' = child :: subKey.splitOn '.' := by
  rw [List.splitOn_append_cons_self, splitOn_eq_singleton h]
  rfl

/-- A key is plain, or a child and the rest. -/
theorem key_cases (key : Str) :
    '.' ∉ key ∨ ∃ child subKey, key = child ++ '.' :: subKey ∧ '.' ∉ child := by
  by_cases h : '.' ∈ key
  · obtain ⟨child, subKey, -, hkey, hdot⟩ := partition_dot h
    exact .inr ⟨child, subKey, hkey, hdot⟩
  · exact .inl h

theorem child_inj {child child' subKey subKey' : Str} (h : '.' ∉ child) (h' : '.' ∉ child')
    (heq : child ++ '.' :: subKey = child' ++ '.' :: subKey') :
    child = child' ∧ subKey = subKey' := by
  have hsplit := congrArg (List.splitOn '.') heq
  rw [splitOn_dot h, splitOn_dot h'] at hsplit
  obtain ⟨rfl, -⟩ := List.cons.inj hsplit
  exact ⟨rfl, by simpa using heq⟩

section Collect

variable {data : Dict Str Json} {c : Collected} {x key child subKey : Str} {value v : Json}

/-- A key without a dot. -/
theorem collect_plain (h : '.' ∉ key) (c : Collected) (value : Json) :
    collect c key value = { c with subData := c.subData.set key ⟨value, true⟩ } := by
  rw [collect, if_neg h]

theorem collect_dotted (h : '.' ∉ child) (c : Collected) (subKey : Str) (value : Json) :
    collect c (child ++ '.' :: subKey) value =
      { subData := c.subData.set child
          ⟨.obj (Dict.set (opened c child).1 subKey value), (opened c child).2⟩
        nestedKeys := c.nestedKeys ++ [child]
        writes := c.writes ++ if (opened c child).2 then [(child, subKey, value)] else [] } := by
  have hdot : '.' ∈ child ++ '.' :: subKey := by simp
  obtain ⟨child', subKey', hpart, hkey, hdot'⟩ := partition_dot hdot
  obtain ⟨rfl, rfl⟩ := child_inj h hdot' hkey
  rw [collect, if_pos hdot, hpart]

theorem collectAll_snoc (data : Dict Str Json) (e : Str × Json) :
    collectAll (data ++ [e]) = collect (collectAll data) e.1 e.2 := by
  rw [collectAll, List.foldl_append]
  rfl

/-- What goes into a map that is there, or into a new one. -/
theorem opened_cases (c : Collected) (child : Str) : opened c child = ([], false) ∨
    ∃ fields given, c.subData.get? child = some ⟨.obj fields, given⟩ ∧
      opened c child = (fields, given) := by
  rw [opened]
  cases h : c.subData.get? child with
  | none => exact .inl rfl
  | some o =>
    obtain ⟨w, given⟩ := o
    cases w with
    | obj fields => exact .inr ⟨fields, given, rfl, rfl⟩
    | _ => exact .inl rfl

theorem opened_obj {fields : Dict Str Json} {given : Bool}
    (h : c.subData.get? x = some ⟨.obj fields, given⟩) : opened c x = (fields, given) := by
  rw [opened, h]

theorem opened_none (h : c.subData.get? x = none) : opened c x = ([], false) := by
  rw [opened, h]

/-- The keys that are collected have no dot, and those to go into are among them. -/
structure Shaped (c : Collected) : Prop where
  nodup : (Dict.keys c.subData).Nodup
  plain : ∀ x ∈ Dict.keys c.subData, '.' ∉ x
  nested : ∀ x ∈ c.nestedKeys, x ∈ Dict.keys c.subData

theorem Shaped.set (h : Shaped c) (hx : '.' ∉ x) (o : Object) {ks : List Str}
    (hks : ∀ y ∈ ks, y ∈ c.nestedKeys ∨ y = x) (writes : List (Str × Str × Json)) :
    Shaped ⟨c.subData.set x o, ks, writes⟩ := by
  refine ⟨Dict.nodup_keys_set h.nodup _ _, fun y hy => ?_, fun y hy => ?_⟩
  · cases (Dict.mem_keys_set _ _ _ _).mp hy with
    | inl heq => exact heq ▸ hx
    | inr hy => exact h.plain y hy
  · rw [Dict.mem_keys_set]
    cases hks y hy with
    | inl hy => exact .inr (h.nested y hy)
    | inr heq => exact .inl heq

theorem shaped_collectAll (data : Dict Str Json) : Shaped (collectAll data) := by
  induction data using List.reverseRecOn with
  | nil => exact ⟨List.nodup_nil, by simp [collectAll, Dict.keys], by simp [collectAll]⟩
  | append_singleton data e ih =>
    obtain ⟨key, value⟩ := e
    rw [collectAll_snoc]
    cases key_cases key with
    | inl hplain =>
      rw [collect_plain hplain]
      exact ih.set hplain _ (fun y hy => .inl hy) _
    | inr hdotted =>
      obtain ⟨child, subKey, rfl, hdot⟩ := hdotted
      rw [collect_dotted hdot]
      refine ih.set hdot _ (fun y hy => ?_) _
      simpa using hy

/-- The keys to go into are those that have dotted keys. -/
theorem mem_nestedKeys (hx : '.' ∉ x) : x ∈ (collectAll data).nestedKeys ↔
    ∃ subKey, x ++ '.' :: subKey ∈ Dict.keys data := by
  induction data using List.reverseRecOn with
  | nil => simp [collectAll, Dict.keys]
  | append_singleton data e ih =>
    obtain ⟨key, value⟩ := e
    have hkeys : Dict.keys (data ++ [(key, value)]) = Dict.keys data ++ [key] := by
      simp [Dict.keys]
    rw [collectAll_snoc, hkeys]
    cases key_cases key with
    | inl hplain =>
      have hne : ∀ subKey, ¬ x ++ '.' :: subKey = key := by
        intro subKey heq
        exact hplain (by simp [← heq])
      rw [collect_plain hplain]
      simp [ih, hne]
    | inr hdotted =>
      obtain ⟨child, subKey, rfl, hdot⟩ := hdotted
      rw [collect_dotted hdot, List.mem_append, ih, List.mem_singleton]
      constructor
      · intro h
        cases h with
        | inl h => exact h.imp fun _ hmem => List.mem_append_left _ hmem
        | inr heq => exact ⟨subKey, by simp [heq]⟩
      · intro h
        obtain ⟨subKey', hmem⟩ := h
        cases List.mem_append.mp hmem with
        | inl hmem => exact .inl ⟨subKey', hmem⟩
        | inr hmem => exact .inr (child_inj hx hdot (List.mem_singleton.mp hmem)).1

/-- A map at a plain key stays, unless something is put into it. -/
theorem kept {fields : Dict Str Json} (hnodup : (Dict.keys data).Nodup)
    (hmem : (key, .obj fields) ∈ data) (hplain : '.' ∉ key)
    (hwrites : (collectAll data).writes = []) :
    (collectAll data).subData.get? key = some ⟨.obj fields, true⟩ := by
  induction data using List.reverseRecOn with
  | nil => contradiction
  | append_singleton data e ih =>
    obtain ⟨key', value⟩ := e
    have hkeys : Dict.keys (data ++ [(key', value)]) = Dict.keys data ++ [key'] := by
      simp [Dict.keys]
    rw [hkeys] at hnodup
    have hne : (key, Json.obj fields) ∈ data → key ≠ key' := by
      intro hmem heq
      exact (List.nodup_append.mp hnodup).2.2 key (List.mem_map_of_mem (f := Prod.fst) hmem)
        key' (by simp) heq
    rw [collectAll_snoc] at hwrites ⊢
    dsimp only at hwrites ⊢
    cases key_cases key' with
    | inl hplain' =>
      rw [collect_plain hplain'] at hwrites ⊢
      rw [Dict.get?_set]
      cases List.mem_append.mp hmem with
      | inl hmem =>
        rw [if_neg (hne hmem)]
        exact ih (List.nodup_append.mp hnodup).1 hmem hwrites
      | inr hmem =>
        obtain ⟨rfl, rfl⟩ : key = key' ∧ Json.obj fields = value := by simpa using hmem
        exact if_pos rfl
    | inr hdotted =>
      obtain ⟨child, subKey, rfl, hdot⟩ := hdotted
      rw [collect_dotted hdot] at hwrites ⊢
      obtain ⟨hbefore, hnow⟩ := List.append_eq_nil_iff.mp hwrites
      have hmem : (key, Json.obj fields) ∈ data := by
        cases List.mem_append.mp hmem with
        | inl hmem => exact hmem
        | inr hmem =>
          obtain ⟨rfl, -⟩ := Prod.mk.inj (List.mem_singleton.mp hmem)
          exact absurd (by simp) hplain
      have hget := ih (List.nodup_append.mp hnodup).1 hmem hbefore
      rw [Dict.get?_set]
      by_cases hkey : key = child
      · subst hkey
        rw [opened_obj hget] at hnow
        cases hnow
      · rw [if_neg hkey]
        exact hget

/-- What is collected where no plain key has dotted keys beside it. -/
structure Grouped (data : Dict Str Json) (c : Collected) : Prop where
  writes : c.writes = []
  plain : ∀ x v, (x, v) ∈ data → '.' ∉ x → c.subData.get? x = some ⟨v, true⟩
  other : ∀ x o, c.subData.get? x = some o → x ∉ c.nestedKeys → (x, o.value) ∈ data
  group : ∀ x ∈ c.nestedKeys, ∃ fields, c.subData.get? x = some ⟨.obj fields, false⟩ ∧
    (Dict.keys fields).Nodup ∧ ∀ s v, (s, v) ∈ fields ↔ (x ++ '.' :: s, v) ∈ data

theorem grouped_collectAll (hnodup : (Dict.keys data).Nodup)
    (h : ∀ x ∈ Dict.keys data, '.' ∉ x → ∀ s, x ++ '.' :: s ∉ Dict.keys data) :
    Grouped data (collectAll data) := by
  induction data using List.reverseRecOn with
  | nil =>
    refine ⟨rfl, ?_, ?_, ?_⟩
    · intro x v hmem
      contradiction
    · intro x o hget
      cases hget
    · intro x hx
      contradiction
  | append_singleton data e ih =>
    obtain ⟨key, value⟩ := e
    have hkeys : Dict.keys (data ++ [(key, value)]) = Dict.keys data ++ [key] := by
      simp [Dict.keys]
    rw [hkeys] at hnodup h
    obtain ⟨hnodup, -, hfresh⟩ := List.nodup_append.mp hnodup
    have hkey : key ∉ Dict.keys data := fun hmem => hfresh key hmem key (by simp) rfl
    have hih := ih hnodup fun x hx hplain s hs =>
      h x (List.mem_append_left _ hx) hplain s (List.mem_append_left _ hs)
    rw [collectAll_snoc]
    dsimp only
    cases key_cases key with
    | inl hplain =>
      rw [collect_plain hplain]
      have hnested : key ∉ (collectAll data).nestedKeys := by
        intro hmem
        obtain ⟨s, hs⟩ := (mem_nestedKeys hplain).mp hmem
        exact h key (by simp) hplain s (List.mem_append_left _ hs)
      refine ⟨hih.writes, fun x v hmem hx => ?_, fun x o hget hx => ?_, fun x hx => ?_⟩
      · rw [Dict.get?_set]
        cases List.mem_append.mp hmem with
        | inl hmem =>
          have hne : x ≠ key := fun heq => hkey (heq ▸ List.mem_map_of_mem (f := Prod.fst) hmem)
          rw [if_neg hne]
          exact hih.plain x v hmem hx
        | inr hmem =>
          obtain ⟨rfl, rfl⟩ := Prod.mk.inj (List.mem_singleton.mp hmem)
          exact if_pos rfl
      · rw [Dict.get?_set] at hget
        by_cases heq : x = key
        · rw [if_pos heq] at hget
          obtain rfl := Option.some.inj hget
          simp [heq]
        · rw [if_neg heq] at hget
          exact List.mem_append_left _ (hih.other x o hget hx)
      · obtain ⟨fields, hget, hfields, hmem⟩ := hih.group x hx
        have hne : x ≠ key := fun heq => hnested (heq ▸ hx)
        refine ⟨fields, ?_, hfields, fun s v => ?_⟩
        · rw [Dict.get?_set, if_neg hne]
          exact hget
        · have hs : ¬ x ++ '.' :: s = key := by
            intro heq
            exact hplain (by simp [← heq])
          simp [hmem, hs]
    | inr hdotted =>
      obtain ⟨child, subKey, rfl, hdot⟩ := hdotted
      have hopened : (opened (collectAll data) child).2 = false ∧
          (Dict.keys (opened (collectAll data) child).1).Nodup ∧
          ∀ s v, (s, v) ∈ (opened (collectAll data) child).1 ↔ (child ++ '.' :: s, v) ∈ data := by
        by_cases hmem : child ∈ (collectAll data).nestedKeys
        · obtain ⟨fields, hget, hfields, hgroup⟩ := hih.group child hmem
          rw [opened_obj hget]
          exact ⟨rfl, hfields, hgroup⟩
        · have hnone : (collectAll data).subData.get? child = none := by
            cases hget : (collectAll data).subData.get? child with
            | none => rfl
            | some o =>
              have hchild := hih.other child o hget hmem
              have hchild := List.mem_map_of_mem (f := Prod.fst) hchild
              exact absurd (by simp) (h child (List.mem_append_left _ hchild) hdot subKey)
          rw [opened_none hnone]
          refine ⟨rfl, List.nodup_nil, fun s v => ?_⟩
          have hs : (child ++ '.' :: s, v) ∉ data := by
            intro hs
            exact hmem ((mem_nestedKeys hdot).mpr ⟨s, List.mem_map_of_mem (f := Prod.fst) hs⟩)
          simp [hs]
      obtain ⟨hgiven, hfields, hgroup⟩ := hopened
      have hsub : subKey ∉ Dict.keys (opened (collectAll data) child).1 := by
        intro hmem
        obtain ⟨⟨s, v⟩, hs, heq⟩ := List.mem_map.mp hmem
        obtain rfl : s = subKey := heq
        exact hkey (List.mem_map_of_mem (f := Prod.fst) ((hgroup s v).mp hs))
      rw [collect_dotted hdot, hgiven, Dict.set_of_not_mem hsub]
      refine ⟨by simp [hih.writes], fun x v hmem hx => ?_, fun x o hget hx => ?_, fun x hx => ?_⟩
      · have hmem : (x, v) ∈ data := by
          cases List.mem_append.mp hmem with
          | inl hmem => exact hmem
          | inr hmem =>
            obtain ⟨rfl, -⟩ := Prod.mk.inj (List.mem_singleton.mp hmem)
            exact absurd (by simp) hx
        have hne : x ≠ child := by
          intro heq
          have hkeymem := List.mem_map_of_mem (f := Prod.fst) hmem
          exact h x (List.mem_append_left _ hkeymem) hx subKey (by simp [heq])
        rw [Dict.get?_set, if_neg hne]
        exact hih.plain x v hmem hx
      · have hne : x ≠ child := fun heq => hx (by simp [heq])
        rw [Dict.get?_set, if_neg hne] at hget
        have hx : x ∉ (collectAll data).nestedKeys := fun hmem => hx (List.mem_append_left _ hmem)
        exact List.mem_append_left _ (hih.other x o hget hx)
      · by_cases heq : x = child
        · subst heq
          refine ⟨_, by rw [Dict.get?_set, if_pos rfl], ?_, fun s v => ?_⟩
          · have hlast : Dict.keys ((opened (collectAll data) x).1 ++ [(subKey, value)]) =
                Dict.keys (opened (collectAll data) x).1 ++ [subKey] := by simp [Dict.keys]
            rw [hlast]
            exact hfields.append (by simp) (by simpa using hsub)
          · simp [hgroup]
        · have hx : x ∈ (collectAll data).nestedKeys := by simpa [heq] using hx
          obtain ⟨fields, hget, hfields, hmem⟩ := hih.group x hx
          have hxdot := (shaped_collectAll data).plain x ((shaped_collectAll data).nested x hx)
          refine ⟨fields, by rw [Dict.get?_set, if_neg heq, hget], hfields, fun s v => ?_⟩
          have hs : ¬ x ++ '.' :: s = child ++ '.' :: subKey :=
            fun h => heq (child_inj hxdot hdot h).1
          simp [hmem, hs]

theorem values_get? (c : Collected) (x : Str) :
    Dict.get? c.values x = (c.subData.get? x).map Object.value :=
  Dict.get?_mapItems _ _ _

/-- What is collected has no leaves of its own. -/
theorem leaves_collectAll {q : List Str} {u : Json} {o : Object}
    (hget : (collectAll data).subData.get? x = some o) (hq : (q, u) ∈ leaves dotted o.value) :
    (x :: q, u) ∈ leavesFields dotted data := by
  induction data using List.reverseRecOn generalizing x q o with
  | nil => cases hget
  | append_singleton data e ih =>
    obtain ⟨key, value⟩ := e
    rw [leavesFields_append, List.mem_append]
    rw [collectAll_snoc] at hget
    dsimp only at hget
    cases key_cases key with
    | inl hplain =>
      rw [collect_plain hplain, Dict.get?_set] at hget
      by_cases hx : x = key
      · rw [if_pos hx] at hget
        obtain rfl := Option.some.inj hget
        have hkey : dotted key = [x] := by rw [hx]; exact splitOn_eq_singleton hplain
        exact .inr (mem_leavesFields.mpr ⟨key, value, q, by simp, by rw [hkey]; rfl, hq⟩)
      · rw [if_neg hx] at hget
        exact .inl (ih hget hq)
    | inr hdotted =>
      obtain ⟨child, subKey, rfl, hdot⟩ := hdotted
      rw [collect_dotted hdot, Dict.get?_set] at hget
      by_cases hx : x = child
      · subst hx
        rw [if_pos rfl] at hget
        obtain rfl := Option.some.inj hget
        have hne : Dict.set (opened (collectAll data) x).1 subKey value ≠ [] := by
          intro hnil
          have hmem := (Dict.mem_keys_set (opened (collectAll data) x).1 subKey subKey value).mpr
            (.inl rfl)
          rw [hnil] at hmem
          contradiction
        rw [leaves_obj hne] at hq
        obtain ⟨k, v, q', hmem, rfl, hq'⟩ := mem_leavesFields.mp hq
        cases Dict.mem_set hmem with
        | inl heq =>
          -- the leaf is that of the key
          obtain ⟨rfl, rfl⟩ := Prod.mk.inj heq
          refine .inr (mem_leavesFields.mpr ⟨x ++ '.' :: k, v, q', by simp, ?_, hq'⟩)
          exact congrArg (· ++ q') (splitOn_dot hdot k).symm
        | inr hmem =>
          -- the leaf has been in the map before
          cases opened_cases (collectAll data) x with
          | inl hopened =>
            rw [hopened] at hmem
            contradiction
          | inr hopened =>
            obtain ⟨fields, given, hfields, hopened⟩ := hopened
            rw [hopened] at hmem
            refine .inl (ih hfields ?_)
            rw [leaves_obj (List.ne_nil_of_mem hmem)]
            exact mem_leavesFields.mpr ⟨k, v, q', hmem, rfl, hq'⟩
      · rw [if_neg hx] at hget
        exact .inl (ih hget hq)

theorem values_set (c : Collected) (x : Str) (o : Object) (ks : List Str)
    (writes : List (Str × Str × Json)) :
    Collected.values ⟨c.subData.set x o, ks, writes⟩ = Dict.set c.values x o.value := by
  have hset : ∀ d : Dict Str Object, (d.set x o).mapItems (fun _ o => o.value) =
      Dict.set (d.mapItems fun _ o => o.value) x o.value := by
    intro d
    induction d with
    | nil => rfl
    | cons e d ih =>
      obtain ⟨k, o'⟩ := e
      by_cases hk : k = x
      · simp [Dict.set, Dict.mapItems, hk]
      · simpa [Dict.set, Dict.mapItems, hk] using ih
  exact hset c.subData

theorem weight_set {fields : Dict Str Json} (key : Str) (value : Json) :
    match Dict.get? fields key with
    | some w => weightFields (Dict.set fields key value) + weight w =
        weightFields fields + weight value
    | none => weightFields (Dict.set fields key value) =
        weightFields fields + (key.length + 1 + weight value) := by
  induction fields with
  | nil => simp [Dict.set, weightFields]
  | cons e fields ih =>
    obtain ⟨k, v⟩ := e
    rw [Dict.get?_cons, Dict.set]
    by_cases hk : key = k
    · rw [if_pos hk, if_pos hk.symm, hk]
      simp only [weightFields]
      omega
    · rw [if_neg hk, if_neg (Ne.symm hk)]
      cases hget : Dict.get? fields key with
      | none =>
        rw [hget] at ih
        simp only [weightFields] at ih ⊢
        omega
      | some w =>
        rw [hget] at ih
        simp only [weightFields] at ih ⊢
        omega

theorem weight_set_le (fields : Dict Str Json) (key : Str) (value : Json) :
    weightFields (Dict.set fields key value) ≤
      weightFields fields + (key.length + 1 + weight value) := by
  have h := @weight_set fields key value
  cases hget : Dict.get? fields key with
  | none =>
    rw [hget] at h
    exact h.le
  | some w =>
    rw [hget] at h
    dsimp only at h
    omega

theorem weight_append (fields fields' : List (Str × Json)) :
    weightFields (fields ++ fields') = weightFields fields + weightFields fields' := by
  induction fields with
  | nil => simp [weightFields]
  | cons e fields ih =>
    obtain ⟨k, v⟩ := e
    rw [List.cons_append, weightFields, weightFields, ih]
    omega

theorem weight_lt_of_mem {fields : List (Str × Json)} (h : (x, v) ∈ fields) :
    weight v < weightFields fields := by
  induction fields with
  | nil => contradiction
  | cons e fields ih =>
    obtain ⟨k, w⟩ := e
    rw [weightFields]
    cases List.mem_cons.mp h with
    | inl heq =>
      obtain ⟨rfl, rfl⟩ := Prod.mk.inj heq
      omega
    | inr h =>
      have hlt := ih h
      omega

/-- What is collected has no more in its keys than the document. -/
theorem weight_collectAll (data : Dict Str Json) :
    weightFields (collectAll data).values ≤ weightFields data := by
  induction data using List.reverseRecOn with
  | nil => exact le_rfl
  | append_singleton data e ih =>
    obtain ⟨key, value⟩ := e
    rw [collectAll_snoc, weight_append]
    cases key_cases key with
    | inl hplain =>
      have hset := weight_set_le (collectAll data).values key value
      rw [collect_plain hplain, values_set]
      simp only [weightFields]
      omega
    | inr hdotted =>
      obtain ⟨child, subKey, rfl, hdot⟩ := hdotted
      have hinner := weight_set_le (opened (collectAll data) child).1 subKey value
      have hset := @weight_set ((collectAll data).values) child
          (.obj (Dict.set (opened (collectAll data) child).1 subKey value))
      rw [values_get?] at hset
      rw [collect_dotted hdot, values_set]
      simp only [weightFields, List.length_append, List.length_cons]
      cases opened_cases (collectAll data) child with
      | inl hopened =>
        rw [hopened] at hinner hset ⊢
        cases hget : (collectAll data).subData.get? child with
        | none =>
          rw [hget] at hset
          simp only [Option.map_none, weight, weightFields] at hinner hset ⊢
          omega
        | some o =>
          rw [hget] at hset
          simp only [Option.map_some, weight, weightFields] at hinner hset ⊢
          omega
      | inr hopened =>
        obtain ⟨fields, given, hget, hopened⟩ := hopened
        rw [hopened] at hinner hset ⊢
        rw [hget] at hset
        simp only [Option.map_some, weight] at hinner hset ⊢
        omega

end Collect

end Howler.Documents
