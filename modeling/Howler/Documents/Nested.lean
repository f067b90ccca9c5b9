import Howler.Documents.Collect

namespace Howler.Documents

open Python Structures Json

section Enter

variable {nest : Dict Str Json → Except NestError Nested} {ks : List Str}
  {d d' fields inner : Dict Str Json} {w w' ws : List (Str × Str × Json)} {x : Str} {v : Json}

theorem enter_ok {r : Nested} (h : enter nest (d, w) x = .ok r) : ∃ fields inner ws,
    Dict.get? d x = some (.obj fields) ∧ nest fields = .ok (inner, ws) ∧
      r = (Dict.set d x (.obj inner), w ++ ws) := by
  rw [enter] at h
  dsimp only at h
  cases hget : Dict.get? d x with
  | none =>
    rw [hget] at h
    cases h
  | some v =>
    rw [hget] at h
    cases v with
    | obj fields =>
      obtain ⟨⟨inner, ws⟩, hnest, hr⟩ := bind_eq_ok.mp h
      exact ⟨fields, inner, ws, rfl, hnest, (Except.ok.inj hr).symm⟩
    | _ => cases h

theorem enter_eq (hget : Dict.get? d x = some (.obj fields)) (hnest : nest fields = .ok (inner, ws)) :
    enter nest (d, w) x = .ok (Dict.set d x (.obj inner), w ++ ws) := by
  rw [enter]
  simp only [hget, hnest]
  rfl

/-- What nesting a value a second time does. -/
def Idempotent (nest : Dict Str Json → Except NestError Nested) : Prop :=
  ∀ fields inner ws, nest fields = .ok (inner, ws) → nest inner = .ok (inner, [])

/-- The values of the keys that are gone into are nested, and the others stay. -/
theorem enter_all (hidem : Idempotent nest) (h : ks.foldlM (enter nest) (d, w) = .ok (d', w')) :
    (∀ x, x ∉ ks → Dict.get? d' x = Dict.get? d x) ∧
    (w' = [] → w = []) ∧
    ∀ x ∈ ks, ∃ fields inner ws, Dict.get? d x = some (.obj fields) ∧
      nest fields = .ok (inner, ws) ∧ Dict.get? d' x = some (.obj inner) ∧ (w' = [] → ws = []) := by
  induction ks generalizing d w with
  | nil =>
    obtain ⟨rfl, rfl⟩ := Prod.mk.inj (Except.ok.inj h)
    exact ⟨fun _ _ => rfl, id, by simp⟩
  | cons k ks ih =>
    rw [List.foldlM_cons] at h
    obtain ⟨r, hr, h⟩ := bind_eq_ok.mp h
    obtain ⟨fields, inner, ws, hget, hnest, rfl⟩ := enter_ok hr
    obtain ⟨hother, hwrites, hnested⟩ := ih h
    refine ⟨fun x hx => ?_, fun hnil => (List.append_eq_nil_iff.mp (hwrites hnil)).1, fun x hx => ?_⟩
    · obtain ⟨hne, hx⟩ : x ≠ k ∧ x ∉ ks := by simpa using hx
      rw [hother x hx, Dict.get?_set, if_neg hne]
    · by_cases hxk : x = k
      · subst hxk
        refine ⟨fields, inner, ws, hget, hnest, ?_,
          fun hnil => (List.append_eq_nil_iff.mp (hwrites hnil)).2⟩
        by_cases hmem : x ∈ ks
        · obtain ⟨fields', inner', ws', hget', hnest', hd', -⟩ := hnested x hmem
          rw [Dict.get?_set, if_pos rfl] at hget'
          obtain rfl := Json.obj.inj (Option.some.inj hget')
          rw [hidem _ _ _ hnest] at hnest'
          obtain ⟨rfl, -⟩ := Prod.mk.inj (Except.ok.inj hnest')
          exact hd'
        · rw [hother x hmem, Dict.get?_set, if_pos rfl]
      · have hmem : x ∈ ks := by simpa [hxk] using hx
        obtain ⟨fields', inner', ws', hget', rest⟩ := hnested x hmem
        rw [Dict.get?_set, if_neg hxk] at hget'
        exact ⟨fields', inner', ws', hget', rest⟩

theorem keys_enter_all (h : ks.foldlM (enter nest) (d, w) = .ok (d', w')) :
    Dict.keys d' = Dict.keys d := by
  induction ks generalizing d w with
  | nil =>
    obtain ⟨rfl, rfl⟩ := Prod.mk.inj (Except.ok.inj h)
    rfl
  | cons k ks ih =>
    rw [List.foldlM_cons] at h
    obtain ⟨r, hr, h⟩ := bind_eq_ok.mp h
    obtain ⟨fields, inner, ws, hget, hnest, rfl⟩ := enter_ok hr
    rw [ih h, Dict.keys_set_of_mem ((Dict.mem_keys_iff _ _).mpr ⟨_, hget⟩)]

theorem enter_all_ok (hidem : Idempotent nest)
    (h : ∀ x ∈ ks, ∃ fields inner, Dict.get? d x = some (.obj fields) ∧
      nest fields = .ok (inner, [])) :
    ∃ d', ks.foldlM (enter nest) (d, w) = .ok (d', w) := by
  induction ks generalizing d with
  | nil => exact ⟨d, rfl⟩
  | cons k ks ih =>
    obtain ⟨fields, inner, hget, hnest⟩ := h k (by simp)
    obtain ⟨d', hd'⟩ := ih (d := Dict.set d k (.obj inner)) fun x hx => by
      rw [Dict.get?_set]
      by_cases hxk : x = k
      · exact ⟨inner, inner, if_pos hxk, hidem _ _ _ hnest⟩
      · rw [if_neg hxk]
        exact h x (List.mem_cons_of_mem _ hx)
    refine ⟨d', ?_⟩
    rw [List.foldlM_cons, enter_eq hget hnest, List.append_nil]
    exact hd'

end Enter

section Run

variable {n : ℕ} {data result : Dict Str Json} {ws : List (Str × Str × Json)} {x : Str} {q : List Str}
  {u : Json}

/-- A map without dotted keys is collected as it is. -/
theorem collectAll_plain (hnodup : (Dict.keys data).Nodup) (h : ∀ x ∈ Dict.keys data, '.' ∉ x) :
    (collectAll data).nestedKeys = [] ∧ (collectAll data).writes = [] ∧
      (collectAll data).values = data := by
  induction data using List.reverseRecOn with
  | nil => exact ⟨rfl, rfl, rfl⟩
  | append_singleton data e ih =>
    obtain ⟨key, value⟩ := e
    have hkeys : Dict.keys (data ++ [(key, value)]) = Dict.keys data ++ [key] := by
      simp [Dict.keys]
    rw [hkeys] at hnodup h
    obtain ⟨hnodup, -, hfresh⟩ := List.nodup_append.mp hnodup
    have hkey : key ∉ Dict.keys data := fun hmem => hfresh key hmem key (by simp) rfl
    obtain ⟨hnested, hwrites, hvalues⟩ := ih hnodup fun x hx => h x (List.mem_append_left _ hx)
    rw [collectAll_snoc, collect_plain (h key (by simp)), values_set, hvalues,
      Dict.set_of_not_mem hkey]
    exact ⟨hnested, hwrites, rfl⟩

theorem flatToNestedFor_plain (hnodup : (Dict.keys data).Nodup)
    (h : ∀ x ∈ Dict.keys data, '.' ∉ x) : flatToNestedFor (n + 1) data = .ok (data, []) := by
  obtain ⟨hnested, hwrites, hvalues⟩ := collectAll_plain hnodup h
  rw [flatToNestedFor, hnested, hwrites, hvalues]
  rfl

theorem keys_values (c : Collected) : Dict.keys c.values = Dict.keys c.subData :=
  Dict.keys_mapItems _ _

theorem idempotent_flatToNestedFor (n : ℕ) : Idempotent (flatToNestedFor n) := by
  intro fields inner ws h
  cases n with
  | zero => cases h
  | succ n =>
    rw [flatToNestedFor] at h
    have hkeys := (keys_enter_all h).trans (keys_values _)
    refine flatToNestedFor_plain ?_ ?_
    · rw [hkeys]
      exact (shaped_collectAll fields).nodup
    · rw [hkeys]
      exact (shaped_collectAll fields).plain

/-- What a run makes of what is collected. -/
structure Nesting (n : ℕ) (data result : Dict Str Json) (ws : List (Str × Str × Json)) : Prop where
  keys : Dict.keys result = Dict.keys (collectAll data).subData
  other : ∀ x, x ∉ (collectAll data).nestedKeys →
    Dict.get? result x = ((collectAll data).subData.get? x).map Object.value
  writes : ws = [] → (collectAll data).writes = []
  nested : ∀ x ∈ (collectAll data).nestedKeys, ∃ fields given inner ws',
    (collectAll data).subData.get? x = some ⟨.obj fields, given⟩ ∧
    flatToNestedFor n fields = .ok (inner, ws') ∧ Dict.get? result x = some (.obj inner) ∧
    (ws = [] → ws' = [])

theorem nesting (h : flatToNestedFor (n + 1) data = .ok (result, ws)) :
    Nesting n data result ws := by
  rw [flatToNestedFor] at h
  obtain ⟨hother, hwrites, hnested⟩ := enter_all (idempotent_flatToNestedFor n) h
  refine ⟨(keys_enter_all h).trans (keys_values _), fun x hx => ?_, hwrites, fun x hx => ?_⟩
  · rw [hother x hx, values_get?]
  · obtain ⟨fields, inner, ws', hget, hnest, hresult, hws⟩ := hnested x hx
    rw [values_get?] at hget
    obtain ⟨⟨v, given⟩, hsub, rfl⟩ := Option.map_eq_some_iff.mp hget
    exact ⟨fields, given, inner, ws', hsub, hnest, hresult, hws⟩

theorem Nesting.nodup (h : Nesting n data result ws) : (Dict.keys result).Nodup := by
  rw [h.keys]
  exact (shaped_collectAll data).nodup

theorem Nesting.plain (h : Nesting n data result ws) : ∀ e ∈ result, '.' ∉ e.1 := by
  intro e he
  have hkey := List.mem_map_of_mem (f := Prod.fst) he
  rw [show result.map Prod.fst = Dict.keys result from rfl, h.keys] at hkey
  exact (shaped_collectAll data).plain _ hkey

/-- A value of the result is one that is collected, or one that is nested. -/
theorem Nesting.value (h : Nesting n data result ws) {v : Json}
    (hget : Dict.get? result x = some v) :
    (∃ o, (collectAll data).subData.get? x = some o ∧ x ∉ (collectAll data).nestedKeys ∧
      o.value = v) ∨
    ∃ fields given inner ws', x ∈ (collectAll data).nestedKeys ∧
      (collectAll data).subData.get? x = some ⟨.obj fields, given⟩ ∧
      flatToNestedFor n fields = .ok (inner, ws') ∧ v = .obj inner := by
  by_cases hx : x ∈ (collectAll data).nestedKeys
  · obtain ⟨fields, given, inner, ws', hsub, hnest, hresult, -⟩ := h.nested x hx
    obtain rfl := Option.some.inj (hget.symm.trans hresult)
    exact .inr ⟨fields, given, inner, ws', hx, hsub, hnest, rfl⟩
  · rw [h.other x hx] at hget
    obtain ⟨o, ho, rfl⟩ := Option.map_eq_some_iff.mp hget
    exact .inl ⟨o, ho, hx, rfl⟩

theorem Nesting.mem_leaves (h : Nesting n data result ws) : (x :: q, u) ∈ leaves dotted (.obj result) ↔
    ∃ v, Dict.get? result x = some v ∧ (q, u) ∈ leaves dotted v := by
  have hsingle : ∀ e ∈ result, dotted e.1 = [e.1] := fun e he => splitOn_eq_singleton (h.plain e he)
  rw [mem_leaves_cons fun e he => ⟨e.1, hsingle e he⟩]
  constructor
  · intro hmem
    obtain ⟨k, v, hkv, hk, hq⟩ := hmem
    rw [hsingle _ hkv] at hk
    obtain rfl := List.singleton_inj.mp hk
    exact ⟨v, Dict.get?_of_mem h.nodup hkv, hq⟩
  · intro hmem
    obtain ⟨v, hget, hq⟩ := hmem
    have hkv := Dict.mem_of_get? hget
    exact ⟨x, v, hkv, hsingle _ hkv, hq⟩

theorem collectAll_eq_nil (h : Dict.keys (collectAll data).subData = []) : data = [] := by
  cases data using List.reverseRecOn with
  | nil => rfl
  | append_singleton data e =>
    obtain ⟨key, value⟩ := e
    rw [collectAll_snoc] at h
    have hset : ∀ (x : Str) (o : Object), Dict.keys ((collectAll data).subData.set x o) ≠ [] :=
      fun x o => List.ne_nil_of_mem ((Dict.mem_keys_set _ x x o).mpr (.inl rfl))
    cases key_cases key with
    | inl hplain =>
      rw [collect_plain hplain] at h
      exact absurd h (hset _ _)
    | inr hdotted =>
      obtain ⟨child, subKey, rfl, hdot⟩ := hdotted
      rw [collect_dotted hdot] at h
      exact absurd h (hset _ _)

theorem Nesting.mem_leaves_nil (h : Nesting n data result ws) :
    ([], u) ∈ leaves dotted (.obj result) ↔ ([], u) ∈ leaves dotted (.obj data) := by
  have hne : ∀ k : Str, dotted k ≠ [] := splitOn_ne_nil '.'
  rw [Json.mem_leaves_nil fun e _ => hne e.1, Json.mem_leaves_nil fun e _ => hne e.1]
  have hnil : result = [] ↔ data = [] := by
    constructor
    · intro hresult
      exact collectAll_eq_nil (by rw [← h.keys, hresult]; rfl)
    · intro hdata
      have hkeys := h.keys
      rw [hdata] at hkeys
      exact List.map_eq_nil_iff.mp hkeys
  rw [hnil]

/-- Nesting gives a document no leaves of its own. -/
theorem leaves_flatToNestedFor {l : List Str × Json}
    (h : flatToNestedFor n data = .ok (result, ws)) (hl : l ∈ leaves dotted (.obj result)) :
    l ∈ leaves dotted (.obj data) := by
  induction n generalizing data result ws l with
  | zero => cases h
  | succ n ih =>
    have hnesting := nesting h
    obtain ⟨p, u⟩ := l
    cases p with
    | nil => exact hnesting.mem_leaves_nil.mp hl
    | cons x q =>
      obtain ⟨v, hget, hq⟩ := hnesting.mem_leaves.mp hl
      cases hnesting.value hget with
      | inl hvalue =>
        obtain ⟨o, ho, -, rfl⟩ := hvalue
        exact mem_leaves_of_fields (leaves_collectAll ho hq)
      | inr hvalue =>
        obtain ⟨fields, given, inner, ws', -, hsub, hnest, rfl⟩ := hvalue
        exact mem_leaves_of_fields (leaves_collectAll hsub (ih hnest hq))

theorem enter_all_fuel {nest : Dict Str Json → Except NestError Nested} {ks : List Str}
    {d : Dict Str Json} {w : List (Str × Str × Json)} (hidem : Idempotent nest)
    (h : ∀ x fields, Dict.get? d x = some (.obj fields) → nest fields ≠ .error .outOfFuel) :
    ks.foldlM (enter nest) (d, w) ≠ .error .outOfFuel := by
  induction ks generalizing d w with
  | nil =>
    intro herr
    cases herr
  | cons k ks ih =>
    rw [List.foldlM_cons]
    cases henter : enter nest (d, w) k with
    | ok r =>
      obtain ⟨fields, inner, ws, hget, hnest, rfl⟩ := enter_ok henter
      refine ih fun x fields' hget' => ?_
      rw [Dict.get?_set] at hget'
      by_cases hx : x = k
      · rw [if_pos hx] at hget'
        obtain rfl := Json.obj.inj (Option.some.inj hget')
        rw [hidem _ _ _ hnest]
        exact fun herr => by cases herr
      · rw [if_neg hx] at hget'
        exact h x fields' hget'
    | error e =>
      intro herr
      obtain rfl := Except.error.inj herr
      rw [enter] at henter
      dsimp only at henter
      cases hget : Dict.get? d k with
      | none =>
        rw [hget] at henter
        cases henter
      | some v =>
        rw [hget] at henter
        cases v with
        | obj fields =>
          dsimp only at henter
          cases hnest : nest fields with
          | ok r =>
            rw [hnest] at henter
            cases henter
          | error e =>
            rw [hnest] at henter
            exact h k fields hget (hnest.trans henter)
        | _ => cases henter

/-- The size of the keys is enough. -/
theorem flatToNestedFor_ne_outOfFuel (h : weightFields data < n) :
    flatToNestedFor n data ≠ .error .outOfFuel := by
  induction n generalizing data with
  | zero => omega
  | succ n ih =>
    rw [flatToNestedFor]
    refine enter_all_fuel (idempotent_flatToNestedFor n) fun x fields hget => ih ?_
    have hle := weight_collectAll data
    have hlt := weight_lt_of_mem (Dict.mem_of_get? hget)
    rw [weight] at hlt
    omega

end Run

/-- Each map that a key has is spelled without dots, inside of it and beside it. -/
structure Clear (data : Dict Str Json) : Prop where
  values : ∀ k v, (k, v) ∈ data → undotted v = true
  keys : ∀ k ∈ Dict.keys data, ∀ s, k ++ '.' :: s ∉ Dict.keys data

/-- No leaf is at or below a leaf of another key. -/
def Crossed (data : Dict Str Json) : Prop :=
  ∀ k v k' v', (k, v) ∈ data → (k', v') ∈ data → k ≠ k' →
    ∀ l ∈ leaves dotted v, ∀ l' ∈ leaves dotted v', Apart (dotted k ++ l.1) (dotted k' ++ l'.1)

section Groups

variable {n : ℕ} {data fields result : Dict Str Json} {c : Collected} {x : Str} {q : List Str}
  {u : Json}

theorem mem_leavesFields_of_cons (h : (x :: q, u) ∈ leaves dotted (.obj data)) :
    (x :: q, u) ∈ leavesFields dotted data := by
  cases data with
  | nil => simp [leaves] at h
  | cons e data =>
    rw [leaves_obj (by simp)] at h
    exact h

theorem mem_keys_iff_mem {k : Str} : k ∈ Dict.keys data ↔ ∃ v, (k, v) ∈ data := by
  simp [Dict.keys]

/-- A leaf of the document is in what is collected at its first step. -/
theorem Grouped.mem_leaves (hc : Grouped data c) (hnested : ∀ x, '.' ∉ x →
      (∃ s, x ++ '.' :: s ∈ Dict.keys data) → x ∈ c.nestedKeys)
    (h : (x :: q, u) ∈ leavesFields dotted data) :
    ∃ o, c.subData.get? x = some o ∧ (q, u) ∈ leaves dotted o.value := by
  obtain ⟨k, v, q', hmem, hp, hq'⟩ := mem_leavesFields.mp h
  cases key_cases k with
  | inl hplain =>
    rw [dotted, splitOn_eq_singleton hplain] at hp
    obtain ⟨rfl, rfl⟩ := List.cons.inj hp
    exact ⟨_, hc.plain x v hmem hplain, hq'⟩
  | inr hdotted =>
    obtain ⟨child, s, rfl, hdot⟩ := hdotted
    rw [dotted, splitOn_dot hdot] at hp
    obtain ⟨rfl, rfl⟩ := List.cons.inj hp
    obtain ⟨fields, hget, -, hgroup⟩ :=
      hc.group x (hnested x hdot ⟨s, mem_keys_iff_mem.mpr ⟨v, hmem⟩⟩)
    have hs := (hgroup s v).mpr hmem
    refine ⟨_, hget, ?_⟩
    rw [leaves_obj (List.ne_nil_of_mem hs)]
    exact mem_leavesFields.mpr ⟨s, v, q', hs, rfl, hq'⟩

theorem Grouped.keyed_group (hkeyed : Keyed (.obj data)) (hnodup : (Dict.keys fields).Nodup)
    (h : ∀ s v, (s, v) ∈ fields ↔ (x ++ '.' :: s, v) ∈ data) : Keyed (.obj fields) := by
  refine keyed_obj hnodup fun e he => ?_
  exact hkeyed.get? (Dict.get?_of_mem hkeyed.nodup ((h e.1 e.2).mp he))

theorem Clear.group (hclear : Clear data)
    (h : ∀ s v, (s, v) ∈ fields ↔ (x ++ '.' :: s, v) ∈ data) : Clear fields := by
  have hkeys : ∀ s, s ∈ Dict.keys fields → x ++ '.' :: s ∈ Dict.keys data := by
    intro s hs
    obtain ⟨v, hv⟩ := mem_keys_iff_mem.mp hs
    exact mem_keys_iff_mem.mpr ⟨v, (h s v).mp hv⟩
  refine ⟨fun s v hs => hclear.values _ v ((h s v).mp hs), fun s hs t ht => ?_⟩
  exact hclear.keys _ (hkeys s hs) t (by simpa using hkeys _ ht)

theorem Crossed.group (hcrossed : Crossed data) (hx : '.' ∉ x)
    (h : ∀ s v, (s, v) ∈ fields ↔ (x ++ '.' :: s, v) ∈ data) : Crossed fields := by
  intro s v s' v' hs hs' hne l hl l' hl'
  have hapart := hcrossed _ v _ v' ((h s v).mp hs) ((h s' v').mp hs') (by simpa using hne) l hl l' hl'
  rw [dotted, dotted, splitOn_dot hx, splitOn_dot hx] at hapart
  exact hapart.of_cons

theorem crossed_of_pairwise (h : ((fullLeaves data).map Prod.fst).Pairwise Apart) :
    Crossed data := by
  intro k v k' v' hmem hmem' hne l hl l' hl'
  rw [fullLeaves, leaves_obj (List.ne_nil_of_mem hmem), leavesFields_eq, List.pairwise_map,
    List.pairwise_flatMap] at h
  have : Std.Symm fun e e' : Str × Json =>
      ∀ x ∈ (leaves dotted e.2).map fun l => (dotted e.1 ++ l.1, l.2),
      ∀ y ∈ (leaves dotted e'.2).map fun l => (dotted e'.1 ++ l.1, l.2), Apart x.1 y.1 :=
    ⟨fun e e' hee x hx y hy => And.symm (hee y hy x hx)⟩
  have hall := h.2.forall hmem hmem' (by simpa using fun h _ => hne h)
  exact hall _ (List.mem_map_of_mem hl) _ (List.mem_map_of_mem hl')

/-- A document whose maps are spelled without dots is nested, and nothing else happens. -/
theorem nested_of_clear (hweight : weightFields data < n) (hkeyed : Keyed (.obj data))
    (hclear : Clear data) : ∃ result, flatToNestedFor n data = .ok (result, []) ∧
      Keyed (.obj result) ∧ undotted (.obj result) = true ∧
      ∀ l, l ∈ fullLeaves result ↔ l ∈ fullLeaves data := by
  induction n generalizing data with
  | zero => omega
  | succ n ih =>
    have hgrouped := grouped_collectAll hkeyed.nodup fun x hx _ s => hclear.keys x hx s
    have hinner : ∀ x ∈ (collectAll data).nestedKeys, ∃ fields inner,
        (collectAll data).subData.get? x = some ⟨.obj fields, false⟩ ∧
        flatToNestedFor n fields = .ok (inner, []) ∧ Keyed (.obj inner) ∧
        undotted (.obj inner) = true ∧ ∀ l, l ∈ fullLeaves inner ↔ l ∈ fullLeaves fields := by
      intro x hx
      obtain ⟨fields, hget, hnodup, hgroup⟩ := hgrouped.group x hx
      have hvalue : Dict.get? (collectAll data).values x = some (.obj fields) := by
        rw [values_get?, hget]
        rfl
      have hlt := weight_lt_of_mem (Dict.mem_of_get? hvalue)
      rw [weight] at hlt
      have hle := weight_collectAll data
      obtain ⟨inner, hinner⟩ := @ih fields (by omega)
        (Grouped.keyed_group hkeyed hnodup hgroup) (hclear.group hgroup)
      exact ⟨fields, inner, hget, hinner⟩
    have hok : ∃ result, flatToNestedFor (n + 1) data = .ok (result, []) := by
      rw [flatToNestedFor, hgrouped.writes]
      refine enter_all_ok (idempotent_flatToNestedFor n) fun x hx => ?_
      obtain ⟨fields, inner, hget, hnest, -⟩ := hinner x hx
      exact ⟨fields, inner, by rw [values_get?, hget]; rfl, hnest⟩
    obtain ⟨result, hresult⟩ := hok
    have hnesting := nesting hresult
    have hvalue : ∀ x v, Dict.get? result x = some v → Keyed v ∧ undotted v = true := by
      intro x v hget
      cases hnesting.value hget with
      | inl hvalue =>
        obtain ⟨o, ho, hx, rfl⟩ := hvalue
        have hmem := hgrouped.other x o ho hx
        exact ⟨hkeyed.get? (Dict.get?_of_mem hkeyed.nodup hmem), hclear.values x o.value hmem⟩
      | inr hvalue =>
        obtain ⟨fields, given, inner, ws', hx, hsub, hnest, rfl⟩ := hvalue
        obtain ⟨fields', inner', hsub', hnest', hkeyed', hundotted', -⟩ := hinner x hx
        obtain ⟨hfields, -⟩ := Object.mk.inj (Option.some.inj (hsub.symm.trans hsub'))
        obtain rfl := Json.obj.inj hfields
        obtain ⟨rfl, -⟩ := Prod.mk.inj (Except.ok.inj (hnest.symm.trans hnest'))
        exact ⟨hkeyed', hundotted'⟩
    refine ⟨result, hresult, ?_, ?_, fun l => ⟨leaves_flatToNestedFor hresult, fun hl => ?_⟩⟩
    · exact keyed_obj hnesting.nodup fun e he =>
        (hvalue _ _ (Dict.get?_of_mem hnesting.nodup he)).1
    · exact undotted_obj.mpr fun e he =>
        ⟨hnesting.plain e he, (hvalue _ _ (Dict.get?_of_mem hnesting.nodup he)).2⟩
    · obtain ⟨p, u⟩ := l
      cases p with
      | nil => exact hnesting.mem_leaves_nil.mpr hl
      | cons x q =>
        obtain ⟨o, ho, hq⟩ := hgrouped.mem_leaves (fun x hx => (mem_nestedKeys hx).mpr)
          (mem_leavesFields_of_cons hl)
        by_cases hx : x ∈ (collectAll data).nestedKeys
        · obtain ⟨fields, inner, hsub, hnest, -, -, hiff⟩ := hinner x hx
          obtain ⟨fields', given, inner', ws', hsub', hnest', hget, -⟩ := hnesting.nested x hx
          obtain rfl := Option.some.inj (ho.symm.trans hsub)
          obtain ⟨hfields, -⟩ := Object.mk.inj (Option.some.inj (hsub.symm.trans hsub'))
          obtain rfl := Json.obj.inj hfields
          obtain ⟨rfl, -⟩ := Prod.mk.inj (Except.ok.inj (hnest.symm.trans hnest'))
          exact hnesting.mem_leaves.mpr ⟨_, hget, (hiff _).mpr hq⟩
        · refine hnesting.mem_leaves.mpr ⟨o.value, ?_, hq⟩
          rw [hnesting.other x hx, ho]
          rfl

/-- A plain key that has a map has no dotted keys beside it, if nothing is written or lost. -/
theorem plain_of_nested (hnesting : Nesting n data result []) (hnodup : (Dict.keys data).Nodup)
    (hcrossed : Crossed data) (hleaves : ∀ l ∈ fullLeaves data, l ∈ fullLeaves result) {k : Str}
    (hk : k ∈ Dict.keys data) (hplain : '.' ∉ k) (s : Str) : k ++ '.' :: s ∉ Dict.keys data := by
  intro hs
  obtain ⟨v, hv⟩ := mem_keys_iff_mem.mp hk
  obtain ⟨w, hw⟩ := mem_keys_iff_mem.mp hs
  obtain ⟨q, u, hq⟩ := exists_mem_leaves dotted w
  have hne : k ≠ k ++ '.' :: s := by simp
  have hpath : dotted (k ++ '.' :: s) ++ q = k :: (dotted s ++ q) := by
    rw [dotted, splitOn_dot hplain]
    rfl
  have hsingle : dotted k = [k] := splitOn_eq_singleton hplain
  have hapart := fun l hl => hcrossed k v _ w hv hw hne l hl (q, u) hq
  rw [hpath, hsingle] at hapart
  by_cases hobj : ∃ fields, v = .obj fields
  · obtain ⟨fields, rfl⟩ := hobj
    have hkept := kept hnodup hv hplain (hnesting.writes rfl)
    have hmem : (k :: (dotted s ++ q), u) ∈ fullLeaves result := by
      refine hleaves _ ?_
      rw [fullLeaves, leaves_obj (List.ne_nil_of_mem hw)]
      exact mem_leavesFields.mpr ⟨_, w, q, hw, hpath.symm, hq⟩
    obtain ⟨v', hget, hv'⟩ := hnesting.mem_leaves.mp hmem
    obtain ⟨fields', given, inner, ws', hsub, hnest, hget', -⟩ :=
      hnesting.nested k ((mem_nestedKeys hplain).mpr ⟨s, hs⟩)
    obtain rfl := Option.some.inj (hget.symm.trans hget')
    obtain ⟨hfields, -⟩ := Object.mk.inj (Option.some.inj (hsub.symm.trans hkept))
    obtain rfl := Json.obj.inj hfields
    exact (hapart _ (leaves_flatToNestedFor hnest hv')).1 (List.prefix_refl _)
  · have hv : ([], v) ∈ leaves dotted v := by
      rw [leaves_of_not_obj fun fields h => hobj ⟨fields, h⟩]
      simp
    exact (hapart _ hv).1 (by simp)

theorem prefix_dot_iff {k k' : Str} : (k ++ ['.']) <+: k' ↔ ∃ s, k' = k ++ '.' :: s := by
  constructor
  · intro h
    obtain ⟨s, rfl⟩ := h
    exact ⟨s, by simp⟩
  · intro h
    obtain ⟨s, rfl⟩ := h
    exact ⟨s, by simp⟩

/-- Where nothing is written or lost and no dot is left, the maps are spelled without dots. -/
theorem separate_of_nested (hok : flatToNestedFor n data = .ok (result, []))
    (hkeyed : Keyed (.obj data)) (hcrossed : Crossed data) (hundotted : undotted (.obj result) = true)
    (hleaves : ∀ l ∈ fullLeaves data, l ∈ fullLeaves result) : Separate data := by
  induction n generalizing data result with
  | zero => cases hok
  | succ n ih =>
    have hnesting := nesting hok
    have hplain := fun k hk hdot s =>
      plain_of_nested hnesting hkeyed.nodup hcrossed hleaves (k := k) hk hdot s
    have hgrouped := grouped_collectAll hkeyed.nodup hplain
    have hvalue : ∀ x v, Dict.get? result x = some v → undotted v = true :=
      fun x v hget => (undotted_obj.mp hundotted _ (Dict.mem_of_get? hget)).2
    intro k v hmem
    have hkey := mem_keys_iff_mem.mpr ⟨_, hmem⟩
    cases key_cases k with
    | inl hdot =>
      refine ⟨hvalue k _ ?_, fun k' hk' hprefix => ?_⟩
      · have hx : k ∉ (collectAll data).nestedKeys := by
          intro hx
          obtain ⟨s, hs⟩ := (mem_nestedKeys hdot).mp hx
          exact hplain k hkey hdot s hs
        rw [hnesting.other k hx, hgrouped.plain k _ hmem hdot]
        rfl
      · obtain ⟨s, rfl⟩ := prefix_dot_iff.mp hprefix
        exact hplain k hkey hdot s hk'
    | inr hdotted =>
      obtain ⟨x, s, rfl, hdot⟩ := hdotted
      have hx := (mem_nestedKeys hdot).mpr ⟨s, hkey⟩
      obtain ⟨fields, hget, hnodup, hgroup⟩ := hgrouped.group x hx
      obtain ⟨fields', given, inner, ws', hsub, hnest, hresult, hws⟩ := hnesting.nested x hx
      obtain ⟨hfields, -⟩ := Object.mk.inj (Option.some.inj (hsub.symm.trans hget))
      obtain rfl := Json.obj.inj hfields
      obtain rfl := hws rfl
      have hseparate := ih hnest (Grouped.keyed_group hkeyed hnodup hgroup)
        (hcrossed.group hdot hgroup) (hvalue x _ hresult) fun l hl => by
          have hmem := hleaves _ (mem_leaves_of_fields (leaves_collectAll hget hl))
          obtain ⟨v', hget', hl'⟩ := hnesting.mem_leaves.mp hmem
          obtain rfl := Option.some.inj (hget'.symm.trans hresult)
          exact hl'
      obtain ⟨hv, hbeside⟩ := hseparate s v ((hgroup s _).mpr hmem)
      refine ⟨hv, fun k' hk' hprefix => ?_⟩
      obtain ⟨t, rfl⟩ := prefix_dot_iff.mp hprefix
      obtain ⟨w, hw⟩ := mem_keys_iff_mem.mp hk'
      have ht : (s ++ '.' :: t, w) ∈ fields' := (hgroup _ w).mpr (by simpa using hw)
      exact hbeside _ (mem_keys_iff_mem.mpr ⟨w, ht⟩) (by simp)

theorem clear_of_separate (hcrossed : Crossed data) (h : Separate data) : Clear data := by
  refine ⟨fun k v hmem => ?_, fun k hk s hs => ?_⟩
  · cases v with
    | obj fields => exact (h k fields hmem).1
    | _ => rfl
  · obtain ⟨v, hv⟩ := mem_keys_iff_mem.mp hk
    obtain ⟨w, hw⟩ := mem_keys_iff_mem.mp hs
    by_cases hobj : ∃ fields, v = .obj fields
    · obtain ⟨fields, rfl⟩ := hobj
      exact (h k fields hv).2 _ hs (by simp)
    · obtain ⟨q, u, hq⟩ := exists_mem_leaves dotted w
      have hleaf : ([], v) ∈ leaves dotted v := by
        rw [leaves_of_not_obj fun fields h => hobj ⟨fields, h⟩]
        simp
      have hapart := hcrossed k v _ w hv hw (by simp) _ hleaf (q, u) hq
      rw [dotted, dotted, List.splitOn_append_cons_self] at hapart
      exact hapart.1 (by simp)

/-- Equal documents are both spelled without dots in their maps, or neither is. -/
theorem Clear.of_equal {data' : Dict Str Json} (hclear : Clear data) (hkeyed : Keyed (.obj data))
    (hkeyed' : Keyed (.obj data')) (h : Equal (.obj data) (.obj data')) : Clear data' := by
  have hleaves := (equal_iff hkeyed hkeyed').mp h
  have hget : ∀ k v, (k, v) ∈ data' → ∃ w, (k, w) ∈ data ∧
      ∀ l, l ∈ leaves keyed v ↔ l ∈ leaves keyed w := by
    intro k v hmem
    obtain ⟨w, hw, hiff⟩ := exists_get?_of_leaves hkeyed'.nodup hkeyed.nodup
      (fun l => (hleaves l).symm) (Dict.get?_of_mem hkeyed'.nodup hmem)
    exact ⟨w, Dict.mem_of_get? hw, hiff⟩
  have hkeys : ∀ k ∈ Dict.keys data', k ∈ Dict.keys data := by
    intro k hk
    obtain ⟨v, hv⟩ := mem_keys_iff_mem.mp hk
    obtain ⟨w, hw, -⟩ := hget k v hv
    exact mem_keys_iff_mem.mpr ⟨w, hw⟩
  refine ⟨fun k v hmem => ?_, fun k hk s hs => hclear.keys k (hkeys k hk) s (hkeys _ hs)⟩
  obtain ⟨w, hw, hiff⟩ := hget k v hmem
  have hundotted := undotted_iff.mp (hclear.values k w hw)
  exact undotted_iff.mpr fun p u hp => hundotted p u ((hiff _).mp hp)

/-- A document is nested as it should be if and only if none of its maps is spelled with dots in
part. -/
theorem flat_to_nested_iff (hkeyed : Keyed (.obj data))
    (hapart : ((fullLeaves data).map Prod.fst).Pairwise Apart) : Nests data ↔ Separate data := by
  have hcrossed := crossed_of_pairwise hapart
  constructor
  · intro h
    obtain ⟨result, hok, -, hundotted, hleaves, -⟩ := h
    exact separate_of_nested hok hkeyed hcrossed hundotted fun l hl => (hleaves l).mpr hl
  · intro h
    have hclear := clear_of_separate hcrossed h
    obtain ⟨result, hok, hresult, hundotted, hleaves⟩ :=
      nested_of_clear (Nat.lt_succ_self _) hkeyed hclear
    refine ⟨result, hok, hresult, hundotted, hleaves, fun data' hkeyed' hequal => ?_⟩
    obtain ⟨result', hok', hresult', hundotted', hleaves'⟩ :=
      nested_of_clear (Nat.lt_succ_self _) hkeyed' (hclear.of_equal hkeyed hkeyed' hequal)
    refine ⟨result', hok', (equal_iff hresult hresult').mpr fun l => ?_⟩
    obtain ⟨p, u⟩ := l
    have hsame := (equal_iff hkeyed hkeyed').mp hequal
    rw [← leaves_undotted hundotted, ← leaves_undotted hundotted', hleaves, hleaves', fullLeaves,
      fullLeaves, mem_leaves_iff, mem_leaves_iff]
    simp only [hsame]

end Groups

/-- Dotted keys of one map, and a map under a key. -/
def regrouped : Dict Str Json :=
  [("a.b".toList, .num 1), ("c".toList, .obj [("d".toList, .obj [("e".toList, .num 2)])]),
    ("a.f.g".toList, .list [.num 3])]

theorem keyed_regrouped : Keyed (.obj regrouped) := by
  have hd : Keyed (.obj [("e".toList, .num 2)]) :=
    keyed_obj (by decide) (List.forall_mem_singleton.mpr (keyed_num 2))
  have hc : Keyed (.obj [("d".toList, .obj [("e".toList, .num 2)])]) :=
    keyed_obj (by decide) (List.forall_mem_singleton.mpr hd)
  have hg : Keyed (.list [.num 3]) := keyed_list (List.forall_mem_singleton.mpr (keyed_num 3))
  exact keyed_obj (by decide) (List.forall_mem_cons.mpr ⟨keyed_num 1,
    List.forall_mem_cons.mpr ⟨hc, List.forall_mem_singleton.mpr hg⟩⟩)

theorem flat_to_nested_regrouped : Nests regrouped := by
  refine (flat_to_nested_iff keyed_regrouped (by decide)).mpr fun k v hmem => ?_
  obtain ⟨rfl, rfl⟩ : k = "c".toList ∧ v = [("d".toList, .obj [("e".toList, .num 2)])] := by
    simpa [regrouped] using hmem
  exact ⟨rfl, by decide⟩

/-- A map under a key, and a dotted key beside it. -/
def mixed : Dict Str Json :=
  [("a".toList, .obj [("x".toList, .num 1)]), ("a.b".toList, .num 2)]

theorem keyed_mixed : Keyed (.obj mixed) := by
  have hx : Keyed (.obj [("x".toList, .num 1)]) :=
    keyed_obj (by decide) fun e he => by
      obtain rfl := List.mem_singleton.mp he
      exact keyed_num 1
  refine keyed_obj (by decide) fun e he => ?_
  cases List.mem_cons.mp he with
  | inl heq => exact heq ▸ hx
  | inr he =>
    obtain rfl := List.mem_singleton.mp he
    exact keyed_num 2

/-- The map of the given document is written to, and in the other order a value is lost. -/
theorem mixed_not_nested : Keyed (.obj mixed) ∧ ((fullLeaves mixed).map Prod.fst).Pairwise Apart ∧
    ¬ Nests mixed ∧
    flatToNested mixed = .ok
      ([("a".toList, .obj [("x".toList, .num 1), ("b".toList, .num 2)])],
        [("a".toList, "b".toList, .num 2)]) ∧
    flatToNested mixed.reverse = .ok ([("a".toList, .obj [("x".toList, .num 1)])], []) := by
  have hmixed : flatToNested mixed = .ok
      ([("a".toList, .obj [("x".toList, .num 1), ("b".toList, .num 2)])],
        [("a".toList, "b".toList, .num 2)]) := rfl
  refine ⟨keyed_mixed, by decide, fun h => ?_, hmixed, rfl⟩
  obtain ⟨result, hok, -⟩ := h
  have heq := Except.ok.inj (hmixed.symm.trans hok)
  exact List.cons_ne_nil _ _ (Prod.mk.inj heq).2

end Howler.Documents
