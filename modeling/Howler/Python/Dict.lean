import Mathlib.Data.List.Basic

namespace Python

/-- A Python `dict`: its items in insertion order. -/
abbrev Dict (K V : Type) := List (K × V)

namespace Dict

variable {K V : Type} [DecidableEq K]

/-- `d.get(k)`. -/
def get? (d : Dict K V) (k : K) : Option V := d.lookup k

/-- `d[k] = v`: a key that is present keeps its place. -/
def set : Dict K V → K → V → Dict K V
  | [], k, v => [(k, v)]
  | (k', v') :: d, k, v => if k' = k then (k, v) :: d else (k', v') :: set d k v

def keys (d : Dict K V) : List K := d.map Prod.fst

/-- The dict without the key. -/
def erase (d : Dict K V) (k : K) : Dict K V := d.filter fun e => e.1 ≠ k

/-- `{k: f(k, v) for k, v in d.items()}`. -/
def mapItems {W : Type} (f : K → V → W) (d : Dict K V) : Dict K W := d.map fun e => (e.1, f e.1 e.2)

-- The equations are derived here once, and not by each proof that rewrites with them.
section

attribute [local simp] get? set keys erase mapItems

end

theorem get?_cons (k' : K) (v' : V) (d : Dict K V) (k : K) :
    get? ((k', v') :: d) k = if k = k' then some v' else get? d k := by
  rw [get?, List.lookup_cons]
  by_cases h : k = k'
  · simp [h]
  · rw [show (k == k') = false by simpa using h, if_neg h]
    rfl

@[simp] theorem get?_nil (k : K) : get? ([] : Dict K V) k = none := rfl

theorem get?_erase (d : Dict K V) (k k' : K) :
    get? (erase d k) k' = if k' = k then none else get? d k' := by
  induction d with
  | nil => simp [erase]
  | cons e d ih =>
    obtain ⟨k₀, v₀⟩ := e
    rw [erase] at ih ⊢
    by_cases hk : k₀ = k
    · rw [List.filter_cons_of_neg (by simpa using hk), ih, get?_cons]
      by_cases h : k' = k
      · simp [h]
      · simp [h, hk]
    · rw [List.filter_cons_of_pos (by simpa using hk), get?_cons, get?_cons, ih]
      by_cases h : k' = k₀
      · simp [h, hk]
      · simp [h]

omit [DecidableEq K] in
@[simp] theorem keys_mapItems {W : Type} (f : K → V → W) (d : Dict K V) :
    keys (mapItems f d) = keys d := by
  simp [keys, mapItems, Function.comp_def]

theorem get?_mapItems {W : Type} (f : K → V → W) (d : Dict K V) (k : K) :
    get? (mapItems f d) k = (get? d k).map (f k) := by
  induction d with
  | nil => rfl
  | cons e d ih =>
    obtain ⟨k₀, v₀⟩ := e
    rw [mapItems] at ih ⊢
    rw [List.map_cons, get?_cons, get?_cons]
    by_cases h : k = k₀
    · simp [h]
    · simpa [h] using ih

theorem nodup_keys_erase {d : Dict K V} (h : (keys d).Nodup) (k : K) :
    (keys (erase d k)).Nodup :=
  h.sublist (List.filter_sublist.map _)

theorem get?_set (d : Dict K V) (k k' : K) (v : V) :
    get? (set d k v) k' = if k' = k then some v else get? d k' := by
  induction d with
  | nil => rw [set, get?_cons]
  | cons e d ih =>
    obtain ⟨k₀, v₀⟩ := e
    rw [set]
    by_cases h : k₀ = k
    · rw [if_pos h, get?_cons, get?_cons]
      by_cases h' : k' = k
      · simp [h']
      · simp [h', h]
    · rw [if_neg h, get?_cons, get?_cons, ih]
      by_cases h' : k' = k₀
      · have hk : k' ≠ k := h' ▸ h
        simp [h', h]
      · simp [h']

theorem set_eq_self {d : Dict K V} {k : K} {v : V} (h : get? d k = some v) : set d k v = d := by
  induction d with
  | nil => cases h
  | cons e d ih =>
    obtain ⟨k₀, v₀⟩ := e
    rw [get?_cons] at h
    rw [set]
    by_cases hk : k = k₀
    · rw [if_pos hk] at h
      rw [if_pos hk.symm, hk, Option.some.inj h]
    · rw [if_neg hk] at h
      rw [if_neg (Ne.symm hk), ih h]

theorem set_of_not_mem {d : Dict K V} {k : K} (h : k ∉ keys d) (v : V) :
    set d k v = d ++ [(k, v)] := by
  induction d with
  | nil => rfl
  | cons e d ih =>
    have hne : ¬ e.1 = k := by
      intro heq
      exact h (by simp [keys, heq])
    have htail : k ∉ keys d := by
      intro hk
      exact h (List.mem_cons_of_mem _ hk)
    rw [set, if_neg hne, ih htail, List.cons_append]

theorem mem_set {d : Dict K V} {k : K} {v : V} {e : K × V} (h : e ∈ set d k v) :
    e = (k, v) ∨ e ∈ d := by
  induction d with
  | nil => simpa [set] using h
  | cons x d ih =>
    obtain ⟨k₀, v₀⟩ := x
    rw [set] at h
    by_cases hk : k₀ = k
    · rw [if_pos hk] at h
      exact (List.mem_cons.mp h).imp id (List.mem_cons_of_mem _)
    · rw [if_neg hk] at h
      cases List.mem_cons.mp h with
      | inl h => exact .inr (by simp [h])
      | inr h => exact (ih h).imp id (List.mem_cons_of_mem _)

theorem mem_keys_set (d : Dict K V) (k k' : K) (v : V) :
    k' ∈ keys (set d k v) ↔ k' = k ∨ k' ∈ keys d := by
  induction d with
  | nil => simp [set, keys]
  | cons e d ih =>
    obtain ⟨k₀, v₀⟩ := e
    rw [set]
    by_cases h : k₀ = k
    · simp [keys, h]
    · rw [if_neg h]
      simp only [keys, List.map_cons, List.mem_cons] at ih ⊢
      rw [ih]
      tauto

theorem keys_set_of_mem {d : Dict K V} {k : K} (h : k ∈ keys d) (v : V) :
    keys (set d k v) = keys d := by
  induction d with
  | nil => contradiction
  | cons e d ih =>
    obtain ⟨k₀, v₀⟩ := e
    rw [set]
    by_cases hk : k₀ = k
    · simp [keys, hk]
    · have hmem : k ∈ keys d := by
        cases List.mem_cons.mp h with
        | inl heq => exact absurd heq.symm hk
        | inr hmem => exact hmem
      rw [if_neg hk]
      exact congrArg (List.cons k₀) (ih hmem)

theorem mem_keys_iff (d : Dict K V) (k : K) : k ∈ keys d ↔ ∃ v, get? d k = some v := by
  induction d with
  | nil => simp [keys]
  | cons e d ih =>
    obtain ⟨k₀, v₀⟩ := e
    rw [get?_cons]
    by_cases h : k = k₀
    · simp [keys, h]
    · simp only [keys, List.map_cons, List.mem_cons, h, false_or, if_false]
      exact ih

theorem get?_eq_none_iff (d : Dict K V) (k : K) : get? d k = none ↔ k ∉ keys d := by
  rw [mem_keys_iff]
  cases get? d k <;> simp

theorem mem_of_get? {d : Dict K V} {k : K} {v : V} (h : get? d k = some v) : (k, v) ∈ d := by
  induction d with
  | nil => simp at h
  | cons e d ih =>
    obtain ⟨k₀, v₀⟩ := e
    rw [get?_cons] at h
    by_cases hk : k = k₀
    · simp only [hk, if_true, Option.some.injEq] at h
      simp [hk, h]
    · rw [if_neg hk] at h
      exact List.mem_cons_of_mem _ (ih h)

/-- Setting a key keeps the keys distinct. -/
theorem nodup_keys_set {d : Dict K V} (h : (keys d).Nodup) (k : K) (v : V) :
    (keys (set d k v)).Nodup := by
  induction d with
  | nil => simp [set, keys]
  | cons e d ih =>
    obtain ⟨k₀, v₀⟩ := e
    obtain ⟨hk₀, hd⟩ := List.nodup_cons.mp h
    rw [set]
    by_cases hk : k₀ = k
    · rw [if_pos hk]
      exact List.nodup_cons.mpr ⟨hk ▸ hk₀, hd⟩
    · rw [if_neg hk]
      refine List.nodup_cons.mpr ⟨fun hmem => ?_, ih hd⟩
      cases (mem_keys_set d k k₀ v).mp hmem with
      | inl heq => exact hk heq
      | inr hmem => exact hk₀ hmem

theorem get?_of_mem {d : Dict K V} (h : (keys d).Nodup) {k : K} {v : V} (hm : (k, v) ∈ d) :
    get? d k = some v := by
  induction d with
  | nil => contradiction
  | cons e d ih =>
    obtain ⟨k₀, v₀⟩ := e
    obtain ⟨hk₀, hd⟩ := List.nodup_cons.mp h
    rw [get?_cons]
    cases List.mem_cons.mp hm with
    | inl heq =>
      obtain ⟨rfl, rfl⟩ := Prod.mk.inj heq
      exact if_pos rfl
    | inr hm =>
      have hmem : k ∈ keys d := List.mem_map_of_mem (f := Prod.fst) hm
      have hne : k ≠ k₀ := fun heq => hk₀ (heq ▸ hmem)
      rw [if_neg hne]
      exact ih hd hm

theorem get?_append (d d' : Dict K V) (k : K) :
    get? (d ++ d') k = (get? d k).or (get? d' k) := List.lookup_append

theorem get?_filter (p : K → Bool) (d : Dict K V) (k : K) :
    get? (d.filter fun e => p e.1) k = if p k then get? d k else none := by
  induction d with
  | nil => simp [get?]
  | cons e d ih =>
    obtain ⟨k', v⟩ := e
    rw [List.filter_cons]
    by_cases hp : p k' <;> by_cases heq : k = k' <;> simp_all [get?_cons]

theorem keys_set (d : Dict K V) (k : K) (v : V) :
    keys (set d k v) = keys d ++ if k ∈ keys d then [] else [k] := by
  by_cases hk : k ∈ keys d
  · rw [keys_set_of_mem hk, if_pos hk, List.append_nil]
  · rw [set_of_not_mem hk, if_neg hk]
    simp [keys]

/-- Maps with the same keys in the same order and the same values are the same. -/
theorem ext_get? {f g : Dict K V} (hnodup : (keys f).Nodup)
    (hkeys : keys f = keys g) (h : ∀ k, get? f k = get? g k) : f = g := by
  induction f generalizing g with
  | nil =>
    cases g with
    | nil => rfl
    | cons e g => cases hkeys
  | cons e f ih =>
    cases g with
    | nil => cases hkeys
    | cons e' g =>
      obtain ⟨k, v⟩ := e
      obtain ⟨k', v'⟩ := e'
      obtain ⟨rfl, htail⟩ := List.cons.inj hkeys
      obtain ⟨hk, hnodup⟩ := List.nodup_cons.mp hnodup
      have hhead := h k
      rw [get?_cons, get?_cons, if_pos rfl, if_pos rfl] at hhead
      obtain rfl := Option.some.inj hhead
      have hrest : f = g := ih hnodup htail fun k' => by
        have hk' := h k'
        rw [get?_cons, get?_cons] at hk'
        by_cases heq : k' = k
        · have hg : k ∉ keys g := by
            have hmap : keys f = keys g := htail
            rw [← hmap]
            exact hk
          rw [heq, (get?_eq_none_iff _ _).mpr hk, (get?_eq_none_iff _ _).mpr hg]
        · rwa [if_neg heq, if_neg heq] at hk'
      rw [hrest]

omit [DecidableEq K] in
theorem forall_mem_cons {P : K → V → Prop} {k₀ : K} {v₀ : V} {d : List (K × V)} :
    (∀ k v, (k, v) ∈ (k₀, v₀) :: d → P k v) ↔ P k₀ v₀ ∧ ∀ k v, (k, v) ∈ d → P k v := by
  constructor
  · intro h
    exact ⟨h k₀ v₀ (List.mem_cons_self ..), fun k v hmem => h k v (List.mem_cons_of_mem _ hmem)⟩
  · rintro ⟨hhead, htail⟩ k v hmem
    rcases List.mem_cons.mp hmem with heq | hmem
    · obtain ⟨rfl, rfl⟩ := Prod.mk.inj heq
      exact hhead
    · exact htail k v hmem

/-- `{k: v for k, v in items}`. -/
def ofItems (items : List (K × V)) : Dict K V := items.foldl (fun d e => set d e.1 e.2) []

theorem foldl_set_of_fresh {items : List (K × V)} (hnodup : (items.map Prod.fst).Nodup)
    {d : Dict K V} (hfresh : ∀ k ∈ items.map Prod.fst, k ∉ keys d) :
    items.foldl (fun d e => set d e.1 e.2) d = d ++ items := by
  induction items generalizing d with
  | nil => simp
  | cons e items ih =>
    obtain ⟨hk, hnodup⟩ := List.nodup_cons.mp hnodup
    have he : e.1 ∉ keys d := hfresh e.1 (List.mem_cons_self ..)
    rw [List.foldl_cons, ih hnodup, set_of_not_mem he]
    · simp
    · intro k hk' hmem
      rcases (mem_keys_set d e.1 k e.2).mp hmem with heq | hmem
      · exact hk (heq ▸ hk')
      · exact hfresh k (List.mem_cons_of_mem _ hk') hmem

theorem ofItems_eq {items : List (K × V)} (hnodup : (items.map Prod.fst).Nodup) :
    ofItems items = items :=
  foldl_set_of_fresh hnodup fun k _ hmem => by cases hmem

theorem mem_of_get?_foldl_set {es : List (K × V)} {d : Dict K V} {k : K} {v : V}
    (h : get? (es.foldl (fun d e => set d e.1 e.2) d) k = some v) :
    (k, v) ∈ es ∨ get? d k = some v := by
  induction es generalizing d with
  | nil => exact .inr h
  | cons e es ih =>
    cases ih h with
    | inl hmem => exact .inl (List.mem_cons_of_mem _ hmem)
    | inr hget =>
      rw [get?_set] at hget
      split at hget
      · next hk =>
        obtain rfl := Option.some.inj hget
        exact .inl (hk ▸ List.mem_cons_self)
      · exact .inr hget

end Dict

end Python
