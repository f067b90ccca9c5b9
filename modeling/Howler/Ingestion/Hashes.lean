import Mathlib.Data.List.Basic
import Howler.Ingestion.Client

namespace Howler.Ingestion

open Python Structures

section Items

variable {fields : List Str} {parent : Option Str} {data : List (Str × Value)} {key k : Str}
  {v w : Value} {e : Str × Value}

theorem mem_keys_foldl_set {K V : Type} [DecidableEq K] {items : List (K × V)} {d : Dict K V} {k : K}
    (h : k ∈ items.map Prod.fst ∨ k ∈ Dict.keys d) :
    k ∈ Dict.keys (items.foldl (fun d e => Dict.set d e.1 e.2) d) := by
  induction items generalizing d with
  | nil => simpa using h
  | cons e items ih =>
    apply ih
    rw [Dict.mem_keys_set]
    rw [List.map_cons, List.mem_cons] at h
    tauto

/-- The last one of the items with a key is in the dict. -/
theorem exists_get?_ofItems {items : List (Str × Value)} (h : (k, v) ∈ items) :
    ∃ w, Dict.get? (Dict.ofItems items) k = some w ∧ (k, w) ∈ items := by
  have hkey : k ∈ Dict.keys (Dict.ofItems items) :=
    mem_keys_foldl_set (.inl (List.mem_map_of_mem (f := Prod.fst) h))
  obtain ⟨w, hw⟩ := (Dict.mem_keys_iff _ _).mp hkey
  refine ⟨w, hw, ?_⟩
  cases Dict.mem_of_get?_foldl_set hw with
  | inl hmem => exact hmem
  | inr hmem => cases hmem

theorem mem_of_mem_foldl_set {items : List (Str × Value)} {d : Dict Str Value}
    (h : e ∈ items.foldl (fun d e => Dict.set d e.1 e.2) d) : e ∈ items ∨ e ∈ d := by
  induction items generalizing d with
  | nil => exact .inr h
  | cons e' items ih =>
    cases ih h with
    | inl hmem => exact .inl (List.mem_cons_of_mem _ hmem)
    | inr hmem =>
      cases Dict.mem_set hmem with
      | inl heq => exact .inl (heq ▸ List.mem_cons_self ..)
      | inr hmem => exact .inr hmem

theorem mem_of_mem_ofItems {items : List (Str × Value)} (h : e ∈ Dict.ofItems items) :
    e ∈ items := by
  cases mem_of_mem_foldl_set h with
  | inl hmem => exact hmem
  | inr hmem => cases hmem

theorem mem_flattenItems : e ∈ flattenItems fields parent data ↔
    ∃ entry ∈ data, e ∈ flattenValue fields (keyBelow parent entry.1) entry.1 entry.2 := by
  induction data with
  | nil => simp [flattenItems]
  | cons entry data ih =>
    obtain ⟨k, v⟩ := entry
    rw [flattenItems, List.mem_append, ih, List.exists_mem_cons_iff]

/-- What is below an entry has its key, or a longer one. -/
theorem prefix_of_mem_flattenValue (h : e ∈ flattenValue fields key k v) :
    e = (key, v) ∨ (key ++ ['.']) <+: e.1 := by
  induction v using Structures.Tree.induct generalizing key k e with
  | leaf a =>
    rw [flattenValue] at h
    · exact .inl (List.mem_singleton.mp h)
    · intro fields heq
      cases heq
  | list xs _ =>
    rw [flattenValue] at h
    · exact .inl (List.mem_singleton.mp h)
    · intro fields heq
      cases heq
  | obj data ih =>
    rw [flattenValue] at h
    split_ifs at h with hflat hdata
    · exact .inl (List.mem_singleton.mp h)
    · obtain ⟨entry, hentry, hmem⟩ := mem_flattenItems.mp (mem_of_mem_ofItems h)
      have hkey : (key ++ ['.']) <+: keyBelow (some key) entry.1 := ⟨entry.1, by simp [keyBelow]⟩
      cases ih entry hentry hmem with
      | inl heq => exact .inr (heq ▸ hkey)
      | inr hprefix => exact .inr (hkey.trans ((List.prefix_append _ _).trans hprefix))
    · exact .inl (List.mem_singleton.mp h)

end Items

section Gives

/-- The key of a field of howler. -/
def howlerKey (name : Str) : Str := "howler".toList ++ '.' :: name

/-- The value of a field of howler in the nested spelling. -/
def nested (data : Dict Str Value) (name : Str) : Option Value :=
  match Dict.get? data "howler".toList with
  | some (.obj fields) => Dict.get? fields name
  | _ => none

/-- A hit gives a value, or none, for a field of howler, in one of the two spellings. -/
def Gives (hit : Submitted) (name : Str) (v : Option Value) : Prop :=
  (Dict.get? hit.fields (howlerKey name) = v ∧ nested hit.fields name = none) ∨
    (Dict.get? hit.fields (howlerKey name) = none ∧ nested hit.fields name = v)

variable {hit : Submitted} {name : Str} {v w : Value}

theorem nested_eq_some_iff {data : Dict Str Value} : nested data name = some w ↔
    ∃ fields, Dict.get? data "howler".toList = some (.obj fields) ∧
      Dict.get? fields name = some w := by
  unfold nested
  cases hget : Dict.get? data "howler".toList with
  | none => simp
  | some v => cases v <;> simp

/-- Below howler, only the field ends up under its key. -/
theorem get?_of_mem_below {fields : Dict Str Value} (hunique : (Structures.Tree.obj fields).Unique)
    (hname : '.' ∉ name)
    (h : (howlerKey name, w) ∈ flattenItems ["howler".toList] (some "howler".toList) fields) :
    Dict.get? fields name = some w := by
  obtain ⟨⟨k, v⟩, hentry, hmem⟩ := mem_flattenItems.mp h
  rcases prefix_of_mem_flattenValue hmem with heq | ⟨t, ht⟩
  · obtain ⟨hkey, rfl⟩ := Prod.mk.inj heq
    have hk : name = k := by simpa [howlerKey, keyBelow] using hkey
    subst hk
    exact Dict.get?_of_mem hunique.keys hentry
  · have htail : k ++ '.' :: t = name := by simpa [howlerKey, keyBelow] using ht
    have hdot : '.' ∈ name := by
      rw [← htail]
      simp
    exact absurd hdot hname

theorem flattenValue_howler (fields : Dict Str Value) :
    flattenValue ["howler".toList] "howler".toList "howler".toList (.obj fields) =
      Dict.ofItems (flattenItems ["howler".toList] (some "howler".toList) fields) := by
  rw [flattenValue, if_pos (by decide), if_neg (by decide)]

/-- Only the two spellings of a field end up under its key. -/
theorem mem_flattenItems_howler (hname : '.' ∉ name)
    (h : (howlerKey name, w) ∈ flattenItems ["howler".toList] none hit.fields) :
    Dict.get? hit.fields (howlerKey name) = some w ∨ nested hit.fields name = some w := by
  obtain ⟨⟨k, v⟩, hentry, hmem⟩ := mem_flattenItems.mp h
  have hget := Dict.get?_of_mem hit.unique.keys hentry
  change (howlerKey name, w) ∈ flattenValue ["howler".toList] k k v at hmem
  rcases prefix_of_mem_flattenValue hmem with heq | ⟨t, ht⟩
  · obtain ⟨rfl, rfl⟩ := Prod.mk.inj heq
    exact .inl hget
  · rw [List.append_assoc, List.singleton_append] at ht
    obtain ⟨rfl, -, -⟩ := (List.append_cons_inj_of_notMem (by decide) hname).mp ht.symm
    have hlonger : howlerKey name ≠ "howler".toList := by
      intro heq
      have hlength := congrArg List.length heq
      simp [howlerKey] at hlength
    cases v with
    | leaf a =>
      have hmem' : (howlerKey name, w) = ("howler".toList, Structures.Tree.leaf a) := by
        simpa [flattenValue] using hmem
      exact absurd (Prod.mk.inj hmem').1 hlonger
    | list xs =>
      have hmem' : (howlerKey name, w) = ("howler".toList, Structures.Tree.list xs) := by
        simpa [flattenValue] using hmem
      exact absurd (Prod.mk.inj hmem').1 hlonger
    | obj fields =>
      rw [flattenValue_howler] at hmem
      refine .inr (nested_eq_some_iff.mpr ⟨fields, hget, ?_⟩)
      exact get?_of_mem_below (hit.unique.values _ hentry) hname (mem_of_mem_ofItems hmem)

/-- A value in the flattened spelling ends up under its key, a dict only if it is the raw data. -/
theorem mem_flattenItems_of_flat (hobj : (∀ fields, v ≠ .obj fields) ∨ name = "data".toList)
    (h : Dict.get? hit.fields (howlerKey name) = some v) :
    (howlerKey name, v) ∈ flattenItems ["howler".toList] none hit.fields := by
  refine mem_flattenItems.mpr ⟨_, Dict.mem_of_get? h, ?_⟩
  change (howlerKey name, v) ∈ flattenValue ["howler".toList] (howlerKey name) (howlerKey name) v
  cases v with
  | leaf a => simp [flattenValue]
  | list xs => simp [flattenValue]
  | obj fields =>
    obtain rfl : name = "data".toList := hobj.resolve_left fun h => h fields rfl
    rw [flattenValue, if_pos (by decide), if_pos (by decide)]
    exact List.mem_singleton.mpr rfl

/-- A value in the nested spelling ends up under its key. -/
theorem mem_flattenItems_of_nested (hname : '.' ∉ name)
    (hplain : ¬ "howler".toList <+: name) (h : nested hit.fields name = some v) :
    (howlerKey name, v) ∈ flattenItems ["howler".toList] none hit.fields := by
  obtain ⟨fields, hget, hv⟩ := nested_eq_some_iff.mp h
  have hbelow : (howlerKey name, v) ∈
      flattenItems ["howler".toList] (some "howler".toList) fields := by
    refine mem_flattenItems.mpr ⟨_, Dict.mem_of_get? hv, ?_⟩
    change (howlerKey name, v) ∈ flattenValue ["howler".toList] (howlerKey name) name v
    cases v with
    | leaf a => simp [flattenValue]
    | list xs => simp [flattenValue]
    | obj fields' =>
      rw [flattenValue, if_neg (by simpa using hplain)]
      exact List.mem_singleton.mpr rfl
  obtain ⟨w, hw, hmem⟩ := exists_get?_ofItems hbelow
  have hentry := Dict.mem_of_get? hget
  have hsame := get?_of_mem_below (hit.unique.values _ hentry) hname hmem
  obtain rfl : v = w := Option.some.inj (hv.symm.trans hsame)
  refine mem_flattenItems.mpr ⟨_, hentry, ?_⟩
  change _ ∈ flattenValue ["howler".toList] "howler".toList "howler".toList (.obj fields)
  rw [flattenValue_howler]
  exact Dict.mem_of_get? hw

/-- A field of howler in a flattened hit, however it was spelled. -/
theorem get?_flatten {o : Option Value} (hname : '.' ∉ name)
    (hplain : ¬ "howler".toList <+: name)
    (hobj : (∀ fields, o ≠ some (.obj fields)) ∨ name = "data".toList) (h : Gives hit name o) :
    Dict.get? (flatten ["howler".toList] hit.fields) (howlerKey name) = o := by
  have honly : ∀ w, (howlerKey name, w) ∈ flattenItems ["howler".toList] none hit.fields →
      o = some w := by
    intro w hw
    rcases mem_flattenItems_howler hname hw with hflat | hnested
    · rcases h with ⟨ho, -⟩ | ⟨ho, -⟩
      · exact ho.symm.trans hflat
      · rw [ho] at hflat
        cases hflat
    · rcases h with ⟨-, ho⟩ | ⟨-, ho⟩
      · rw [ho] at hnested
        cases hnested
      · exact ho.symm.trans hnested
  cases o with
  | none =>
    cases hget : Dict.get? (flatten ["howler".toList] hit.fields) (howlerKey name) with
    | none => rfl
    | some w => exact absurd (honly w (mem_of_mem_ofItems (Dict.mem_of_get? hget))) (by simp)
  | some v =>
    have hmem : (howlerKey name, v) ∈ flattenItems ["howler".toList] none hit.fields := by
      rcases h with ⟨hflat, -⟩ | ⟨-, hnested⟩
      · refine mem_flattenItems_of_flat (hobj.imp_left fun hobj fields heq => ?_) hflat
        exact hobj fields (congrArg some heq)
      · exact mem_flattenItems_of_nested hname hplain hnested
    obtain ⟨w, hw, hmem'⟩ := exists_get?_ofItems hmem
    exact hw.trans (honly w hmem').symm

end Gives

section Hash

variable (client : Client)

/-- Values are equal if they are of the same kind; the keys of dicts may stand in any order. -/
def alike (v w : Value) : Bool := Structures.Tree.same (fun a b => decide (a = b)) v w

/-- The raw data entries of a hit that gives a value for them, or none. -/
def rawData (o : Option Value) : List Value := entriesOf (o.getD (.list []))

/-- Hits with the same analytic, the same detection and the same raw data entries have the same
hash. -/
def HashesAlike : Prop :=
  ∀ (hit hit' : Submitted) (analytic : Scalar) (detection : Option Scalar) (data data' : Option Value),
    Gives hit "analytic".toList (some (.leaf analytic)) →
    Gives hit' "analytic".toList (some (.leaf analytic)) →
    Gives hit "detection".toList (detection.map .leaf) →
    Gives hit' "detection".toList (detection.map .leaf) →
    Gives hit "data".toList data → Gives hit' "data".toList data' →
    Multiset.Rel (fun v w => alike v w = true) (rawData data) (rawData data') →
    generateHash client (flatten ["howler".toList] hit.fields) =
      generateHash client (flatten ["howler".toList] hit'.fields)

/-- The keys of the raw data are distinct. -/
theorem unique_rawData {hit : Submitted} {name : Str} {o : Option Value} (h : Gives hit name o) :
    ∀ v ∈ rawData o, v.Unique := by
  have hvalue : ∀ w, o = some w → w.Unique := by
    rintro w rfl
    rcases h with ⟨hget, -⟩ | ⟨-, hnested⟩
    · exact hit.unique.values _ (Dict.mem_of_get? hget)
    · obtain ⟨fields, hget, hw⟩ := nested_eq_some_iff.mp hnested
      exact (hit.unique.values _ (Dict.mem_of_get? hget)).values _ (Dict.mem_of_get? hw)
  intro v hv
  cases o with
  | none => cases hv
  | some w =>
    have hw := hvalue w rfl
    cases w with
    | leaf a => rwa [List.mem_singleton.mp hv]
    | list xs => exact hw.items v hv
    | obj fields => rwa [List.mem_singleton.mp hv]

/-- The hash of a flattened hit. -/
theorem generateHash_of_gives {hit : Submitted} {analytic : Scalar} {detection : Option Scalar}
    {data : Option Value} (hanalytic : Gives hit "analytic".toList (some (.leaf analytic)))
    (hdetection : Gives hit "detection".toList (detection.map .leaf))
    (hdata : Gives hit "data".toList data) :
    generateHash client (flatten ["howler".toList] hit.fields) =
      .ok (client.sha256 (dumps client (.obj [
        ("analytic".toList, .leaf analytic),
        ("detection".toList, (detection.map Structures.Tree.leaf).getD (.leaf (.str "no_detection".toList))),
        ("raw_data".toList, .list ((sorted ((rawData data).map (dumps client))).map fun s =>
          .leaf (.str s)))]))) := by
  have ha := get?_flatten (by decide) (by decide) (.inl (by simp)) hanalytic
  have hd := get?_flatten (by decide) (by decide)
    (.inl fun fields => by cases detection <;> simp) hdetection
  have hr := get?_flatten (by decide) (by decide) (.inr rfl) hdata
  change Dict.get? _ "howler.analytic".toList = _ at ha
  change Dict.get? _ "howler.detection".toList = _ at hd
  change Dict.get? _ "howler.data".toList = _ at hr
  rw [generateHash, ha, hd, hr]
  rfl

theorem hashesAlike : HashesAlike client := by
  intro hit hit' analytic detection data data' ha ha' hd hd' hr hr' hsame
  have hentries : sorted ((rawData data).map (dumps client)) =
      sorted ((rawData data').map (dumps client)) := by
    refine Structures.Tree.sorted_dumps_eq (fun a b hab => ?_) (unique_rawData hr) (unique_rawData hr') hsame
    rw [of_decide_eq_true hab]
  rw [generateHash_of_gives client ha hd hr, generateHash_of_gives client ha' hd' hr', hentries]

end Hash

end Howler.Ingestion
