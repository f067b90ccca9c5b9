import Howler.Auth.Account
import Howler.Documents.Nested

namespace Howler.Auth

open Python Structures Documents

section Conditions

variable (fields : List UserField) (fails : StoreRequest → Bool) (username : Str)
  (data : Dict Str Json) (user : Caller) (s : Accounts)

/-- The data of the account as the constructor of the model takes them apart. -/
def submitted : Option (Dict Str Json) :=
  match flatToNested (Dict.erase (clearAccount data) "__index".toList) with
  | .error _ => none
  | .ok (nested, _) => some nested

/-- The check of a field when the document is saved, where the first check has given `v`. A value
that is none is not there any more. -/
def UserField.again (f : UserField) (v : Json) : Except AccountError Json :=
  match v with
  | .null => f.read []
  | v => f.check v

/-- The request is not refused: the data can be read, the account is the caller's own, and of what is
stored only fields of the account are changed. -/
structure Accepted (sub current : Dict Str Json) : Prop where
  readable : ∀ f ∈ fields, ∃ v, f.read sub = .ok v
  uname : ∃ f ∈ fields, f.name = "uname".toList ∧ ∃ u, f.read sub = .ok u ∧
    (Json.str username).same u = true
  own : username = user.uname
  filled : current ≠ []
  kept : ∀ e ∈ current, ∃ f ∈ fields, f.name = e.1 ∧ ∃ v, f.read sub = .ok v ∧ v ≠ .null ∧
    (v.same e.2 = true ∨ e.1 ∈ accountUserModifiable)

/-- The user can be saved after the avatar. -/
def Resaves (sub : Dict Str Json) : Prop :=
  ' ' ∉ username ∧ (∀ f ∈ fields, ∀ v, f.read sub = .ok v → ∃ w, f.again v = .ok w) ∧
    fails .saveUser = false

/-- A field beyond the account's stays as it is stored: one that is not stored is absent from the
data, or none there, and has no default, and the check on saving leaves the others alone. -/
def FieldStays (sub current : Dict Str Json) (f : UserField) : Prop :=
  if f.name ∈ Dict.keys current then
    ∀ v w x, f.read sub = .ok v → f.check v = .ok w → Dict.get? current f.name = some x →
      w.same x = true
  else f.default = none ∧ (Dict.get? sub f.name = none ∨ Dict.get? sub f.name = some .null)

/-- Where a request is accepted and its avatar goes through, the fields beyond the account's stay as
they are stored; but if the user cannot be saved, no avatar is submitted, or the stored one is. -/
def AccountFits : Prop :=
  ∀ sub current, submitted data = some sub → s.users username = some current →
    Accepted fields username user sub current → ¬ AvatarFails fails username data →
    (Resaves fields fails username sub →
      ∀ f ∈ fields, f.name ∉ accountUserModifiable → FieldStays sub current f) ∧
    (¬ Resaves fields fails username sub → AvatarStays username data s)

/-- A table of fields as that of the model of users: the names differ and are plain, and beyond the
account's own fields a check gives none for none only, and nothing else where there is no default. -/
structure Regular : Prop where
  nodup : (fields.map (·.name)).Nodup
  plain : ∀ f ∈ fields, '.' ∉ f.name ∧ f.name ≠ "__index".toList
  default : ∀ f ∈ fields, f.default ≠ some .null
  noneOnly : ∀ f ∈ fields, f.name ∉ accountUserModifiable → ∀ v, f.check v = .ok .null → v = .null
  noneKept : ∀ f ∈ fields, f.name ∉ accountUserModifiable → f.default = none →
    ∀ w, f.check .null = .ok w → w = .null

end Conditions

section Reading

variable {fields : List UserField} {fails : StoreRequest → Bool} {username : Str}
  {data sub rebuilt current saved : Dict Str Json} {user : Caller} {s : Accounts}

/-- The entry that a document has for a value. -/
def entryOf : Json → Option Json
  | .null => none
  | v => some v

theorem entryOf_eq_some {v w : Json} : entryOf v = some w ↔ v = w ∧ v ≠ .null := by
  cases v <;> simp [entryOf]

/-- A document that was read has the fields that are not none. -/
theorem readFields_spec (hnodup : (fields.map (·.name)).Nodup)
    (h : readFields fields sub = .ok rebuilt) :
    (∀ f ∈ fields, ∃ v, f.read sub = .ok v ∧ Dict.get? rebuilt f.name = entryOf v) ∧
      (Dict.keys rebuilt).Sublist (fields.map (·.name)) := by
  induction fields generalizing rebuilt with
  | nil =>
    cases h
    exact ⟨by simp, by simp [Dict.keys]⟩
  | cons f fields ih =>
    rw [List.map_cons, List.nodup_cons] at hnodup
    cases hv : f.read sub with
    | error e => simp [readFields, hv, bind, Except.bind] at h
    | ok v =>
      cases hrest : readFields fields sub with
      | error e => simp [readFields, hv, hrest, bind, Except.bind] at h
      | ok rest =>
        obtain ⟨hall, hsub⟩ := ih hnodup.2 hrest
        have hfresh : Dict.get? rest f.name = none :=
          (Dict.get?_eq_none_iff _ _).mpr fun hm => hnodup.1 (hsub.subset hm)
        have hother : ∀ g ∈ fields, g.name ≠ f.name := fun g hg heq =>
          hnodup.1 (heq ▸ List.mem_map_of_mem hg)
        have hrebuilt : rebuilt = rest ∧ v = .null ∨ rebuilt = (f.name, v) :: rest ∧ v ≠ .null := by
          cases v <;> simpa [readFields, hv, hrest, bind, Except.bind, eq_comm] using h
        rcases hrebuilt with ⟨rfl, rfl⟩ | ⟨rfl, hne⟩
        · exact ⟨List.forall_mem_cons.mpr ⟨⟨.null, hv, hfresh⟩, hall⟩, hsub.cons _⟩
        · have hentry : entryOf v = some v := entryOf_eq_some.mpr ⟨rfl, hne⟩
          refine ⟨List.forall_mem_cons.mpr ⟨⟨v, hv, ?_⟩, fun g hg => ?_⟩, ?_⟩
          · rw [Dict.get?_cons, if_pos rfl, hentry]
          · obtain ⟨w, hw, hget⟩ := hall g hg
            refine ⟨w, hw, ?_⟩
            rw [Dict.get?_cons, if_neg (hother g hg), hget]
          · simpa [Dict.keys] using hsub.cons_cons f.name

theorem readFields_isOk : (∃ r, readFields fields sub = .ok r) ↔
    ∀ f ∈ fields, ∃ v, f.read sub = .ok v := by
  induction fields with
  | nil => simp [readFields]
  | cons f fields ih =>
    rw [List.forall_mem_cons, ← ih]
    cases hv : f.read sub with
    | error e => simp [readFields, hv, bind, Except.bind]
    | ok v =>
      cases hrest : readFields fields sub with
      | error e => simp [readFields, hv, hrest, bind, Except.bind]
      | ok rest => cases v <;> simp [readFields, hv, hrest, bind, Except.bind]

/-- What was read is read again as it is. -/
theorem primitives_rebuilt (hr : Regular fields) (h : readFields fields sub = .ok rebuilt) :
    primitives fields rebuilt = readFields fields rebuilt := by
  have hsub := (readFields_spec hr.nodup h).2
  have hplain : ∀ k ∈ Dict.keys rebuilt, '.' ∉ k ∧ k ≠ "__index".toList := by
    intro k hk
    obtain ⟨f, hf, rfl⟩ := List.mem_map.mp (hsub.subset hk)
    exact hr.plain f hf
  have herase : Dict.erase rebuilt "__index".toList = rebuilt := by
    refine List.filter_eq_self.mpr fun e he => ?_
    exact decide_eq_true (hplain e.1 (List.mem_map_of_mem he)).2
  have hnested : flatToNested rebuilt = .ok (rebuilt, []) :=
    flatToNestedFor_plain (hsub.nodup hr.nodup) fun k hk => (hplain k hk).1
  rw [primitives, herase, hnested]

theorem primitives_clearAccount : primitives fields (clearAccount data) = .ok rebuilt ↔
    ∃ sub, submitted data = some sub ∧ readFields fields sub = .ok rebuilt := by
  unfold primitives submitted
  cases flatToNested (Dict.erase (clearAccount data) "__index".toList) with
  | error e => simp
  | ok nested => simp

theorem read_rebuilt {f : UserField} {v : Json} (hget : Dict.get? rebuilt f.name = entryOf v) :
    f.read rebuilt = f.again v := by
  rw [UserField.read, hget]
  cases v <;> rfl

theorem eq_of_name (hr : Regular fields) {f g : UserField} (hf : f ∈ fields) (hg : g ∈ fields)
    (h : f.name = g.name) : f = g :=
  List.inj_on_of_nodup_map hr.nodup hf hg h

/-- The rebuilt document passes where the submitted data are accepted. -/
theorem passes_iff (hr : Regular fields) (hsub : submitted data = some sub)
    (hread : readFields fields sub = .ok rebuilt) (hstored : s.users username = some current) :
    Passes fields username data user s rebuilt current ↔
      Accepted fields username user sub current := by
  obtain ⟨hfields, hkeys⟩ := readFields_spec hr.nodup hread
  have hentry {k : Str} {w : Json} : Dict.get? rebuilt k = some w ↔
      ∃ f ∈ fields, f.name = k ∧ f.read sub = .ok w ∧ w ≠ .null := by
    constructor
    · intro hget
      obtain ⟨f, hf, rfl⟩ := List.mem_map.mp
        (hkeys.subset ((Dict.mem_keys_iff _ _).mpr ⟨w, hget⟩))
      obtain ⟨v, hv, hv'⟩ := hfields f hf
      obtain ⟨rfl, hne⟩ := entryOf_eq_some.mp (hv'.symm.trans hget)
      exact ⟨f, hf, rfl, hv, hne⟩
    · rintro ⟨f, hf, rfl, hw, hne⟩
      obtain ⟨v, hv, hget⟩ := hfields f hf
      obtain rfl : v = w := Except.ok.inj (hv.symm.trans hw)
      rw [hget, entryOf_eq_some.mpr ⟨rfl, hne⟩]
  constructor
  · intro h
    refine ⟨fun f hf => (hfields f hf).imp fun v hv => hv.1, ?_, h.own, h.filled, fun e he => ?_⟩
    · obtain ⟨u, hu, hsame⟩ := h.uname
      obtain ⟨f, hf, hname, hw, -⟩ := hentry.mp hu
      exact ⟨f, hf, hname, u, hw, hsame⟩
    · obtain ⟨w, hw, hkept⟩ := h.kept e he
      obtain ⟨f, hf, hname, hw, hne⟩ := hentry.mp hw
      exact ⟨f, hf, hname, w, hw, hne, hkept⟩
  · intro h
    refine ⟨primitives_clearAccount.mpr ⟨sub, hsub, hread⟩, ?_, h.own, hstored, h.filled,
      fun e he => ?_⟩
    · obtain ⟨f, hf, hname, u, hu, hsame⟩ := h.uname
      have hne : u ≠ .null := by
        intro hu
        rw [hu] at hsame
        cases hsame
      exact ⟨u, hentry.mpr ⟨f, hf, hname, hu, hne⟩, hsame⟩
    · obtain ⟨f, hf, hname, w, hw, hne, hkept⟩ := h.kept e he
      exact ⟨w, hentry.mpr ⟨f, hf, hname, hw, hne⟩, hkept⟩

theorem resaves_iff (hr : Regular fields) (hread : readFields fields sub = .ok rebuilt) :
    (∃ saved, Saves fields fails username rebuilt saved) ↔ Resaves fields fails username sub := by
  obtain ⟨hfields, -⟩ := readFields_spec hr.nodup hread
  have hagain : (∃ saved, readFields fields rebuilt = .ok saved) ↔
      ∀ f ∈ fields, ∀ v, f.read sub = .ok v → ∃ w, f.again v = .ok w := by
    rw [readFields_isOk]
    refine forall₂_congr fun f hf => ?_
    obtain ⟨v, hv, hget⟩ := hfields f hf
    rw [read_rebuilt hget]
    constructor
    · intro hw v' hv'
      obtain rfl : v = v' := Except.ok.inj (hv.symm.trans hv')
      exact hw
    · exact fun h => h v hv
  rw [Resaves, ← hagain]
  simp only [Saves, primitives_rebuilt hr hread]
  constructor
  · rintro ⟨saved, hspace, hsaved, hfails⟩
    exact ⟨hspace, ⟨saved, hsaved⟩, hfails⟩
  · rintro ⟨hspace, ⟨saved, hsaved⟩, hfails⟩
    exact ⟨saved, hspace, hsaved, hfails⟩

/-- Where there is no default, nothing is read from a field that is absent or none. -/
theorem read_absent (hr : Regular fields) {f : UserField} (hf : f ∈ fields)
    (hmod : f.name ∉ accountUserModifiable) (hdefault : f.default = none)
    (habsent : Dict.get? sub f.name = none ∨ Dict.get? sub f.name = some .null) {v : Json}
    (hv : f.read sub = .ok v) : v = .null := by
  rw [UserField.read] at hv
  cases habsent with
  | inl h =>
    rw [h, hdefault] at hv
    dsimp only at hv
    split at hv
    · exact hr.noneKept f hf hmod hdefault v hv
    · cases hv
  | inr h =>
    rw [h] at hv
    exact hr.noneKept f hf hmod hdefault v hv

/-- Nothing is read from a field that is absent or none and has no default. -/
theorem absent_of_read (hr : Regular fields) {f : UserField} (hf : f ∈ fields)
    (hmod : f.name ∉ accountUserModifiable) (hv : f.read sub = .ok .null) :
    Dict.get? sub f.name = some .null ∨ Dict.get? sub f.name = none ∧ f.default = none := by
  rw [UserField.read] at hv
  cases hget : Dict.get? sub f.name with
  | some v =>
    rw [hget] at hv
    exact .inl (congrArg some (hr.noneOnly f hf hmod v hv))
  | none =>
    rw [hget] at hv
    cases hdefault : f.default with
    | none => exact .inr ⟨rfl, rfl⟩
    | some d =>
      rw [hdefault] at hv
      exact absurd (hdefault.trans (congrArg some (hr.noneOnly f hf hmod d hv))) (hr.default f hf)

theorem again_of_ne {f : UserField} {v : Json} (h : v ≠ .null) : f.again v = f.check v := by
  cases v <;> first | rfl | contradiction

/-- What is saved differs from what is stored in fields of the account only, where the other fields
stay. -/
theorem fieldStays_iff (hr : Regular fields) (hread : readFields fields sub = .ok rebuilt)
    (hacc : Accepted fields username user sub current)
    (hsaved : readFields fields rebuilt = .ok saved) :
    ((∀ key ∈ Dict.keys saved, key ∉ accountUserModifiable → key ∈ Dict.keys current) ∧
      ∀ key v, key ∉ accountUserModifiable → Dict.get? current key = some v →
        ∃ w, Dict.get? saved key = some w ∧ w.same v = true) ↔
      ∀ f ∈ fields, f.name ∉ accountUserModifiable → FieldStays sub current f := by
  obtain ⟨hfields, -⟩ := readFields_spec hr.nodup hread
  obtain ⟨hagain, hkeys⟩ := readFields_spec hr.nodup hsaved
  -- what is read of a field first and then
  have hboth : ∀ f ∈ fields, ∃ v w, f.read sub = .ok v ∧ f.again v = .ok w ∧
      Dict.get? saved f.name = entryOf w := by
    intro f hf
    obtain ⟨v, hv, hget⟩ := hfields f hf
    obtain ⟨w, hw, hget'⟩ := hagain f hf
    exact ⟨v, w, hv, read_rebuilt hget ▸ hw, hget'⟩
  have hfilled : ∀ f ∈ fields, ∀ x, Dict.get? current f.name = some x →
      ∀ v, f.read sub = .ok v → v ≠ .null := by
    intro f hf x hx v hv
    obtain ⟨g, hg, hname, v', hv', hne, -⟩ := hacc.kept _ (Dict.mem_of_get? hx)
    obtain rfl := eq_of_name hr hg hf hname
    obtain rfl : v' = v := Except.ok.inj (hv'.symm.trans hv)
    exact hne
  constructor
  · rintro ⟨hnew, hkept⟩ f hf hmod
    obtain ⟨v, w, hv, hw, hget⟩ := hboth f hf
    by_cases hstored : f.name ∈ Dict.keys current
    · rw [FieldStays, if_pos hstored]
      intro v' w' x hv' hw' hx
      obtain rfl : v = v' := Except.ok.inj (hv.symm.trans hv')
      rw [again_of_ne (hfilled f hf x hx v hv)] at hw
      obtain rfl : w = w' := Except.ok.inj (hw.symm.trans hw')
      obtain ⟨w₀, hw₀, hsame⟩ := hkept f.name x hmod hx
      obtain ⟨rfl, -⟩ := entryOf_eq_some.mp (hget.symm.trans hw₀)
      exact hsame
    · rw [FieldStays, if_neg hstored]
      have hnull : w = .null := by
        by_contra hne
        refine hstored (hnew f.name ((Dict.mem_keys_iff _ _).mpr ⟨w, ?_⟩) hmod)
        rw [hget, entryOf_eq_some.mpr ⟨rfl, hne⟩]
      subst hnull
      have hv₀ : v = .null := by
        by_contra hne
        rw [again_of_ne hne] at hw
        exact hne (hr.noneOnly f hf hmod v hw)
      subst hv₀
      have hdefault : f.default = none := by
        have hread₀ : f.read [] = .ok .null := hw
        cases absent_of_read hr hf hmod hread₀ with
        | inl h => simp at h
        | inr h => exact h.2
      refine ⟨hdefault, ?_⟩
      cases absent_of_read hr hf hmod hv with
      | inl h => exact .inr h
      | inr h => exact .inl h.1
  · intro hstays
    refine ⟨fun key hkey hmod => ?_, fun key x hmod hx => ?_⟩
    · obtain ⟨f, hf, rfl⟩ := List.mem_map.mp (hkeys.subset hkey)
      by_contra hstored
      obtain ⟨v, w, hv, hw, hget⟩ := hboth f hf
      have hs := hstays f hf hmod
      rw [FieldStays, if_neg hstored] at hs
      obtain rfl := read_absent hr hf hmod hs.1 hs.2 hv
      obtain rfl := read_absent hr hf hmod hs.1 (.inl (Dict.get?_nil _)) hw
      exact (Dict.get?_eq_none_iff _ _).mp hget hkey
    · obtain ⟨f, hf, rfl, v, hv, hne, -⟩ := hacc.kept _ (Dict.mem_of_get? hx)
      obtain ⟨v', w, hv', hw, hget⟩ := hboth f hf
      obtain rfl : v = v' := Except.ok.inj (hv.symm.trans hv')
      rw [again_of_ne hne] at hw
      have hs := hstays f hf hmod
      rw [FieldStays, if_pos ((Dict.mem_keys_iff _ _).mpr ⟨x, hx⟩)] at hs
      refine ⟨w, ?_, hs v w x hv hw hx⟩
      refine hget.trans (entryOf_eq_some.mpr ⟨rfl, fun hw₀ => ?_⟩)
      exact hne (hr.noneOnly f hf hmod v (hw₀ ▸ hw))

theorem rebuiltFits_iff (hr : Regular fields) :
    RebuiltFits fields fails username data user s ↔
      AccountFits fields fails username data user s := by
  constructor
  · intro h sub current hsub hstored hacc hgoes
    obtain ⟨rebuilt, hread⟩ := readFields_isOk.mpr hacc.readable
    have hpasses := (passes_iff hr hsub hread hstored).mpr hacc
    obtain ⟨hsaved, hno⟩ := h rebuilt current hpasses hgoes
    refine ⟨fun hre => ?_, fun hre => hno fun saved hs => hre ((resaves_iff hr hread).mp ⟨saved, hs⟩)⟩
    obtain ⟨saved, hs⟩ := (resaves_iff hr hread).mpr hre
    exact (fieldStays_iff hr hread hacc ((primitives_rebuilt hr hread) ▸ hs.2.1)).mp (hsaved saved hs)
  · intro h rebuilt current hpasses hgoes
    obtain ⟨sub, hsub, hread⟩ := primitives_clearAccount.mp hpasses.rebuilds
    have hacc := (passes_iff hr hsub hread hpasses.stored).mp hpasses
    obtain ⟨hstays, hno⟩ := h sub current hsub hpasses.stored hacc hgoes
    refine ⟨fun saved hs => ?_, fun hre => hno fun hs => ?_⟩
    · have hre := (resaves_iff hr hread).mp ⟨saved, hs⟩
      exact (fieldStays_iff hr hread hacc ((primitives_rebuilt hr hread) ▸ hs.2.1)).mpr (hstays hre)
    · obtain ⟨saved, hs⟩ := (resaves_iff hr hread).mpr hs
      exact hre saved hs

end Reading

/-- Beyond the account's own fields, a check gives none for none only, and those of the fields
without a default give nothing else for it. -/
structure NoneApart (check : Str → Json → Except AccountError Json) : Prop where
  only : ∀ name ∉ accountUserModifiable, ∀ v, check name v = .ok .null → v = .null
  kept : ∀ name ∈ ["access_control".toList, "uname".toList], ∀ w,
    check name .null = .ok w → w = .null

section Main

variable {unrestricted : Str} {check : Str → Json → Except AccountError Json}

/-- The names, and which fields have no default, are the same whatever the checks. -/
theorem names_userFields : (userFields unrestricted check).map (fun f => (f.name, f.default.isNone)) =
    (userFields [] fun _ v => .ok v).map fun f => (f.name, f.default.isNone) := rfl

theorem forall_userFields {P : Str × Bool → Prop}
    (h : ∀ x ∈ (userFields [] fun _ v => .ok v).map (fun f => (f.name, f.default.isNone)), P x)
    {f : UserField} (hf : f ∈ userFields unrestricted check) : P (f.name, f.default.isNone) := by
  rw [← @names_userFields unrestricted check] at h
  exact h _ (List.mem_map_of_mem hf)

/-- The fields without a default, but for the account's own. -/
theorem name_of_default_none {f : UserField} (hf : f ∈ userFields unrestricted check)
    (hmod : f.name ∉ accountUserModifiable) (h : f.default = none) :
    f.name ∈ ["access_control".toList, "uname".toList] := by
  have hall := forall_userFields (P := fun x => x.2 = true → x.1 ∈ accountUserModifiable ∨
    x.1 ∈ ["access_control".toList, "uname".toList]) (by decide) hf
  exact (hall (by simp [h])).resolve_left hmod

theorem regular_userFields (hcheck : NoneApart check) : Regular (userFields unrestricted check) := by
  have hchecks : ∀ f ∈ userFields unrestricted check, f.check = check f.name := by
    intro f hf
    obtain ⟨x, -, rfl⟩ := List.mem_map.mp hf
    rfl
  have hnodup : ((userFields unrestricted check).map (·.name)).Nodup := by
    have hnames : (userFields unrestricted check).map (·.name) =
        (userFields [] fun _ v => .ok v).map (·.name) := rfl
    rw [hnames]
    decide
  refine ⟨hnodup, fun f hf => ?_, fun f hf => ?_, fun f hf hmod v hv => ?_,
    fun f hf hmod hdefault w hw => ?_⟩
  · exact forall_userFields (P := fun x => '.' ∉ x.1 ∧ x.1 ≠ "__index".toList) (by decide) hf
  · simp only [userFields, List.map_cons, List.map_nil, List.mem_cons, List.not_mem_nil, or_false]
      at hf
    rcases hf with rfl | rfl | rfl | rfl | rfl | rfl | rfl | rfl | rfl | rfl | rfl | rfl | rfl | rfl |
      rfl <;> simp
  · rw [hchecks f hf] at hv
    exact hcheck.only f.name hmod v hv
  · rw [hchecks f hf] at hw
    exact hcheck.kept f.name (name_of_default_none hf hmod hdefault) w hw

/-- For a caller who is no administrator, the account is saved soundly just if it fits. -/
theorem saveUserAccount_iff (hcheck : NoneApart check) (fails : StoreRequest → Bool)
    (username : Str) (data : Dict Str Json) (user : Caller) (s : Accounts)
    (huser : user.isAdmin = false) :
    AccountSound username s
        (saveUserAccount (userFields unrestricted check) fails username data user s) ↔
      AccountFits (userFields unrestricted check) fails username data user s :=
  (accountSound_iff _ fails username data user s huser).trans
    (rebuiltFits_iff (regular_userFields hcheck))

end Main

/-- The model of users with checks that leave values alone. -/
def plainUserFields : List UserField := userFields "UNRESTRICTED".toList fun _ v => .ok v

/-- A stored user without a filter of access control. -/
def hueyStored : Dict Str Json :=
  [("api_quota".toList, .num 25), ("apikeys".toList, .obj []),
    ("classification".toList, .str "UNRESTRICTED".toList), ("groups".toList, .list []),
    ("is_active".toList, .bool true), ("name".toList, .str "Huey".toList),
    ("password".toList, .str "hash".toList), ("type".toList, .list [.str "user".toList]),
    ("uname".toList, .str "huey".toList), ("favourite_views".toList, .list []),
    ("favourite_analytics".toList, .list []), ("dashboard".toList, .list []),
    ("refresh_rate".toList, .num 15)]

/-- The same user with a filter. -/
def hueySaved : Dict Str Json :=
  hueyStored.take 7 ++ ("access_control".toList, .str "*:*".toList) :: hueyStored.drop 7

def huey : Caller := { uname := "huey".toList, type := ["user".toList] }

def hueyAccounts : Accounts where
  users name := if name = "huey".toList then some hueyStored else none
  avatars _ := none

/-- The user renames himself. -/
def hueyRenamed : Dict Str Json := Dict.set hueyStored "name".toList (.str "H. Duck".toList)

theorem noneApart_plain : NoneApart fun _ v => .ok v :=
  ⟨fun _ _ _ h => Except.ok.inj h, fun _ _ _ h => (Except.ok.inj h).symm⟩

theorem fieldStays_huey {f : UserField} (hf : f ∈ plainUserFields)
    (hmod : f.name ∉ accountUserModifiable) : FieldStays hueyRenamed hueyStored f := by
  have hsame : ∀ e ∈ hueyStored, e.2.same e.2 = true := by decide
  have hnew : ∀ f ∈ plainUserFields, f.name ∉ accountUserModifiable →
      f.name ∉ Dict.keys hueyStored →
        f.name = "access_control".toList ∧ f.default.isNone = true := by decide
  unfold FieldStays
  split
  · intro v w x hv hw hx
    have hname : f.name ≠ "name".toList := fun h => hmod (h ▸ by decide)
    have hget : Dict.get? hueyRenamed f.name = some x := by
      rw [hueyRenamed, Dict.get?_set, if_neg hname, hx]
    obtain ⟨entry, -, rfl⟩ := List.mem_map.mp hf
    rw [UserField.read, hget] at hv
    cases hv
    cases hw
    exact hsame _ (Dict.mem_of_get? hx)
  · next hstored =>
    obtain ⟨hname, hdefault⟩ := hnew f hf hmod hstored
    rw [hname]
    exact ⟨Option.isNone_iff_eq_none.mp hdefault, .inl (by decide)⟩

theorem saveUserAccount_iff_huey :
    (saveUserAccount plainUserFields (fun _ => false) "huey".toList hueyRenamed huey
      hueyAccounts).1 = .ok true ∧
    AccountSound "huey".toList hueyAccounts
      (saveUserAccount plainUserFields (fun _ => false) "huey".toList hueyRenamed huey
        hueyAccounts) := by
  refine ⟨by rfl, (saveUserAccount_iff noneApart_plain _ _ _ _ _ rfl).mpr ?_⟩
  intro sub current hsub hstored _ _
  have hsub' : some hueyRenamed = some sub := hsub
  have hstored' : some hueyStored = some current := hstored
  cases hsub'
  cases hstored'
  exact ⟨fun _ f hf hmod => fieldStays_huey hf hmod, fun _ => .inl rfl⟩

/-- A user gives himself a filter that was not stored. -/
theorem saveUserAccount_adds :
    ¬ AccountSound "huey".toList hueyAccounts
      (saveUserAccount plainUserFields (fun _ => false) "huey".toList hueySaved huey
        hueyAccounts) := by
  have hsaved : saveUserAccount plainUserFields (fun _ => false) "huey".toList hueySaved huey
      hueyAccounts = (.ok true, { hueyAccounts with
        users := Function.update hueyAccounts.users "huey".toList (some hueySaved) }) := by
    rfl
  intro h
  rw [hsaved] at h
  obtain ⟨-, current, saved, hcurrent, hafter, hsame⟩ := h.saved true rfl
  cases hcurrent
  cases hafter
  exact absurd (hsame "access_control".toList (by decide)) (by decide)

end Howler.Auth
