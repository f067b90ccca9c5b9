import Howler.Documents.Collect
import Howler.Structures.Equality

namespace Howler.Auth

open Python Structures Documents

/-- What `save_user_account` raises. -/
inductive AccountError where
  | accessDenied (message : Str)
  | invalidData (message : Str)
  | keyError (key : Str)
  | howlerValueError
  | attributeError
  | dataStore (message : Str)
  | request
  deriving DecidableEq

/-- A field of the model of users with its check, whose result is a primitive again. -/
structure UserField where
  name : Str
  default : Option Json := none
  optional : Bool := false
  check : Json → Except AccountError Json

section Model

variable (fields : List UserField)

/-- The value of a field in the constructor of a model. -/
def UserField.read (f : UserField) (data : Dict Str Json) : Except AccountError Json :=
  match Dict.get? data f.name with
  | some v => f.check v
  | none =>
    match f.default with
    | some v => f.check v
    | none => if f.optional then f.check .null else .error .howlerValueError

/-- The fields of a document one after the other, without those that are none. -/
def readFields : List UserField → Dict Str Json → Except AccountError (Dict Str Json)
  | [], _ => .ok []
  | f :: fields, data => do
    let v ← f.read data
    let rest ← readFields fields data
    match v with
    | .null => .ok rest
    | v => .ok ((f.name, v) :: rest)

/-- `User(data).as_primitives()`. -/
def primitives (data : Dict Str Json) : Except AccountError (Dict Str Json) :=
  match flatToNested (Dict.erase data "__index".toList) with
  | .error _ => .error .attributeError
  | .ok (nested, _) => readFields fields nested

end Model

/-- The fields of the model of users in their order, with the checks by the names of the fields. -/
def userFields (unrestricted : Str) (check : Str → Json → Except AccountError Json) :
    List UserField :=
  [("api_quota", some (.num 25), false), ("apikeys", some (.obj []), false),
    ("classification", some (.str unrestricted), false), ("email", none, true),
    ("groups", some (.list [.str "USERS".toList]), false), ("is_active", some (.bool true), false),
    ("name", none, false), ("password", none, false), ("access_control", none, true),
    ("type", some (.list [.str "user".toList, .str "actionrunner_basic".toList]), false),
    ("uname", none, false), ("favourite_views", some (.list []), false),
    ("favourite_analytics", some (.list []), false), ("dashboard", some (.list []), false),
    ("refresh_rate", some (.num 15), false)].map fun (name, default, optional) =>
      { name := name.toList, default := default, optional := optional,
        check := check name.toList }

def accountUserModifiable : List Str :=
  ["name".toList, "email".toList, "avatar".toList, "password".toList, "dashboard".toList,
    "refresh_rate".toList]

/-- The stored users, without the fields that only the datastore knows, and their avatars. -/
structure Accounts where
  users : Str → Option (Dict Str Json)
  avatars : Str → Option Json

/-- A request that the datastore may not answer. -/
inductive StoreRequest where
  | deleteAvatar
  | saveAvatar
  | saveUser
  deriving DecidableEq

/-- The account of the caller. -/
structure Caller where
  uname : Str
  type : List Str

def Caller.isAdmin (user : Caller) : Bool := "admin".toList ∈ user.type

section Save

variable (fields : List UserField) (fails : StoreRequest → Bool)

/-- `ESCollection.save` for users, which checks the document once more. -/
def saveUser (username : Str) (data : Dict Str Json) (s : Accounts) :
    Except AccountError Bool × Accounts :=
  if ' ' ∈ username then
    (.error (.dataStore "You are not allowed to use spaces in datastore keys.".toList), s)
  else
    match primitives fields data with
    | .error e => (.error e, s)
    | .ok saved =>
      if fails .saveUser then (.error .request, s)
      else (.ok true, { s with users := Function.update s.users username (some saved) })

/-- `ESCollection.delete` and `ESCollection.save` for avatars. -/
def changeAvatar (username : Str) (avatar : Json) (s : Accounts) :
    Except AccountError Unit × Accounts :=
  if avatar.same (.str "DELETE".toList) then
    if fails .deleteAvatar then (.error .request, s)
    else (.ok (), { s with avatars := Function.update s.avatars username none })
  else if avatar.same .null then (.ok (), s)
  else if ' ' ∈ username then
    (.error (.dataStore "You are not allowed to use spaces in datastore keys.".toList), s)
  else if fails .saveAvatar then (.error .request, s)
  else (.ok (), { s with avatars := Function.update s.avatars username (some avatar) })

/-- The loop over the stored document, for a caller who is no administrator. -/
def checkFields (data : Dict Str Json) : Dict Str Json → Except AccountError Unit
  | [] => .ok ()
  | (key, v) :: current =>
    match Dict.get? data key with
    | none => .error (.keyError key)
    | some w =>
      if w.same v = false ∧ key ∉ accountUserModifiable then
        .error (.accessDenied ("Only Administrators can change the value of the field [".toList ++
          key ++ "].".toList))
      else checkFields data current

/-- The checks of `save_user_account`, with the document that is to be saved. -/
def checkAccount (username : Str) (data : Dict Str Json) (user : Caller) (s : Accounts) :
    Except AccountError (Dict Str Json) :=
  match primitives fields data with
  | .error e => .error e
  | .ok data =>
    match Dict.get? data "uname".toList with
    | none => .error (.keyError "uname".toList)
    | some uname =>
      if (Json.str username).same uname = false then
        .error (.accessDenied "You are not allowed to change the username.".toList)
      else if username ≠ user.uname ∧ user.isAdmin = false then
        .error (.accessDenied "You are not allowed to change another user than yourself.".toList)
      else
        match s.users username with
        | none =>
          .error (.invalidData ("You cannot save a user that does not exists [".toList ++ username ++
            "].".toList))
        | some current =>
          if current = [] then
            .error (.invalidData ("You cannot save a user that does not exists [".toList ++
              username ++ "].".toList))
          else if user.isAdmin then .ok data
          else
            match checkFields data current with
            | .error e => .error e
            | .ok () => .ok data

/-- The data of the account without what is no part of it. -/
def clearAccount (data : Dict Str Json) : Dict Str Json :=
  Dict.erase (Dict.erase (Dict.erase data "avatar".toList) "security_token_enabled".toList)
    "has_password".toList

/-- `save_user_account`. -/
def saveUserAccount (username : Str) (data : Dict Str Json) (user : Caller) (s : Accounts) :
    Except AccountError Bool × Accounts :=
  let avatar := (Dict.get? data "avatar".toList).getD .null
  match checkAccount fields username (clearAccount data) user s with
  | .error e => (.error e, s)
  | .ok data =>
    match changeAvatar fails username avatar s with
    | (.error e, s) => (.error e, s)
    | (.ok (), s) => saveUser fields fails username data s

end Save

section Purpose

variable (fields : List UserField) (fails : StoreRequest → Bool) (username : Str)
  (data : Dict Str Json) (user : Caller) (s : Accounts)

def sameEntry : Option Json → Option Json → Bool
  | none, none => true
  | some v, some w => v.same w
  | _, _ => false

/-- What is saved differs from what was stored in fields of the account only, and when something is
raised, nothing has changed. -/
structure AccountSound (r : Except AccountError Bool × Accounts) : Prop where
  saved : ∀ b, r.1 = .ok b → (∀ name, name ≠ username → r.2.users name = s.users name) ∧
    ∃ current saved, s.users username = some current ∧ r.2.users username = some saved ∧
      ∀ key, key ∉ accountUserModifiable →
        sameEntry (Dict.get? saved key) (Dict.get? current key) = true
  unchanged : ∀ e, r.1 = .error e → r.2 = s

/-- The account is the caller's own, and of what is stored, fields of the account only are
changed. -/
structure Passes (rebuilt current : Dict Str Json) : Prop where
  rebuilds : primitives fields (clearAccount data) = .ok rebuilt
  uname : ∃ u, Dict.get? rebuilt "uname".toList = some u ∧ (Json.str username).same u = true
  own : username = user.uname
  stored : s.users username = some current
  filled : current ≠ []
  kept : ∀ e ∈ current, ∃ w, Dict.get? rebuilt e.1 = some w ∧
    (w.same e.2 = true ∨ e.1 ∈ accountUserModifiable)

/-- The avatar of the account that is submitted. -/
def avatarOf : Json := (Dict.get? data "avatar".toList).getD .null

/-- The avatar cannot be deleted or saved. -/
def AvatarFails : Prop :=
  if (avatarOf data).same (.str "DELETE".toList) = true then fails .deleteAvatar = true
  else (avatarOf data).same .null = false ∧ (' ' ∈ username ∨ fails .saveAvatar = true)

/-- No avatar is submitted, or the one that is stored: none, where it is to be deleted. -/
def AvatarStays : Prop :=
  if (avatarOf data).same (.str "DELETE".toList) = true then s.avatars username = none
  else (avatarOf data).same .null = true ∨ s.avatars username = some (avatarOf data)

/-- The rebuilt document can be saved. -/
def Saves (rebuilt saved : Dict Str Json) : Prop :=
  ' ' ∉ username ∧ primitives fields rebuilt = .ok saved ∧ fails .saveUser = false

/-- What comes of the rebuilt document: it is saved with no field beyond the account's that is not
stored, and with the others unchanged; or it cannot be saved, and the avatar is not another one. -/
def RebuiltFits : Prop :=
  ∀ rebuilt current, Passes fields username data user s rebuilt current →
    ¬ AvatarFails fails username data →
    (∀ saved, Saves fields fails username rebuilt saved →
      (∀ key ∈ Dict.keys saved, key ∉ accountUserModifiable → key ∈ Dict.keys current) ∧
      ∀ key v, key ∉ accountUserModifiable → Dict.get? current key = some v →
        ∃ w, Dict.get? saved key = some w ∧ w.same v = true) ∧
    ((∀ saved, ¬ Saves fields fails username rebuilt saved) → AvatarStays username data s)

end Purpose

section Outcome

variable {fields : List UserField} {fails : StoreRequest → Bool} {username : Str}
  {data rebuilt current saved : Dict Str Json} {user : Caller} {s : Accounts}

theorem checkFields_ok_iff : checkFields data current = .ok () ↔
    ∀ e ∈ current, ∃ w, Dict.get? data e.1 = some w ∧
      (w.same e.2 = true ∨ e.1 ∈ accountUserModifiable) := by
  induction current with
  | nil => simp [checkFields]
  | cons e current ih =>
    obtain ⟨key, v⟩ := e
    rw [checkFields, List.forall_mem_cons]
    cases hget : Dict.get? data key with
    | none => simp
    | some w =>
      dsimp only
      by_cases hrefused : w.same v = false ∧ key ∉ accountUserModifiable
      · rw [if_pos hrefused]
        refine iff_of_false (by simp) fun h => ?_
        obtain ⟨w', hw', hkept⟩ := h.1
        cases hw'
        rw [hrefused.1] at hkept
        exact hkept.elim (by simp) hrefused.2
      · rw [if_neg hrefused, ih]
        refine (and_iff_right ⟨w, rfl, ?_⟩).symm
        rw [not_and_or, Bool.not_eq_false, not_not] at hrefused
        exact hrefused

/-- The checks let through what passes. -/
theorem checkAccount_ok_iff (huser : user.isAdmin = false) :
    checkAccount fields username (clearAccount data) user s = .ok rebuilt ↔
      ∃ current, Passes fields username data user s rebuilt current := by
  unfold checkAccount
  rcases hrebuilds : primitives fields (clearAccount data) with e | d
  · refine iff_of_false (by simp) fun ⟨current, h⟩ => ?_
    rw [h.rebuilds] at hrebuilds
    cases hrebuilds
  · dsimp only
    -- whatever passes has been rebuilt to this document
    have hd {current : Dict Str Json} (h : Passes fields username data user s rebuilt current) :
        d = rebuilt := Except.ok.inj (hrebuilds.symm.trans h.rebuilds)
    rcases huname : Dict.get? d "uname".toList with - | u
    · refine iff_of_false (by simp) fun ⟨current, h⟩ => ?_
      obtain ⟨u, hu, -⟩ := h.uname
      rw [hd h, hu] at huname
      cases huname
    · dsimp only
      by_cases hname : (Json.str username).same u = false
      · rw [if_pos hname]
        refine iff_of_false (by simp) fun ⟨current, h⟩ => ?_
        obtain ⟨u', hu', hsame⟩ := h.uname
        rw [hd h, hu'] at huname
        cases huname
        rw [hname] at hsame
        cases hsame
      · rw [if_neg hname]
        by_cases hown : username = user.uname
        · rw [if_neg fun h => h.1 hown]
          rcases hstored : s.users username with - | current
          · refine iff_of_false (by simp) fun ⟨current, h⟩ => ?_
            rw [h.stored] at hstored
            cases hstored
          · dsimp only
            by_cases hempty : current = []
            · rw [if_pos hempty]
              refine iff_of_false (by simp) fun ⟨current', h⟩ => h.filled ?_
              rw [h.stored] at hstored
              cases hstored
              exact hempty
            · rw [if_neg hempty, if_neg (by simp [huser])]
              rcases hfields : checkFields d current with e | u'
              · refine iff_of_false (by simp) fun ⟨current', h⟩ => ?_
                have hkept := h.kept
                rw [h.stored] at hstored
                cases hstored
                rw [hd h, checkFields_ok_iff.mpr hkept] at hfields
                cases hfields
              · dsimp only
                constructor
                · intro h
                  cases h
                  exact ⟨current, hrebuilds, ⟨u, huname, by simpa using hname⟩, hown, hstored,
                    hempty, checkFields_ok_iff.mp hfields⟩
                · rintro ⟨current', h⟩
                  rw [hd h]
        · rw [if_pos ⟨hown, huser⟩]
          exact iff_of_false (by simp) fun ⟨current, h⟩ => hown h.own

/-- What becomes of the avatar. -/
theorem changeAvatar_cases (fails : StoreRequest → Bool) (username : Str) (data : Dict Str Json)
    (s : Accounts) :
    (AvatarFails fails username data ∧
      ∃ e, changeAvatar fails username (avatarOf data) s = (.error e, s)) ∨
    (¬ AvatarFails fails username data ∧
      ∃ avatars, changeAvatar fails username (avatarOf data) s =
          (.ok (), { s with avatars := avatars }) ∧
        (avatars = s.avatars ↔ AvatarStays username data s)) := by
  have hupdate (v : Option Json) :
      Function.update s.avatars username v = s.avatars ↔ s.avatars username = v := by
    rw [Function.update_eq_self_iff]
    exact eq_comm
  unfold changeAvatar AvatarFails AvatarStays
  by_cases hdelete : (avatarOf data).same (.str "DELETE".toList) = true
  · simp only [if_pos hdelete]
    by_cases hfails : fails .deleteAvatar = true
    · exact .inl ⟨hfails, _, by rw [if_pos hfails]⟩
    · exact .inr ⟨hfails, _, by rw [if_neg hfails], hupdate none⟩
  · simp only [if_neg hdelete]
    by_cases hnull : (avatarOf data).same .null = true
    · rw [if_pos hnull]
      refine .inr ⟨fun h => ?_, s.avatars, rfl, iff_of_true rfl (.inl hnull)⟩
      rw [hnull] at h
      exact absurd h.1 (by simp)
    · rw [if_neg hnull]
      rw [Bool.not_eq_true] at hnull
      by_cases hspace : ' ' ∈ username
      · rw [if_pos hspace]
        exact .inl ⟨⟨hnull, .inl hspace⟩, _, rfl⟩
      · rw [if_neg hspace]
        by_cases hfails : fails .saveAvatar = true
        · exact .inl ⟨⟨hnull, .inr hfails⟩, _, by rw [if_pos hfails]⟩
        · refine .inr ⟨fun h => h.2.elim hspace hfails, _, by rw [if_neg hfails], ?_⟩
          rw [hupdate, hnull]
          simp

/-- A rebuilt document is saved, or nothing happens. -/
theorem saveUser_cases (fields : List UserField) (fails : StoreRequest → Bool) (username : Str)
    (rebuilt : Dict Str Json) (s : Accounts) :
    (∃ saved, Saves fields fails username rebuilt saved ∧
      saveUser fields fails username rebuilt s =
        (.ok true, { s with users := Function.update s.users username (some saved) })) ∨
    ((∀ saved, ¬ Saves fields fails username rebuilt saved) ∧
      ∃ e, saveUser fields fails username rebuilt s = (.error e, s)) := by
  unfold saveUser Saves
  by_cases hspace : ' ' ∈ username
  · rw [if_pos hspace]
    exact .inr ⟨fun saved h => h.1 hspace, _, rfl⟩
  · rw [if_neg hspace]
    cases hsaved : primitives fields rebuilt with
    | error e => exact .inr ⟨fun saved h => (nomatch h.2.1), e, rfl⟩
    | ok saved =>
      dsimp only
      by_cases hfails : fails .saveUser = true
      · rw [if_pos hfails]
        exact .inr ⟨fun saved h => absurd h.2.2 (by simp [hfails]), _, rfl⟩
      · rw [if_neg hfails]
        exact .inl ⟨saved, ⟨hspace, rfl, by simpa using hfails⟩, rfl⟩

theorem sameEntry_iff {key : Str} :
    sameEntry (Dict.get? saved key) (Dict.get? current key) = true ↔
      (key ∈ Dict.keys saved → key ∈ Dict.keys current) ∧
      ∀ v, Dict.get? current key = some v → ∃ w, Dict.get? saved key = some w ∧ w.same v = true := by
  rw [Dict.mem_keys_iff, Dict.mem_keys_iff]
  cases Dict.get? saved key <;> cases Dict.get? current key <;> simp [sameEntry]

/-- Nothing that is unchanged is unsound when it was refused. -/
theorem accountSound_of_error (e : AccountError) : AccountSound username s (.error e, s) :=
  ⟨fun _ h => (nomatch h), fun _ _ => rfl⟩

theorem saves_unique {saved' : Dict Str Json} (h : Saves fields fails username rebuilt saved)
    (h' : Saves fields fails username rebuilt saved') : saved = saved' :=
  Except.ok.inj (h.2.1.symm.trans h'.2.1)

end Outcome

/-- For a caller who is no administrator, the account is saved soundly just if this is so. -/
theorem accountSound_iff (fields : List UserField) (fails : StoreRequest → Bool) (username : Str)
    (data : Dict Str Json) (user : Caller) (s : Accounts) (huser : user.isAdmin = false) :
    AccountSound username s (saveUserAccount fields fails username data user s) ↔
      RebuiltFits fields fails username data user s := by
  unfold saveUserAccount RebuiltFits
  dsimp only
  rcases hcheck : checkAccount fields username (clearAccount data) user s with e | rebuilt
  · refine iff_of_true (accountSound_of_error e) fun rebuilt current h => ?_
    rw [(checkAccount_ok_iff huser).mpr ⟨current, h⟩] at hcheck
    cases hcheck
  · obtain ⟨current, hpasses⟩ := (checkAccount_ok_iff huser).mp hcheck
    -- there is one rebuilt document and one stored one
    have hunique {rebuilt' current' : Dict Str Json}
        (h : Passes fields username data user s rebuilt' current') :
        rebuilt' = rebuilt ∧ current' = current :=
      ⟨Except.ok.inj (h.rebuilds.symm.trans hpasses.rebuilds),
        Option.some.inj (h.stored.symm.trans hpasses.stored)⟩
    rcases changeAvatar_cases fails username data s with ⟨hfails, e, he⟩ |
      ⟨hgoes, avatars, havatar, hstays⟩
    · rw [avatarOf] at he
      simp only [he]
      exact iff_of_true (accountSound_of_error e) fun _ _ _ h => absurd hfails h
    · rw [avatarOf] at havatar
      simp only [havatar]
      rcases saveUser_cases fields fails username rebuilt { s with avatars := avatars } with
        ⟨saved, hsaves, hok⟩ | ⟨hno, e, he⟩
      · rw [hok]
        constructor
        · intro hsound rebuilt' current' hpasses' _
          obtain ⟨rfl, rfl⟩ := hunique hpasses'
          refine ⟨fun saved' hsaves' => ?_, fun h => absurd hsaves (h saved)⟩
          obtain rfl := saves_unique hsaves hsaves'
          obtain ⟨-, current, after, hcurrent, hafter, hsame⟩ := hsound.saved true rfl
          rw [hpasses'.stored] at hcurrent
          change Function.update s.users username (some saved) username = some after at hafter
          rw [Function.update_self] at hafter
          cases hcurrent
          cases hafter
          exact ⟨fun key hkey hmod => (sameEntry_iff.mp (hsame key hmod)).1 hkey,
            fun key v hmod => (sameEntry_iff.mp (hsame key hmod)).2 v⟩
        · intro hfits
          obtain ⟨hnew, hkept⟩ := (hfits rebuilt current hpasses hgoes).1 saved hsaves
          refine ⟨fun b _ => ⟨fun name hname => Function.update_of_ne hname _ _, current, saved,
            hpasses.stored, Function.update_self .., fun key hmod => ?_⟩, fun e h => by cases h⟩
          exact sameEntry_iff.mpr ⟨fun hkey => hnew key hkey hmod, fun v => hkept key v hmod⟩
      · rw [he]
        constructor
        · intro hsound rebuilt' current' hpasses' _
          obtain ⟨rfl, rfl⟩ := hunique hpasses'
          refine ⟨fun saved hsaves => absurd hsaves (hno saved), fun _ => hstays.mp ?_⟩
          exact congrArg Accounts.avatars (hsound.unchanged e rfl)
        · intro hfits
          have hsame := hstays.mpr ((hfits rebuilt current hpasses hgoes).2 hno)
          subst hsame
          exact accountSound_of_error e

end Howler.Auth
