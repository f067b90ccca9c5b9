import Howler.Auth.Service
import Howler.Python.Raising

namespace Howler.Auth

open Python

/-- What a handler raises. -/
inductive Raised where
  | keyError
  | typeError
  | overflowError
  | valueError
  | indexError
  | jwtError
  deriving DecidableEq

/-- Why a handler stops: it answers that the request is bad, or something is raised. -/
inductive Stop where
  | badRequest (err : Str)
  | raised (e : Raised)
  deriving DecidableEq

inductive DurationUnit where
  | seconds
  | minutes
  | hours
  | days
  | weeks
  deriving DecidableEq

/-- In microseconds. -/
def DurationUnit.length : DurationUnit → Int
  | .seconds => 1000000
  | .minutes => 60 * 1000000
  | .hours => 3600 * 1000000
  | .days => microsecondsPerDay
  | .weeks => 7 * microsecondsPerDay

/-- The part of the configuration that is about new API keys. -/
structure KeyConfig where
  allowExtendedApikeys : Bool := true
  maxApikeyDurationAmount : Option ℤ := none
  maxApikeyDurationUnit : Option DurationUnit := none
  strictApikeys : Bool := false

/-- The clock of the server in UTC and how far its local time is ahead, the secret of the new key
and its hash, and what is read of texts: ISO dates, the expiry in the claims of a token, and how a
date and the refusal of a model are written. -/
structure KeyEnv where
  now : Int
  ahead : Int → Int
  secret : Str
  hash : Str → Str
  fromisoformat : Str → Option Datetime
  decodeExp : Str → Except Raised (Option Int)
  isoformat : Int → Str
  refusal : Str

/-- The local time at a moment. -/
def KeyEnv.localTime (env : KeyEnv) (moment : Int) : Int := moment + env.ahead moment

structure KeyFields where
  name : Option Str := none
  priv : Option (List Str) := none
  expiryDate : Option Str := none
  agents : List Str := []

/-- The request: the JSON object of the body, if it is one, and the header of the authorization. -/
structure KeyRequest where
  body : Option KeyFields
  authorization : Option Str := none

/-- The moment at which the seconds of a token start. -/
def epoch : Int := 719162 * microsecondsPerDay

/-- A date of a clock, or what is raised when there is none. -/
def onCalendar (e : Raised) (wall : Int) : Except Stop Int :=
  if 0 ≤ wall ∧ wall ≤ maxWall then .ok wall else .error (.raised e)

def Acl.ofText : Str → Option Acl
  | ['R'] => some .R
  | ['W'] => some .W
  | ['E'] => some .E
  | ['I'] => some .I
  | _ => none

section Checks

variable (cfg : KeyConfig) (env : KeyEnv)

/-- What is wrong with the privileges: an empty text passes for one that exists. -/
def checkPrivs (privs : List Str) : Except Stop Unit :=
  if privs.any fun p => !p.isEmpty && (Acl.ofText p).isNone then
    .error (.badRequest ("APIKey contains permissions that do not exist. " ++
      "Please provide a subset of [R, W, E, I].").toList)
  else if ['E'] ∈ privs ∧ cfg.allowExtendedApikeys = false then
    .error (.badRequest "Extended permissions are disabled.".toList)
  else if ['E'] ∈ privs ∧ ['I'] ∈ privs then
    .error (.badRequest "Extended permission is not allowed on impersonation keys.".toList)
  else .ok ()

/-- The configured duration in microseconds, if there is one. -/
def maxDuration : Option Int :=
  match cfg.maxApikeyDurationAmount, cfg.maxApikeyDurationUnit with
  | some amount, some unit => if amount = 0 then none else some (amount * unit.length)
  | _, _ => none

/-- A date that is given: no other text than the empty one counts as missing. -/
def KeyFields.expiry (fields : KeyFields) : Option Str := fields.expiryDate.filter (· ≠ [])

/-- The bound that the configured duration sets, in local time. -/
def configuredExpiry (fields : KeyFields) : Except Stop (Option Int) :=
  match maxDuration cfg with
  | none => .ok none
  | some duration =>
    match fields.expiry with
    | none => .error (.badRequest "API keys must have an expiry date.".toList)
    | some _ => (onCalendar .overflowError (env.localTime env.now + duration)).map some

/-- The token of a header that is taken for an OAuth token. -/
def oauthHeader (authorization : Option Str) : Option Str :=
  authorization.filter fun h => "Bearer".toList.isPrefixOf h && decide ('.' ∈ h)

/-- The bound that the token sets, in local time; it takes the place of the configured one. -/
def strictExpiry (authorization : Option Str) (maxExpiry : Option Int) :
    Except Stop (Option Int) :=
  if cfg.strictApikeys = true then
    match oauthHeader authorization with
    | none => .ok maxExpiry
    | some header =>
      match (header.splitOn ' ')[1]? with
      | none => .error (.raised .indexError)
      | some token =>
        match env.decodeExp token with
        | .error e => .error (.raised e)
        | .ok none => .error (.raised .keyError)
        | .ok (some exp) =>
          (onCalendar .valueError (env.localTime (epoch + exp * 1000000))).map some
  else .ok maxExpiry

/-- The expiry date of the body, which is compared with the bound. -/
def readExpiry (fields : KeyFields) (maxExpiry : Option Int) : Except Stop (Option Datetime) :=
  match fields.expiry with
  | none => .ok none
  | some text =>
    match env.fromisoformat (replace "Z".toList [] text) with
    | none =>
      .error (.badRequest "Invalid expiry date format. Please use ISO format.".toList)
    | some expiry =>
      match maxExpiry with
      | none => .ok (some expiry)
      | some bound =>
        if expiry.offset.isSome then .error (.raised .typeError)
        else if bound < expiry.wall then
          .error (.badRequest ("Expiry date must be before ".toList ++ env.isoformat bound ++
            ".".toList))
        else .ok (some expiry)

def keyNameOf (privs : List Str) (name : Str) : Str :=
  if ['I'] ∉ privs then name else "impersonate_".toList ++ name

/-- The pattern `^[A-Za-z0-9_ -]*$`, which lets one line break through at the end. -/
def legalKey (key : Str) : Bool :=
  let key := if key.getLast? = some '\n' then key.dropLast else key
  key.all fun c => c.isAlphanum || c = '_' || c = ' ' || c = '-'

/-- The date that a field of dates makes of a `datetime`, written in ISO format: the offset has to
be in whole minutes. -/
def legalDate (expiry : Option Datetime) : Bool :=
  expiry.all fun d => d.offset.all fun o => o % 60000000 = 0

/-- What the model of API keys and the mapping of them accept. -/
def Acceptable (privs agents : List Str) (expiry : Option Datetime) (key : Str) : Prop :=
  [] ∉ privs ∧ [] ∉ agents ∧ legalDate expiry = true ∧ legalKey key = true

instance (privs agents : List Str) (expiry : Option Datetime) (key : Str) :
    Decidable (Acceptable privs agents expiry key) :=
  inferInstanceAs (Decidable ([] ∉ privs ∧ [] ∉ agents ∧ legalDate expiry = true ∧
    legalKey key = true))

/-- The new key, with the date as it was given. -/
def buildKey (req : KeyRequest) (fields : KeyFields) (name : Str) (privs : List Str) :
    Except Stop (Str × ApiKey) := do
  let maxExpiry ← configuredExpiry cfg env fields
  let maxExpiry ← strictExpiry cfg env req.authorization maxExpiry
  let expiry ← readExpiry env fields maxExpiry
  if Acceptable privs fields.agents expiry (keyNameOf privs name) then
    .ok (keyNameOf privs name,
      { acl := privs.filterMap Acl.ofText, agents := fields.agents,
        password := env.hash env.secret, expiryDate := expiry })
  else .error (.badRequest env.refusal)

/-- The name and the fields of the key that is asked for. -/
def readKey (req : KeyRequest) (userData : User) : Except Stop (Str × ApiKey) :=
  match req.body with
  | none => .error (.badRequest "Invalid data format".toList)
  | some fields =>
    match fields.name with
    | none => .error (.raised .keyError)
    | some name =>
      if name ∈ Dict.keys userData.apikeys then
        .error (.badRequest ("APIKey '".toList ++ name ++ "' already exists".toList))
      else
        match fields.priv with
        | none => .error (.raised .keyError)
        | some privs =>
          match checkPrivs cfg privs with
          | .error e => .error e
          | .ok () => buildKey cfg env req fields name privs

/-- A date as it is stored: in UTC. A `datetime` without offset is taken for UTC. -/
def storedDate (d : Datetime) : Except Stop Datetime :=
  if h : 0 ≤ d.wall - d.offset.getD 0 ∧ d.wall - d.offset.getD 0 ≤ maxWall then
    .ok ⟨d.wall - d.offset.getD 0, some 0, h.1, h.2⟩
  else .error (.raised .overflowError)

/-- A key as it is stored. -/
def storedKey (key : ApiKey) : Except Stop ApiKey :=
  match key.expiryDate with
  | none => .ok key
  | some d => (storedDate d).map fun d => { key with expiryDate := some d }

/-- What the request is answered with: a bad request, or the name of the key and its secret. -/
inductive KeyResponse where
  | badRequest (err : Str)
  | ok (apikey : Str)
  deriving DecidableEq

/-- The answer to a request that was read, with the stored user afterwards. -/
def answer (userData : User) : Except Stop (Str × ApiKey) → Except Raised KeyResponse × User
  | .error (.badRequest err) => (.ok (.badRequest err), userData)
  | .error (.raised e) => (.error e, userData)
  | .ok (keyName, key) =>
    match storedKey key with
    | .error (.badRequest err) => (.ok (.badRequest err), userData)
    | .error (.raised e) => (.error e, userData)
    | .ok key =>
      (.ok (.ok (keyName ++ ":".toList ++ env.secret)),
        { userData with apikeys := Dict.set userData.apikeys keyName key })

/-- `add_apikey`. -/
def addApikey (req : KeyRequest) (userData : User) : Except Raised KeyResponse × User :=
  answer env userData (readKey cfg env req userData)

end Checks

section Purpose

variable (cfg : KeyConfig) (env : KeyEnv)

/-- The expiry of the token of a request for which strict keys are on. -/
def tokenExpiry (req : KeyRequest) : Option Int :=
  if cfg.strictApikeys = true then
    (oauthHeader req.authorization).bind fun header =>
      (header.splitOn ' ')[1]?.bind fun token =>
        match env.decodeExp token with
        | .ok (some exp) => some (epoch + exp * 1000000)
        | _ => none
  else none

/-- The bounds that apply to a request, as moments. -/
def bounds (req : KeyRequest) : List Int :=
  ((maxDuration cfg).map (env.now + ·)).toList ++ (tokenExpiry cfg env req).toList

/-- The bound that the date is compared with, in local time. -/
def lastBound (req : KeyRequest) : Option Int :=
  match tokenExpiry cfg env req with
  | some exp => some (env.localTime exp)
  | none => (maxDuration cfg).map (env.localTime env.now + ·)

/-- A request is refused and the user stays, or one key with a new name is stored, which expires in
time for every bound. -/
def Sound (req : KeyRequest) (userData : User) (r : Except Raised KeyResponse × User) : Prop :=
  (∃ err, r = (.ok (.badRequest err), userData)) ∨
  ∃ name key, name ∉ Dict.keys userData.apikeys ∧
    r = (.ok (.ok (name ++ ":".toList ++ env.secret)),
      { userData with apikeys := Dict.set userData.apikeys name key }) ∧
    ∀ b ∈ bounds cfg env req, ∃ d m, key.expiryDate = some d ∧ d.moment = some m ∧ m ≤ b

/-- A date that stands in a calendar. -/
def OnCalendar (wall : Int) : Prop := 0 ≤ wall ∧ wall ≤ maxWall

/-- The bounds can be computed. -/
def BoundsFit (req : KeyRequest) : Prop :=
  (∀ duration ∈ maxDuration cfg, OnCalendar (env.localTime env.now + duration)) ∧
  (cfg.strictApikeys = true → ∀ header ∈ oauthHeader req.authorization,
    ∃ token exp, (header.splitOn ' ')[1]? = some token ∧ env.decodeExp token = .ok (some exp) ∧
      OnCalendar (env.localTime (epoch + exp * 1000000)))

/-- What is asked of a date when no bound has passed. -/
def DateFits (req : KeyRequest) (userData : User) (agents privs : List Str) (name : Str)
    (d : Datetime) : Prop :=
  (lastBound cfg env req ≠ none → d.offset = none) ∧
  ((∀ bound ∈ lastBound cfg env req, d.wall ≤ bound) →
    Acceptable privs agents (some d) (keyNameOf privs name) →
    OnCalendar (d.wall - d.offset.getD 0) ∧
      keyNameOf privs name ∉ Dict.keys userData.apikeys ∧
      ∀ b ∈ bounds cfg env req, d.wall ≤ b)

/-- What is asked of the bounds and the date of a request that is not refused before. -/
def KeyFits (req : KeyRequest) (userData : User) (fields : KeyFields) (name : Str)
    (privs : List Str) : Prop :=
  BoundsFit cfg env req ∧
  (∀ text ∈ fields.expiry, ∀ d ∈ env.fromisoformat (replace "Z".toList [] text),
    DateFits cfg env req userData fields.agents privs name d) ∧
  (fields.expiry = none → Acceptable privs fields.agents none (keyNameOf privs name) →
    keyNameOf privs name ∉ Dict.keys userData.apikeys ∧ bounds cfg env req = [])

/-- What is asked of a request. -/
def RequestFits (req : KeyRequest) (userData : User) : Prop :=
  ∀ fields ∈ req.body, ∃ name, fields.name = some name ∧
    (name ∉ Dict.keys userData.apikeys → ∃ privs, fields.priv = some privs ∧
      (checkPrivs cfg privs = .ok () → (maxDuration cfg ≠ none → fields.expiry ≠ none) →
        KeyFits cfg env req userData fields name privs))

end Purpose

section Bounds

variable {cfg : KeyConfig} {env : KeyEnv} {req : KeyRequest} {fields : KeyFields}

theorem checkPrivs_error {privs : List Str} {e : Stop} (h : checkPrivs cfg privs = .error e) :
    ∃ err, e = .badRequest err := by
  unfold checkPrivs at h
  split_ifs at h <;> cases h <;> exact ⟨_, rfl⟩

theorem onCalendar_of {e : Raised} {wall : Int} (h : OnCalendar wall) : onCalendar e wall = .ok wall :=
  if_pos h

theorem onCalendar_off {e : Raised} {wall : Int} (h : ¬ OnCalendar wall) :
    onCalendar e wall = .error (.raised e) := if_neg h

theorem configuredExpiry_cases (hdate : maxDuration cfg ≠ none → fields.expiry ≠ none) :
    ((∀ duration ∈ maxDuration cfg, OnCalendar (env.localTime env.now + duration)) ∧
      configuredExpiry cfg env fields =
        .ok ((maxDuration cfg).map (env.localTime env.now + ·))) ∨
    (¬ (∀ duration ∈ maxDuration cfg, OnCalendar (env.localTime env.now + duration)) ∧
      ∃ e, configuredExpiry cfg env fields = .error (.raised e)) := by
  unfold configuredExpiry
  cases hduration : maxDuration cfg with
  | none => exact .inl ⟨fun duration h => (nomatch h), rfl⟩
  | some duration =>
    obtain ⟨text, htext⟩ := Option.ne_none_iff_exists'.mp (hdate (by simp [hduration]))
    rw [htext]
    dsimp only
    by_cases hfits : OnCalendar (env.localTime env.now + duration)
    · rw [onCalendar_of hfits]
      refine .inl ⟨fun d hd => ?_, rfl⟩
      cases hd
      exact hfits
    · rw [onCalendar_off hfits]
      exact .inr ⟨fun h => hfits (h duration rfl), _, rfl⟩

theorem strictExpiry_cases (cfg : KeyConfig) (env : KeyEnv) (req : KeyRequest)
    (maxExpiry : Option Int) :
    ((cfg.strictApikeys = true → ∀ header ∈ oauthHeader req.authorization,
        ∃ token exp, (header.splitOn ' ')[1]? = some token ∧ env.decodeExp token = .ok (some exp) ∧
          OnCalendar (env.localTime (epoch + exp * 1000000))) ∧
      strictExpiry cfg env req.authorization maxExpiry =
        .ok (match tokenExpiry cfg env req with
          | some exp => some (env.localTime exp)
          | none => maxExpiry)) ∨
    (¬ (cfg.strictApikeys = true → ∀ header ∈ oauthHeader req.authorization,
        ∃ token exp, (header.splitOn ' ')[1]? = some token ∧ env.decodeExp token = .ok (some exp) ∧
          OnCalendar (env.localTime (epoch + exp * 1000000))) ∧
      ∃ e, strictExpiry cfg env req.authorization maxExpiry = .error (.raised e)) := by
  unfold strictExpiry tokenExpiry
  by_cases hstrict : cfg.strictApikeys = true
  · rw [if_pos hstrict, if_pos hstrict]
    cases hheader : oauthHeader req.authorization with
    | none => exact .inl ⟨fun _ header h => (nomatch h), rfl⟩
    | some header =>
      -- a token that has no expiry is not what is asked for
      have hfails {r : Except Stop (Option Int)}
          (hno : ∀ token exp, (header.splitOn ' ')[1]? = some token →
            env.decodeExp token = .ok (some exp) →
            ¬ OnCalendar (env.localTime (epoch + exp * 1000000)))
          (hr : ∃ e, r = .error (.raised e)) :
          ¬ (cfg.strictApikeys = true → ∀ header' ∈ some header,
            ∃ token exp, (header'.splitOn ' ')[1]? = some token ∧
              env.decodeExp token = .ok (some exp) ∧
              OnCalendar (env.localTime (epoch + exp * 1000000))) ∧
            ∃ e, r = .error (.raised e) := by
        refine ⟨fun h => ?_, hr⟩
        obtain ⟨token, exp, htoken, hexp, hfits⟩ := h hstrict header rfl
        exact hno token exp htoken hexp hfits
      dsimp only [Option.bind_some]
      cases htoken : (header.splitOn ' ')[1]? with
      | none =>
        refine .inr (hfails (fun token exp h => ?_) ⟨_, rfl⟩)
        rw [htoken] at h
        cases h
      | some token =>
        dsimp only [Option.bind_some]
        rcases hexp : env.decodeExp token with e | - | exp
        · refine .inr (hfails (fun token' exp h h' => ?_) ⟨_, rfl⟩)
          rw [htoken] at h
          cases h
          rw [hexp] at h'
          cases h'
        · refine .inr (hfails (fun token' exp h h' => ?_) ⟨_, rfl⟩)
          rw [htoken] at h
          cases h
          rw [hexp] at h'
          cases h'
        · dsimp only
          by_cases hfits : OnCalendar (env.localTime (epoch + exp * 1000000))
          · rw [onCalendar_of hfits]
            refine .inl ⟨fun _ header' h => ?_, rfl⟩
            cases h
            exact ⟨token, exp, htoken, hexp, hfits⟩
          · rw [onCalendar_off hfits]
            refine .inr (hfails (fun token' exp' h h' => ?_) ⟨_, rfl⟩)
            rw [htoken] at h
            cases h
            rw [hexp] at h'
            cases h'
            exact hfits
  · rw [if_neg hstrict, if_neg hstrict]
    exact .inl ⟨fun h => absurd h hstrict, rfl⟩

/-- With bounds, there is a last one that the date is compared with. -/
theorem lastBound_eq_none : lastBound cfg env req = none ↔ bounds cfg env req = [] := by
  unfold lastBound bounds
  cases tokenExpiry cfg env req <;> cases maxDuration cfg <;> simp

end Bounds

section Keys

variable {cfg : KeyConfig} {env : KeyEnv} {req : KeyRequest} {fields : KeyFields} {userData : User}
  {name : Str} {privs : List Str}

theorem storedDate_of {d : Datetime} (h : OnCalendar (d.wall - d.offset.getD 0)) :
    ∃ d', storedDate d = .ok d' ∧ d'.moment = some (d.wall - d.offset.getD 0) := by
  refine ⟨_, dif_pos h, ?_⟩
  simp [Datetime.moment]

/-- A key that is stored as it is. -/
theorem sound_set_iff (key : ApiKey) (keyName : Str) :
    Sound cfg env req userData (.ok (.ok (keyName ++ ":".toList ++ env.secret)),
        { userData with apikeys := Dict.set userData.apikeys keyName key }) ↔
      keyName ∉ Dict.keys userData.apikeys ∧
        ∀ b ∈ bounds cfg env req, ∃ d m, key.expiryDate = some d ∧ d.moment = some m ∧ m ≤ b := by
  constructor
  · rintro (⟨err, h⟩ | ⟨name, key', hnew, h, hbounds⟩)
    · cases h
    · obtain ⟨hanswer, huser⟩ := Prod.mk.inj h
      simp only [Except.ok.injEq, KeyResponse.ok.injEq, List.append_cancel_right_eq] at hanswer
      subst hanswer
      simp only [User.mk.injEq, true_and, and_true] at huser
      have hget := congrArg (fun apikeys => Dict.get? apikeys keyName) huser
      simp only [Dict.get?_set, if_true, Option.some.injEq] at hget
      rw [hget]
      exact ⟨hnew, hbounds⟩
  · rintro ⟨hnew, hbounds⟩
    exact .inr ⟨keyName, key, hnew, rfl, hbounds⟩

theorem sound_badRequest (err : Str) :
    Sound cfg env req userData (answer env userData (.error (.badRequest err))) :=
  .inl ⟨err, rfl⟩

theorem not_sound_raised (e : Raised) :
    ¬ Sound cfg env req userData (answer env userData (.error (.raised e))) := by
  rintro (⟨err, h⟩ | ⟨name, key, -, h, -⟩) <;> cases h

/-- A key without a date. -/
theorem sound_undated_iff {key : ApiKey} (h : key.expiryDate = none) (keyName : Str) :
    Sound cfg env req userData (answer env userData (.ok (keyName, key))) ↔
      keyName ∉ Dict.keys userData.apikeys ∧ bounds cfg env req = [] := by
  have hstored : storedKey key = .ok key := by rw [storedKey, h]
  rw [answer, hstored]
  dsimp only
  rw [sound_set_iff, h]
  refine and_congr_right fun _ => ⟨fun hbounds => ?_, fun hnone b hb => ?_⟩
  · refine List.eq_nil_iff_forall_not_mem.mpr fun b hb => ?_
    obtain ⟨d, m, hd, -⟩ := hbounds b hb
    cases hd
  · rw [hnone] at hb
    cases hb

/-- A key with a date. -/
theorem sound_dated_iff {key : ApiKey} {d : Datetime} (h : key.expiryDate = some d) (keyName : Str) :
    Sound cfg env req userData (answer env userData (.ok (keyName, key))) ↔
      OnCalendar (d.wall - d.offset.getD 0) ∧ keyName ∉ Dict.keys userData.apikeys ∧
        ∀ b ∈ bounds cfg env req, d.wall - d.offset.getD 0 ≤ b := by
  by_cases hfits : OnCalendar (d.wall - d.offset.getD 0)
  · obtain ⟨d', hd', hmoment⟩ := storedDate_of hfits
    have hstored : storedKey key = .ok { key with expiryDate := some d' } := by
      rw [storedKey, h]
      dsimp only
      rw [hd']
      rfl
    rw [answer, hstored]
    dsimp only
    rw [sound_set_iff]
    refine ⟨fun ⟨hnew, hbounds⟩ => ⟨hfits, hnew, fun b hb => ?_⟩,
      fun ⟨_, hnew, hbounds⟩ => ⟨hnew, fun b hb => ⟨d', _, rfl, hmoment, hbounds b hb⟩⟩⟩
    obtain ⟨d'', m, hd'', hm, hle⟩ := hbounds b hb
    cases hd''
    rw [hmoment] at hm
    cases hm
    exact hle
  · have hoff : storedDate d = .error (.raised .overflowError) := dif_neg hfits
    have hstored : storedKey key = .error (.raised .overflowError) := by
      rw [storedKey, h]
      dsimp only
      rw [hoff]
      rfl
    refine iff_of_false ?_ fun hall => hfits hall.1
    rw [answer, hstored]
    exact not_sound_raised _

/-- What comes of the date of the body, for the last bound. -/
theorem sound_readExpiry_iff :
    Sound cfg env req userData (answer env userData (do
      let expiry ← readExpiry env fields (lastBound cfg env req)
      if Acceptable privs fields.agents expiry (keyNameOf privs name) then
        .ok (keyNameOf privs name,
          { acl := privs.filterMap Acl.ofText, agents := fields.agents,
            password := env.hash env.secret, expiryDate := expiry })
      else .error (.badRequest env.refusal))) ↔
      (∀ text ∈ fields.expiry, ∀ d ∈ env.fromisoformat (replace "Z".toList [] text),
        DateFits cfg env req userData fields.agents privs name d) ∧
      (fields.expiry = none → Acceptable privs fields.agents none (keyNameOf privs name) →
        keyNameOf privs name ∉ Dict.keys userData.apikeys ∧ bounds cfg env req = []) := by
  unfold readExpiry
  cases htext : fields.expiry with
  | none =>
    simp only [bind, Except.bind, Option.not_mem_none, false_implies, implies_true,
      true_and, forall_const]
    by_cases haccept : Acceptable privs fields.agents none (keyNameOf privs name)
    · rw [if_pos haccept, sound_undated_iff rfl]
      exact ⟨fun h _ => h, fun h => h haccept⟩
    · rw [if_neg haccept]
      exact iff_of_true (sound_badRequest _) fun h => absurd h haccept
  | some text =>
    simp only [reduceCtorEq, false_implies, and_true, Option.mem_def, Option.some.injEq,
      forall_eq']
    cases hdate : env.fromisoformat (replace "Z".toList [] text) with
    | none => exact iff_of_true (sound_badRequest _) fun d h => nomatch h
    | some d =>
      simp only [Option.some.injEq, forall_eq']
      -- the date was not refused
      have hbuilt (hoffset : lastBound cfg env req ≠ none → d.offset = none)
          (hbound : ∀ bound ∈ lastBound cfg env req, d.wall ≤ bound) :
          Sound cfg env req userData (answer env userData
            (if Acceptable privs fields.agents (some d) (keyNameOf privs name) then
              .ok (keyNameOf privs name,
                { acl := privs.filterMap Acl.ofText, agents := fields.agents,
                  password := env.hash env.secret, expiryDate := some d })
            else .error (.badRequest env.refusal))) ↔
            DateFits cfg env req userData fields.agents privs name d := by
        have hsame : ∀ b ∈ bounds cfg env req, d.wall - d.offset.getD 0 = d.wall := by
          intro b hb
          have hne : lastBound cfg env req ≠ none := by
            rw [ne_eq, lastBound_eq_none]
            exact List.ne_nil_of_mem hb
          rw [hoffset hne]
          exact Int.sub_zero _
        by_cases haccept : Acceptable privs fields.agents (some d) (keyNameOf privs name)
        · rw [if_pos haccept, sound_dated_iff rfl]
          refine ⟨fun ⟨hfits, hnew, hle⟩ => ⟨hoffset, fun _ _ => ⟨hfits, hnew, fun b hb => ?_⟩⟩,
            fun h => ?_⟩
          · exact hsame b hb ▸ hle b hb
          · obtain ⟨hfits, hnew, hle⟩ := h.2 hbound haccept
            exact ⟨hfits, hnew, fun b hb => (hsame b hb).symm ▸ hle b hb⟩
        · rw [if_neg haccept]
          exact iff_of_true (sound_badRequest _) ⟨hoffset, fun _ h => absurd h haccept⟩
      cases hlast : lastBound cfg env req with
      | none => exact hbuilt (fun h => absurd hlast h) fun bound h => by rw [hlast] at h; cases h
      | some bound =>
        dsimp only
        cases hoffset : d.offset with
        | some offset =>
          rw [if_pos Option.isSome_some]
          refine iff_of_false (not_sound_raised _) fun h => ?_
          have hnone := h.1 (by simp [hlast])
          rw [hoffset] at hnone
          cases hnone
        | none =>
          rw [if_neg (by simp)]
          by_cases hlate : bound < d.wall
          · rw [if_pos hlate]
            refine iff_of_true (sound_badRequest _) ⟨fun _ => hoffset, fun h => ?_⟩
            exact absurd (h bound hlast) (by omega)
          · rw [if_neg hlate]
            refine hbuilt (fun _ => hoffset) fun bound' h => ?_
            rw [hlast] at h
            cases h
            omega

theorem sound_buildKey_iff (hdate : maxDuration cfg ≠ none → fields.expiry ≠ none) :
    Sound cfg env req userData (answer env userData (buildKey cfg env req fields name privs)) ↔
      KeyFits cfg env req userData fields name privs := by
  unfold buildKey KeyFits BoundsFit
  rcases @configuredExpiry_cases cfg env fields hdate with ⟨hconfigured, hok⟩ | ⟨hconfigured, e, he⟩
  · rw [hok]
    rcases strictExpiry_cases cfg env req ((maxDuration cfg).map (env.localTime env.now + ·)) with
      ⟨hstrict, hok⟩ | ⟨hstrict, e, he⟩
    · have hlast : strictExpiry cfg env req.authorization
          ((maxDuration cfg).map (env.localTime env.now + ·)) = .ok (lastBound cfg env req) := hok
      have hread := @sound_readExpiry_iff cfg env req fields userData name privs
      simp only [bind, Except.bind, hlast] at hread ⊢
      rw [hread]
      exact ⟨fun h => ⟨⟨hconfigured, hstrict⟩, h⟩, fun h => h.2⟩
    · simp only [bind, Except.bind, he]
      exact iff_of_false (not_sound_raised e) fun h => hstrict h.1.2
  · rw [he]
    exact iff_of_false (not_sound_raised e) fun h => hconfigured h.1.1

end Keys

/-- `add_apikey` is sound exactly for the requests that fit. -/
theorem addApikey_iff (cfg : KeyConfig) (env : KeyEnv) (req : KeyRequest) (userData : User) :
    Sound cfg env req userData (addApikey cfg env req userData) ↔
      RequestFits cfg env req userData := by
  unfold addApikey readKey RequestFits
  cases hbody : req.body with
  | none => exact iff_of_true (sound_badRequest _) fun fields h => nomatch h
  | some fields =>
    simp only [Option.mem_def, Option.some.injEq, forall_eq']
    cases hname : fields.name with
    | none => exact iff_of_false (not_sound_raised _) fun ⟨name, h, _⟩ => nomatch h
    | some name =>
      dsimp only
      by_cases hknown : name ∈ Dict.keys userData.apikeys
      · rw [if_pos hknown]
        exact iff_of_true (sound_badRequest _) ⟨name, rfl, fun h => absurd hknown h⟩
      · rw [if_neg hknown]
        cases hpriv : fields.priv with
        | none =>
          refine iff_of_false (not_sound_raised _) fun ⟨name', h, hfits⟩ => ?_
          cases h
          obtain ⟨privs, h, -⟩ := hfits hknown
          cases h
        | some privs =>
          simp only [Option.some.injEq, exists_eq_left', hknown, not_false_eq_true, true_implies]
          cases hprivs : checkPrivs cfg privs with
          | error e =>
            obtain ⟨err, rfl⟩ := checkPrivs_error hprivs
            exact iff_of_true (sound_badRequest _) fun h => nomatch h
          | ok =>
            simp only [true_implies]
            by_cases hdate : maxDuration cfg ≠ none → fields.expiry ≠ none
            · rw [sound_buildKey_iff hdate]
              exact ⟨fun h _ => h, fun h => h hdate⟩
            · refine iff_of_true ?_ fun h => absurd h hdate
              obtain ⟨hduration, hnone⟩ := Classical.not_imp.mp hdate
              obtain ⟨duration, hduration⟩ := Option.ne_none_iff_exists'.mp hduration
              have hnone := not_not.mp hnone
              have hrefused : buildKey cfg env req fields name privs =
                  .error (.badRequest "API keys must have an expiry date.".toList) := by
                rw [buildKey, configuredExpiry, hduration, hnone]
                rfl
              rw [hrefused]
              exact sound_badRequest _

/-- A clock in UTC and a user with one impersonation key. -/
def keyEnv : KeyEnv where
  now := 2025 * 365 * microsecondsPerDay
  ahead _ := 0
  secret := "MFRGGZDFMZTWQ2LK".toList
  hash s := s
  fromisoformat _ := none
  decodeExp _ := .error .jwtError
  isoformat _ := []
  refusal := []

def delegator : User where
  uname := "admin".toList
  apikeys := [("impersonate_ci".toList,
    { acl := [.R, .I], agents := ["goose".toList], password := "old".toList })]
  password := "hash".toList

def secondKey : ApiKey := { acl := [.W, .I], agents := ["huey".toList], password := keyEnv.secret }

/-- A second impersonation key with one name takes the place of the first one. -/
theorem addApikey_replaces :
    ¬ Sound {} keyEnv
      { body := some { name := some "ci".toList, priv := some ["W".toList, "I".toList],
                       agents := ["huey".toList] } } delegator
      (addApikey {} keyEnv
        { body := some { name := some "ci".toList, priv := some ["W".toList, "I".toList],
                         agents := ["huey".toList] } } delegator) := by
  intro h
  have hstored : addApikey {} keyEnv
      { body := some { name := some "ci".toList, priv := some ["W".toList, "I".toList],
                       agents := ["huey".toList] } } delegator =
      (.ok (.ok ("impersonate_ci".toList ++ ":".toList ++ keyEnv.secret)),
        { delegator with
          apikeys := Dict.set delegator.apikeys "impersonate_ci".toList secondKey }) := by
    decide +kernel
  rw [hstored, sound_set_iff] at h
  exact h.1 (by decide)

end Howler.Auth
