import Howler.Python.Datetime
import Howler.Python.Dict
import Howler.Python.Text

namespace Howler.Auth

open Python

/-- What an API key allows. -/
inductive Acl where
  | R
  | W
  | E
  | I
  deriving DecidableEq, Repr

structure ApiKey where
  acl : List Acl
  agents : List Str := []
  password : Str
  expiryDate : Option Datetime := none
  deriving DecidableEq

/-- The fields of a user that authentication reads. -/
structure User where
  uname : Str
  apikeys : Dict Str ApiKey := []
  password : Str
  deriving DecidableEq

structure Config where
  allowApikeys : Bool := true
  internalEnabled : Bool := true
  maxFailures : ℤ := 5
  failureTtl : ℤ := 60

inductive AuthError where
  | accessDenied (message : Str)
  | authentication (message : Str)
  | invalidData (message : Str)
  | valueError
  deriving DecidableEq

/-- What is computed outside: the check of a password against its hash, the digest with the key of
the service, and the decoding of base64. -/
structure Env where
  verifyPassword : Str → Str → Bool
  digest : Str → Str
  decodeB64 : Str → Except AuthError Str

/-- An entry of a failure queue. -/
structure Failure where
  remoteAddr : Str
  host : Str
  fullPath : Str
  deriving DecidableEq

/-- The failure queues and the cache of verified API keys, by their names in Redis. -/
structure State where
  failures : Str → List Failure := fun _ => []
  cache : Str → Option Str := fun _ => none

/-- `s.split(":", 1)` into two. -/
def splitPair (s : Str) : Option (Str × Str) :=
  if ':' ∈ s then some (s.takeWhile (· ≠ ':'), (s.dropWhile (· ≠ ':')).tail) else none

def apikeyCacheKey (username keyName : Str) : Str :=
  "apikey_cache:".toList ++ username ++ ":".toList ++ keyName

section Apikeys

variable (cfg : Config) (env : Env)

def hashSecret (username keyName secret : Str) : Str :=
  env.digest (username ++ ":".toList ++ keyName ++ ":".toList ++ secret)

def isApikeyCached (s : State) (username keyName secret : Str) : Bool :=
  match s.cache (apikeyCacheKey username keyName) with
  | none => false
  | some cachedHash => cachedHash = hashSecret env username keyName secret

def cacheApikeyVerification (s : State) (username keyName secret : Str) : State :=
  { s with cache := Function.update s.cache (apikeyCacheKey username keyName)
                      (some (hashSecret env username keyName secret)) }

/-- The expiry date is read without its offset. `now` is the reading of `datetime.utcnow()`. -/
def ApiKey.expired (key : ApiKey) (now : Int) : Bool :=
  match key.expiryDate with
  | none => false
  | some d => d.wall < now

def ApiKey.forUse (key : ApiKey) (impersonator : Option User) : Except AuthError Unit :=
  match impersonator with
  | some i =>
    if .I ∉ key.acl ∨ i.uname ∉ key.agents then
      .error (.accessDenied "Not a valid impersonation api key".toList)
    else .ok ()
  | none =>
    if .I ∈ key.acl then
      .error (.accessDenied ("Cannot use impersonation key in normal Authorization Header! " ++
        "Provide your credentials and supply it in the X-Impersonating header instead.").toList)
    else .ok ()

/-- The part of `validate_apikey` before the secret is compared. -/
def keyToCompare (users : Str → Option User) (now : Int) (username apikey : Str)
    (impersonator : Option User) : Except AuthError (Option (User × Str × Str × ApiKey)) :=
  if cfg.allowApikeys = true ∧ apikey ≠ [] then
    match users username with
    | none => .ok none
    | some userData =>
      match splitPair apikey with
      | none => .ok none
      | some (name, apikeyPassword) =>
        match Dict.get? userData.apikeys name with
        | none => .error (.authentication "API Key does not exist".toList)
        | some key =>
          if key.expired now then .error (.authentication "Key is expired".toList)
          else
            match key.forUse impersonator with
            | .error e => .error e
            | .ok () => .ok (some (userData, name, apikeyPassword, key))
  else .error (.accessDenied "API Key authentication disabled".toList)

/-- `validate_apikey`. -/
def validateApikey (users : Str → Option User) (now : Int) (s : State) (username apikey : Str)
    (impersonator : Option User) : Except AuthError (Option (User × List Acl)) × State :=
  match keyToCompare cfg users now username apikey impersonator with
  | .error e => (.error e, s)
  | .ok none => (.ok none, s)
  | .ok (some (userData, name, apikeyPassword, key)) =>
    if isApikeyCached env s username name apikeyPassword then (.ok (some (userData, key.acl)), s)
    else if env.verifyPassword apikeyPassword key.password then
      (.ok (some (userData, key.acl)), cacheApikeyVerification env s username name apikeyPassword)
    else (.ok none, s)

/-- `validate_userpass`. -/
def validateUserpass (users : Str → Option User) (username password : Str) :
    Except AuthError (Option (User × List Acl)) :=
  if cfg.internalEnabled = true ∧ username ≠ [] ∧ password ≠ [] then
    match users username with
    | none => .ok none
    | some user =>
      if env.verifyPassword password user.password then .ok (some (user, [.R, .W, .E]))
      else .ok none
  else .error (.accessDenied "Username/Password authentication disabled".toList)

def failureQueue (username : Str) : Str := "ui-failed-".toList ++ username

def lockedMessage : Str :=
  ("Maximum password retry of " ++ toString cfg.maxFailures ++ " was reached. " ++
    "This account is locked for the next " ++ toString cfg.failureTtl ++ " seconds...").toList

/-- The part of `basic_auth` after the scheme of API keys. -/
def checkFailures (users : Str → Option User) (request : Failure) (s : State) (username data : Str)
    (validated : Option (User × List Acl)) (skipPassword : Bool) :
    Except AuthError (User × List Acl) × State :=
  let queue := failureQueue username
  if cfg.maxFailures ≤ (s.failures queue).length then
    (.error (.authentication (lockedMessage cfg)), s)
  else
    let validated : Except AuthError (Option (User × List Acl)) :=
      match validated with
      | some v => .ok (some v)
      | none => if skipPassword then .ok none else validateUserpass cfg env users username data
    match validated with
    | .error e => (.error e, s)
    | .ok (some v) => (.ok v, s)
    | .ok none =>
      (.error (.authentication "Invalid login information".toList),
        { s with failures := Function.update s.failures queue (s.failures queue ++ [request]) })

/-- `basic_auth`. -/
def basicAuth (users : Str → Option User) (now : Int) (request : Failure) (s : State) (data : Str)
    (isBase64 skipApikey skipPassword : Bool) : Except AuthError (User × List Acl) × State :=
  match if isBase64 then env.decodeB64 data else .ok data with
  | .error e => (.error e, s)
  | .ok keyPair =>
    match splitPair keyPair with
    | none => (.error .valueError, s)
    | some (username, data) =>
      if skipApikey then checkFailures cfg env users request s username data none skipPassword
      else
        match validateApikey cfg env users now s username data none with
        | (.error e, s) => (.error e, s)
        | (.ok validated, s) =>
          checkFailures cfg env users request s username data validated skipPassword

end Apikeys

end Howler.Auth
