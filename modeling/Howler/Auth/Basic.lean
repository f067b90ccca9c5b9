import Howler.Auth.Service
import Howler.Systems.Runs

namespace Howler.Auth

open Python Systems

/-- A username and a secret that are given to `basic_auth`. -/
structure Attempt (env : Env) where
  users : Str → Option User
  now : Int
  request : Failure
  data : Str
  isBase64 : Bool
  username : Str
  secret : Str
  noColon : ':' ∉ username
  decoded : (if isBase64 then env.decodeB64 data else .ok data) = .ok (username ++ ':' :: secret)

section Attempts

variable (cfg : Config) {env : Env} (s : State) (a : Attempt env)

def Attempt.basicAuth : Except AuthError (User × List Acl) × State :=
  Auth.basicAuth cfg env a.users a.now a.request s a.data a.isBase64 false false

def Attempt.next : State := (a.basicAuth cfg s).2

def Attempt.queue : Str := failureQueue a.username

/-- The account is locked. -/
def Attempt.Locked : Prop := cfg.maxFailures ≤ (s.failures a.queue).length

instance : Decidable (a.Locked cfg s) := inferInstanceAs (Decidable (_ ≤ _))

def accepted (r : Except AuthError (Option (User × List Acl))) : Bool :=
  match r with
  | .ok (some _) => true
  | _ => false

/-- What `validate_apikey` says of the secret. -/
def Attempt.byApikey : Except AuthError (Option (User × List Acl)) :=
  (validateApikey cfg env a.users a.now s a.username a.secret none).1

/-- What `validate_userpass` says of the secret. -/
def Attempt.byUserpass : Except AuthError (Option (User × List Acl)) :=
  validateUserpass cfg env a.users a.username a.secret

/-- The secret was compared with that of an API key. -/
def Attempt.comparedKey : Bool :=
  match keyToCompare cfg a.users a.now a.username a.secret none with
  | .ok (some _) => true
  | _ => false

/-- The secret was compared with the password of the user. -/
def Attempt.comparedPassword : Bool :=
  !decide (a.Locked cfg s) && decide (a.byApikey cfg s = .ok none) && cfg.internalEnabled &&
    !a.username.isEmpty && !a.secret.isEmpty && (a.users a.username).isSome

/-- A secret was compared that is none of the user's. -/
def Attempt.wrongSecret : Bool :=
  !accepted (a.byApikey cfg s) && !accepted (a.byUserpass cfg) &&
    (a.comparedKey cfg || a.comparedPassword cfg s)

/-- An attempt succeeds with the right secret for an account that is not locked, is recorded when
the secret is wrong, and compares no wrong secret for a locked account. -/
structure Attempt.Sound : Prop where
  succeeds : (∃ v, (a.basicAuth cfg s).1 = .ok v) ↔ ¬ a.Locked cfg s ∧
    (cfg.allowApikeys = true ∧ accepted (a.byApikey cfg s) = true ∨
      cfg.internalEnabled = true ∧ accepted (a.byUserpass cfg) = true)
  recorded : ¬ a.Locked cfg s → accepted (a.byApikey cfg s) = false →
    accepted (a.byUserpass cfg) = false →
    (a.next cfg s).failures =
      Function.update s.failures a.queue (s.failures a.queue ++ [a.request])
  unlocked : a.wrongSecret cfg s = true → ¬ a.Locked cfg s

/-- The secret has the name of an API key that can be used. -/
def Attempt.UsableKey (user : User) (name password : Str) (key : ApiKey) : Prop :=
  a.users a.username = some user ∧ splitPair a.secret = some (name, password) ∧
    Dict.get? user.apikeys name = some key ∧ key.expired a.now = false ∧ .I ∉ key.acl

/-- The secret is that of an API key. -/
def Attempt.KeyMatches : Prop :=
  cfg.allowApikeys = true ∧ ∃ user name password key, a.UsableKey user name password key ∧
    (isApikeyCached env s a.username name password = true ∨
      env.verifyPassword password key.password = true)

/-- The secret is the password of the user. -/
def Attempt.PasswordMatches : Prop :=
  (cfg.internalEnabled = true ∧ a.username ≠ [] ∧ a.secret ≠ []) ∧
    ∃ user, a.users a.username = some user ∧ env.verifyPassword a.secret user.password = true

/-- The secret can be read as one for the scheme of API keys: what it names is a key. -/
def Attempt.Readable : Prop :=
  (cfg.allowApikeys = true ∧ a.secret ≠ []) ∧
    ∀ user name password, a.users a.username = some user →
      splitPair a.secret = some (name, password) → ∃ key, a.UsableKey user name password key

/-- While the account is not locked, what the secret names is an API key, and other secrets are for
the scheme of passwords, which is enabled. While it is locked, the secret is not a wrong one for an
API key. -/
def Attempt.Fits : Prop :=
  (a.Locked cfg s → ∀ user name password key, cfg.allowApikeys = true →
    a.UsableKey user name password key → a.KeyMatches cfg s ∨ a.PasswordMatches cfg) ∧
  (¬ a.Locked cfg s → a.Readable cfg ∧
    (a.KeyMatches cfg s ∨ cfg.internalEnabled = true ∧ a.username ≠ []))

end Attempts

section Schemes

variable {cfg : Config} {env : Env} {s : State} {a : Attempt env}

theorem splitPair_append {u x : Str} (h : ':' ∉ u) : splitPair (u ++ ':' :: x) = some (u, x) := by
  have hne : ∀ c ∈ u, decide (c ≠ ':') = true := by
    intro c hc
    simpa using ne_of_mem_of_not_mem hc h
  have htake : (u ++ ':' :: x).takeWhile (· ≠ ':') = u := by
    rw [List.takeWhile_append_of_pos hne]
    simp
  have hdrop : (u ++ ':' :: x).dropWhile (· ≠ ':') = ':' :: x := by
    rw [List.dropWhile_append_of_pos hne]
    simp
  rw [splitPair, if_pos (by simp), htake, hdrop]
  rfl

theorem ne_nil_of_splitPair {x name password : Str} (h : splitPair x = some (name, password)) :
    x ≠ [] := by
  rintro rfl
  cases h

theorem Attempt.UsableKey.unique {user user' : User} {name name' password password' : Str}
    {key key' : ApiKey} (h : a.UsableKey user name password key)
    (h' : a.UsableKey user' name' password' key') :
    user = user' ∧ name = name' ∧ password = password' ∧ key = key' := by
  obtain ⟨huser, hsplit, hkey, -⟩ := h
  obtain ⟨huser', hsplit', hkey', -⟩ := h'
  rw [huser] at huser'
  rw [hsplit] at hsplit'
  cases huser'
  cases hsplit'
  rw [hkey] at hkey'
  cases hkey'
  exact ⟨rfl, rfl, rfl, rfl⟩

theorem Attempt.UsableKey.readable {user : User} {name password : Str} {key : ApiKey}
    (h : a.UsableKey user name password key) (hallow : cfg.allowApikeys = true) :
    a.Readable cfg := by
  have huser := h.1
  have hsplit := h.2.1
  refine ⟨⟨hallow, ne_nil_of_splitPair hsplit⟩, fun user' name' password' huser' hsplit' => ?_⟩
  rw [huser] at huser'
  rw [hsplit] at hsplit'
  cases huser'
  cases hsplit'
  exact ⟨key, h⟩

theorem Attempt.KeyMatches.readable (h : a.KeyMatches cfg s) : a.Readable cfg := by
  obtain ⟨hallow, user, name, password, key, husable, -⟩ := h
  exact husable.readable hallow

/-- What `validate_apikey` has before it compares the secret: it raised, there is no key, or there is
the key that the secret names. -/
theorem keyToCompare_cases (cfg : Config) (a : Attempt env) :
    (¬ a.Readable cfg ∧ ∃ e,
      keyToCompare cfg a.users a.now a.username a.secret none = .error e) ∨
    (a.Readable cfg ∧ (∀ user name password key, ¬ a.UsableKey user name password key) ∧
      keyToCompare cfg a.users a.now a.username a.secret none = .ok none) ∨
    (a.Readable cfg ∧ ∃ user name password key, a.UsableKey user name password key ∧
      keyToCompare cfg a.users a.now a.username a.secret none =
        .ok (some (user, name, password, key))) := by
  unfold keyToCompare
  by_cases henabled : cfg.allowApikeys = true ∧ a.secret ≠ []
  · rw [if_pos henabled]
    cases huser : a.users a.username with
    | none =>
      refine .inr (.inl ⟨⟨henabled, fun user _ _ h => ?_⟩, fun user _ _ _ h => ?_, rfl⟩)
      · rw [huser] at h
        cases h
      · rw [h.1] at huser
        cases huser
    | some user =>
      cases hsplit : splitPair a.secret with
      | none =>
        refine .inr (.inl ⟨⟨henabled, fun _ _ _ _ h => ?_⟩, fun _ _ _ _ h => ?_, rfl⟩)
        · rw [hsplit] at h
          cases h
        · rw [h.2.1] at hsplit
          cases hsplit
      | some pair =>
        obtain ⟨name, password⟩ := pair
        -- the key is there and can be used, or something is raised
        have hraises (hno : ∀ key, ¬ a.UsableKey user name password key) : ¬ a.Readable cfg := by
          intro hreadable
          obtain ⟨key, hkey⟩ := hreadable.2 user name password huser hsplit
          exact hno key hkey
        dsimp only
        cases hkey : Dict.get? user.apikeys name with
        | none =>
          refine .inl ⟨hraises fun key h => ?_, _, rfl⟩
          have hget := h.2.2.1
          rw [hkey] at hget
          cases hget
        | some key =>
          have hsame {key' : ApiKey} (h : a.UsableKey user name password key') : key' = key := by
            have hget := h.2.2.1
            rw [hkey] at hget
            exact (Option.some.inj hget).symm
          dsimp only
          cases hexpired : key.expired a.now with
          | true =>
            refine .inl ⟨hraises fun key' h => ?_, _, rfl⟩
            have hnot := h.2.2.2.1
            rw [hsame h, hexpired] at hnot
            cases hnot
          | false =>
            rw [if_neg (by simp), ApiKey.forUse]
            by_cases himpersonation : Acl.I ∈ key.acl
            · rw [if_pos himpersonation]
              exact .inl ⟨hraises fun key' h => h.2.2.2.2 (hsame h ▸ himpersonation), _, rfl⟩
            · rw [if_neg himpersonation]
              have husable : a.UsableKey user name password key :=
                ⟨huser, hsplit, hkey, hexpired, himpersonation⟩
              refine .inr (.inr ⟨⟨henabled, fun user' name' password' huser' hsplit' => ?_⟩,
                user, name, password, key, husable, rfl⟩)
              rw [huser] at huser'
              rw [hsplit] at hsplit'
              cases huser'
              cases hsplit'
              exact ⟨key, husable⟩
  · rw [if_neg henabled]
    exact .inl ⟨fun h => henabled h.1, _, rfl⟩

/-- What `validate_apikey` does: it raises, it returns the user, or it returns nothing. The failure
queues stay. -/
theorem validateApikey_cases (cfg : Config) (s : State) (a : Attempt env) :
    (validateApikey cfg env a.users a.now s a.username a.secret none).2.failures = s.failures ∧
    ((¬ a.Readable cfg ∧ ∃ e, a.byApikey cfg s = .error e) ∨
      (a.Readable cfg ∧ a.KeyMatches cfg s ∧ ∃ v, a.byApikey cfg s = .ok (some v)) ∨
      (a.Readable cfg ∧ ¬ a.KeyMatches cfg s ∧ a.byApikey cfg s = .ok none)) := by
  unfold Attempt.byApikey validateApikey
  rcases keyToCompare_cases cfg a with ⟨hreadable, e, he⟩ | ⟨hreadable, hno, hnone⟩ |
    ⟨hreadable, user, name, password, key, husable, hsome⟩
  · rw [he]
    exact ⟨rfl, .inl ⟨hreadable, e, rfl⟩⟩
  · rw [hnone]
    refine ⟨rfl, .inr (.inr ⟨hreadable, fun h => ?_, rfl⟩)⟩
    obtain ⟨-, user, name, password, key, husable, -⟩ := h
    exact hno user name password key husable
  · rw [hsome]
    dsimp only
    by_cases hcached : isApikeyCached env s a.username name password = true
    · rw [if_pos hcached]
      exact ⟨rfl, .inr (.inl ⟨hreadable,
        ⟨hreadable.1.1, user, name, password, key, husable, .inl hcached⟩, _, rfl⟩)⟩
    · rw [if_neg hcached]
      by_cases hverify : env.verifyPassword password key.password = true
      · rw [if_pos hverify]
        exact ⟨rfl, .inr (.inl ⟨hreadable,
          ⟨hreadable.1.1, user, name, password, key, husable, .inr hverify⟩, _, rfl⟩)⟩
      · rw [if_neg hverify]
        refine ⟨rfl, .inr (.inr ⟨hreadable, fun h => ?_, rfl⟩)⟩
        obtain ⟨-, user', name', password', key', husable', hmatch⟩ := h
        obtain ⟨rfl, rfl, rfl, rfl⟩ := husable.unique husable'
        exact hmatch.elim hcached hverify

/-- What `validate_userpass` does. -/
theorem validateUserpass_cases (cfg : Config) (a : Attempt env) :
    (¬ (cfg.internalEnabled = true ∧ a.username ≠ [] ∧ a.secret ≠ []) ∧
      ¬ a.PasswordMatches cfg ∧ ∃ e, a.byUserpass cfg = .error e) ∨
    ((cfg.internalEnabled = true ∧ a.username ≠ [] ∧ a.secret ≠ []) ∧ a.PasswordMatches cfg ∧
      ∃ v, a.byUserpass cfg = .ok (some v)) ∨
    ((cfg.internalEnabled = true ∧ a.username ≠ [] ∧ a.secret ≠ []) ∧ ¬ a.PasswordMatches cfg ∧
      a.byUserpass cfg = .ok none) := by
  unfold Attempt.byUserpass validateUserpass
  by_cases henabled : cfg.internalEnabled = true ∧ a.username ≠ [] ∧ a.secret ≠ []
  · rw [if_pos henabled]
    cases huser : a.users a.username with
    | none =>
      refine .inr (.inr ⟨henabled, fun h => ?_, rfl⟩)
      obtain ⟨-, user, hsome, -⟩ := h
      rw [huser] at hsome
      cases hsome
    | some user =>
      dsimp only
      by_cases hverify : env.verifyPassword a.secret user.password = true
      · rw [if_pos hverify]
        exact .inr (.inl ⟨henabled, ⟨henabled, user, huser, hverify⟩, _, rfl⟩)
      · rw [if_neg hverify]
        refine .inr (.inr ⟨henabled, fun h => ?_, rfl⟩)
        obtain ⟨-, user', hsome, hverify'⟩ := h
        rw [huser] at hsome
        cases hsome
        exact hverify hverify'
  · rw [if_neg henabled]
    exact .inl ⟨henabled, fun h => henabled h.1, _, rfl⟩

end Schemes

section Outcome

variable {cfg : Config} {env : Env} {s : State} {a : Attempt env}

/-- The answer of `basic_auth` and the failure queues afterwards, by what the schemes say. -/
theorem basicAuth_spec (cfg : Config) (s : State) (a : Attempt env) :
    ((a.basicAuth cfg s).1, (a.next cfg s).failures) =
      match a.byApikey cfg s with
      | .error e => (.error e, s.failures)
      | .ok v =>
        if a.Locked cfg s then (.error (.authentication (lockedMessage cfg)), s.failures)
        else
          match v with
          | some v => (.ok v, s.failures)
          | none =>
            match a.byUserpass cfg with
            | .error e => (.error e, s.failures)
            | .ok (some v) => (.ok v, s.failures)
            | .ok none =>
              (.error (.authentication "Invalid login information".toList),
                Function.update s.failures a.queue (s.failures a.queue ++ [a.request])) := by
  have hsplit := @splitPair_append a.username a.secret a.noColon
  have hfailures := (validateApikey_cases cfg s a).1
  unfold Attempt.next Attempt.basicAuth Auth.basicAuth Attempt.byApikey
  rw [a.decoded]
  dsimp only
  rw [hsplit]
  dsimp only
  rw [if_neg (by simp)]
  rcases hcall : validateApikey cfg env a.users a.now s a.username a.secret none with ⟨r, s'⟩
  rw [hcall] at hfailures
  cases r with
  | error e => exact congrArg (Prod.mk _) hfailures
  | ok v =>
    change ((checkFailures cfg env a.users a.request s' a.username a.secret v false).1,
      (checkFailures cfg env a.users a.request s' a.username a.secret v false).2.failures) = _
    dsimp only at hfailures
    unfold checkFailures
    dsimp only
    rw [hfailures]
    by_cases hlocked : a.Locked cfg s
    · have hmax : cfg.maxFailures ≤ (s.failures (failureQueue a.username)).length := hlocked
      simp only [if_pos hmax, if_pos hlocked, hfailures]
    · have hmax : ¬ cfg.maxFailures ≤ (s.failures (failureQueue a.username)).length := hlocked
      simp only [if_neg hmax, if_neg hlocked]
      cases v with
      | some v => simp only [hfailures]
      | none =>
        rw [if_neg (by simp), Attempt.byUserpass]
        rcases validateUserpass cfg env a.users a.username a.secret with e | v | v
        · simp only [hfailures]
        · rfl
        · simp only [hfailures]

theorem accepted_iff {r : Except AuthError (Option (User × List Acl))} :
    accepted r = true ↔ ∃ v, r = .ok (some v) := by
  rcases r with e | - | v <;> simp [accepted]

theorem accepted_byApikey : accepted (a.byApikey cfg s) = true ↔ a.KeyMatches cfg s := by
  rw [accepted_iff]
  rcases (validateApikey_cases cfg s a).2 with ⟨hreadable, e, he⟩ | ⟨-, hmatch, hv⟩ |
    ⟨-, hmatch, hnone⟩
  · exact iff_of_false (by rw [he]; simp) fun h => hreadable h.readable
  · exact iff_of_true hv hmatch
  · exact iff_of_false (by rw [hnone]; simp) hmatch

theorem accepted_byUserpass : accepted (a.byUserpass cfg) = true ↔ a.PasswordMatches cfg := by
  rw [accepted_iff]
  rcases validateUserpass_cases cfg a with ⟨-, hmatch, e, he⟩ | ⟨-, hmatch, hv⟩ | ⟨-, hmatch, hnone⟩
  · exact iff_of_false (by rw [he]; simp) hmatch
  · exact iff_of_true hv hmatch
  · exact iff_of_false (by rw [hnone]; simp) hmatch

theorem comparedKey_iff : a.comparedKey cfg = true ↔ cfg.allowApikeys = true ∧
    ∃ user name password key, a.UsableKey user name password key := by
  unfold Attempt.comparedKey
  rcases keyToCompare_cases cfg a with ⟨hreadable, e, he⟩ | ⟨-, hno, hnone⟩ |
    ⟨hreadable, user, name, password, key, husable, hsome⟩
  · rw [he]
    refine iff_of_false (by simp) fun h => hreadable ?_
    obtain ⟨hallow, user, name, password, key, husable⟩ := h
    exact husable.readable hallow
  · rw [hnone]
    refine iff_of_false (by simp) fun h => ?_
    obtain ⟨-, user, name, password, key, husable⟩ := h
    exact hno user name password key husable
  · rw [hsome]
    exact iff_of_true rfl ⟨hreadable.1.1, user, name, password, key, husable⟩

/-- With a locked account nothing succeeds and nothing is recorded. -/
theorem sound_of_locked (hlocked : a.Locked cfg s) : a.Sound cfg s ↔ a.Fits cfg s := by
  have hspec := basicAuth_spec cfg s a
  have herror : ∃ e, (a.basicAuth cfg s).1 = .error e := by
    cases hkey : a.byApikey cfg s with
    | error e =>
      rw [hkey] at hspec
      exact ⟨e, congrArg Prod.fst hspec⟩
    | ok v =>
      simp only [hkey, if_pos hlocked] at hspec
      exact ⟨_, congrArg Prod.fst hspec⟩
  obtain ⟨e, he⟩ := herror
  constructor
  · intro hsound
    refine ⟨fun _ user name password key hallow husable => ?_, fun h => absurd hlocked h⟩
    by_contra hno
    rw [not_or, ← accepted_byApikey, ← accepted_byUserpass, Bool.not_eq_true, Bool.not_eq_true]
      at hno
    have hcompared : a.comparedKey cfg = true :=
      comparedKey_iff.mpr ⟨hallow, user, name, password, key, husable⟩
    refine hsound.unlocked ?_ hlocked
    rw [Attempt.wrongSecret, hno.1, hno.2, hcompared]
    rfl
  · intro hfits
    refine ⟨iff_of_false (by rw [he]; simp) fun h => h.1 hlocked, fun h => absurd hlocked h,
      fun hwrong => ?_⟩
    simp only [Attempt.wrongSecret, Attempt.comparedPassword, hlocked, decide_true, Bool.not_true,
      Bool.false_and, Bool.or_false, Bool.and_eq_true, Bool.not_eq_true'] at hwrong
    obtain ⟨⟨hkey, hpassword⟩, hcompared⟩ := hwrong
    obtain ⟨hallow, user, name, password, key, husable⟩ := comparedKey_iff.mp hcompared
    rcases hfits.1 hlocked user name password key hallow husable with h | h
    · rw [accepted_byApikey.mpr h] at hkey
      cases hkey
    · rw [accepted_byUserpass.mpr h] at hpassword
      cases hpassword

/-- An attempt that is refused and not recorded is not sound. -/
theorem not_sound_of_unrecorded (hlocked : ¬ a.Locked cfg s) {e : AuthError}
    (hspec : ((a.basicAuth cfg s).1, (a.next cfg s).failures) = (.error e, s.failures))
    (hkey : accepted (a.byApikey cfg s) = false) : ¬ a.Sound cfg s := by
  intro hsound
  obtain ⟨hresult, hfailures⟩ := Prod.mk.inj hspec
  cases hpassword : accepted (a.byUserpass cfg) with
  | true =>
    have hinternal : cfg.internalEnabled = true := (accepted_byUserpass.mp hpassword).1.1
    obtain ⟨v, hv⟩ := hsound.succeeds.mpr ⟨hlocked, .inr ⟨hinternal, hpassword⟩⟩
    rw [hresult] at hv
    cases hv
  | false =>
    have hqueue := congrFun (hfailures.symm.trans (hsound.recorded hlocked hkey hpassword)) a.queue
    rw [Function.update_self] at hqueue
    simp at hqueue

/-- Without a lock the schemes have to say yes or no, and not to raise. -/
theorem sound_of_unlocked (hlocked : ¬ a.Locked cfg s) : a.Sound cfg s ↔ a.Fits cfg s := by
  have hspec := basicAuth_spec cfg s a
  rcases (validateApikey_cases cfg s a).2 with ⟨hreadable, e, he⟩ | ⟨hreadable, hmatch, v, hv⟩ |
    ⟨hreadable, hmatch, hnone⟩
  · rw [he] at hspec
    have hkey : accepted (a.byApikey cfg s) = false := by rw [he]; rfl
    exact iff_of_false (not_sound_of_unrecorded hlocked hspec hkey)
      fun h => hreadable (h.2 hlocked).1
  · rw [hv] at hspec
    simp only [if_neg hlocked] at hspec
    obtain ⟨hresult, -⟩ := Prod.mk.inj hspec
    have hkey : accepted (a.byApikey cfg s) = true := by rw [hv]; rfl
    refine iff_of_true ⟨iff_of_true ⟨v, hresult⟩ ⟨hlocked, .inl ⟨hreadable.1.1, hkey⟩⟩,
      fun _ hno _ => ?_, fun _ => hlocked⟩
      ⟨fun h => absurd h hlocked, fun _ => ⟨hreadable, .inl hmatch⟩⟩
    rw [hkey] at hno
    cases hno
  · rw [hnone] at hspec
    simp only [if_neg hlocked] at hspec
    have hkey : accepted (a.byApikey cfg s) = false := by rw [hnone]; rfl
    rcases validateUserpass_cases cfg a with ⟨hdisabled, hno, e, he⟩ | ⟨henabled, hyes, v, hv⟩ |
      ⟨henabled, hno, hnothing⟩
    · rw [he] at hspec
      refine iff_of_false (not_sound_of_unrecorded hlocked hspec hkey) fun h => ?_
      rcases (h.2 hlocked).2 with hmatches | ⟨hinternal, husername⟩
      · exact hmatch hmatches
      · exact hdisabled ⟨hinternal, husername, hreadable.1.2⟩
    · rw [hv] at hspec
      obtain ⟨hresult, -⟩ := Prod.mk.inj hspec
      have hpassword : accepted (a.byUserpass cfg) = true := by rw [hv]; rfl
      refine iff_of_true ⟨iff_of_true ⟨v, hresult⟩ ⟨hlocked, .inr ⟨henabled.1, hpassword⟩⟩,
        fun _ _ hnot => ?_, fun _ => hlocked⟩
        ⟨fun h => absurd h hlocked, fun _ => ⟨hreadable, .inr ⟨henabled.1, henabled.2.1⟩⟩⟩
      rw [hpassword] at hnot
      cases hnot
    · rw [hnothing] at hspec
      obtain ⟨hresult, hfailures⟩ := Prod.mk.inj hspec
      have hpassword : accepted (a.byUserpass cfg) = false := by rw [hnothing]; rfl
      refine iff_of_true ⟨iff_of_false (by rw [hresult]; simp) fun h => ?_,
        fun _ _ _ => hfailures, fun _ => hlocked⟩
        ⟨fun h => absurd h hlocked, fun _ => ⟨hreadable, .inr ⟨henabled.1, henabled.2.1⟩⟩⟩
      rcases h.2 with ⟨-, h⟩ | ⟨-, h⟩
      · rw [hkey] at h
        cases h
      · rw [hpassword] at h
        cases h

theorem sound_iff (cfg : Config) (s : State) (a : Attempt env) : a.Sound cfg s ↔ a.Fits cfg s := by
  by_cases hlocked : a.Locked cfg s
  · exact sound_of_locked hlocked
  · exact sound_of_unlocked hlocked

end Outcome

section Window

variable (cfg : Config) {env : Env}

def attemptNext (s : State) (a : Attempt env) : State := a.next cfg s

/-- How many attempts with a username have a wrong secret that is compared. -/
def wrongSecrets (username : Str) (s : State) : List (Attempt env) → ℕ
  | [] => 0
  | a :: attempts =>
    (if a.username = username ∧ a.wrongSecret cfg s = true then 1 else 0) +
      wrongSecrets username (attemptNext cfg s a) attempts

variable {cfg}

/-- A queue does not get shorter. -/
theorem length_failures_le (s : State) (a : Attempt env) (queue : Str) :
    (s.failures queue).length ≤ ((a.next cfg s).failures queue).length := by
  have hspec := congrArg Prod.snd (basicAuth_spec cfg s a)
  have hupdate : (s.failures queue).length ≤ (Function.update s.failures a.queue
      (s.failures a.queue ++ [a.request]) queue).length := by
    by_cases h : queue = a.queue
    · rw [h, Function.update_self, List.length_append]
      omega
    · rw [Function.update_of_ne h]
  dsimp only at hspec
  rw [hspec]
  rcases a.byApikey cfg s with e | v
  · exact le_refl _
  · dsimp only
    by_cases hlocked : a.Locked cfg s
    · rw [if_pos hlocked]
    · rw [if_neg hlocked]
      rcases v with - | v
      · rcases a.byUserpass cfg with e | - | v
        · exact le_refl _
        · exact hupdate
        · exact le_refl _
      · exact le_refl _

/-- A sound attempt with a wrong secret fills a place of the queue. -/
theorem Attempt.Sound.fills {s : State} {a : Attempt env} (h : a.Sound cfg s)
    (hwrong : a.wrongSecret cfg s = true) : ((s.failures a.queue).length : ℤ) < cfg.maxFailures ∧
      ((a.next cfg s).failures a.queue).length = (s.failures a.queue).length + 1 := by
  have hlocked := h.unlocked hwrong
  simp only [Attempt.wrongSecret, Bool.and_eq_true, Bool.not_eq_true'] at hwrong
  have hrecorded := h.recorded hlocked hwrong.1.1 hwrong.1.2
  rw [hrecorded, Function.update_self, List.length_append]
  exact ⟨not_le.mp hlocked, rfl⟩

/-- While the failures of an account are kept, the wrong secrets that are compared for it are no
more than the failures that are left. -/
theorem wrongSecrets_le (username : Str) {s : State} {attempts : List (Attempt env)}
    (h : Along (attemptNext cfg) (fun s a => a.Sound cfg s) s attempts) :
    wrongSecrets cfg username s attempts ≤
      (cfg.maxFailures - (s.failures (failureQueue username)).length).toNat := by
  induction attempts generalizing s with
  | nil => exact Nat.zero_le _
  | cons a attempts ih =>
    have htail := ih h.2
    have hgrows := @length_failures_le cfg env s a (failureQueue username)
    rw [wrongSecrets]
    by_cases hwrong : a.username = username ∧ a.wrongSecret cfg s = true
    · obtain ⟨rfl, hwrong⟩ := hwrong
      obtain ⟨hleft, hlength⟩ := Attempt.Sound.fills h.1 hwrong
      have hqueue : a.queue = failureQueue a.username := rfl
      rw [hqueue] at hleft hlength
      rw [if_pos ⟨rfl, hwrong⟩]
      simp only [attemptNext, hlength] at htail ⊢
      omega
    · rw [if_neg hwrong]
      simp only [attemptNext] at htail ⊢
      omega

end Window

/-- `basic_auth` is sound exactly where the secret can be read for the scheme of API keys and the
scheme of passwords is there for the others, and while the account is locked, where no wrong secret
has the name of an API key. With such attempts, the wrong secrets that are compared while the
failures are kept are no more than allowed. -/
theorem basicAuth_iff (cfg : Config) (env : Env) :
    (∀ (s : State) (a : Attempt env), a.Sound cfg s ↔ a.Fits cfg s) ∧
      ∀ (username : Str) (s : State) (attempts : List (Attempt env)),
        Along (attemptNext cfg) (fun s a => a.Fits cfg s) s attempts →
        wrongSecrets cfg username s attempts ≤
          (cfg.maxFailures - (s.failures (failureQueue username)).length).toNat := by
  refine ⟨sound_iff cfg, fun username s attempts h => wrongSecrets_le username ?_⟩
  simp only [sound_iff]
  exact h

/-- Checks of one password, for which there is one hash. -/
def envOf (password hash : Str) : Env where
  verifyPassword p h := p = password && h = hash
  digest s := s
  decodeB64 _ := .error (.invalidData [])

/-- A login from one address. -/
def loginOf (env : Env) (user : User) (secret : Str) (h : ':' ∉ user.uname) : Attempt env where
  users uname := if uname = user.uname then some user else none
  now := 0
  request := { remoteAddr := "10.0.0.7".toList, host := "howler".toList,
               fullPath := "/api/v1/auth/login/?".toList }
  data := user.uname ++ ':' :: secret
  isBase64 := false
  username := user.uname
  secret := secret
  noColon := h
  decoded := rfl

def admin : User where
  uname := "admin".toList
  password := "$2b$12$VKqJSNrWKnYdkVlBDUoKYeW4jBmXEqrNLIKZLCJaoEKGvPgJQyhGi".toList

/-- Two wrong passwords are compared. -/
theorem basicAuth_iff_admin :
    wrongSecrets {} "admin".toList {}
      [loginOf (envOf "Winter2024".toList admin.password) admin "winter".toList (by decide),
        loginOf (envOf "Winter2024".toList admin.password) admin "summer".toList (by decide)] ≤
      5 := by
  have hfits (s : State) (secret : Str) (hsplit : splitPair secret = none) (hne : secret ≠ []) :
      (loginOf (envOf "Winter2024".toList admin.password) admin secret (by decide)).Fits {} s := by
    refine ⟨fun _ user name password key _ h => ?_, fun _ => ⟨⟨⟨rfl, hne⟩, ?_⟩, .inr ⟨rfl, ?_⟩⟩⟩
    · exact absurd (hsplit.symm.trans h.2.1) (by simp)
    · intro user name password _ h
      exact absurd (hsplit.symm.trans h) (by simp)
    · change admin.uname ≠ []
      decide
  exact (basicAuth_iff {} _).2 _ {} _
    ⟨hfits _ _ (by decide) (by decide), hfits _ _ (by decide) (by decide), trivial⟩

/-- The right password is refused when it has a colon. -/
theorem basicAuth_refuses : ¬ (loginOf (envOf "Winter:2024".toList admin.password) admin
    "Winter:2024".toList (by decide)).Sound {} {} := by
  intro h
  obtain ⟨v, hv⟩ := h.succeeds.mpr ⟨by decide, .inr ⟨rfl, by decide +kernel⟩⟩
  have herror : ((loginOf (envOf "Winter:2024".toList admin.password) admin
      "Winter:2024".toList (by decide)).basicAuth {} {}).1 =
      .error (.authentication "API Key does not exist".toList) := by rfl
  rw [herror] at hv
  cases hv

end Howler.Auth
