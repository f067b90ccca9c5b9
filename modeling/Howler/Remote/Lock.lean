import Mathlib.Algebra.Group.Int.Defs
import Howler.Python.Text
import Howler.Systems.Expiring
import Howler.Systems.Runs

namespace Howler.Remote

open Python Systems

/-- The values of a Redis server that locks use. -/
inductive Value where
  | string (s : Str)
  | list (items : List Str)
  deriving DecidableEq

abbrev Redis := Keyspace Str Value

inductive ResponseError where
  | wrongType
  | notAnInteger
  | invalidExpireTime
  deriving DecidableEq

namespace Redis

def natText : Str → Option ℕ
  | ['0'] => some 0
  | c :: s =>
    if '1' ≤ c ∧ c ≤ '9' ∧ s.all (fun d => '0' ≤ d && d ≤ '9') then
      some ((c :: s).foldl (fun n d => n * 10 + (d.toNat - '0'.toNat)) 0)
    else none
  | [] => none

/-- The integers that Redis reads: no sign but a minus, no zeros in front, 64 bits. -/
def integer (s : Str) : Option ℤ :=
  let n : Option ℤ :=
    match s with
    | '-' :: s => ((natText s).filter (0 < ·)).map fun n => -(n : ℤ)
    | s => (natText s).map fun n => (n : ℤ)
  n.filter fun n => -2 ^ 63 ≤ n && n < 2 ^ 63

/-- `EXPIRE key seconds`. Times are in milliseconds. -/
def expire (redis : Redis) (now : ℤ) (key seconds : Str) : Except ResponseError Unit × Redis :=
  match integer seconds with
  | none => (.error .notAnInteger, redis)
  | some n =>
    if n * 1000 < -2 ^ 63 ∨ 2 ^ 63 ≤ n * 1000 ∨ 2 ^ 63 ≤ n * 1000 + now then
      (.error .invalidExpireTime, redis)
    else (.ok (), redis.expireAt now key (now + n * 1000))

/-- `RPUSH key item`. -/
def rpush (redis : Redis) (now : ℤ) (key item : Str) : Except ResponseError Unit × Redis :=
  match redis.lookup now key with
  | some (.string _) => (.error .wrongType, redis)
  | some (.list items) =>
    (.ok (), redis.put key { value := .list (items ++ [item])
                             deadline := (redis key).bind Entry.deadline })
  | none => (.ok (), redis.put key { value := .list [item] })

/-- `BLPOP key`, which takes an item off when there is one. -/
def blpop (redis : Redis) (now : ℤ) (key : Str) : Redis :=
  match redis.lookup now key with
  | some (.list (_ :: items)) =>
    if items = [] then redis.del key
    else redis.put key { value := .list items, deadline := (redis key).bind Entry.deadline }
  | _ => redis

variable {redis : Redis} {now : ℤ} {key k : Str}

theorem expire_other (seconds : Str) (h : k ≠ key) : (redis.expire now key seconds).2 k = redis k := by
  unfold expire
  split
  · rfl
  · split
    · rfl
    · exact Keyspace.expireAt_other _ h

theorem rpush_other (item : Str) (h : k ≠ key) : (redis.rpush now key item).2 k = redis k := by
  unfold rpush
  split
  · rfl
  · exact Keyspace.put_other _ h
  · exact Keyspace.put_other _ h

theorem blpop_other (h : k ≠ key) : redis.blpop now key k = redis k := by
  unfold blpop
  rcases redis.lookup now key with - | v
  · rfl
  · rcases v with v | - | ⟨item, items⟩
    · rfl
    · rfl
    · dsimp only
      split
      · exact Keyspace.del_other h
      · exact Keyspace.put_other _ h

end Redis

/-- A lock of one holder; the timeout is the text of what it was made with. -/
structure Lock where
  uuid : Str
  name : Str
  timeout : Str

namespace Lock

variable (lock : Lock)

def lockRelease : Str :=
  join "-".toList ["lock".toList, lock.timeout, lock.name, "released".toList]

def lockHolder : Str :=
  join "-".toList ["lock".toList, lock.timeout, lock.name, "holder".toList]

/-- `lock_acquire_script`. -/
def acquire (now : ℤ) (redis : Redis) : Except ResponseError Bool × Redis :=
  match redis.setnx now lock.lockHolder (.string lock.uuid) with
  | (true, redis) =>
    match Redis.expire redis now lock.lockHolder lock.timeout with
    | (.error e, redis) => (.error e, redis)
    | (.ok (), redis) => (.ok true, redis)
  | (false, redis) => (.ok false, redis)

/-- `lock_release_script`. -/
def release (now : ℤ) (redis : Redis) : Except ResponseError Unit × Redis :=
  match redis.lookup now lock.lockHolder with
  | some (.list _) => (.error .wrongType, redis)
  | some (.string v) =>
    if v = lock.uuid then
      match Redis.rpush (redis.del lock.lockHolder) now lock.lockRelease lock.uuid with
      | (.error e, redis) => (.error e, redis)
      | (.ok (), redis) => Redis.expire redis now lock.lockRelease "1".toList
    else (.ok (), redis)
  | none => (.ok (), redis)

variable {lock} {now : ℤ} {redis : Redis} {k : Str}

theorem lockHolder_ne_lockRelease (lock lock' : Lock) : lock.lockHolder ≠ lock'.lockRelease := by
  have hholder (l : Lock) : l.lockHolder.getLast? = some 'r' := by
    have hend : l.lockHolder =
        ("lock-".toList ++ l.timeout ++ "-".toList ++ l.name ++ "-holde".toList) ++ ['r'] := by
      simp [lockHolder, join, List.intercalate]
    rw [hend, List.getLast?_concat]
  have hrelease (l : Lock) : l.lockRelease.getLast? = some 'd' := by
    have hend : l.lockRelease =
        ("lock-".toList ++ l.timeout ++ "-".toList ++ l.name ++ "-release".toList) ++ ['d'] := by
      simp [lockRelease, join, List.intercalate]
    rw [hend, List.getLast?_concat]
  intro h
  have hlast := hholder lock
  rw [h, hrelease] at hlast
  simp at hlast

/-- A key that is no lock's own, or that has a value, is left by an acquire. -/
theorem acquire_keeps (h : k ≠ lock.lockHolder ∨ (redis.lookup now k).isSome) :
    (lock.acquire now redis).2 k = redis k := by
  by_cases hk : k = lock.lockHolder
  · obtain ⟨v, hv⟩ := Option.isSome_iff_exists.mp (h.resolve_left fun hne => hne hk)
    rw [acquire, Keyspace.setnx_of_some (hk ▸ hv)]
  · have hset := @Keyspace.setnx_other _ _ _ redis now _ _ (.string lock.uuid) hk
    unfold acquire
    rcases hsetnx : redis.setnx now lock.lockHolder (.string lock.uuid) with ⟨b, redis'⟩
    rw [hsetnx] at hset
    cases b with
    | false => exact hset
    | true =>
      have hexpire := @Redis.expire_other redis' now _ _ lock.timeout hk
      rcases hcall : Redis.expire redis' now lock.lockHolder lock.timeout with ⟨r, redis''⟩
      rw [hcall] at hexpire
      have hkeeps := hexpire.trans hset
      cases r with
      | error e => simpa only [hcall] using hkeeps
      | ok => simpa only [hcall] using hkeeps

/-- A lock that was acquired has its key up to the end of the timeout. -/
theorem acquire_true (h : (lock.acquire now redis).1 = .ok true) {n : ℤ}
    (hn : Redis.integer lock.timeout = some n) (hpos : 0 < n) :
    (lock.acquire now redis).2 lock.lockHolder =
      some { value := .string lock.uuid, deadline := some (now + n * 1000) } := by
  cases hlookup : redis.lookup now lock.lockHolder with
  | some v =>
    rw [acquire, Keyspace.setnx_of_some hlookup] at h
    cases h
  | none =>
    rw [acquire, Keyspace.setnx_of_none hlookup] at h ⊢
    dsimp only at h ⊢
    rw [Redis.expire, hn] at h ⊢
    dsimp only at h ⊢
    split_ifs at h with hrange
    rw [if_neg hrange]
    exact Keyspace.expireAt_put (by omega)

/-- A release leaves the keys that have another holder's text. -/
theorem release_keeps {v : Str} (hk : k ≠ lock.lockRelease)
    (hv : redis.lookup now k = some (.string v)) (hne : v ≠ lock.uuid) :
    (lock.release now redis).2 k = redis k := by
  unfold release
  rcases hlookup : redis.lookup now lock.lockHolder with - | v' | items
  · rfl
  · dsimp only
    by_cases huuid : v' = lock.uuid
    · have hother : k ≠ lock.lockHolder := by
        rintro rfl
        rw [hlookup] at hv
        cases hv
        exact hne huuid
      have hdel := @Keyspace.del_other _ _ _ redis _ _ hother
      have hpush := @Redis.rpush_other (redis.del lock.lockHolder) now _ _ lock.uuid hk
      rw [if_pos huuid]
      rcases hcall : Redis.rpush (redis.del lock.lockHolder) now lock.lockRelease lock.uuid with
        ⟨r, redis'⟩
      rw [hcall] at hpush
      cases r with
      | error e => exact hpush.trans hdel
      | ok => exact (Redis.expire_other _ hk).trans (hpush.trans hdel)
    · rw [if_neg huuid]
  · rfl

section Clients

variable {ι : Type} [DecidableEq ι]

/-- A server and its clients, each with the moment of its last acquire that it has not released. -/
structure Clients (ι : Type) where
  now : ℤ
  redis : Redis
  acquired : ι → Option ℤ := fun _ => none

/-- What happens next: time passes, or a script or a command of a client is run. -/
inductive Event (ι : Type) where
  | elapse (time : ℕ)
  | acquire (i : ι)
  | release (i : ι)
  | wait (i : ι)

variable (lock : ι → Lock)

def step (s : Clients ι) : Event ι → Clients ι
  | .elapse time => { s with now := s.now + time }
  | .acquire i =>
    match (lock i).acquire s.now s.redis with
    | (.ok true, redis) =>
      { s with redis := redis, acquired := Function.update s.acquired i (some s.now) }
    | (_, redis) => { s with redis := redis }
  | .release i =>
    { s with redis := ((lock i).release s.now s.redis).2
             acquired := Function.update s.acquired i none }
  | .wait i => { s with redis := s.redis.blpop s.now (lock i).lockRelease }

/-- A client acquired its lock, has not released it, and the timeout has not elapsed. -/
def Holds (s : Clients ι) (i : ι) : Prop :=
  ∃ t n, s.acquired i = some t ∧ Redis.integer (lock i).timeout = some n ∧ s.now < t + n * 1000

/-- The key of a lock that is held has the text of its holder, up to the end of the timeout. -/
def KeysHeld (s : Clients ι) : Prop :=
  ∀ i t n, s.acquired i = some t → Redis.integer (lock i).timeout = some n →
    s.now < t + n * 1000 →
    s.redis (lock i).lockHolder =
      some { value := .string (lock i).uuid, deadline := some (t + n * 1000) }

variable {lock} {s : Clients ι}

omit [DecidableEq ι] in
theorem KeysHeld.lookup (h : KeysHeld lock s) {i : ι} (hi : Holds lock s i) :
    s.redis.lookup s.now (lock i).lockHolder = some (.string (lock i).uuid) := by
  obtain ⟨t, n, ht, hn, hnow⟩ := hi
  have hlive : Entry.Live s.now
      { value := Value.string (lock i).uuid, deadline := some (t + n * 1000) } := by
    intro d hd
    cases hd
    omega
  exact Keyspace.lookup_of_entry (h i t n ht hn hnow) hlive

omit [DecidableEq ι] in
/-- Of the clients with one key, one holds the lock. -/
theorem KeysHeld.unique (hinj : Function.Injective fun i => (lock i).uuid) (h : KeysHeld lock s)
    {i j : ι} (hkey : (lock i).lockHolder = (lock j).lockHolder) (hi : Holds lock s i)
    (hj : Holds lock s j) : i = j := by
  have hlook := h.lookup hi
  rw [hkey, h.lookup hj] at hlook
  simp only [Option.some.injEq, Value.string.injEq] at hlook
  exact (hinj hlook).symm

theorem keysHeld_elapse (h : KeysHeld lock s) (time : ℕ) :
    KeysHeld lock (step lock s (.elapse time)) := by
  intro i t n ht hn hnow
  simp only [step] at hnow
  exact h i t n ht hn (by omega)

theorem keysHeld_acquire (h : KeysHeld lock s) (i : ι) :
    KeysHeld lock (step lock s (.acquire i)) := by
  have hkeeps (j : ι) (hj : Holds lock s j) :
      ((lock i).acquire s.now s.redis).2 (lock j).lockHolder = s.redis (lock j).lockHolder :=
    acquire_keeps (.inr (by rw [h.lookup hj]; rfl))
  have htrue := @acquire_true (lock i) s.now s.redis
  intro j t n ht hn hnow
  unfold step at ht hnow ⊢
  dsimp only at ht hnow ⊢
  rcases hcall : (lock i).acquire s.now s.redis with ⟨r, redis⟩
  simp only [hcall] at hkeeps htrue ht hnow ⊢
  -- where the script did not answer true, nobody has a new lock
  have hold (ht : s.acquired j = some t) (hnow : s.now < t + n * 1000) :
      redis (lock j).lockHolder =
        some { value := .string (lock j).uuid, deadline := some (t + n * 1000) } :=
    (hkeeps j ⟨t, n, ht, hn, hnow⟩).trans (h j t n ht hn hnow)
  rcases r with e | b
  · exact hold ht hnow
  · cases b with
    | false => exact hold ht hnow
    | true =>
      dsimp only at ht hnow ⊢
      by_cases hji : j = i
      · subst hji
        rw [Function.update_self] at ht
        cases ht
        exact htrue rfl hn (by omega)
      · rw [Function.update_of_ne hji] at ht
        exact hold ht hnow

theorem keysHeld_release (hinj : Function.Injective fun i => (lock i).uuid)
    (h : KeysHeld lock s) (i : ι) : KeysHeld lock (step lock s (.release i)) := by
  intro j t n ht hn hnow
  simp only [step] at ht hnow ⊢
  by_cases hji : j = i
  · subst hji
    rw [Function.update_self] at ht
    cases ht
  · rw [Function.update_of_ne hji] at ht
    have hkeeps := @release_keeps (lock i) _ _ _ _
      (lockHolder_ne_lockRelease (lock j) (lock i)) (h.lookup ⟨t, n, ht, hn, hnow⟩)
      fun huuid => hji (hinj huuid)
    exact hkeeps.trans (h j t n ht hn hnow)

theorem keysHeld_wait (h : KeysHeld lock s) (i : ι) : KeysHeld lock (step lock s (.wait i)) := by
  intro j t n ht hn hnow
  have hkeeps := @Redis.blpop_other s.redis s.now _ _
    (lockHolder_ne_lockRelease (lock j) (lock i))
  exact hkeeps.trans (h j t n ht hn hnow)

theorem keysHeld_step (hinj : Function.Injective fun i => (lock i).uuid) (h : KeysHeld lock s)
    (e : Event ι) : KeysHeld lock (step lock s e) := by
  cases e with
  | elapse time => exact keysHeld_elapse h time
  | acquire i => exact keysHeld_acquire h i
  | release i => exact keysHeld_release hinj h i
  | wait i => exact keysHeld_wait h i

variable (lock) in
/-- A lock has one holder, which a release of a client without it does not free. -/
structure Exclusive (s : Clients ι) : Prop where
  unique : ∀ i j, (lock i).name = (lock j).name → (lock i).timeout = (lock j).timeout →
    Holds lock s i → Holds lock s j → i = j
  stale : ∀ i j, ¬ Holds lock s i → Holds lock s j →
    Holds lock (step lock s (.release i)) j ∧
      (step lock s (.release i)).redis.lookup s.now (lock j).lockHolder =
        some (.string (lock j).uuid)

theorem exclusive_of_keysHeld (hinj : Function.Injective fun i => (lock i).uuid)
    (h : KeysHeld lock s) : Exclusive lock s where
  unique i j hname htimeout hi hj := by
    have hkey : (lock i).lockHolder = (lock j).lockHolder := by
      rw [Lock.lockHolder, Lock.lockHolder, hname, htimeout]
    exact h.unique hinj hkey hi hj
  stale i j hi hj := by
    have hji : j ≠ i := by
      rintro rfl
      exact hi hj
    obtain ⟨t, n, ht, hn, hnow⟩ := hj
    have hj : Holds lock (step lock s (.release i)) j :=
      ⟨t, n, by simpa only [step, Function.update_of_ne hji] using ht, hn, hnow⟩
    exact ⟨hj, (keysHeld_release hinj h i).lookup hj⟩

/-- However the scripts of the clients, their waiting and the passing of time are ordered, no lock
has two holders, and no stale release frees a lock. -/
theorem exclusive_run (lock : ι → Lock) (hinj : Function.Injective fun i => (lock i).uuid)
    (now : ℤ) (redis : Redis) (events : List (Event ι)) :
    Exclusive lock (run (step lock) { now := now, redis := redis } events) := by
  have hinit : KeysHeld lock { now := now, redis := redis } := by
    intro i t n ht
    cases ht
  have hrun := inv_run (KeysHeld lock) (fun s e hs _ => keysHeld_step hinj hs e) hinit
    (along_true _ events)
  exact exclusive_of_keysHeld hinj hrun

end Clients

/-- Two clients of one lock with a timeout of ten seconds. -/
def pair (second : Bool) : Lock where
  uuid := if second then "7n42DGM5Tflk9n8mt7Fhc7".toList else "1C0Ml2uYlIQxLNqPNjMjyq".toList
  name := "test".toList
  timeout := "10".toList

/-- The first client releases a lock that expired and that the second one has acquired. -/
theorem exclusive_run_pair :
    Exclusive pair (run (step pair) { now := 0, redis := fun _ => none }
      [.acquire false, .acquire true, .wait true, .elapse 10001, .acquire true, .release false]) :=
  exclusive_run pair (by
    intro a b h
    cases a <;> cases b <;> first | rfl | exact absurd h (by decide)) 0 _ _

example : (run (step pair) { now := 0, redis := fun _ => none }
    [.acquire false, .acquire true, .wait true, .elapse 10001, .acquire true,
      .release false]).acquired true = some 10001 := by decide +kernel

end Lock

end Howler.Remote
