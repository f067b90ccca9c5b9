import Mathlib.Algebra.Order.Ring.Rat
import Mathlib.Data.Nat.Size
import Howler.Remote.Named
import Howler.Structures.SortedSet
import Howler.Systems.Runs

namespace Howler.Remote

open Python Structures Systems

/-- A sorted set of a server. Scores are doubles, which are integers where they come from integers. -/
abbrev Zset := SortedSet ℤ Str

/-- The nearest number with 53 binary digits, an even last digit where there are two. -/
def roundEven (n : ℕ) : ℕ :=
  let unit := 2 ^ (Nat.size n - 53)
  let q := n / unit
  let r := n % unit
  if unit < 2 * r ∨ unit = 2 * r ∧ q % 2 = 1 then (q + 1) * unit else q * unit

/-- The score that is read from the text of an integer, unless it is out of the range of doubles. -/
def double (n : ℤ) : Option ℤ :=
  let m := roundEven n.natAbs
  if m < 2 ^ 1024 then some (n.sign * m) else none

example : double (2 ^ 53 + 1) = some (2 ^ 53) := by decide +kernel

/-- What a call answers. -/
inductive Reply (T : Type) where
  | raised (e : QueueError)
  | raw (value : Str)
  | count (new : ℕ)
  | value (v : Option T)
  | list (vs : List (Option T))
  | named (r : Option (Str × T))
  deriving DecidableEq

variable {T : Type} (C : Codec T)

/-- A range of priorities; a limit that is no number is none. -/
structure Limits where
  lower : Option ℚ := none
  upper : Option ℚ := none

/-- The limits are inclusive. -/
def Limits.Contains (l : Limits) (priority : ℤ) : Prop :=
  (∀ x ∈ l.lower, x ≤ (priority : ℚ)) ∧ ∀ x ∈ l.upper, (priority : ℚ) ≤ x

instance (l : Limits) (priority : ℤ) : Decidable (l.Contains priority) :=
  inferInstanceAs (Decidable ((∀ x ∈ l.lower, x ≤ (priority : ℚ)) ∧
    ∀ x ∈ l.upper, (priority : ℚ) ≤ x))

/-- How many entries `LIMIT` lets through. -/
def limitCount (skip num : ℤ) (size : ℕ) : ℕ :=
  if skip < 0 then 0 else if num < 0 then size else num.toNat

section Taking

/-- `pop` and `unpush`, with what is popped and how a member is read. -/
def popWith (zpop : ℕ → List (ℤ ×ₗ Str) × Zset) (read : Str → Option T) (q : Zset)
    (num : Option ℤ) : Reply T × Zset :=
  match num with
  | some n =>
    if n ≤ 0 then (.list [], q)
    else (.list ((zpop n.toNat).1.map fun e => read (member e)), (zpop n.toNat).2)
  | none =>
    match zpop 1 with
    | ([], q) => (.value none, q)
    | (e :: _, q) => (.value (read (member e)), q)

/-- `dequeue_range`. The script fails for more entries than the stack of Lua holds. -/
def dequeueRangeWith (stack : ℕ) (read : Str → Option T) (q : Zset) (limits : Limits)
    (skip num : ℤ) : Reply T × Zset :=
  let entries := q.zrangebyscore (fun x => decide (limits.Contains (-x))) skip.toNat
    (limitCount skip num q.entries.length)
  if stack < entries.length then (.raised .responseError, q)
  else (.list (entries.map fun e => read (member e)), q.zrem (entries.map member))

end Taking

namespace PriorityQueue

def sortingKeyLen : ℕ := 21

/-- `f"{int(time.time() * 1000000):020}"`. -/
def stamp (now : ℕ) : Str := (Nat.toDigits 10 now).leftpad 20 '0'

def rawValue (vip : Bool) (now : ℕ) (data : T) : Str :=
  (if vip then '0' else '9') :: (stamp now ++ C.dumps data)

def push (q : Zset) (priority : ℤ) (data : T) (vip : Bool) (now : ℕ) : Reply T × Zset :=
  match double (-priority) with
  | none => (.raised .responseError, q)
  | some x => (.raw (rawValue C vip now data), q.zadd x (rawValue C vip now data))

/-- `decode(member[SORTING_KEY_LEN:])`. -/
def read (m : Str) : Option T := C.loads (m.drop sortingKeyLen)

def pop (q : Zset) (num : Option ℤ) : Reply T × Zset := popWith q.zpopmin (read C) q num

def unpush (q : Zset) (num : Option ℤ) : Reply T × Zset := popWith q.zpopmax (read C) q num

/-- What `blocking_pop` takes. -/
def bzpop (q : Zset) (lowPriority : Bool) : ℕ → List (ℤ ×ₗ Str) × Zset :=
  if lowPriority then q.zpopmax else q.zpopmin

/-- `blocking_pop`, which has no value when the time is up. -/
def blockingPop (q : Zset) (lowPriority : Bool) : Reply T × Zset :=
  match bzpop q lowPriority 1 with
  | ([], q) => (.value none, q)
  | (e :: _, q) => (.value (read C (member e)), q)

def dequeueRange (stack : ℕ) (q : Zset) (limits : Limits) (skip num : ℤ) : Reply T × Zset :=
  dequeueRangeWith stack (read C) q limits skip num

end PriorityQueue

namespace UniquePriorityQueue

def push (q : Zset) (priority : ℤ) (data : T) : Reply T × Zset :=
  match double (-priority) with
  | none => (.raised .responseError, q)
  | some x =>
    (.count (if C.dumps data ∈ q.entries.map member then 0 else 1), q.zadd x (C.dumps data))

def pop (q : Zset) (num : Option ℤ) : Reply T × Zset := popWith q.zpopmin C.loads q num

def unpush (q : Zset) (num : Option ℤ) : Reply T × Zset := popWith q.zpopmax C.loads q num

def dequeueRange (stack : ℕ) (q : Zset) (limits : Limits) (skip num : ℤ) : Reply T × Zset :=
  dequeueRangeWith stack C.loads q limits skip num

end UniquePriorityQueue

/-- The queues of a server by their names. -/
abbrev Queues := Str → Zset

/-- The first of some queues that has an entry. -/
def firstFilled (s : Queues) (qs : List Str) : Option Str :=
  qs.find? fun q => !(s q).entries.isEmpty

def select (s : Queues) (qs : List Str) : Reply T × Queues :=
  if qs = [] then (.raised .howlerTypeError, s)
  else
    match firstFilled s qs with
    | none => (.named none, s)
    | some q =>
      match (s q).zpopmin 1 with
      | ([], _) => (.named none, s)
      | (e :: _, rest) =>
        match PriorityQueue.read C (member e) with
        | some v => (.named (some (q, v)), Function.update s q rest)
        | none => (.raised .valueError, Function.update s q rest)

/-- A call of a client. -/
inductive Call (T : Type) where
  | push (q : Str) (priority : ℤ) (data : T) (vip : Bool) (now : ℕ)
  | pop (q : Str) (num : Option ℤ)
  | unpush (q : Str) (num : Option ℤ)
  | blockingPop (q : Str) (lowPriority : Bool)
  | dequeueRange (q : Str) (limits : Limits) (skip num : ℤ)
  | select (qs : List Str)

/-- Which queues are unique ones, and how many values the stack of Lua holds. -/
structure Setting where
  unique : Str → Bool
  stack : ℕ

variable (w : Setting)

/-- A call of one queue. -/
def on (s : Queues) (q : Str) (r : Reply T × Zset) : Reply T × Queues :=
  (r.1, Function.update s q r.2)

/-- A call and its answer. `blocking_pop` and `select` are the same for both classes. -/
def call (s : Queues) : Call T → Reply T × Queues
  | .push q priority data vip now =>
    on s q (if w.unique q then UniquePriorityQueue.push C (s q) priority data
      else PriorityQueue.push C (s q) priority data vip now)
  | .pop q num =>
    on s q (if w.unique q then UniquePriorityQueue.pop C (s q) num else PriorityQueue.pop C (s q) num)
  | .unpush q num =>
    on s q (if w.unique q then UniquePriorityQueue.unpush C (s q) num
      else PriorityQueue.unpush C (s q) num)
  | .blockingPop q lowPriority => on s q (PriorityQueue.blockingPop C (s q) lowPriority)
  | .dequeueRange q limits skip num =>
    on s q (if w.unique q then UniquePriorityQueue.dequeueRange C w.stack (s q) limits skip num
      else PriorityQueue.dequeueRange C w.stack (s q) limits skip num)
  | .select qs => select C s qs

def next (s : Queues) (c : Call T) : Queues := (call C w s c).2

/-- The calls with their answers. -/
def trace (s : Queues) : List (Call T) → List (Call T × Reply T)
  | [] => []
  | c :: cs => (c, (call C w s c).1) :: trace (next C w s c) cs

section Purpose

/-- What a queue holds: values with their priorities. -/
abbrev Content (T : Type) := Multiset (ℤ × Option T)

/-- Of the values in a range, put in order of their priorities, some are passed over and the next
ones are given. -/
def Gives (better : ℤ → ℤ → Prop) (inRange : ℤ → Prop) (skip n : ℕ) (a : Content T)
    (values : List (Option T)) (rest : Content T) : Prop :=
  ∃ taken, Picks (fun x y => better x.1 y.1) (fun x => inRange x.1) skip n a taken rest ∧
    values = taken.map Prod.snd

/-- One value, or a number of them, best first. -/
def GivesBest (better : ℤ → ℤ → Prop) (a : Content T) : Option ℤ → Reply T → Content T → Prop
  | some n, r, rest => ∃ values, Gives better (fun _ => True) 0 n.toNat a values rest ∧
      r = .list values
  | none, r, rest => (a = 0 ∧ rest = 0 ∧ r = .value none) ∨
      ∃ v, Gives better (fun _ => True) 0 1 a [v] rest ∧ r = .value v

/-- The other queues stay. -/
def Within (q : Str) (a a' : Str → Content T) (serves : Content T → Content T → Prop) : Prop :=
  ∃ rest, serves (a q) rest ∧ a' = Function.update a q rest

/-- What a call is to do with the contents of the queues, and to answer. A unique queue holds a
value once, with its last priority. -/
def Lawful [DecidableEq T] (w : Setting) (a : Str → Content T) :
    Call T → Reply T → (Str → Content T) → Prop
  | .push q priority data _ _, r, a' => (∀ e, r ≠ .raised e) ∧
      Within q a a' fun present rest => rest = (priority, some data) ::ₘ
        if w.unique q then present.filter (fun x => x.2 ≠ some data) else present
  | .pop q num, r, a' => Within q a a' fun present rest => GivesBest (· ≥ ·) present num r rest
  | .unpush q num, r, a' => Within q a a' fun present rest => GivesBest (· ≤ ·) present num r rest
  | .blockingPop q lowPriority, r, a' => Within q a a' fun present rest =>
      GivesBest (if lowPriority then (· ≤ ·) else (· ≥ ·)) present none r rest
  | .dequeueRange q limits skip num, r, a' => ∃ values rest,
      Gives (· ≥ ·) limits.Contains skip.toNat (limitCount skip num (Multiset.card (a q))) (a q)
        values rest ∧
      if w.stack < values.length then r = .raised .responseError ∧ a' = a
      else r = .list values ∧ a' = Function.update a q rest
  | .select qs, r, a' =>
      (qs = [] ∧ r = .raised .howlerTypeError ∧ a' = a) ∨
      (qs ≠ [] ∧ (∀ q ∈ qs, a q = 0) ∧ r = .named none ∧ a' = a) ∨
      ∃ before q after v, qs = before ++ q :: after ∧ (∀ q' ∈ before, a q' = 0) ∧
        r = .named (some (q, v)) ∧
        Within q a a' fun present rest => Gives (· ≥ ·) (fun _ => True) 0 1 present [some v] rest

/-- Calls one after the other. -/
def LawfulRun [DecidableEq T] (w : Setting) (a : Str → Content T) :
    List (Call T × Reply T) → (Str → Content T) → Prop
  | [], a' => a' = a
  | (c, r) :: rest, a' => ∃ a₁, Lawful w a c r a₁ ∧ LawfulRun w a₁ rest a'

end Purpose

section Contents

/-- How the members of a queue are read. -/
def readFor (unique : Bool) : Str → Option T := if unique then C.loads else PriorityQueue.read C

/-- The priority and the value of an entry. -/
def item (unique : Bool) (e : ℤ ×ₗ Str) : ℤ × Option T := (-score e, readFor C unique (member e))

/-- The contents of one queue. -/
def content (unique : Bool) (q : Zset) : Content T :=
  (q.entries : Multiset (ℤ ×ₗ Str)).map (item C unique)

def contents (s : Queues) (q : Str) : Content T := content C (w.unique q) (s q)

/-- A member is read as a value, and in a unique queue it is the text of that value. -/
def Legible (unique : Bool) (m : Str) : Prop :=
  ∃ v, readFor C unique m = some v ∧ (unique = true → m = C.dumps v)

def Plain (s : Queues) : Prop :=
  ∀ q, ∀ e ∈ (s q).entries, Legible C (w.unique q) (member e)

/-- A member that still has its value when the length of a sorting key is cut off. -/
def Whole (m : Str) : Prop := PriorityQueue.read C m = C.loads m

/-- The priority that is pushed is a double, a sorting key has its length and is not used again for
the same value, and nothing is taken off a unique queue by `blocking_pop` or `select`, but what is
whole. -/
def Safe (s : Queues) : Call T → Prop
  | .push q priority data vip now => double (-priority) = some (-priority) ∧
      (w.unique q = false → now < 10 ^ 20 ∧
        PriorityQueue.rawValue C vip now data ∉ (s q).entries.map member)
  | .blockingPop q lowPriority => w.unique q = true →
      ∀ e ∈ (PriorityQueue.bzpop (s q) lowPriority 1).1, Whole C (member e)
  | .select qs => ∀ q ∈ firstFilled s qs, w.unique q = true →
      ∀ e ∈ ((s q).zpopmin 1).1, Whole C (member e)
  | _ => True

variable {C w} {s : Queues} {q : Str}

theorem contents_update (rest : Zset) :
    contents C w (Function.update s q rest) = Function.update (contents C w s) q
      (content C (w.unique q) rest) := by
  funext q'
  by_cases h : q' = q
  · subst h
    rw [contents, Function.update_self, Function.update_self]
  · rw [contents, Function.update_of_ne h, Function.update_of_ne h]
    rfl

theorem Plain.update (h : Plain C w s) {rest : Zset}
    (hrest : ∀ e ∈ rest.entries, Legible C (w.unique q) (member e)) :
    Plain C w (Function.update s q rest) := by
  intro q' e he
  by_cases hq : q' = q
  · subst hq
    rw [Function.update_self] at he
    exact hrest e he
  · rw [Function.update_of_ne hq] at he
    exact h q' e he

theorem Plain.part (h : Plain C w s) {rest : Zset} (hsub : rest.entries ⊆ (s q).entries) :
    Plain C w (Function.update s q rest) :=
  h.update fun e he => h q e (hsub he)

end Contents

section Taken

variable {C} {unique : Bool} {q : Zset}

theorem gives_of_picks {before : ℤ ×ₗ Str → ℤ ×ₗ Str → Prop} {inRange : ℤ ×ₗ Str → Prop}
    {better : ℤ → ℤ → Prop} {range : ℤ → Prop} {skip n : ℕ} {taken : List (ℤ ×ₗ Str)} {rest : Zset}
    (h : Picks before inRange skip n (q.entries : Multiset (ℤ ×ₗ Str)) taken
      (rest.entries : Multiset (ℤ ×ₗ Str)))
    (hbefore : ∀ e e', before e e' → better (-score e) (-score e'))
    (hrange : ∀ e, inRange e ↔ range (-score e)) :
    Gives better range skip n (content C unique q)
      (taken.map fun e => readFor C unique (member e)) (content C unique rest) :=
  ⟨_, h.map hbefore hrange, by rw [List.map_map]; rfl⟩

/-- The least scores are the highest priorities. -/
theorem gives_zpopmin (n : ℕ) : Gives (· ≥ ·) (fun _ => True) 0 n (content C unique q)
    ((q.zpopmin n).1.map fun e => readFor C unique (member e)) (content C unique (q.zpopmin n).2) :=
  gives_of_picks (q.picks_zpopmin n) (fun _ _ h => Int.neg_le_neg h) fun _ => Iff.rfl

theorem gives_zpopmax (n : ℕ) : Gives (· ≤ ·) (fun _ => True) 0 n (content C unique q)
    ((q.zpopmax n).1.map fun e => readFor C unique (member e)) (content C unique (q.zpopmax n).2) :=
  gives_of_picks (q.picks_zpopmax n) (fun _ _ h => Int.neg_le_neg h) fun _ => Iff.rfl

theorem gives_bzpop (lowPriority : Bool) (n : ℕ) :
    Gives (if lowPriority then (· ≤ ·) else (· ≥ ·)) (fun _ => True) 0 n (content C unique q)
      ((PriorityQueue.bzpop q lowPriority n).1.map fun e => readFor C unique (member e))
      (content C unique (PriorityQueue.bzpop q lowPriority n).2) := by
  cases lowPriority with
  | false => exact gives_zpopmin n
  | true => exact gives_zpopmax n

/-- What is popped with a good order is given with a good order. -/
theorem givesBest_popWith {zpop : ℕ → List (ℤ ×ₗ Str) × Zset} {better : ℤ → ℤ → Prop}
    (h : ∀ n, Gives better (fun _ => True) 0 n (content C unique q)
      ((zpop n).1.map fun e => readFor C unique (member e)) (content C unique (zpop n).2))
    (num : Option ℤ) :
    GivesBest better (content C unique q) num (popWith zpop (readFor C unique) q num).1
      (content C unique (popWith zpop (readFor C unique) q num).2) := by
  cases num with
  | some n =>
    by_cases hn : n ≤ 0
    · have hzero : n.toNat = 0 := by omega
      obtain ⟨taken, hpicks, hvalues⟩ := h 0
      obtain ⟨rfl, hrest⟩ := hpicks.zero
      rw [popWith, if_pos hn, GivesBest, hzero]
      exact ⟨[], ⟨[], hrest ▸ hpicks, rfl⟩, rfl⟩
    · rw [popWith, if_neg hn, GivesBest]
      exact ⟨_, h n.toNat, rfl⟩
  | none =>
    obtain ⟨taken, hpicks, hvalues⟩ := h 1
    have hlen := hpicks.length_le
    rcases hpop : zpop 1 with ⟨entries, rest⟩
    rw [hpop] at hpicks hvalues
    rw [popWith, hpop, GivesBest]
    cases entries with
    | nil =>
      have hnil : taken = [] := by simpa using hvalues.symm
      subst hnil
      obtain ⟨hpresent, hrest⟩ := hpicks.nothing
      exact .inl ⟨hpresent, hrest, rfl⟩
    | cons e entries =>
      have hone : entries = [] := by
        have hlengths := congrArg List.length hvalues
        simp only [List.length_map, List.length_cons] at hlengths
        exact List.length_eq_zero_iff.mp (by omega)
      subst hone
      exact .inr ⟨_, ⟨taken, hpicks, hvalues⟩, rfl⟩

theorem popWith_subset {zpop : ℕ → List (ℤ ×ₗ Str) × Zset} {read : Str → Option T}
    (h : ∀ n, (zpop n).2.entries ⊆ q.entries) (num : Option ℤ) :
    (popWith zpop read q num).2.entries ⊆ q.entries := by
  cases num with
  | some n =>
    rw [popWith]
    split
    · exact List.Subset.refl _
    · exact h _
  | none =>
    have hone := h 1
    rw [popWith]
    rcases hpop : zpop 1 with ⟨entries | ⟨e, entries⟩, rest⟩
    · rw [hpop] at hone
      exact hone
    · rw [hpop] at hone
      exact hone

/-- Where what is popped is whole, `blocking_pop` gives what `pop` does. -/
theorem blockingPop_eq {lowPriority : Bool}
    (h : unique = true → ∀ e ∈ (PriorityQueue.bzpop q lowPriority 1).1, Whole C (member e)) :
    PriorityQueue.blockingPop C q lowPriority =
      popWith (PriorityQueue.bzpop q lowPriority) (readFor C unique) q none := by
  rw [PriorityQueue.blockingPop, popWith]
  rcases hpop : PriorityQueue.bzpop q lowPriority 1 with ⟨entries | ⟨e, entries⟩, rest⟩
  · rfl
  · rw [hpop] at h
    cases unique with
    | false => rfl
    | true =>
      have hwhole := h rfl e (List.mem_cons_self ..)
      rw [readFor, if_pos rfl]
      exact congrArg (fun v => (Reply.value v, rest)) hwhole

theorem gives_zrangebyscore (limits : Limits) (skip n : ℕ) :
    Gives (· ≥ ·) limits.Contains skip n (content C unique q)
      ((q.zrangebyscore (fun x => decide (limits.Contains (-x))) skip n).map fun e =>
        readFor C unique (member e))
      (content C unique (q.zrem
        ((q.zrangebyscore (fun x => decide (limits.Contains (-x))) skip n).map member))) :=
  gives_of_picks (q.picks_zrem _ skip n) (fun _ _ h => Int.neg_le_neg h) fun _ => decide_eq_true_iff

end Taken

section Pushed

variable {C} {q : Zset}

theorem PriorityQueue.push_of_double {priority x : ℤ} (h : double (-priority) = some x) (data : T)
    (vip : Bool) (now : ℕ) : PriorityQueue.push C q priority data vip now =
      (.raw (rawValue C vip now data), q.zadd x (rawValue C vip now data)) := by
  unfold PriorityQueue.push
  simp only [h]

theorem UniquePriorityQueue.push_of_double {priority x : ℤ} (h : double (-priority) = some x)
    (data : T) : UniquePriorityQueue.push C q priority data =
      (.count (if C.dumps data ∈ q.entries.map member then 0 else 1), q.zadd x (C.dumps data)) := by
  unfold UniquePriorityQueue.push
  simp only [h]

theorem length_stamp {now : ℕ} (h : now < 10 ^ 20) : (PriorityQueue.stamp now).length = 20 := by
  have hlen := (Nat.length_toDigits_le_iff (by decide : 1 < 10) (by decide : 0 < 20)).mpr h
  rw [PriorityQueue.stamp, List.length_leftpad]
  exact Nat.max_eq_left hlen

theorem read_rawValue (vip : Bool) {now : ℕ} (h : now < 10 ^ 20) (data : T) :
    PriorityQueue.read C (PriorityQueue.rawValue C vip now data) = some data := by
  have hdrop : (PriorityQueue.stamp now ++ C.dumps data).drop 20 = C.dumps data := by
    rw [← length_stamp h, List.drop_left]
  rw [PriorityQueue.read, PriorityQueue.rawValue, PriorityQueue.sortingKeyLen, List.drop_succ_cons,
    hdrop, C.loads_dumps]

/-- A new member comes to the others. -/
theorem content_zadd_new {unique : Bool} {x : ℤ} {m : Str} (h : m ∉ q.entries.map member) :
    content C unique (q.zadd x m) = (-x, readFor C unique m) ::ₘ content C unique q := by
  rw [content, SortedSet.coe_zadd_new x h, Multiset.map_cons]
  rfl

/-- The text of a value takes the place of the same text. -/
theorem content_zadd_dumps [DecidableEq T] (h : ∀ e ∈ q.entries, Legible C true (member e)) (x : ℤ)
    (data : T) : content C true (q.zadd x (C.dumps data)) =
      (-x, some data) ::ₘ (content C true q).filter fun y => y.2 ≠ some data := by
  have hsame : ∀ e ∈ q.entries, decide ((item C true e).2 ≠ some data) = true ↔
      member e ≠ C.dumps data := by
    intro e he
    obtain ⟨v, hread, hplain⟩ := h e he
    have hv := hplain rfl
    have hitem : (item C true e).2 = some v := hread
    rw [decide_eq_true_iff, hitem, hv, ne_eq, ne_eq, Option.some.injEq]
    exact not_congr ⟨congrArg C.dumps, C.dumps_inj⟩
  have hitem : item C true (toLex (x, C.dumps data)) = (-x, some data) := by
    change (-x, readFor C true (C.dumps data)) = _
    rw [readFor, if_pos rfl, C.loads_dumps]
  rw [content, SortedSet.coe_zadd_of_iff x hsame, Multiset.map_cons, hitem, content,
    Multiset.filter_map]
  rfl

end Pushed

section Steps

variable [DecidableEq T] {C} {w} {s : Queues}

omit [DecidableEq T] in
/-- What a queue gives on a call is what its contents give. -/
theorem within_on (q : Str) (r : Reply T × Zset) {serves : Content T → Content T → Prop}
    (h : serves (contents C w s q) (content C (w.unique q) r.2)) :
    Within q (contents C w s) (contents C w (on s q r).2) serves :=
  ⟨_, h, contents_update r.2⟩

theorem lawful_push (hplain : Plain C w s) {q : Str} {priority : ℤ} {data : T} {vip : Bool} {now : ℕ}
    (h : Safe C w s (.push q priority data vip now)) :
    Lawful w (contents C w s) (.push q priority data vip now)
      (call C w s (.push q priority data vip now)).1
      (contents C w (next C w s (.push q priority data vip now))) := by
  obtain ⟨hdouble, hkey⟩ := h
  cases hunique : w.unique q with
  | true =>
    have hpush : call C w s (.push q priority data vip now) =
        on s q (.count (if C.dumps data ∈ (s q).entries.map member then 0 else 1),
          (s q).zadd (-priority) (C.dumps data)) := by
      rw [call, if_pos hunique, UniquePriorityQueue.push_of_double hdouble]
    rw [next, hpush]
    refine ⟨fun e he => (nomatch he), within_on q _ ?_⟩
    rw [contents, hunique, if_pos rfl, content_zadd_dumps fun e he => hunique ▸ hplain q e he, neg_neg]
  | false =>
    obtain ⟨hnow, hnew⟩ := hkey hunique
    have hpush : call C w s (.push q priority data vip now) =
        on s q (.raw (PriorityQueue.rawValue C vip now data),
          (s q).zadd (-priority) (PriorityQueue.rawValue C vip now data)) := by
      rw [call, if_neg (by simp [hunique]), PriorityQueue.push_of_double hdouble]
    rw [next, hpush]
    refine ⟨fun e he => (nomatch he), within_on q _ ?_⟩
    rw [contents, hunique, if_neg (by simp), content_zadd_new hnew, neg_neg]
    rw [readFor, if_neg (by simp), read_rawValue vip hnow]

omit [DecidableEq T] in
theorem pop_eq (q : Str) (num : Option ℤ) : call C w s (.pop q num) =
    on s q (popWith (s q).zpopmin (readFor C (w.unique q)) (s q) num) := by
  rw [call]
  cases w.unique q <;> rfl

omit [DecidableEq T] in
theorem unpush_eq (q : Str) (num : Option ℤ) : call C w s (.unpush q num) =
    on s q (popWith (s q).zpopmax (readFor C (w.unique q)) (s q) num) := by
  rw [call]
  cases w.unique q <;> rfl

omit [DecidableEq T] in
theorem dequeueRange_eq (q : Str) (limits : Limits) (skip num : ℤ) :
    call C w s (.dequeueRange q limits skip num) =
      on s q (dequeueRangeWith w.stack (readFor C (w.unique q)) (s q) limits skip num) := by
  rw [call]
  cases w.unique q <;> rfl

theorem lawful_dequeueRange (q : Str) (limits : Limits) (skip num : ℤ) :
    Lawful w (contents C w s) (.dequeueRange q limits skip num)
      (call C w s (.dequeueRange q limits skip num)).1
      (contents C w (next C w s (.dequeueRange q limits skip num))) := by
  have hsize : Multiset.card (contents C w s q) = (s q).entries.length := by
    rw [contents, content, Multiset.card_map, Multiset.coe_card]
  have hgives := @gives_zrangebyscore T C (w.unique q) (s q) limits skip.toNat
    (limitCount skip num (s q).entries.length)
  rw [next, dequeueRange_eq, dequeueRangeWith]
  refine ⟨_, _, by rw [hsize]; exact hgives, ?_⟩
  rw [List.length_map]
  by_cases hstack : w.stack < ((s q).zrangebyscore (fun x => decide (limits.Contains (-x)))
      skip.toNat (limitCount skip num (s q).entries.length)).length
  · rw [if_pos hstack, if_pos hstack]
    refine ⟨rfl, ?_⟩
    change contents C w (Function.update s q (s q)) = _
    rw [Function.update_eq_self]
  · rw [if_neg hstack, if_neg hstack]
    exact ⟨rfl, contents_update _⟩

omit [DecidableEq T] in
theorem content_eq_zero {unique : Bool} {q : Zset} : content C unique q = 0 ↔ q.entries = [] := by
  rw [content, Multiset.map_eq_zero, Multiset.coe_eq_zero]

/-- `select` is served by the first queue that has an entry. -/
theorem lawful_select {qs : List Str} (hplain : Plain C w s) (h : Safe C w s (.select qs)) :
    Lawful w (contents C w s) (.select qs) (call C w s (.select qs)).1
      (contents C w (next C w s (.select qs))) := by
  rw [next, call, select]
  by_cases hqs : qs = []
  · rw [if_pos hqs]
    exact .inl ⟨hqs, rfl, rfl⟩
  · rw [if_neg hqs]
    cases hfirst : firstFilled s qs with
    | none =>
      refine .inr (.inl ⟨hqs, fun q hq => ?_, rfl, rfl⟩)
      have hempty := List.find?_eq_none.mp hfirst q hq
      exact content_eq_zero.mpr (by simpa using hempty)
    | some q =>
      obtain ⟨hfilled, before, after, rfl, hbefore⟩ := List.find?_eq_some_iff_append.mp hfirst
      have hgives := @gives_zpopmin T C (w.unique q) (s q) 1
      have hne : (s q).entries ≠ [] := by simpa using hfilled
      obtain ⟨e, entries, hentries⟩ := List.exists_cons_of_ne_nil hne
      have hpop : (s q).zpopmin 1 = ([e], ((s q).zpopmin 1).2) := by
        have htaken : ((s q).zpopmin 1).1 = [e] := by
          change (s q).entries.take 1 = [e]
          rw [hentries]
          rfl
        rw [← htaken]
      have hmem : e ∈ (s q).entries := hentries ▸ List.mem_cons_self ..
      obtain ⟨v, hv, -⟩ := hplain q e hmem
      have hread : PriorityQueue.read C (member e) = some v := by
        rw [← hv]
        cases hunique : w.unique q with
        | false => rfl
        | true => exact h q hfirst hunique e (hpop ▸ List.mem_cons_self ..)
      rw [hpop] at hgives
      dsimp only
      rw [hpop]
      dsimp only
      rw [hread]
      refine .inr (.inr ⟨before, q, after, v, rfl, fun q' hq' => ?_, rfl, _, ?_,
        contents_update _⟩)
      · exact content_eq_zero.mpr (by simpa using hbefore q' hq')
      · rw [List.map_singleton, hv] at hgives
        exact hgives

theorem lawful_call (hplain : Plain C w s) {c : Call T} (h : Safe C w s c) :
    Lawful w (contents C w s) c (call C w s c).1 (contents C w (next C w s c)) := by
  cases c with
  | push q priority data vip now => exact lawful_push hplain h
  | pop q num =>
    rw [next, pop_eq]
    exact ⟨_, givesBest_popWith gives_zpopmin num, contents_update _⟩
  | unpush q num =>
    rw [next, unpush_eq]
    exact ⟨_, givesBest_popWith gives_zpopmax num, contents_update _⟩
  | blockingPop q lowPriority =>
    rw [next, call, blockingPop_eq h]
    exact ⟨_, givesBest_popWith (gives_bzpop lowPriority) none, contents_update _⟩
  | dequeueRange q limits skip num => exact lawful_dequeueRange q limits skip num
  | select qs => exact lawful_select hplain h

omit [DecidableEq T] in
theorem plain_push (hplain : Plain C w s) {q : Str} {priority : ℤ} {data : T} {vip : Bool} {now : ℕ}
    (h : Safe C w s (.push q priority data vip now)) :
    Plain C w (next C w s (.push q priority data vip now)) := by
  obtain ⟨hdouble, hkey⟩ := h
  rw [next, call]
  refine hplain.update fun e he => ?_
  cases hunique : w.unique q with
  | true =>
    rw [if_pos hunique, UniquePriorityQueue.push_of_double hdouble, SortedSet.mem_zadd] at he
    rcases he with rfl | ⟨he, -⟩
    · exact ⟨data, C.loads_dumps data, fun _ => rfl⟩
    · exact hunique ▸ hplain q e he
  | false =>
    rw [if_neg (by simp [hunique]), PriorityQueue.push_of_double hdouble, SortedSet.mem_zadd] at he
    rcases he with rfl | ⟨he, -⟩
    · exact ⟨data, read_rawValue vip (hkey hunique).1 data, fun h => nomatch h⟩
    · exact hunique ▸ hplain q e he

theorem bzpop_subset (q : Zset) (lowPriority : Bool) (n : ℕ) :
    (PriorityQueue.bzpop q lowPriority n).2.entries ⊆ q.entries := by
  cases lowPriority with
  | false => exact (List.drop_sublist n _).subset
  | true =>
    intro e he
    exact List.mem_reverse.mp (List.mem_of_mem_drop (List.mem_reverse.mp he))

omit [DecidableEq T] in
theorem plain_next (hplain : Plain C w s) {c : Call T} (h : Safe C w s c) :
    Plain C w (next C w s c) := by
  cases c with
  | push q priority data vip now => exact plain_push hplain h
  | pop q num =>
    rw [next, pop_eq]
    exact hplain.part (popWith_subset (bzpop_subset (s q) false) num)
  | unpush q num =>
    rw [next, unpush_eq]
    exact hplain.part (popWith_subset (bzpop_subset (s q) true) num)
  | blockingPop q lowPriority =>
    rw [next, call, blockingPop_eq h]
    exact hplain.part (popWith_subset (bzpop_subset (s q) lowPriority) none)
  | dequeueRange q limits skip num =>
    rw [next, dequeueRange_eq, dequeueRangeWith]
    refine hplain.part ?_
    split
    · exact List.Subset.refl _
    · exact List.filter_subset_self _
  | select qs =>
    rw [next, call, select]
    split
    · exact hplain
    · split
      · exact hplain
      case h_2 q hfirst =>
        have hsub : ((s q).zpopmin 1).2.entries ⊆ (s q).entries := bzpop_subset (s q) false 1
        rcases hpop : (s q).zpopmin 1 with ⟨entries | ⟨e, entries⟩, rest⟩
        · exact hplain
        · rw [hpop] at hsub
          dsimp only
          cases PriorityQueue.read C (member e) with
          | some v => exact hplain.part hsub
          | none => exact hplain.part hsub

omit [DecidableEq T] in
/-- With enough of them asked for, `pop` gives all values of a queue. -/
theorem pop_all (q : Str) {n : ℤ} (hn : (Multiset.card (contents C w s q) : ℤ) ≤ n) :
    ∃ values, (call C w s (.pop q (some n))).1 = .list values ∧
      (values : Multiset (Option T)) = (contents C w s q).map Prod.snd ∧
      contents C w (next C w s (.pop q (some n))) q = 0 := by
  rw [next, pop_eq]
  obtain ⟨values, ⟨taken, hpicks, rfl⟩, hreply⟩ :=
    @givesBest_popWith T C (w.unique q) (s q) _ _ gives_zpopmin (some n)
  obtain ⟨hall, hrest⟩ := hpicks.all (by
    change Multiset.card (contents C w s q) ≤ n.toNat
    omega)
  refine ⟨_, hreply, ?_, ?_⟩
  · rw [← Multiset.map_coe, hall]
    rfl
  · rw [on, contents_update, Function.update_self]
    exact hrest

/-- Along a run of safe calls on queues that were empty, every call gives the best values that were
pushed and not yet given, and in the end `pop` gives the rest. -/
theorem lawful_run (w : Setting) (cs : List (Call T))
    (h : Along (next C w) (Safe C w) (fun _ => SortedSet.empty) cs) :
    LawfulRun w (fun _ => 0) (trace C w (fun _ => SortedSet.empty) cs)
        (contents C w (run (next C w) (fun _ => SortedSet.empty) cs)) ∧
      ∀ (q : Str) (n : ℤ),
        (Multiset.card (contents C w (run (next C w) (fun _ => SortedSet.empty) cs) q) : ℤ) ≤ n →
        ∃ values,
          (call C w (run (next C w) (fun _ => SortedSet.empty) cs) (.pop q (some n))).1 =
            .list values ∧
          (values : Multiset (Option T)) =
            (contents C w (run (next C w) (fun _ => SortedSet.empty) cs) q).map Prod.snd ∧
          contents C w
            (next C w (run (next C w) (fun _ => SortedSet.empty) cs) (.pop q (some n))) q = 0 := by
  refine ⟨?_, fun q n hn => pop_all q hn⟩
  have hplain : Plain C w (fun _ => SortedSet.empty) := fun q e he => nomatch he
  have hzero : (fun _ => 0) = contents C w (fun _ => SortedSet.empty) := rfl
  rw [hzero]
  generalize (fun _ => SortedSet.empty : Queues) = s at h hplain
  induction cs generalizing s with
  | nil => rfl
  | cons c cs ih =>
    exact ⟨_, lawful_call hplain h.1, ih _ h.2 (plain_next hplain h.1)⟩

end Steps

/-- One unique queue. -/
def namesUnique : Setting where
  unique q := q = "names".toList
  stack := 7999

/-- Three values in one queue and two in another, which are taken from both ends. -/
def taskCalls : List (Call Bool) :=
  [.push "jobs".toList 1 true false 1, .push "jobs".toList 9 false false 2,
    .push "jobs".toList 5 false true 3, .push "names".toList 1 false false 4,
    .push "names".toList 2 true false 5, .pop "jobs".toList none, .unpush "jobs".toList none,
    .blockingPop "jobs".toList false, .pop "names".toList (some 2)]

theorem lawful_run_tasks :
    ((trace Codec.bool namesUnique (fun _ => SortedSet.empty) taskCalls).drop 5).map (·.2) =
      [.value (some false), .value (some true), .value (some false),
        .list [some true, some false]] ∧
    LawfulRun namesUnique (fun _ => 0)
      (trace Codec.bool namesUnique (fun _ => SortedSet.empty) taskCalls)
      (contents Codec.bool namesUnique (run (next Codec.bool namesUnique)
        (fun _ => SortedSet.empty) taskCalls)) := by
  have hsafe : Along (next Codec.bool namesUnique) (Safe Codec.bool namesUnique)
      (fun _ => SortedSet.empty) taskCalls := by
    refine ⟨⟨by decide +kernel, fun _ => ⟨by decide, by decide +kernel⟩⟩,
      ⟨by decide +kernel, fun _ => ⟨by decide, by decide +kernel⟩⟩,
      ⟨by decide +kernel, fun _ => ⟨by decide, by decide +kernel⟩⟩,
      ⟨by decide +kernel, fun h => absurd h (by decide)⟩,
      ⟨by decide +kernel, fun h => absurd h (by decide)⟩, trivial, trivial,
      fun h => absurd h (by decide), trivial, trivial⟩
  exact ⟨by decide +kernel, (lawful_run namesUnique taskCalls hsafe).1⟩

/-- Unique queues only. -/
def allUnique : Setting where
  unique _ := true
  stack := 7999

/-- A value of a unique queue is cut off and lost by `blocking_pop`. -/
theorem blockingPop_loses :
    ¬ ∃ a', LawfulRun allUnique (fun _ => 0)
      (trace Codec.bool allUnique (fun _ => SortedSet.empty)
        [.push "jobs".toList 1 true false 0, .blockingPop "jobs".toList false]) a' := by
  rintro ⟨a', a₁, ⟨-, rest, hrest, rfl⟩, a₂, ⟨rest', hgives, -⟩, -⟩
  have hcontent : rest = {(1, some true)} := by
    rw [hrest, allUnique, if_pos rfl, Multiset.filter_zero]
    rfl
  rw [Function.update_self, hcontent] at hgives
  have hreply : (call Codec.bool allUnique (next Codec.bool allUnique (fun _ => SortedSet.empty)
      (.push "jobs".toList 1 true false 0)) (.blockingPop "jobs".toList false)).1 =
      .value none := by decide +kernel
  rw [hreply] at hgives
  rcases hgives with ⟨hnone, -⟩ | ⟨v, ⟨taken, hpicks, hvalues⟩, hv⟩
  · exact Multiset.singleton_ne_zero _ hnone
  · have hsum := hpicks.conserves
    cases hv
    have hmem : (none : Option Bool) ∈ taken.map Prod.snd := hvalues ▸ List.mem_cons_self ..
    obtain ⟨x, hx, hnone⟩ := List.mem_map.mp hmem
    have hin : x ∈ ({(1, some true)} : Content Bool) := by
      rw [hsum]
      exact Multiset.mem_add.mpr (.inl hx)
    rw [Multiset.mem_singleton.mp hin] at hnone
    cases hnone

end Howler.Remote
