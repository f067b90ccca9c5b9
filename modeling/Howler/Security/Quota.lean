import Howler.Structures.Domination
import Howler.Systems.Runs
import Howler.Python.Text

namespace Howler.Security

open Python Structures Systems

/-- `begin_script`: whether there is a slot, and the slots of the user afterwards. Times are in
microseconds, the timeout is in seconds. -/
def beginScript (timeout : ℕ) (maxQuota : ℤ) (now : ℕ) (slots : Finset ℕ) : Bool × Finset ℕ :=
  let slots := slots.filter (now < · + timeout * 1000000)
  if (slots.card : ℤ) < maxQuota then (true, insert now slots) else (false, slots)

/-- What the flask session of a request holds. -/
structure Session where
  quotaUser : Option Str := none
  quotaSet : Bool := false
  deriving DecidableEq

/-- A request of the user that was not answered yet, with the time of its slot if it got one. -/
structure Request where
  path : Str
  session : Session := {}
  start : Option ℕ := none
  deriving DecidableEq

/-- Requests to clue are not counted. -/
def Request.clue (path : Str) : Bool := "/api/v1/clue".toList.isPrefixOf path

/-- The tracker of one user and the requests that are being handled. -/
structure Server where
  now : ℕ := 0
  slots : Finset ℕ := ∅
  requests : List Request := []

/-- What the limits of a user are. -/
structure Limits where
  uname : Str
  quota : ℤ
  timeout : ℕ

inductive Event where
  | wait (time : ℕ)
  | login (path : Str) (enforceQuota : Bool)
  | respond (n : ℕ)

/-- The part of `api_login` about quotas. A request that is refused has its response to come, as one
that is handled. -/
def login (l : Limits) (path : Str) (enforceQuota : Bool) (s : Server) : Server :=
  if Request.clue path = true ∨ enforceQuota = false then
    { s with requests := s.requests ++ [{ path := path }] }
  else
    let session : Session := { quotaUser := some l.uname, quotaSet := true }
    let r := beginScript l.timeout l.quota s.now s.slots
    { s with
      slots := r.2
      requests := s.requests ++
        [{ path := path, session := session, start := if r.1 then some s.now else none }] }

/-- The session of a request says that its slot is to be given back. -/
def Request.ends (r : Request) : Bool :=
  r.session.quotaUser.any (· ≠ []) && r.session.quotaSet && !clue r.path

/-- The part of `_make_api_response` about quotas: `end` removes the oldest slot. -/
def endSession (r : Request) (slots : Finset ℕ) : Finset ℕ := if r.ends then popMin slots else slots

/-- The requests that are being handled, in the order of their logins, and the slots. -/
def step (l : Limits) (s : Server) : Event → Server
  | .wait time => { s with now := s.now + time }
  | .login path enforceQuota => login l path enforceQuota s
  | .respond n =>
    match s.requests[n]? with
    | none => s
    | some r => { s with slots := endSession r s.slots, requests := s.requests.eraseIdx n }

namespace Server

variable (l : Limits) (s : Server)

/-- A slot or a request of that time did not time out. -/
def fresh (t : ℕ) : Bool := s.now < t + l.timeout * 1000000

/-- The start times of the requests that got a slot, have no answer and did not time out. -/
def live : List ℕ := (s.requests.filterMap (·.start)).filter (s.fresh l)

/-- The slots that did not time out. -/
def freshSlots : Finset ℕ := s.slots.filter (s.fresh l · = true)

end Server

/-- No slot is taken twice at one time, and where a request that has no slot, or whose slot has timed
out, is answered, there are no slots or more slots than live requests. -/
def Spare (l : Limits) (s : Server) : Event → Prop
  | .wait _ => True
  | .login _ _ => s.now ∉ s.slots
  | .respond n => ∀ r, s.requests[n]? = some r → r.ends = true →
      (∃ t, r.start = some t ∧ s.fresh l t) ∨ s.slots = ∅ ∨ (s.live l).length < s.slots.card

section Counting

variable {l : Limits} {s s' : Server} {r : Request} {t : ℕ}

theorem fresh_iff : s.fresh l t = true ↔ s.now < t + l.timeout * 1000000 := by
  simp [Server.fresh]

/-- Every live request has a slot, and there are no more fresh slots than the quota. -/
structure Counted (l : Limits) (s : Server) : Prop where
  dominated : Dominated (s.live l) s.slots
  bounded : ((s.freshSlots l).card : ℤ) ≤ max l.quota 0

theorem Counted.wait (h : Counted l s) (time : ℕ) : Counted l (step l s (.wait time)) := by
  have hfresh : ∀ t, (step l s (.wait time)).fresh l t = true → s.fresh l t = true := by
    intro t ht
    rw [fresh_iff] at ht ⊢
    simp only [step] at ht
    omega
  constructor
  · have hlive : (step l s (.wait time)).live l =
        (s.live l).filter ((step l s (.wait time)).fresh l) := by
      rw [Server.live, Server.live, List.filter_filter]
      refine List.filter_congr fun t _ => ?_
      simpa using hfresh t
    rw [hlive]
    exact h.dominated.sublist List.filter_sublist
  · have hsub : (step l s (.wait time)).freshSlots l ⊆ s.freshSlots l := by
      intro t ht
      rw [Server.freshSlots, Finset.mem_filter] at ht ⊢
      exact ⟨ht.1, hfresh t ht.2⟩
    exact le_trans (by exact_mod_cast Finset.card_le_card hsub) h.bounded

/-- One more request. -/
theorem live_append (s : Server) (r : Request) (slots : Finset ℕ) :
    Server.live l { s with slots := slots, requests := s.requests ++ [r] } =
      s.live l ++ r.start.toList.filter (s.fresh l) := by
  have happ : (s.requests ++ [r]).filterMap (·.start) =
      s.requests.filterMap (·.start) ++ r.start.toList := by
    cases hr : r.start <;> simp [List.filterMap_append, hr]
  rw [Server.live, happ, List.filter_append]
  rfl

theorem dominated_fresh (h : Dominated (s.live l) s.slots) :
    Dominated (s.live l) (s.freshSlots l) := by
  have hbound : s.freshSlots l = s.slots.filter (s.now + 1 - l.timeout * 1000000 ≤ ·) := by
    refine Finset.filter_congr fun t _ => ?_
    rw [fresh_iff]
    omega
  rw [hbound]
  refine h.filter fun t ht => ?_
  have hfresh : s.fresh l t = true := (List.mem_filter.mp ht).2
  rw [fresh_iff] at hfresh
  omega

theorem beginScript_eq (s : Server) : beginScript l.timeout l.quota s.now s.slots =
    if ((s.freshSlots l).card : ℤ) < l.quota then (true, insert s.now (s.freshSlots l))
    else (false, s.freshSlots l) := by
  have hfresh : s.slots.filter (s.now < · + l.timeout * 1000000) = s.freshSlots l :=
    Finset.filter_congr fun t _ => fresh_iff.symm
  rw [beginScript, hfresh]

theorem Counted.login (h : Counted l s) (path : Str) (enforceQuota : Bool)
    (hnew : s.now ∉ s.slots) : Counted l (step l s (.login path enforceQuota)) := by
  have hfresh := dominated_fresh h.dominated
  have hsub : s.freshSlots l ⊆ s.slots := Finset.filter_subset _ _
  rw [step, Security.login]
  split
  · refine ⟨?_, h.bounded⟩
    rw [live_append]
    simpa using h.dominated
  · rw [beginScript_eq]
    split
    · next hlt =>
      have hself : s.now ∉ s.freshSlots l := fun hm => hnew (hsub hm)
      constructor
      · rw [live_append]
        refine ((hfresh.insert hself).perm (List.perm_append_singleton s.now _)).sublist ?_
        exact (List.filter_sublist (l := [s.now])).append_left _
      · have hcard : (Server.freshSlots l { s with slots := insert s.now (s.freshSlots l) }).card ≤
            (s.freshSlots l).card + 1 :=
          (Finset.card_filter_le _ _).trans (Finset.card_insert_le _ _)
        refine le_trans (b := ((s.freshSlots l).card : ℤ) + 1) (by exact_mod_cast hcard) ?_
        omega
    · next hge =>
      constructor
      · rw [live_append]
        simpa using hfresh
      · refine le_trans ?_ h.bounded
        exact_mod_cast Finset.card_filter_le _ _

/-- The requests that are left when one is answered. -/
theorem live_eraseIdx {n : ℕ} (hr : s.requests[n]? = some r) (slots : Finset ℕ) :
    ∃ before after, s.live l = before ++ r.start.toList.filter (s.fresh l) ++ after ∧
      Server.live l { s with slots := slots, requests := s.requests.eraseIdx n } =
        before ++ after := by
  obtain ⟨hn, hget⟩ := List.getElem?_eq_some_iff.mp hr
  refine ⟨((s.requests.take n).filterMap (·.start)).filter (s.fresh l),
    ((s.requests.drop (n + 1)).filterMap (·.start)).filter (s.fresh l), ?_, ?_⟩
  · have hsplit : s.requests = s.requests.take n ++ r :: s.requests.drop (n + 1) := by
      rw [← hget, List.getElem_cons_drop, List.take_append_drop]
    have hone : [r].filterMap (·.start) = r.start.toList := by
      cases hs : r.start <;> simp [hs]
    rw [Server.live]
    conv_lhs => rw [hsplit]
    rw [List.filterMap_append, ← List.singleton_append, List.filterMap_append, hone,
      List.filter_append, List.filter_append, List.append_assoc]
  · rw [Server.live, List.eraseIdx_eq_take_drop_succ, List.filterMap_append, List.filter_append]
    rfl

theorem Counted.respond (h : Counted l s) (n : ℕ) (hspare : Spare l s (.respond n)) :
    Counted l (step l s (.respond n)) := by
  rw [step]
  cases hr : s.requests[n]? with
  | none => exact h
  | some r =>
    have hspare := hspare r hr
    obtain ⟨before, after, hlive, hleft⟩ := live_eraseIdx (l := l) hr (endSession r s.slots)
    have hsub : (before ++ after).Sublist (s.live l) := by
      rw [hlive, List.append_assoc]
      exact (List.sublist_append_right _ _).append_left _
    constructor
    · show Dominated (Server.live l _) (endSession r s.slots)
      rw [hleft, endSession]
      split
      · next hends =>
        rcases hspare hends with ⟨t, ht, hfresh⟩ | hnone | hlt
        · -- the oldest slot goes with the request that is answered
          have hperm : (s.live l).Perm (t :: (before ++ after)) := by
            have hone : r.start.toList.filter (s.fresh l) = [t] := by simp [ht, hfresh]
            rw [hlive, hone, List.append_assoc]
            exact List.perm_middle
          have hdom := h.dominated.perm hperm.symm
          simpa using hdom.popMin_erase List.mem_cons_self
        · have hempty : popMin s.slots = s.slots := by simp [popMin, hnone]
          rw [hempty]
          exact h.dominated.sublist hsub
        · exact (h.dominated.popMin_of_lt hlt).sublist hsub
      · exact h.dominated.sublist hsub
    · have hslots : endSession r s.slots ⊆ s.slots := by
        rw [endSession, popMin]
        split
        · split
          · exact Finset.erase_subset _ _
          · exact Finset.Subset.refl _
        · exact Finset.Subset.refl _
      refine le_trans ?_ h.bounded
      exact_mod_cast Finset.card_le_card (Finset.filter_subset_filter _ hslots)

theorem Counted.step (h : Counted l s) (e : Event) (hspare : Spare l s e) :
    Counted l (step l s e) := by
  cases e with
  | wait time => exact h.wait time
  | login path enforceQuota => exact h.login path enforceQuota hspare
  | respond n => exact h.respond n hspare

/-- Live requests have fresh slots, of which there are at most as many as the quota allows. -/
theorem Counted.live_le (h : Counted l s) :
    (s.live l).length ≤ (s.freshSlots l).card ∧ ((s.live l).length : ℤ) ≤ max l.quota 0 := by
  have hle := (dominated_fresh h.dominated).length_le
  have hbound := h.bounded
  exact ⟨hle, by omega⟩

/-- In every run in which no answer takes the slot of a live request away, the live requests are
within the quota. -/
theorem live_within_quota (l : Limits) (events : List Event)
    (hspare : Along (Security.step l) (Spare l) {} events) :
    ((run (Security.step l) {} events).live l).length ≤
        ((run (Security.step l) {} events).freshSlots l).card ∧
      (((run (Security.step l) {} events).live l).length : ℤ) ≤ max l.quota 0 := by
  have hinit : Counted l {} := ⟨.nil _, by simp [Server.freshSlots]⟩
  exact (inv_run (Counted l) (fun s e h hs => h.step e hs) hinit hspare).live_le

end Counting

/-- A user with one slot. -/
def oneSlot : Limits := { uname := ['u'], quota := 1, timeout := 120 }

theorem live_within_quota_one :
    (run (step oneSlot) {} [.login ['p'] true, .wait 5, .login ['p'] true, .wait 5, .respond 0,
      .login ['p'] true]).slots = {10} ∧
    (((run (step oneSlot) {} [.login ['p'] true, .wait 5, .login ['p'] true, .wait 5, .respond 0,
      .login ['p'] true]).live oneSlot).length : ℤ) ≤ max oneSlot.quota 0 := by
  have hnone : ∀ s : Server, s.slots = ∅ ∨ s.slots = {0} ∧ s.now ≠ 0 → s.now ∉ s.slots := by
    intro s hs
    cases hs with
    | inl hs => simp [hs]
    | inr hs => simpa [hs.1] using hs.2
  refine ⟨by decide, (live_within_quota oneSlot [.login ['p'] true, .wait 5, .login ['p'] true,
    .wait 5, .respond 0, .login ['p'] true] ⟨hnone _ (by decide), trivial, hnone _ (by decide),
      trivial, fun r hr _ => .inl ?_, hnone _ (by decide), trivial⟩).2⟩
  obtain rfl := Option.some.inj hr
  exact ⟨0, by decide, by decide⟩

/-- The answer of a request that was refused gives the slot of another one away. -/
theorem refused_frees_slot :
    (run (step oneSlot) {} [.login ['p'] true, .wait 1, .login ['p'] true]).requests.map
      (·.start) = [some 0, none] ∧
    (run (step oneSlot) {} [.login ['p'] true, .wait 1, .login ['p'] true, .respond 1, .wait 1,
      .login ['p'] true]).live oneSlot = [0, 2] ∧ oneSlot.quota < 2 := by
  decide

end Howler.Security
