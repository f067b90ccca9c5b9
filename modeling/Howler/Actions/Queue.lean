import Mathlib.Algebra.BigOperators.Group.Finset.Basic
import Mathlib.Algebra.Order.BigOperators.Group.Finset
import Howler.Actions.Execution
import Howler.Systems.Requests
import Howler.Systems.Runs

namespace Howler.Actions

open Python Structures Systems

/-- `TriggeredAction`. -/
structure TriggeredAction where
  hitIds : List Str
  uname : Option Str
  deriving DecidableEq

/-- The hit ids of a batch by the users that triggered the actions. -/
def groups (items : List TriggeredAction) : Dict (Option Str) (List Str) :=
  extendGroups TriggeredAction.uname TriggeredAction.hitIds items

/-- The actions that run for a user on some hits. -/
structure BulkCall where
  uname : Option Str
  hitIds : List Str

/-- The calls for a batch, each with every id once. -/
def batchCalls (items : List TriggeredAction) : List BulkCall :=
  (groups items).map fun g => ⟨g.1, g.2.eraseDups⟩

/-- What `enqueue_action_execution` is called with. -/
structure Request where
  hitIds : List Str
  user : Option User
  deriving DecidableEq

/-- What is pushed to the queue for a request. -/
def Request.item (request : Request) : TriggeredAction :=
  ⟨request.hitIds, request.user.map (·.uname)⟩

/-- The requests that are being pushed, the queue of a trigger, the batch that each worker gathers,
the batch that it processes with the calls that are still to be made, and what became of the
requests. -/
structure System (ι σ : Type) where
  sending : List Request := []
  queue : List TriggeredAction := []
  batches : ι → List TriggeredAction := fun _ => []
  finalized : ι → List TriggeredAction := fun _ => []
  calls : ι → List BulkCall := fun _ => []
  log : Log σ
  accepted : List TriggeredAction := []
  direct : List TriggeredAction := []
  processed : List TriggeredAction := []
  unserved : List TriggeredAction := []
  doubled : List TriggeredAction := []
  lost : List TriggeredAction := []

/-- What happens: actions are requested, `retry_call` makes an attempt to push a request or gives it
up, a worker takes its turn, its process ends, or something else changes the datastore. -/
inductive Event (ι σ : Type) where
  | enqueue (request : Request)
  | push (request : Request) (delivery : Delivery)
  | giveUp (request : Request)
  | turn (worker : ι) (delivery : Delivery)
  | crash (worker : ι)
  | outside (change : σ → σ)

section Queue

variable {ι σ : Type} (around : Surroundings σ) (trigger : Str) (enabled : Bool) (batchSize : ℤ)

/-- The call for one group; what it raises is logged. -/
def processCall (bulkCall : BulkCall) : ActionM σ Unit :=
  tryCatch (do
    let user ← ask (around.getUser bulkCall.uname)
    bulkExecuteOnQuery around (idQuery bulkCall.hitIds) trigger user) fun _ => pure ()

def processActionBatch (items : List TriggeredAction) : ActionM σ Unit :=
  if items = [] then pure () else (batchCalls items).forM (processCall around trigger)

/-- The actions run at once. -/
def System.executeDirectly (s : System ι σ) (request : Request) : System ι σ :=
  { s with
    log := ((bulkExecuteOnQuery around (idQuery request.hitIds) trigger request.user).run s.log).2
    direct := s.direct ++ [request.item] }

/-- `enqueue_action_execution` for a valid trigger, up to the push. -/
def enqueueActionExecution (s : System ι σ) (request : Request) : System ι σ :=
  if request.hitIds = [] then s
  else
    let s := { s with accepted := s.accepted ++ [request.item] }
    if enabled then { s with sending := s.sending ++ [request] }
    else s.executeDirectly around trigger request

/-- One attempt of `retry_call` to push. -/
def attemptPush (s : System ι σ) (request : Request) (delivery : Delivery) : System ι σ :=
  if request ∈ s.sending then
    match delivery with
    | .answered =>
      { s with
        sending := s.sending.erase request
        queue := s.queue ++ [request.item] }
    | .failedBefore => s
    -- it is in the queue, and it is still being pushed
    | .failedAfter =>
      { s with
        queue := s.queue ++ [request.item]
        doubled := s.doubled ++ [request.item] }
  else s

/-- The push raises. -/
def giveUpPush (s : System ι σ) (request : Request) : System ι σ :=
  if request ∈ s.sending then
    { s with sending := s.sending.erase request }.executeDirectly around trigger request
  else s

/-- The requests of a user in the batch that a worker processes. -/
def System.asked (s : System ι σ) (worker : ι) (uname : Option Str) : List TriggeredAction :=
  (s.finalized worker).filter fun item => item.uname = uname

variable [DecidableEq ι]

/-- An attempt to pop in the loop of `run_worker`, and what follows up to the first call. -/
def takeTurn (s : System ι σ) (worker : ι) (delivery : Delivery) : System ι σ :=
  match delivery with
  | .answered =>
    let item := s.queue.head?
    let batch := s.batches worker ++ item.toList
    if batch.length ≥ batchSize ∨ item = none ∧ batch ≠ [] then
      { s with
        queue := s.queue.tail
        batches := Function.update s.batches worker []
        finalized := Function.update s.finalized worker batch
        calls := Function.update s.calls worker (batchCalls batch) }
    else
      { s with
        queue := s.queue.tail
        batches := Function.update s.batches worker batch }
  | .failedBefore => s
  -- the item has left the queue, and nobody has it
  | .failedAfter =>
    { s with
      queue := s.queue.tail
      lost := s.lost ++ s.queue.head?.toList }

/-- A worker makes the next call of its batch. -/
def processNext (s : System ι σ) (worker : ι) (bulkCall : BulkCall) (rest : List BulkCall) :
    System ι σ :=
  let s' := { s with
    finalized := Function.update s.finalized worker
      ((s.finalized worker).filter fun item => item.uname ≠ bulkCall.uname)
    calls := Function.update s.calls worker rest
    log := ((processCall around trigger bulkCall).run s.log).2 }
  match around.getUser bulkCall.uname s.log.state with
  | .ok _ => { s' with processed := s.processed ++ s.asked worker bulkCall.uname }
  | .error _ => { s' with unserved := s.unserved ++ s.asked worker bulkCall.uname }

def step (s : System ι σ) : Event ι σ → System ι σ
  | .enqueue request => enqueueActionExecution around trigger enabled s request
  | .push request delivery => attemptPush s request delivery
  | .giveUp request => giveUpPush around trigger s request
  | .turn worker delivery =>
    match s.calls worker with
    | [] => takeTurn batchSize s worker delivery
    | bulkCall :: rest => processNext around trigger s worker bulkCall rest
  | .crash worker =>
    { s with
      batches := Function.update s.batches worker []
      finalized := Function.update s.finalized worker []
      calls := Function.update s.calls worker []
      lost := s.lost ++ s.batches worker ++ s.finalized worker }
  | .outside change => { s with log := { s.log with state := change s.log.state } }

/-- A system where nothing has happened yet. -/
def System.start (state : σ) : System ι σ := { log := { state := state } }

end Queue

section Groups

variable {items : List TriggeredAction} {bulkCall : BulkCall}

/-- A call is for all hits of the requests of its user, and for no others. -/
theorem mem_hitIds_batchCall (h : bulkCall ∈ batchCalls items) (id : Str) :
    id ∈ bulkCall.hitIds ↔ ∃ item ∈ items, item.uname = bulkCall.uname ∧ id ∈ item.hitIds := by
  obtain ⟨⟨uname, ids⟩, hgroup, rfl⟩ := List.mem_map.mp h
  rw [List.mem_eraseDups, values_of_mem_extendGroups hgroup]
  simp only [List.mem_flatMap, List.mem_filter, decide_eq_true_eq, and_assoc]

/-- There is a call for the user of each request. -/
theorem exists_batchCall_iff {uname : Option Str} :
    (∃ bulkCall ∈ batchCalls items, bulkCall.uname = uname) ↔
      ∃ item ∈ items, item.uname = uname := by
  rw [← @mem_keys_extendGroups _ _ _ _ TriggeredAction.uname TriggeredAction.hitIds]
  constructor
  · intro h
    obtain ⟨bulkCall, hcall, rfl⟩ := h
    obtain ⟨g, hgroup, rfl⟩ := List.mem_map.mp hcall
    exact List.mem_map_of_mem hgroup
  · intro h
    obtain ⟨g, hgroup, rfl⟩ := List.mem_map.mp h
    exact ⟨_, List.mem_map_of_mem hgroup, rfl⟩

/-- A request of a batch is part of the call of its user. -/
theorem hitIds_subset_of_batchCall {item : TriggeredAction} (hitem : item ∈ items)
    (h : bulkCall ∈ batchCalls items) (huname : bulkCall.uname = item.uname) :
    item.hitIds ⊆ bulkCall.hitIds := fun id hid =>
  (mem_hitIds_batchCall h id).mpr ⟨item, hitem, huname.symm, hid⟩

/-- There are at most as many calls as requests. -/
theorem length_batchCalls_le (items : List TriggeredAction) :
    (batchCalls items).length ≤ items.length := by
  have hsub : Dict.keys (groups items) ⊆ items.map TriggeredAction.uname := by
    intro uname huname
    obtain ⟨item, hitem, rfl⟩ := mem_keys_extendGroups.mp huname
    exact List.mem_map_of_mem hitem
  have hle := (List.subperm_of_subset (nodup_keys_extendGroups items) hsub).length_le
  rw [List.length_map] at hle
  rw [batchCalls, List.length_map]
  simpa [Dict.keys, groups] using hle

end Groups

section Batch

variable {ι σ : Type} [DecidableEq ι] {around : Surroundings σ} {trigger : Str} {enabled : Bool}
  {batchSize : ℤ}

/-- A call changes nothing where the look-up of the user raises, and what it raises later is
dropped. -/
theorem run_processCall (bulkCall : BulkCall) (log : Log σ) :
    (processCall around trigger bulkCall).run log = (.ok (),
      match around.getUser bulkCall.uname log.state with
      | .ok user =>
        ((bulkExecuteOnQuery around (idQuery bulkCall.hitIds) trigger user).run log).2
      | .error _ => log) := by
  have hask : (ask (around.getUser bulkCall.uname)).run log =
      (around.getUser bulkCall.uname log.state, log) := by
    rw [ask, run_exceptT_bind_ok (show (get : ActionM σ (Log σ)).run log = (.ok log, log) from rfl),
      run_liftExcept]
  rw [processCall, run_exceptT_tryCatch, run_exceptT_bind, hask]
  cases around.getUser bulkCall.uname log.state with
  | error e => rfl
  | ok user =>
    dsimp only
    cases (bulkExecuteOnQuery around (idQuery bulkCall.hitIds) trigger user).run log with
    | mk r log' => cases r <;> rfl

theorem log_processNext (s : System ι σ) (worker : ι) (bulkCall : BulkCall) (rest : List BulkCall) :
    (processNext around trigger s worker bulkCall rest).log =
      ((processCall around trigger bulkCall).run s.log).2 := by
  unfold processNext
  cases around.getUser bulkCall.uname s.log.state <;> rfl

theorem calls_processNext (s : System ι σ) (worker : ι) (bulkCall : BulkCall)
    (rest : List BulkCall) : (processNext around trigger s worker bulkCall rest).calls =
      Function.update s.calls worker rest := by
  unfold processNext
  cases around.getUser bulkCall.uname s.log.state <;> rfl

/-- The turns of a worker that has a batch to process are `process_action_batch`. -/
theorem log_run_turns {s : System ι σ} {worker : ι} {items : List TriggeredAction}
    (h : s.calls worker = batchCalls items) (delivery : Delivery) :
    (run (step around trigger enabled batchSize) s
      (List.replicate (batchCalls items).length (.turn worker delivery))).log =
      ((processActionBatch around trigger items).run s.log).2 := by
  have hcalls (bulkCalls : List BulkCall) {s : System ι σ} (h : s.calls worker = bulkCalls) :
      (run (step around trigger enabled batchSize) s
        (List.replicate bulkCalls.length (.turn worker delivery))).log =
        ((bulkCalls.forM (processCall around trigger)).run s.log).2 := by
    induction bulkCalls generalizing s with
    | nil => rfl
    | cons bulkCall rest ih =>
      have hstep : step around trigger enabled batchSize s (.turn worker delivery) =
          processNext around trigger s worker bulkCall rest := by rw [step, h]
      have hnext : (processNext around trigger s worker bulkCall rest).calls worker = rest := by
        rw [calls_processNext, Function.update_self]
      have hforM : (bulkCall :: rest).forM (processCall around trigger) =
          (do processCall around trigger bulkCall; rest.forM (processCall around trigger)) := rfl
      rw [List.length_cons, List.replicate_succ, run_cons, hstep, ih hnext, log_processNext, hforM,
        run_exceptT_bind, run_processCall]
  rw [hcalls _ h, processActionBatch]
  by_cases hitems : items = []
  · rw [if_pos hitems, hitems]
    rfl
  · rw [if_neg hitems]

end Batch

section Accounting

variable {ι σ : Type} [DecidableEq ι] [Fintype ι] {around : Surroundings σ} {trigger : Str}
  {enabled : Bool} {batchSize : ℤ}

/-- What all workers hold. -/
def held (batches : ι → List TriggeredAction) : Multiset TriggeredAction :=
  ∑ worker, (batches worker : Multiset TriggeredAction)

/-- How often a request is where it can be. -/
def placesOf (s : System ι σ) (item : TriggeredAction) : ℕ :=
  (s.sending.map Request.item).count item + s.queue.count item + (held s.batches).count item +
    (held s.finalized).count item + s.direct.count item + s.processed.count item +
    s.unserved.count item + s.lost.count item

/-- Each request is being pushed, in the queue, with a worker, done or lost: once, and once more for
each attempt to push it that had its effect without an answer. -/
structure Accounted (s : System ι σ) : Prop where
  balance : ∀ item, s.accepted.count item + s.doubled.count item = placesOf s item
  doubled : s.doubled ⊆ s.accepted
  nonempty : ∀ item ∈ s.accepted, item.hitIds ≠ []

theorem count_held_update (batches : ι → List TriggeredAction) (worker : ι)
    (batch : List TriggeredAction) (item : TriggeredAction) :
    (held (Function.update batches worker batch)).count item + (batches worker).count item =
      (held batches).count item + batch.count item := by
  have hrest : ∑ i ∈ Finset.univ.erase worker,
      (Function.update batches worker batch i : Multiset TriggeredAction) =
        ∑ i ∈ Finset.univ.erase worker, (batches i : Multiset TriggeredAction) := by
    refine Finset.sum_congr rfl fun i hi => ?_
    rw [Function.update_of_ne (Finset.ne_of_mem_erase hi)]
  have hmem := Finset.mem_univ worker
  rw [held, held, ← Finset.add_sum_erase _ _ hmem, ← Finset.add_sum_erase _ _ hmem, hrest,
    Function.update_self, Multiset.count_add, Multiset.count_add, Multiset.coe_count,
    Multiset.coe_count]
  omega

/-- What a worker holds is held. -/
theorem count_le_held (batches : ι → List TriggeredAction) (worker : ι) (item : TriggeredAction) :
    (batches worker).count item ≤ (held batches).count item := by
  have hupdate := count_held_update batches worker [] item
  rw [List.count_nil] at hupdate
  omega

theorem count_sending_erase {sending : List Request} {request : Request} (h : request ∈ sending)
    (item : TriggeredAction) : (sending.map Request.item).count item =
      ((sending.erase request).map Request.item).count item + [request.item].count item := by
  rw [((List.perm_cons_erase h).map Request.item).count_eq, List.map_cons, ← List.singleton_append,
    List.count_append, Nat.add_comm]

theorem length_head_tail (queue : List TriggeredAction) :
    queue.length = queue.head?.toList.length + queue.tail.length := by
  cases queue with
  | nil => rfl
  | cons item queue => simp [Nat.add_comm]

theorem count_head_tail (queue : List TriggeredAction) (item : TriggeredAction) :
    queue.count item = queue.head?.toList.count item + queue.tail.count item := by
  cases queue with
  | nil => rfl
  | cons x queue => simp [List.count_cons, Nat.add_comm]

omit [DecidableEq ι] in
/-- What is somewhere was accepted. -/
theorem Accounted.mem_accepted {s : System ι σ} (h : Accounted s) {item : TriggeredAction}
    (hitem : 0 < placesOf s item) : item ∈ s.accepted := by
  have hbalance := h.balance item
  by_contra hnot
  have hdoubled : item ∉ s.doubled := fun hmem => hnot (h.doubled hmem)
  rw [List.count_eq_zero_of_not_mem hnot, List.count_eq_zero_of_not_mem hdoubled] at hbalance
  omega

omit [DecidableEq ι] in
theorem Accounted.item_mem {s : System ι σ} (h : Accounted s) {request : Request}
    (hrequest : request ∈ s.sending) : request.item ∈ s.accepted := by
  have hcount := List.count_pos_iff.mpr (List.mem_map_of_mem (f := Request.item) hrequest)
  exact h.mem_accepted (by unfold placesOf; omega)

omit [DecidableEq ι] in
theorem Accounted.enqueue {s : System ι σ} (h : Accounted s) (request : Request) :
    Accounted (enqueueActionExecution around trigger enabled s request) := by
  unfold enqueueActionExecution
  by_cases hids : request.hitIds = []
  · rw [if_pos hids]
    exact h
  rw [if_neg hids]
  have hnonempty : ∀ x ∈ s.accepted ++ [request.item], x.hitIds ≠ [] := by
    intro x hx
    rcases List.mem_append.mp hx with hx | hx
    · exact h.nonempty x hx
    · rw [List.mem_singleton.mp hx]
      exact hids
  have hdoubled : s.doubled ⊆ s.accepted ++ [request.item] := fun x hx =>
    List.mem_append_left _ (h.doubled hx)
  cases enabled with
  | false =>
    refine ⟨fun item => ?_, hdoubled, hnonempty⟩
    have hitem := h.balance item
    simp only [placesOf, System.executeDirectly, List.count_append, Bool.false_eq_true,
      if_false] at hitem ⊢
    omega
  | true =>
    refine ⟨fun item => ?_, hdoubled, hnonempty⟩
    have hitem := h.balance item
    simp only [placesOf, List.count_append, List.map_append, List.map_cons, List.map_nil,
      if_true] at hitem ⊢
    omega

omit [DecidableEq ι] in
theorem Accounted.push {s : System ι σ} (h : Accounted s) (request : Request)
    (delivery : Delivery) : Accounted (attemptPush s request delivery) := by
  unfold attemptPush
  by_cases hrequest : request ∈ s.sending
  · rw [if_pos hrequest]
    cases delivery with
    | answered =>
      refine ⟨fun item => ?_, h.doubled, h.nonempty⟩
      have hitem := h.balance item
      have hsending := count_sending_erase hrequest item
      simp only [placesOf, List.count_append] at hitem ⊢
      omega
    | failedBefore => exact h
    | failedAfter =>
      have haccepted := h.item_mem hrequest
      refine ⟨fun item => ?_, ?_, h.nonempty⟩
      · have hitem := h.balance item
        simp only [placesOf, List.count_append] at hitem ⊢
        omega
      · exact List.append_subset.mpr ⟨h.doubled, fun x hx => List.mem_singleton.mp hx ▸ haccepted⟩
  · rw [if_neg hrequest]
    exact h

omit [DecidableEq ι] in
theorem Accounted.giveUp {s : System ι σ} (h : Accounted s) (request : Request) :
    Accounted (giveUpPush around trigger s request) := by
  unfold giveUpPush
  by_cases hrequest : request ∈ s.sending
  · rw [if_pos hrequest]
    refine ⟨fun item => ?_, h.doubled, h.nonempty⟩
    have hitem := h.balance item
    have hsending := count_sending_erase hrequest item
    simp only [placesOf, System.executeDirectly, List.count_append] at hitem ⊢
    omega
  · rw [if_neg hrequest]
    exact h

/-- A worker that has no batch to process holds only what it gathers. -/
theorem Accounted.takeTurn {s : System ι σ} (h : Accounted s) {worker : ι}
    (hidle : s.finalized worker = []) (delivery : Delivery) :
    Accounted (takeTurn batchSize s worker delivery) := by
  unfold Actions.takeTurn
  cases delivery with
  | answered =>
    dsimp only
    split
    · refine ⟨fun item => ?_, h.doubled, h.nonempty⟩
      have hitem := h.balance item
      have hqueue := count_head_tail s.queue item
      have hbatches := count_held_update s.batches worker [] item
      have hfinalized := count_held_update s.finalized worker
        (s.batches worker ++ s.queue.head?.toList) item
      simp only [placesOf, hidle, List.count_append, List.count_nil] at hitem hbatches hfinalized ⊢
      omega
    · refine ⟨fun item => ?_, h.doubled, h.nonempty⟩
      have hitem := h.balance item
      have hqueue := count_head_tail s.queue item
      have hbatches := count_held_update s.batches worker
        (s.batches worker ++ s.queue.head?.toList) item
      simp only [placesOf, List.count_append] at hitem hbatches ⊢
      omega
  | failedBefore => exact h
  | failedAfter =>
    refine ⟨fun item => ?_, h.doubled, h.nonempty⟩
    have hitem := h.balance item
    have hqueue := count_head_tail s.queue item
    simp only [placesOf, List.count_append] at hitem ⊢
    omega

theorem Accounted.processNext {s : System ι σ} (h : Accounted s) (worker : ι)
    (bulkCall : BulkCall) (rest : List BulkCall) :
    Accounted (processNext around trigger s worker bulkCall rest) := by
  have hsplit (item : TriggeredAction) : (s.finalized worker).count item =
      (s.asked worker bulkCall.uname).count item +
        ((s.finalized worker).filter fun item => item.uname ≠ bulkCall.uname).count item := by
    have hperm := List.filter_append_perm (fun item => decide (item.uname = bulkCall.uname))
      (s.finalized worker)
    rw [← hperm.count_eq item, List.count_append]
    simp [System.asked]
  have hfinalized (item : TriggeredAction) := count_held_update s.finalized worker
    ((s.finalized worker).filter fun item => item.uname ≠ bulkCall.uname) item
  unfold Actions.processNext
  cases around.getUser bulkCall.uname s.log.state with
  | ok user =>
    refine ⟨fun item => ?_, h.doubled, h.nonempty⟩
    have hitem := h.balance item
    have hsplit := hsplit item
    have hfinalized := hfinalized item
    simp only [placesOf, List.count_append] at hitem ⊢
    omega
  | error e =>
    refine ⟨fun item => ?_, h.doubled, h.nonempty⟩
    have hitem := h.balance item
    have hsplit := hsplit item
    have hfinalized := hfinalized item
    simp only [placesOf, List.count_append] at hitem ⊢
    omega

theorem Accounted.crash {s : System ι σ} (h : Accounted s) (worker : ι) :
    Accounted (step around trigger enabled batchSize s (.crash worker)) := by
  refine ⟨fun item => ?_, h.doubled, h.nonempty⟩
  have hitem := h.balance item
  have hbatches := count_held_update s.batches worker [] item
  have hfinalized := count_held_update s.finalized worker [] item
  simp only [Actions.step, placesOf, List.count_append, List.count_nil] at hitem hbatches hfinalized ⊢
  omega

omit [DecidableEq ι] in
theorem accounted_start (state : σ) : Accounted (System.start state : System ι σ) := by
  refine ⟨fun item => ?_, List.Subset.refl _, fun _ hitem => nomatch hitem⟩
  simp [System.start, placesOf, held]

end Accounting

section Workers

variable {ι σ : Type} [DecidableEq ι] {around : Surroundings σ} {trigger : Str} {enabled : Bool}
  {batchSize : ℤ}

/-- The most requests of a batch. -/
def capacity (batchSize : ℤ) : ℕ := (max batchSize 1).toNat

/-- A worker gathers a batch or processes one, and each request that it processes has its call. -/
structure Fits (batchSize : ℤ) (batch finalized : List TriggeredAction) (calls : List BulkCall) :
    Prop where
  gathering : batch.length < capacity batchSize
  processing : finalized.length ≤ capacity batchSize
  one : batch = [] ∨ finalized = []
  covered : ∀ item ∈ finalized, ∃ bulkCall ∈ calls, bulkCall.uname = item.uname
  whole : ∀ item ∈ finalized, ∀ bulkCall ∈ calls, bulkCall.uname = item.uname →
    item.hitIds ⊆ bulkCall.hitIds

/-- All workers are as they should be. -/
def Orderly (batchSize : ℤ) (s : System ι σ) : Prop :=
  ∀ worker, Fits batchSize (s.batches worker) (s.finalized worker) (s.calls worker)

theorem fits_nil : Fits batchSize [] [] [] := by
  refine ⟨?_, Nat.zero_le _, .inl rfl, fun _ hitem => ?_, fun _ hitem => ?_⟩
  · simp [capacity]
  · cases hitem
  · cases hitem

theorem Fits.idle {batch finalized : List TriggeredAction}
    (h : Fits batchSize batch finalized []) : finalized = [] := by
  refine List.eq_nil_iff_forall_not_mem.mpr fun item hitem => ?_
  obtain ⟨bulkCall, hcall, -⟩ := h.covered item hitem
  cases hcall

/-- One worker has changed. -/
theorem Orderly.update {s t : System ι σ} (h : Orderly batchSize s) (worker : ι)
    {batch finalized : List TriggeredAction} {calls : List BulkCall}
    (hbatches : t.batches = Function.update s.batches worker batch)
    (hfinalized : t.finalized = Function.update s.finalized worker finalized)
    (hcalls : t.calls = Function.update s.calls worker calls)
    (hfits : Fits batchSize batch finalized calls) : Orderly batchSize t := by
  intro other
  rw [hbatches, hfinalized, hcalls]
  by_cases hother : other = worker
  · rw [hother, Function.update_self, Function.update_self, Function.update_self]
    exact hfits
  · rw [Function.update_of_ne hother, Function.update_of_ne hother, Function.update_of_ne hother]
    exact h other

theorem Orderly.takeTurn {s : System ι σ} (h : Orderly batchSize s) {worker : ι}
    (hidle : s.calls worker = []) (delivery : Delivery) :
    Orderly batchSize (takeTurn batchSize s worker delivery) := by
  have hfits := h worker
  rw [hidle] at hfits
  have hfinalized := hfits.idle
  have hlength : (s.batches worker ++ s.queue.head?.toList).length ≤ capacity batchSize := by
    have hbatch := hfits.gathering
    cases s.queue.head? with
    | none => simpa using hbatch.le
    | some item =>
      rw [Option.toList_some, List.length_append, List.length_singleton]
      omega
  have hnil := @fits_nil batchSize
  unfold Actions.takeTurn
  cases delivery with
  | answered =>
    dsimp only
    split
    · refine h.update worker rfl rfl rfl ⟨hnil.gathering, hlength, .inl rfl, ?_, ?_⟩
      · intro item hitem
        exact exists_batchCall_iff.mpr ⟨item, hitem, rfl⟩
      · intro item hitem bulkCall hcall huname
        exact hitIds_subset_of_batchCall hitem hcall huname
    · next hkeep =>
      have hless := (not_or.mp hkeep).1
      refine h.update worker rfl (Function.update_eq_self worker _).symm
        (Function.update_eq_self worker _).symm ?_
      rw [hfinalized, hidle]
      refine ⟨?_, Nat.zero_le _, .inr rfl, hnil.covered, hnil.whole⟩
      unfold capacity
      omega
  | failedBefore => exact h
  | failedAfter => exact h

theorem Orderly.processNext {s : System ι σ} (h : Orderly batchSize s) {worker : ι}
    {bulkCall : BulkCall} {rest : List BulkCall} (hcalls : s.calls worker = bulkCall :: rest) :
    Orderly batchSize (processNext around trigger s worker bulkCall rest) := by
  have hfits := h worker
  rw [hcalls] at hfits
  have hnext : Fits batchSize (s.batches worker)
      ((s.finalized worker).filter fun item => item.uname ≠ bulkCall.uname) rest := by
    refine ⟨hfits.gathering, (List.length_filter_le _ _).trans hfits.processing, ?_,
      fun item hitem => ?_, fun item hitem call hcall => ?_⟩
    · refine hfits.one.imp_right fun hnil => ?_
      rw [hnil, List.filter_nil]
    · obtain ⟨hitem, hother⟩ := List.mem_filter.mp hitem
      obtain ⟨other, hmem, huname⟩ := hfits.covered item hitem
      rcases List.mem_cons.mp hmem with rfl | hmem
      · exact absurd huname.symm (of_decide_eq_true hother)
      · exact ⟨other, hmem, huname⟩
    · exact hfits.whole item (List.mem_filter.mp hitem).1 call (List.mem_cons_of_mem _ hcall)
  unfold Actions.processNext
  cases around.getUser bulkCall.uname s.log.state with
  | ok user => exact h.update worker (Function.update_eq_self worker _).symm rfl rfl hnext
  | error e => exact h.update worker (Function.update_eq_self worker _).symm rfl rfl hnext

omit [DecidableEq ι] in
theorem Orderly.enqueue {s : System ι σ} (h : Orderly batchSize s) (request : Request) :
    Orderly batchSize (enqueueActionExecution around trigger enabled s request) := by
  unfold enqueueActionExecution
  split
  · exact h
  · cases enabled with
    | false => exact h
    | true => exact h

omit [DecidableEq ι] in
theorem Orderly.push {s : System ι σ} (h : Orderly batchSize s) (request : Request)
    (delivery : Delivery) : Orderly batchSize (attemptPush s request delivery) := by
  unfold attemptPush
  split
  · cases delivery with
    | answered => exact h
    | failedBefore => exact h
    | failedAfter => exact h
  · exact h

omit [DecidableEq ι] in
theorem Orderly.giveUp {s : System ι σ} (h : Orderly batchSize s) (request : Request) :
    Orderly batchSize (giveUpPush around trigger s request) := by
  unfold giveUpPush
  split
  · exact h
  · exact h

theorem Orderly.step {s : System ι σ} (h : Orderly batchSize s) (event : Event ι σ) :
    Orderly batchSize (step around trigger enabled batchSize s event) := by
  cases event with
  | enqueue request => exact h.enqueue request
  | push request delivery => exact h.push request delivery
  | giveUp request => exact h.giveUp request
  | turn worker delivery =>
    rw [Actions.step]
    cases hcalls : s.calls worker with
    | nil => exact h.takeTurn hcalls delivery
    | cons bulkCall rest => exact h.processNext hcalls
  | crash worker => exact h.update worker rfl rfl rfl fits_nil
  | outside change => exact h

/-- How many requests an event can lose. -/
def Event.loss (batchSize : ℤ) : Event ι σ → ℕ
  | .crash _ => capacity batchSize
  | .turn _ .failedAfter => 1
  | _ => 0

/-- How many requests an event puts to the queue once more. -/
def Event.repeats : Event ι σ → ℕ
  | .push _ .failedAfter => 1
  | _ => 0

/-- What is lost is lost with a worker or on the way to one, and what is in the queue once more was
pushed without an answer. -/
theorem lengths_step {s : System ι σ} (h : Orderly batchSize s) (event : Event ι σ) :
    (step around trigger enabled batchSize s event).lost.length ≤
        s.lost.length + event.loss batchSize ∧
      (step around trigger enabled batchSize s event).doubled.length ≤
        s.doubled.length + event.repeats := by
  have hsame {t : System ι σ} (hlost : t.lost = s.lost) (hdoubled : t.doubled = s.doubled)
      (event : Event ι σ) : t.lost.length ≤ s.lost.length + event.loss batchSize ∧
        t.doubled.length ≤ s.doubled.length + event.repeats := by
    rw [hlost, hdoubled]
    exact ⟨Nat.le_add_right _ _, Nat.le_add_right _ _⟩
  cases event with
  | enqueue request =>
    dsimp only [Actions.step, enqueueActionExecution]
    split
    · exact hsame rfl rfl _
    · cases enabled with
      | false => exact hsame rfl rfl _
      | true => exact hsame rfl rfl _
  | push request delivery =>
    dsimp only [Actions.step, attemptPush]
    split
    · cases delivery with
      | answered => exact hsame rfl rfl _
      | failedBefore => exact hsame rfl rfl _
      | failedAfter => exact ⟨Nat.le_add_right _ _, List.length_append.le⟩
    · exact hsame rfl rfl _
  | giveUp request =>
    dsimp only [Actions.step, giveUpPush]
    split
    · exact hsame rfl rfl _
    · exact hsame rfl rfl _
  | turn worker delivery =>
    rw [Actions.step]
    cases s.calls worker with
    | nil =>
      cases delivery with
      | answered =>
        dsimp only [Actions.takeTurn]
        split
        · exact hsame rfl rfl _
        · exact hsame rfl rfl _
      | failedBefore => exact hsame rfl rfl _
      | failedAfter =>
        have hhead : s.queue.head?.toList.length ≤ 1 := by cases s.queue <;> simp
        simp only [Actions.takeTurn, Event.loss, List.length_append]
        omega
    | cons bulkCall rest =>
      dsimp only [Actions.processNext]
      cases around.getUser bulkCall.uname s.log.state with
      | ok user => exact hsame rfl rfl _
      | error e => exact hsame rfl rfl _
  | crash worker =>
    have hfits := h worker
    have hbatch := hfits.gathering
    have hfinalized := hfits.processing
    simp only [Actions.step, Event.loss, List.length_append]
    -- one of the two batches is empty, so that the other one is all that goes
    rcases hfits.one with hnil | hnil
    · rw [hnil, List.length_nil]
      omega
    · rw [hnil, List.length_nil]
      omega
  | outside change => exact hsame rfl rfl _

/-- Where each request is, and that no worker holds more than a batch. -/
structure Sound [Fintype ι] (batchSize : ℤ) (s : System ι σ) : Prop where
  accounted : Accounted s
  orderly : Orderly batchSize s

theorem Sound.step [Fintype ι] {s : System ι σ} (h : Sound batchSize s) (event : Event ι σ) :
    Sound batchSize (step around trigger enabled batchSize s event) := by
  refine ⟨?_, h.orderly.step event⟩
  cases event with
  | enqueue request => exact h.accounted.enqueue request
  | push request delivery => exact h.accounted.push request delivery
  | giveUp request => exact h.accounted.giveUp request
  | turn worker delivery =>
    have hfits := h.orderly worker
    rw [Actions.step]
    cases hcalls : s.calls worker with
    | nil =>
      rw [hcalls] at hfits
      exact h.accounted.takeTurn hfits.idle delivery
    | cons bulkCall rest => exact h.accounted.processNext worker bulkCall rest
  | crash worker => exact h.accounted.crash worker
  | outside change => exact ⟨h.accounted.balance, h.accounted.doubled, h.accounted.nonempty⟩

omit [DecidableEq ι] in
theorem sound_start [Fintype ι] (state : σ) :
    Sound batchSize (System.start state : System ι σ) :=
  ⟨accounted_start state, fun _ => fits_nil⟩

/-- In every run each request that is accepted is where it can be once, and once more for each
attempt to push it that had its effect without an answer. No worker holds more than a batch. A crash
loses at most a batch, and an attempt to pop without an answer at most one request. -/
theorem requests_accounted [Fintype ι] (around : Surroundings σ) (trigger : Str) (enabled : Bool)
    (batchSize : ℤ) (state : σ) (events : List (Event ι σ)) :
    let s := run (step around trigger enabled batchSize) (System.start state) events
    Accounted s ∧ Orderly batchSize s ∧
      s.lost.length ≤ costs (Event.loss batchSize) events ∧
      s.doubled.length ≤ costs Event.repeats events := by
  intro s
  have hsound : Sound batchSize s :=
    inv_run (Sound batchSize) (fun s event hs _ => hs.step event) (sound_start state)
      (along_true _ _)
  refine ⟨hsound.accounted, hsound.orderly, ?_, ?_⟩
  · have hlost : s.lost.length ≤ (System.start state : System ι σ).lost.length +
        costs (Event.loss batchSize) events :=
      run_le_costs (Orderly batchSize) (fun s => s.lost.length) (Event.loss batchSize)
        (fun s event hs => ⟨hs.step event, (lengths_step hs event).1⟩) (sound_start state).orderly
        events
    simpa [System.start] using hlost
  · have hdoubled : s.doubled.length ≤ (System.start state : System ι σ).doubled.length +
        costs Event.repeats events :=
      run_le_costs (Orderly batchSize) (fun s => s.doubled.length) Event.repeats
        (fun s event hs => ⟨hs.step event, (lengths_step hs event).2⟩) (sound_start state).orderly
        events
    simpa [System.start] using hdoubled

end Workers

end Howler.Actions
