import Howler.Actions.Queue

namespace Howler.Actions

open Python Structures Systems

section Rounds

variable {ι σ : Type} [DecidableEq ι] {around : Surroundings σ} {trigger : Str} {enabled : Bool}
  {batchSize : ℤ}

/-- A worker has nothing to do. -/
structure Idle (s : System ι σ) (worker : ι) : Prop where
  queue : s.queue = []
  batch : s.batches worker = []
  calls : s.calls worker = []

/-- How many turns there is work for: a request is taken and its batch is full at the latest two
turns later, and then its call is made. -/
def work [Fintype ι] (s : System ι σ) : ℕ :=
  3 * s.queue.length + ∑ worker, (2 * (s.batches worker).length + (s.calls worker).length)

/-- What workers hold, where one of them has changed. -/
theorem work_update [Fintype ι] {s t : System ι σ} (worker : ι) {batch : List TriggeredAction}
    {calls : List BulkCall} (hbatches : t.batches = Function.update s.batches worker batch)
    (hcalls : t.calls = Function.update s.calls worker calls) :
    work t + 3 * s.queue.length + 2 * (s.batches worker).length + (s.calls worker).length =
      work s + 3 * t.queue.length + 2 * batch.length + calls.length := by
  have hrest : ∑ i ∈ Finset.univ.erase worker, (2 * (t.batches i).length + (t.calls i).length) =
      ∑ i ∈ Finset.univ.erase worker, (2 * (s.batches i).length + (s.calls i).length) := by
    refine Finset.sum_congr rfl fun i hi => ?_
    have hne := Finset.ne_of_mem_erase hi
    rw [hbatches, hcalls, Function.update_of_ne hne, Function.update_of_ne hne]
  have hmem := Finset.mem_univ worker
  rw [work, work, ← Finset.add_sum_erase _ _ hmem, ← Finset.add_sum_erase _ _ hmem, hrest,
    hbatches, hcalls, Function.update_self, Function.update_self]
  omega

/-- The workers and the queue are as they were. -/
structure Same (s t : System ι σ) : Prop where
  queue : t.queue = s.queue
  batches : t.batches = s.batches
  calls : t.calls = s.calls

omit [DecidableEq ι] in
theorem Same.idle_iff {s t : System ι σ} (h : Same s t) {worker : ι} :
    Idle t worker ↔ Idle s worker := by
  have hbatch := congrFun h.batches worker
  have hcalls := congrFun h.calls worker
  constructor
  · intro hidle
    exact ⟨h.queue ▸ hidle.queue, hbatch ▸ hidle.batch, hcalls ▸ hidle.calls⟩
  · intro hidle
    exact ⟨h.queue.trans hidle.queue, hbatch.trans hidle.batch, hcalls.trans hidle.calls⟩

omit [DecidableEq ι] in
theorem Same.work [Fintype ι] {s t : System ι σ} (h : Same s t) : work t = work s := by
  rw [Actions.work, Actions.work, h.queue, h.batches, h.calls]

omit [DecidableEq ι] in
/-- There is no work exactly if all workers are idle. -/
theorem work_eq_zero_iff [Fintype ι] [Nonempty ι] {s : System ι σ} :
    work s = 0 ↔ ∀ worker, Idle s worker := by
  rw [work, Nat.add_eq_zero_iff, Finset.sum_eq_zero_iff]
  constructor
  · intro h worker
    have hworker := h.2 worker (Finset.mem_univ worker)
    refine ⟨List.length_eq_zero_iff.mp ?_, List.length_eq_zero_iff.mp ?_,
      List.length_eq_zero_iff.mp ?_⟩
    · omega
    · omega
    · omega
  · intro h
    obtain ⟨worker⟩ := ‹Nonempty ι›
    refine ⟨by rw [(h worker).queue, List.length_nil], fun other _ => ?_⟩
    rw [(h other).batch, (h other).calls]
    rfl

/-- A call that is made is no more work. -/
theorem work_processNext [Fintype ι] {s : System ι σ} {worker : ι} {bulkCall : BulkCall}
    {rest : List BulkCall} (hcalls : s.calls worker = bulkCall :: rest) :
    work (processNext around trigger s worker bulkCall rest) < work s := by
  have hqueue : (processNext around trigger s worker bulkCall rest).queue = s.queue := by
    unfold processNext
    cases around.getUser bulkCall.uname s.log.state <;> rfl
  have hbatches : (processNext around trigger s worker bulkCall rest).batches =
      Function.update s.batches worker (s.batches worker) := by
    rw [Function.update_eq_self]
    unfold processNext
    cases around.getUser bulkCall.uname s.log.state <;> rfl
  have hwork := work_update worker hbatches (calls_processNext s worker bulkCall rest)
  rw [hcalls, hqueue, List.length_cons] at hwork
  omega

/-- A batch that is full or overdue has fewer calls than the requests in it were work. -/
theorem work_finalize [Fintype ι] {s : System ι σ} {worker : ι} (hcalls : s.calls worker = [])
    (finalized : ι → List TriggeredAction) :
    work { s with
      queue := s.queue.tail
      batches := Function.update s.batches worker []
      finalized
      calls := Function.update s.calls worker
        (batchCalls (s.batches worker ++ s.queue.head?.toList)) } + 2 * s.queue.head?.toList.length +
        (s.batches worker).length ≤ work s := by
  have hwork := work_update (s := s) (t := { s with
    queue := s.queue.tail
    batches := Function.update s.batches worker []
    finalized
    calls := Function.update s.calls worker
      (batchCalls (s.batches worker ++ s.queue.head?.toList)) }) worker rfl rfl
  have hlength := length_batchCalls_le (s.batches worker ++ s.queue.head?.toList)
  rw [hcalls, List.length_nil] at hwork
  rw [List.length_append] at hlength
  have hqueue := length_head_tail s.queue
  dsimp only at hwork
  rw [List.length_nil] at hwork
  omega

/-- A request that is gathered is less work than one in the queue. -/
theorem work_gather [Fintype ι] {s : System ι σ} {worker : ι} :
    work { s with
      queue := s.queue.tail
      batches := Function.update s.batches worker
        (s.batches worker ++ s.queue.head?.toList) } + s.queue.head?.toList.length = work s := by
  have hwork := work_update (s := s) (t := { s with
    queue := s.queue.tail
    batches := Function.update s.batches worker (s.batches worker ++ s.queue.head?.toList) })
    worker rfl (Function.update_eq_self worker _).symm
  have hqueue := length_head_tail s.queue
  dsimp only at hwork
  rw [List.length_append] at hwork
  omega

/-- In its turn a worker has less work left, or it is idle and stays so. -/
theorem work_turn [Fintype ι] (s : System ι σ) (worker : ι) :
    work (step around trigger enabled batchSize s (.turn worker .answered)) < work s ∨
      Idle s worker ∧ Same s (step around trigger enabled batchSize s (.turn worker .answered)) := by
  rw [step]
  cases hcalls : s.calls worker with
  | cons bulkCall rest => exact .inl (work_processNext hcalls)
  | nil =>
    have hhead : s.queue = [] ↔ s.queue.head?.toList = [] := by cases s.queue <;> simp
    dsimp only [takeTurn]
    split
    · have hwork := work_finalize hcalls (Function.update s.finalized worker
        (s.batches worker ++ s.queue.head?.toList))
      by_cases hnone : s.batches worker = [] ∧ s.queue.head?.toList = []
      · refine .inr ⟨⟨hhead.mpr hnone.2, hnone.1, hcalls⟩, ⟨?_, ?_, ?_⟩⟩
        · rw [hhead.mpr hnone.2, List.tail_nil]
        · rw [← hnone.1, Function.update_eq_self]
        · have hkept : s.calls = Function.update s.calls worker [] := by
            rw [← hcalls, Function.update_eq_self]
          rw [hnone.1, hnone.2]
          exact hkept.symm
      · rw [← List.length_eq_zero_iff, ← List.length_eq_zero_iff] at hnone
        exact .inl (by omega)
    · next hkeep =>
      have hwork := @work_gather ι σ _ _ s worker
      by_cases hnone : s.queue.head?.toList = []
      · have hqueue := hhead.mpr hnone
        have hbatch : s.batches worker = [] := by
          by_contra hne
          refine (not_or.mp hkeep).2 ⟨?_, ?_⟩
          · rw [hqueue, List.head?_nil]
          · simpa [hnone] using hne
        refine .inr ⟨⟨hqueue, hbatch, hcalls⟩, ⟨?_, ?_, rfl⟩⟩
        · rw [hqueue, List.tail_nil]
        · rw [hnone, List.append_nil, Function.update_eq_self]
      · have hpos := List.length_pos_iff.mpr hnone
        exact .inl (by omega)

/-- The state after workers took their turns. -/
def afterTurns (around : Surroundings σ) (trigger : Str) (enabled : Bool) (batchSize : ℤ)
    (s : System ι σ) (workers : List ι) : System ι σ :=
  run (step around trigger enabled batchSize) s (workers.map (.turn · .answered))

/-- In a round there is less work left, or all who take their turns are idle. -/
theorem work_round [Fintype ι] (s : System ι σ) (workers : List ι) :
    work (afterTurns around trigger enabled batchSize s workers) < work s ∨
      (∀ worker ∈ workers, Idle s worker) ∧
        Same s (afterTurns around trigger enabled batchSize s workers) := by
  induction workers generalizing s with
  | nil =>
    refine .inr ⟨fun _ h => ?_, ⟨rfl, rfl, rfl⟩⟩
    cases h
  | cons worker workers ih =>
    have hrest := ih (step around trigger enabled batchSize s (.turn worker .answered))
    have hcons : afterTurns around trigger enabled batchSize s (worker :: workers) =
        afterTurns around trigger enabled batchSize
          (step around trigger enabled batchSize s (.turn worker .answered)) workers := rfl
    rw [hcons]
    rcases @work_turn ι σ _ around trigger enabled batchSize _ s worker with hless | ⟨hidle, hsame⟩
    · rcases hrest with hrest | ⟨-, hrest⟩
      · exact .inl (hrest.trans hless)
      · rw [hrest.work]
        exact .inl hless
    · rw [hsame.work] at hrest
      rcases hrest with hrest | ⟨hall, hrest⟩
      · exact .inl hrest
      · refine .inr ⟨fun other hother => ?_, ⟨hrest.queue.trans hsame.queue,
          hrest.batches.trans hsame.batches, hrest.calls.trans hsame.calls⟩⟩
        rcases List.mem_cons.mp hother with rfl | hother
        · exact hidle
        · exact hsame.idle_iff.mp (hall other hother)

/-- A round of all workers makes the work less, until there is none. -/
theorem work_round_le [Fintype ι] [Nonempty ι] (s : System ι σ) {round : List ι}
    (hall : ∀ worker, worker ∈ round) :
    work (afterTurns around trigger enabled batchSize s round) ≤ work s - 1 := by
  rcases @work_round ι σ _ around trigger enabled batchSize _ s round with hless | ⟨hidle, hsame⟩
  · omega
  · have hnone := work_eq_zero_iff.mpr fun worker => hidle worker (hall worker)
    rw [hsame.work]
    omega

theorem work_rounds_le [Fintype ι] [Nonempty ι] (s : System ι σ) {rounds : List (List ι)}
    (hall : ∀ round ∈ rounds, ∀ worker, worker ∈ round) :
    work (afterTurns around trigger enabled batchSize s rounds.flatten) ≤
      work s - rounds.length := by
  induction rounds generalizing s with
  | nil => exact Nat.le_refl _
  | cons round rounds ih =>
    have hround := @work_round_le ι σ _ around trigger enabled batchSize _ _ s _
      (hall round (List.mem_cons_self ..))
    have hrest := ih (afterTurns around trigger enabled batchSize s round)
      fun other hother => hall other (List.mem_cons_of_mem _ hother)
    have hsplit : afterTurns around trigger enabled batchSize s (round :: rounds).flatten =
        afterTurns around trigger enabled batchSize
          (afterTurns around trigger enabled batchSize s round) rounds.flatten := by
      rw [List.flatten_cons, afterTurns, List.map_append, run_append]
      rfl
    rw [hsplit, List.length_cons]
    omega

end Rounds

section Calls

variable {ι σ : Type} {around : Surroundings σ} {trigger : Str} {enabled : Bool} {batchSize : ℤ}

/-- Hits that accepted requests of a user name. -/
structure Named (accepted : List TriggeredAction) (uname : Option Str) (hitIds : List Str) :
    Prop where
  nonempty : hitIds ≠ []
  named : ∀ id ∈ hitIds, ∃ item ∈ accepted, item.uname = uname ∧ id ∈ item.hitIds

/-- An operation that ran was permitted, and it ran for requests of its user. -/
def Owed (around : Surroundings σ) (accepted : List TriggeredAction) (r : Ran σ) : Prop :=
  ∃ hitIds, Named accepted (some r.user.uname) hitIds ∧
    Runs around (idQuery hitIds) (some r.user) r

/-- The actions ran on the hits of a request, as its user, or as nobody if there is no such user. -/
def Served (around : Surroundings σ) (called : List (Str × Option User)) (item : TriggeredAction) :
    Prop :=
  ∃ hitIds user, (idQuery hitIds, user) ∈ called ∧ item.hitIds ⊆ hitIds ∧
    (user.map (·.uname) = item.uname ∨
      user = none ∧ ∃ state, around.getUser item.uname state = .ok none)

/-- What ran and what is going to run is for the requests that were accepted, and what is done was
done by a call. -/
structure Traced (around : Surroundings σ) (s : System ι σ) : Prop where
  ran : ∀ r ∈ s.log.ran, Owed around s.accepted r
  calls : ∀ worker, ∀ bulkCall ∈ s.calls worker,
    Named s.accepted bulkCall.uname bulkCall.hitIds
  direct : ∀ item ∈ s.direct, Served around s.log.called item
  processed : ∀ item ∈ s.processed, Served around s.log.called item
  unserved : ∀ item ∈ s.unserved, ∃ state e, around.getUser item.uname state = .error e

theorem Named.mono {accepted accepted' : List TriggeredAction} {uname : Option Str}
    {hitIds : List Str} (h : Named accepted uname hitIds) (hsub : accepted ⊆ accepted') :
    Named accepted' uname hitIds := by
  refine ⟨h.nonempty, fun id hid => ?_⟩
  obtain ⟨item, hitem, hrest⟩ := h.named id hid
  exact ⟨item, hsub hitem, hrest⟩

theorem Owed.mono {accepted accepted' : List TriggeredAction} {r : Ran σ}
    (h : Owed around accepted r) (hsub : accepted ⊆ accepted') : Owed around accepted' r := by
  obtain ⟨hitIds, hnamed, hruns⟩ := h
  exact ⟨hitIds, hnamed.mono hsub, hruns⟩

theorem Served.mono {called called' : List (Str × Option User)} {item : TriggeredAction}
    (h : Served around called item) (hsub : called ⊆ called') : Served around called' item := by
  obtain ⟨hitIds, user, hcall, hrest⟩ := h
  exact ⟨hitIds, user, hsub hcall, hrest⟩

/-- A call of a batch is for hits that the requests of the batch name. -/
theorem named_batchCall {accepted items : List TriggeredAction} {bulkCall : BulkCall}
    (hnonempty : ∀ item ∈ accepted, item.hitIds ≠ []) (hitems : items ⊆ accepted)
    (h : bulkCall ∈ batchCalls items) : Named accepted bulkCall.uname bulkCall.hitIds := by
  obtain ⟨item, hitem, huname⟩ := exists_batchCall_iff.mp ⟨bulkCall, h, rfl⟩
  refine ⟨fun hnil => hnonempty item (hitems hitem) ?_, fun id hid => ?_⟩
  · refine List.eq_nil_iff_forall_not_mem.mpr fun id hid => ?_
    have hin := (mem_hitIds_batchCall h id).mpr ⟨item, hitem, huname, hid⟩
    rw [hnil] at hin
    cases hin
  · obtain ⟨other, hother, hrest⟩ := (mem_hitIds_batchCall h id).mp hid
    exact ⟨other, hitems hother, hrest⟩

/-- A call for hits that requests of its user name adds only what is owed, and it is on record. -/
theorem owed_bulkExecuteOnQuery {accepted : List TriggeredAction} {uname : Option Str}
    {hitIds : List Str} {log : Log σ} (trigger : Str) (user : Option User)
    (hran : ∀ r ∈ log.ran, Owed around accepted r) (hnamed : Named accepted uname hitIds)
    (huser : ∀ u, user = some u → uname = some u.uname) :
    AllRan (Owed around accepted) (log.called ++ [(idQuery hitIds, user)])
      ((bulkExecuteOnQuery around (idQuery hitIds) trigger user).run log).2 := by
  refine allRan_bulkExecuteOnQuery ⟨hran, rfl⟩ fun r hr => ?_
  have hsome : user = some r.user := hr.user
  refine ⟨hitIds, ?_, hsome ▸ hr⟩
  rw [← huser r.user hsome]
  exact hnamed

/-- What runs directly runs for the user that asked for it. -/
theorem Traced.executeDirectly {s : System ι σ} (h : Traced around s) {request : Request}
    (hids : request.hitIds ≠ []) (haccepted : request.item ∈ s.accepted) :
    Traced around (s.executeDirectly around trigger request) := by
  have hnamed : Named s.accepted request.item.uname request.hitIds :=
    ⟨hids, fun id hid => ⟨request.item, haccepted, rfl, hid⟩⟩
  have hall := owed_bulkExecuteOnQuery trigger request.user h.ran hnamed fun u hu => by
    rw [Request.item, hu, Option.map_some]
  have hsub : s.log.called ⊆ (s.executeDirectly around trigger request).log.called := by
    rw [System.executeDirectly, hall.called]
    exact List.subset_append_left _ _
  refine ⟨hall.ran, h.calls, fun item hitem => ?_, fun item hitem => ?_, h.unserved⟩
  · rcases List.mem_append.mp hitem with hitem | hitem
    · exact (h.direct item hitem).mono hsub
    · refine ⟨request.hitIds, request.user, ?_, ?_, .inl ?_⟩
      · rw [System.executeDirectly, hall.called]
        exact List.mem_append_right _ (List.mem_singleton.mpr rfl)
      · rw [List.mem_singleton.mp hitem]
        exact List.Subset.refl _
      · rw [List.mem_singleton.mp hitem]
        rfl
  · exact (h.processed item hitem).mono hsub

/-- More requests may have been accepted. -/
theorem Traced.accept {s : System ι σ} (h : Traced around s) (item : TriggeredAction) :
    Traced around { s with accepted := s.accepted ++ [item] } := by
  have hsub : s.accepted ⊆ s.accepted ++ [item] := List.subset_append_left _ _
  exact ⟨fun r hr => (h.ran r hr).mono hsub,
    fun worker bulkCall hcall => (h.calls worker bulkCall hcall).mono hsub, h.direct, h.processed,
    h.unserved⟩

theorem Traced.enqueue {s : System ι σ} (h : Traced around s) (request : Request) :
    Traced around (enqueueActionExecution around trigger enabled s request) := by
  unfold enqueueActionExecution
  by_cases hids : request.hitIds = []
  · rw [if_pos hids]
    exact h
  rw [if_neg hids]
  have haccept := h.accept request.item
  cases enabled with
  | false =>
    refine haccept.executeDirectly hids ?_
    exact List.mem_append_right _ (List.mem_singleton.mpr rfl)
  | true => exact ⟨haccept.ran, haccept.calls, h.direct, h.processed, h.unserved⟩

theorem Traced.push {s : System ι σ} (h : Traced around s) (request : Request)
    (delivery : Delivery) : Traced around (attemptPush s request delivery) := by
  have hkept (sending : List Request) (queue doubled : List TriggeredAction) :
      Traced around { s with sending, queue, doubled } :=
    ⟨h.ran, h.calls, h.direct, h.processed, h.unserved⟩
  unfold attemptPush
  split
  · cases delivery with
    | answered => exact hkept _ _ _
    | failedBefore => exact h
    | failedAfter => exact hkept _ _ _
  · exact h

variable [Fintype ι]

theorem Traced.giveUp {s : System ι σ} (h : Traced around s) (haccounted : Accounted s)
    (request : Request) : Traced around (giveUpPush around trigger s request) := by
  unfold giveUpPush
  by_cases hrequest : request ∈ s.sending
  · rw [if_pos hrequest]
    have hitem := haccounted.item_mem hrequest
    have hkept : Traced around { s with sending := s.sending.erase request } :=
      ⟨h.ran, h.calls, h.direct, h.processed, h.unserved⟩
    exact hkept.executeDirectly (haccounted.nonempty _ hitem) hitem
  · rw [if_neg hrequest]
    exact h

variable [DecidableEq ι]

theorem Traced.takeTurn {s : System ι σ} (h : Traced around s) (haccounted : Accounted s)
    (worker : ι) (delivery : Delivery) : Traced around (takeTurn batchSize s worker delivery) := by
  unfold Actions.takeTurn
  cases delivery with
  | answered =>
    dsimp only
    split
    · refine ⟨h.ran, fun other bulkCall hcall => ?_, h.direct, h.processed, h.unserved⟩
      dsimp only at hcall
      by_cases hother : other = worker
      · rw [hother, Function.update_self] at hcall
        refine named_batchCall haccounted.nonempty (fun item hitem => ?_) hcall
        refine haccounted.mem_accepted ?_
        rcases List.mem_append.mp hitem with hitem | hitem
        · have hcount := List.count_pos_iff.mpr hitem
          have hheld := count_le_held s.batches worker item
          unfold placesOf
          omega
        · have hcount := List.count_pos_iff.mpr
            (List.mem_of_mem_head? (Option.mem_toList.mp hitem))
          unfold placesOf
          omega
      · rw [Function.update_of_ne hother] at hcall
        exact h.calls other bulkCall hcall
    · exact ⟨h.ran, h.calls, h.direct, h.processed, h.unserved⟩
  | failedBefore => exact h
  | failedAfter => exact ⟨h.ran, h.calls, h.direct, h.processed, h.unserved⟩

omit [Fintype ι] in
/-- The requests of a group are served by its call, unless the look-up of the user raises. -/
theorem Traced.processNext {s : System ι σ} (h : Traced around s) (horderly : Orderly batchSize s)
    {worker : ι} {bulkCall : BulkCall} {rest : List BulkCall}
    (hcalls : s.calls worker = bulkCall :: rest) :
    Traced around (processNext around trigger s worker bulkCall rest) := by
  have hrest : ∀ other, ∀ call ∈ Function.update s.calls worker rest other,
      Named s.accepted call.uname call.hitIds := by
    intro other call hcall
    by_cases hother : other = worker
    · rw [hother, Function.update_self] at hcall
      refine h.calls worker call ?_
      rw [hcalls]
      exact List.mem_cons_of_mem _ hcall
    · rw [Function.update_of_ne hother] at hcall
      exact h.calls other call hcall
  have hmem : bulkCall ∈ s.calls worker := by
    rw [hcalls]
    exact List.mem_cons_self ..
  have hnamed := h.calls worker bulkCall hmem
  have hlog := @run_processCall σ around trigger bulkCall s.log
  unfold Actions.processNext
  cases huser : around.getUser bulkCall.uname s.log.state with
  | error e =>
    rw [huser] at hlog
    rw [hlog]
    refine ⟨h.ran, hrest, h.direct, h.processed, fun item hitem => ?_⟩
    rcases List.mem_append.mp hitem with hitem | hitem
    · exact h.unserved item hitem
    · obtain ⟨-, huname⟩ := List.mem_filter.mp hitem
      rw [of_decide_eq_true huname]
      exact ⟨_, e, huser⟩
  | ok user =>
    have hall := owed_bulkExecuteOnQuery trigger user h.ran hnamed fun u hu =>
      around.uname_of_getUser _ _ u (hu ▸ huser)
    rw [huser] at hlog
    rw [hlog]
    have hsub : s.log.called ⊆
        ((bulkExecuteOnQuery around (idQuery bulkCall.hitIds) trigger user).run s.log).2.called := by
      rw [hall.called]
      exact List.subset_append_left _ _
    refine ⟨hall.ran, hrest, fun item hitem => (h.direct item hitem).mono hsub,
      fun item hitem => ?_, h.unserved⟩
    rcases List.mem_append.mp hitem with hitem | hitem
    · exact (h.processed item hitem).mono hsub
    · obtain ⟨hitem, huname⟩ := List.mem_filter.mp hitem
      have huname := of_decide_eq_true huname
      refine ⟨bulkCall.hitIds, user, ?_, ?_, ?_⟩
      · dsimp only
        rw [hall.called]
        exact List.mem_append_right _ (List.mem_singleton.mpr rfl)
      · exact (horderly worker).whole item hitem bulkCall hmem huname.symm
      · cases user with
        | none => exact .inr ⟨rfl, _, huname ▸ huser⟩
        | some u =>
          refine .inl ?_
          rw [huname]
          exact (around.uname_of_getUser _ _ u huser).symm

/-- What is done in a step is done for accepted requests. -/
theorem Traced.step {s : System ι σ} (h : Traced around s) (hsound : Sound batchSize s)
    (event : Event ι σ) : Traced around (step around trigger enabled batchSize s event) := by
  cases event with
  | enqueue request => exact h.enqueue request
  | push request delivery => exact h.push request delivery
  | giveUp request => exact h.giveUp hsound.accounted request
  | turn worker delivery =>
    rw [Actions.step]
    cases hcalls : s.calls worker with
    | nil => exact h.takeTurn hsound.accounted worker delivery
    | cons bulkCall rest => exact h.processNext hsound.orderly hcalls
  | crash worker =>
    refine ⟨h.ran, fun other bulkCall hcall => ?_, h.direct, h.processed, h.unserved⟩
    dsimp only [Actions.step] at hcall
    by_cases hother : other = worker
    · rw [hother, Function.update_self] at hcall
      cases hcall
    · rw [Function.update_of_ne hother] at hcall
      exact h.calls other bulkCall hcall
  | outside change => exact ⟨h.ran, h.calls, h.direct, h.processed, h.unserved⟩

omit [Fintype ι] [DecidableEq ι] in
theorem traced_start (state : σ) : Traced around (System.start state : System ι σ) := by
  refine ⟨?_, ?_, ?_, ?_, ?_⟩ <;> simp [System.start]

/-- All of it holds in every run. -/
theorem sound_run (state : σ) (events : List (Event ι σ)) :
    let s := run (step around trigger enabled batchSize) (System.start state) events
    Sound batchSize s ∧ Traced around s :=
  inv_run (fun s : System ι σ => Sound batchSize s ∧ Traced around s)
    (fun _ event hs _ => ⟨hs.1.step event, hs.2.step hs.1 event⟩)
    ⟨sound_start state, traced_start state⟩ (along_true _ _)

/-- Whatever is requested and however the workers take their turns, an operation runs only as a user
who may run it, within the limit of this user, on hits that requests of this user name. -/
theorem ran_permitted (around : Surroundings σ) (trigger : Str) (enabled : Bool) (batchSize : ℤ)
    (state : σ) (events : List (Event ι σ)) :
    let s := run (step around trigger enabled batchSize) (System.start state) events
    ∀ r ∈ s.log.ran, Permitted around r ∧ ∃ hitIds, hitIds ≠ [] ∧
      (∀ id ∈ hitIds, ∃ item ∈ s.accepted, item.uname = some r.user.uname ∧ id ∈ item.hitIds) ∧
      Runs around (idQuery hitIds) (some r.user) r := by
  intro s r hr
  have htraced := (@sound_run ι σ around trigger enabled batchSize _ _ state events).2
  obtain ⟨hitIds, hnamed, hruns⟩ := htraced.ran r hr
  exact ⟨hruns.permitted, hitIds, hnamed.nonempty, hnamed.named, hruns⟩

omit [Fintype ι] in
/-- The turns of workers accept nothing. -/
theorem accepted_afterTurns (s : System ι σ) (workers : List ι) :
    (afterTurns around trigger enabled batchSize s workers).accepted = s.accepted := by
  have hturn (s : System ι σ) (worker : ι) :
      (step around trigger enabled batchSize s (.turn worker .answered)).accepted = s.accepted := by
    rw [Actions.step]
    cases s.calls worker with
    | nil =>
      dsimp only [Actions.takeTurn]
      split <;> rfl
    | cons bulkCall rest =>
      dsimp only [Actions.processNext]
      cases around.getUser bulkCall.uname s.log.state <;> rfl
  induction workers generalizing s with
  | nil => rfl
  | cons worker workers ih => exact (ih _).trans (hturn s worker)

/-- After any run, as many rounds of all workers as there is work leave the queue and every batch
empty. Each request that was accepted is then served by a call that ran, unless it is still being
pushed or was lost, or the look-up of its user raised. -/
theorem requests_drained [Nonempty ι] (around : Surroundings σ) (trigger : Str) (enabled : Bool)
    (batchSize : ℤ) (state : σ) (events : List (Event ι σ)) (rounds : List (List ι))
    (hall : ∀ round ∈ rounds, ∀ worker, worker ∈ round)
    (hmany : work (run (step around trigger enabled batchSize) (System.start state) events) ≤
      rounds.length) :
    let s := run (step around trigger enabled batchSize) (System.start state) events
    let t := afterTurns around trigger enabled batchSize s rounds.flatten
    t.queue = [] ∧ (∀ worker, t.batches worker = [] ∧ t.finalized worker = []) ∧
      ∀ item ∈ s.accepted, item ∈ t.sending.map Request.item ∨ item ∈ t.lost ∨
        (item ∈ t.unserved ∧ ∃ state e, around.getUser item.uname state = .error e) ∨
          Served around t.log.called item := by
  intro s t
  have hrounds : work t ≤ work s - rounds.length := work_rounds_le s hall
  have hnone : work s - rounds.length = 0 := Nat.sub_eq_zero_of_le hmany
  have hidle : ∀ worker, Idle t worker := work_eq_zero_iff.mp (by omega)
  have hrun : t = run (step around trigger enabled batchSize) (System.start state)
      (events ++ rounds.flatten.map (.turn · .answered)) := (run_append _ _ _).symm
  obtain ⟨hsound, htraced⟩ : Sound batchSize t ∧ Traced around t := by
    rw [hrun]
    exact sound_run state _
  have hfinalized (worker : ι) : t.finalized worker = [] := by
    have hfits := hsound.orderly worker
    rw [(hidle worker).calls] at hfits
    exact hfits.idle
  have hnothing {batches : ι → List TriggeredAction} (h : ∀ worker, batches worker = [])
      (item : TriggeredAction) : (held batches).count item = 0 := by
    rw [held, Finset.sum_eq_zero fun worker _ => by rw [h worker]; rfl]
    rfl
  have hqueue : t.queue = [] := by
    obtain ⟨worker⟩ := ‹Nonempty ι›
    exact (hidle worker).queue
  refine ⟨hqueue, fun worker => ⟨(hidle worker).batch, hfinalized worker⟩, fun item hitem => ?_⟩
  by_cases hsending : item ∈ t.sending.map Request.item
  · exact .inl hsending
  by_cases hlost : item ∈ t.lost
  · exact .inr (.inl hlost)
  by_cases hunserved : item ∈ t.unserved
  · exact .inr (.inr (.inl ⟨hunserved, htraced.unserved item hunserved⟩))
  refine .inr (.inr (.inr ?_))
  have hcount := hsound.accounted.balance item
  have hpositive : 0 < t.accepted.count item := by
    rw [show t.accepted = s.accepted from accepted_afterTurns s _]
    exact List.count_pos_iff.mpr hitem
  rw [placesOf, hqueue, hnothing (fun worker => (hidle worker).batch), hnothing hfinalized,
    List.count_eq_zero_of_not_mem hsending, List.count_eq_zero_of_not_mem hlost,
    List.count_eq_zero_of_not_mem hunserved, List.count_nil] at hcount
  by_cases hdirect : item ∈ t.direct
  · exact htraced.direct item hdirect
  · rw [List.count_eq_zero_of_not_mem hdirect] at hcount
    exact htraced.processed item (List.count_pos_iff.mp (by omega))

/-- One action, which an administrator may run. -/
def promotes : Surroundings Unit where
  operation operationId :=
    if operationId = "promote".toList then some ⟨[], none, none, false, fun _ _ _ _ s => (.ok [], s)⟩
    else none
  loads _ := .ok (.obj [])
  actionsOn _ _ := .ok [⟨['A'], ['q'], [⟨"promote".toList, some "\x7b\x7d".toList⟩]⟩]
  total _ _ := .ok 1
  getUser uname _ := .ok (if uname = some ['u'] then some ⟨['u'], ["admin".toList]⟩ else none)
  uname_of_getUser uname _ user h := by
    split at h
    · next heq =>
      cases h
      exact heq
    · cases h

/-- Two requests, the first pushed twice as its first attempt had no answer. One worker takes the
first copy and ends, the others are processed by the other worker. -/
def requestsAndCrash : List (Event (Fin 2) Unit) :=
  let first : Request := ⟨[['h']], some ⟨['u'], []⟩⟩
  let second : Request := ⟨[['k']], some ⟨['u'], []⟩⟩
  [.enqueue first, .push first .failedAfter, .turn 0 .answered, .enqueue second,
    .push first .answered, .crash 0, .push second .answered, .turn 1 .answered]

theorem requests_drained_promotes :
    let s := run (step promotes "create".toList true 10) (System.start ()) requestsAndCrash
    let t := afterTurns promotes "create".toList true 10 s (List.replicate 5 [1, 0]).flatten
    t.log.ran.length = 1 ∧ t.lost.length = 1 ∧ t.queue = [] ∧
      (∀ worker, t.batches worker = [] ∧ t.finalized worker = []) ∧
      ∀ item ∈ s.accepted, item ∈ t.sending.map Request.item ∨ item ∈ t.lost ∨
        (item ∈ t.unserved ∧ ∃ state e, promotes.getUser item.uname state = .error e) ∨
          Served promotes t.log.called item := by
  refine ⟨rfl, rfl, requests_drained promotes "create".toList true 10 () requestsAndCrash
    (List.replicate 5 [1, 0]) (fun round hround worker => ?_) ?_⟩
  · rw [List.eq_of_mem_replicate hround]
    revert worker
    decide
  · decide

theorem ran_permitted_promotes :
    let s := run (step promotes "create".toList true 10) (System.start ())
      (requestsAndCrash ++ List.replicate 3 (.turn 1 .answered))
    s.log.ran.length = 1 ∧ ∀ r ∈ s.log.ran, Permitted promotes r ∧ ∃ hitIds, hitIds ≠ [] ∧
      (∀ id ∈ hitIds, ∃ item ∈ s.accepted, item.uname = some r.user.uname ∧ id ∈ item.hitIds) ∧
      Runs promotes (idQuery hitIds) (some r.user) r :=
  ⟨rfl, ran_permitted promotes "create".toList true 10 ()
    (requestsAndCrash ++ List.replicate 3 (.turn 1 .answered))⟩

end Calls

end Howler.Actions
