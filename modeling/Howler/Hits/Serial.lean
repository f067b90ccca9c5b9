import Howler.Hits.Ballots
import Howler.Hits.Coherence
import Howler.Systems.Interleaving

namespace Howler.Hits

open Python Systems Systems.Prog Workflow

section Plans

variable {rt : Runtime} {call : Call} {d : HitDict} {ups : List OdmUpdateOperation}

theorem hitTransitions_update {tr : Transition Arguments} (h : tr ∈ hitTransitions rt) :
    tr.dest ≠ none ∨ promoteHit ∈ tr.actions ∨ demoteHit ∈ tr.actions := by
  simp only [hitTransitions, List.mem_cons, List.not_mem_nil, or_false] at h
  rcases h with rfl | rfl | rfl | rfl | rfl | rfl | rfl | rfl | rfl | rfl | rfl | rfl | rfl |
    rfl | rfl | rfl | rfl | rfl
  all_goals simp [fromStatus]

/-- An allowed transition updates something. -/
theorem plan_ne_nil (h : call.plan rt d = .ok ups) : ups ≠ [] := by
  obtain ⟨wf, hwf, h⟩ := bind_eq_ok.mp h
  obtain rfl := Except.ok.inj ((getHitWorkflow_eq rt).symm.trans hwf)
  obtain ⟨tr, hfind, hgen⟩ := transition_ok h
  have hsome : ∃ op, op ∈ ups := by
    rcases hitTransitions_update (mem_of_find hfind).1 with hdest | hact | hact
    · obtain ⟨dest, hd⟩ := Option.ne_none_iff_exists'.mp hdest
      obtain ⟨op, hop, -⟩ := hgen.status dest hd
      exact ⟨op, hop⟩
    · obtain ⟨us, hus, hdone⟩ := hgen.done _ hact
      obtain rfl := Except.ok.inj hus
      obtain ⟨op, hop, -⟩ := hdone _ List.mem_cons_self
      exact ⟨op, hop⟩
    · obtain ⟨us, hus, hdone⟩ := hgen.done _ hact
      obtain rfl := Except.ok.inj hus
      obtain ⟨op, hop, -⟩ := hdone _ List.mem_cons_self
      exact ⟨op, hop⟩
  intro hnil
  simp [hnil] at hsome

end Plans

section Calls

variable (rt : Runtime) (call : Call)

/-- What a call does once it has written. -/
def Call.finish (call : Call) (id : Str) : Service (Option (Hit × Nat)) := do
  let updated ← getVersion id
  finishTransition rt call id updated

/-- What a call does once it has the version for its write. -/
def Call.write (id : Str) (ups : List OdmUpdateOperation) (h : Hit) (version : Nat) :
    Service (Option (Hit × Nat)) := do
  updateDocument id (finalOperations ups h call.uname (some version)) (some version)
  call.finish rt id

variable {rt} {call} {d : HitDict} {ups : List OdmUpdateOperation}

theorem transitionFrom_error {e : HitError} (h : call.plan rt d = .error e) :
    transitionFrom rt call d = .raise e := by
  rw [transitionFrom, h]
  rfl

theorem transitionFrom_eq (hv : call.version = none) (h : call.plan rt d = .ok ups) :
    transitionFrom rt call d = .call (.getVersion d.id) fun r =>
      match r with
      | none => .raise .attribute
      | some (cur, version) => call.write rt d.id ups cur version := by
  have happly : applyUpdates call d.id ups = updateHit d.id ups call.uname none := by
    rw [applyUpdates, if_neg (plan_ne_nil h), hv]
  rw [transitionFrom, h]
  show (applyUpdates call d.id ups).bind _ = _
  rw [happly]
  refine congrArg (Prog.call _) (funext fun r => ?_)
  cases r with
  | none => rfl
  | some cur =>
    show ((updateDocument d.id _ _).bind fun _ => getVersion d.id).bind _ = _
    exact Prog.bind_assoc _ _ _

theorem transitionHit_given (h : call.hit = some d) :
    transitionHit rt call = transitionFrom rt call d := by
  rw [transitionHit, h]

theorem transitionHit_eq (h : call.hit = none) :
    transitionHit rt call = .call (.getHit call.id) fun r =>
      match r with
      | none => .raise (.notFound "Hit does not exist".toList)
      | some h => transitionFrom rt call h.toDict := by
  have hbind : ∀ f : Option Hit → Service (Option (Hit × Nat)),
      getHit call.id >>= f = .call (.getHit call.id) f := fun _ => rfl
  rw [transitionHit, h]
  dsimp only
  rw [hbind]
  congr 1
  funext r
  cases r with
  | none => rfl
  | some h => rfl

theorem settled_finishTransition (call : Call) (id : Str) (updated : Option (Hit × Nat)) :
    Settled handle (!call.requiresBulkActions || (call.trigger rt).toBool)
      (finishTransition rt call id updated) := by
  rw [finishTransition]
  cases call.requiresBulkActions with
  | false => exact .ret _
  | true =>
    cases call.trigger rt with
    | error e => exact .raise e
    | ok t => exact .call (fun _ => rfl) fun _ => .call (fun _ => rfl) fun _ => .ret _

/-- After its write a call reads only. -/
theorem settled_finish (call : Call) (id : Str) :
    Settled handle (!call.requiresBulkActions || (call.trigger rt).toBool)
      (call.finish rt id) :=
  .call (fun _ => rfl) fun updated => settled_finishTransition call id updated

end Calls

/-- The same transition of the same hit, by a call that reads the hit itself. -/
def Call.fresh (call : Call) : Call := { call with id := call.target, hit := none }

/-- A call that returns, with nobody else around. -/
def Performs (rt : Runtime) (call : Call) (w w' : World) : Prop :=
  ∃ r, (transitionHit rt call).run handle w = (.ok r, w')

/-- The hit that a call has computed its updates from, when the version is what it reads next. -/
def Call.seen (call : Call) (answers : List ((c : Command) × c.Answer)) : Option HitDict :=
  match call.hit, answers with
  | some d, [] => some d
  | none, [⟨.getHit _, some h⟩] => some h.toDict
  | _, _ => none

/-- Where the updates of a call come from a hit that has changed since, the workflow gives the same
updates for the hit as it is now. -/
def Unchanged (rt : Runtime) (call : Call) (answers : List ((c : Command) × c.Answer)) (w : World) :
    Prop :=
  ∀ d h ups, call.seen answers = some d → w.hits d.id = some h → call.plan rt d = .ok ups →
    call.plan rt h.toDict = .ok ups

section Steps

variable {rt : Runtime} {call : Call} {w w' : World} {h : Hit} {ups : List OdmUpdateOperation}
  {v : Nat} {t : Thread interface HitError (Option (Hit × Nat))}

/-- A call that has not written yet. -/
inductive Pending (rt : Runtime) (call : Call) (w : World)
    (t : Thread interface HitError (Option (Hit × Nat))) : Prop where
  | start (hhit : call.hit = none) (ha : t.answers = []) (hp : t.prog = transitionHit rt call)
  | planned (d : HitDict) (hd : call.seen t.answers = some d) (hid : d.id = call.target)
      (hp : t.prog = transitionFrom rt call d)
  | ready (h : Hit) (ups : List OdmUpdateOperation) (hplan : call.plan rt h.toDict = .ok ups)
      (hh : w.hits call.target = some h)
      (hp : t.prog = call.write rt call.target ups h (w.versions call.target))
  | stale (h : Hit) (ups : List OdmUpdateOperation) (v : Nat) (hv : v < w.versions call.target)
      (hh : w.hits call.target ≠ none) (hp : t.prog = call.write rt call.target ups h v)

theorem pending_start (hv : t.answers = []) (hp : t.prog = transitionHit rt call) :
    Pending rt call w t := by
  cases hhit : call.hit with
  | none => exact .start hhit hv hp
  | some d =>
    refine .planned d (by simp [Call.seen, hhit, hv]) (by simp [Call.target, hhit]) ?_
    rw [hp, transitionHit_given hhit]

/-- A write of another call leaves a call where it is, if only with a version that is stale. -/
theorem Pending.setHit (hp : Pending rt call w t) (id : Str) (h' : Hit) :
    Pending rt call (w.setHit id h') t := by
  by_cases hid : call.target = id
  · subst hid
    have hv : (w.setHit call.target h').versions call.target = w.versions call.target + 1 :=
      Function.update_self _ _ _
    have hh : (w.setHit call.target h').hits call.target = some h' := Function.update_self _ _ _
    cases hp with
    | start hhit ha hp => exact .start hhit ha hp
    | planned d hd hid hp => exact .planned d hd hid hp
    | ready h ups hplan hh' hp => exact .stale h ups _ (by omega) (by simp [hh]) hp
    | stale h ups v hv' hh' hp => exact .stale h ups v (by omega) (by simp [hh]) hp
  · have hv : (w.setHit id h').versions call.target = w.versions call.target :=
      Function.update_of_ne hid _ _
    have hh : (w.setHit id h').hits call.target = w.hits call.target :=
      Function.update_of_ne hid _ _
    cases hp with
    | start hhit ha hp => exact .start hhit ha hp
    | planned d hd hid hp => exact .planned d hd hid hp
    | ready h ups hplan hh' hp => exact .ready h ups hplan (hh.trans hh') (hv ▸ hp)
    | stale h ups v hv' hh' hp => exact .stale h ups v (hv ▸ hv') (hh ▸ hh') hp

theorem write_eq (id : Str) :
    call.write rt id ups h v =
      .call (.update id (finalOperations ups h call.uname (some v)) (some v)) fun r =>
        (fromExcept r).bind fun _ => call.finish rt id := rfl

theorem handle_update_ok {id : Str} {ss : List Statement} {h' : Hit} (hh : w.hits id = some h)
    (hfold : ss.foldlM (Statement.apply w.time) h = .ok h') :
    handle (.update id ss (some (w.versions id))) w = (.ok (), w.setHit id h') := by
  simp [handle, hh, hfold]

theorem handle_update_error {id : Str} {ss : List Statement} {e : HitError}
    (hh : w.hits id = some h) (hfold : ss.foldlM (Statement.apply w.time) h = .error e)
    (version : Option Nat) : handle (.update id ss version) w = (.error e, w) := by
  simp [handle, hh, hfold]

theorem handle_update_stale {id : Str} {ss : List Statement} (hh : w.hits id ≠ none)
    (hv : v < w.versions id) : ∃ e, handle (.update id ss (some v)) w = (.error e, w) := by
  rw [handle]
  split
  · exact ⟨_, rfl⟩
  · rw [if_neg hh, if_neg (by simp; omega)]
    exact ⟨_, rfl⟩

/-- A write with the version of the hit is what the call does on its own. -/
theorem performs_fresh {h' : Hit} (hver : call.version = none) (hk : w.Keyed)
    (hplan : call.plan rt h.toDict = .ok ups) (hh : w.hits call.target = some h)
    (hfold : (finalOperations ups h call.uname (some (w.versions call.target))).foldlM
      (Statement.apply w.time) h = .ok h')
    (hset : Settled handle true (call.finish rt call.target)) :
    Performs rt call.fresh w (w.setHit call.target h') := by
  have hid : h.id = call.target := hk _ _ hh
  obtain ⟨r, hr⟩ := hset.run (w.setHit call.target h')
  refine ⟨r, ?_⟩
  have hread : (getHit call.target).run handle w = (.ok (some h), w) := by
    rw [← hh]
    rfl
  have hversion : handle (.getVersion call.target) w =
      (some (h, w.versions call.target), w) := by
    rw [handle, hh]
    rfl
  have hfrom := @transitionFrom_eq rt call.fresh h.toDict _ hver hplan
  have hdid : h.toDict.id = call.target := hid
  rw [hdid] at hfrom
  rw [transitionHit]
  show ((getHit call.target >>= _).run handle w) = _
  rw [run_bind_ok hread]
  show (transitionFrom rt call.fresh h.toDict).run handle w = _
  rw [hfrom, Prog.run, hversion]
  show (call.write rt call.target ups h (w.versions call.target)).run handle w = _
  rw [write_eq, Prog.run, handle_update_ok hh hfold]
  exact hr

/-- What one command of a call that has not written yet comes to. -/
inductive Advance (rt : Runtime) (call : Call) (w : World) (w' : World)
    (t' : Thread interface HitError (Option (Hit × Nat))) : Prop where
  | fails (hset : Settled handle false t'.prog)
  | reads (hw : w' = w) (hp : Pending rt call w t')
  | writes (h' : Hit) (hid : h'.id = call.target) (hw : w' = w.setHit call.target h')
      (hp : Performs rt call.fresh w w') (hset : Settled handle true t'.prog)

theorem Pending.step (hp : Pending rt call w t) (hver : call.version = none) (hk : w.Keyed)
    (hsame : Unchanged rt call t.answers w) :
    Advance rt call w (t.step handle w).2 (t.step handle w).1 := by
  cases hp with
  | start hhit ha hp =>
    rw [transitionHit_eq hhit] at hp
    rw [Thread.step_call hp]
    cases hh : w.hits call.id with
    | none =>
      refine .fails ?_
      simp only [handle, hh]
      exact .raise _
    | some h =>
      refine .reads rfl (.planned h.toDict ?_ ?_ ?_)
      · simp [Call.seen, hhit, ha, handle, hh]
      · have hid : h.id = call.id := hk _ _ hh
        rw [Call.target, hhit]
        exact hid
      · simp only [handle, hh]
  | planned d hd hid hp =>
    cases hplan : call.plan rt d with
    | error e =>
      rw [transitionFrom_error hplan] at hp
      have hset : Settled handle false t.prog := hp ▸ .raise e
      exact .fails (hset.step w)
    | ok ups =>
      rw [transitionFrom_eq hver hplan, hid] at hp
      rw [Thread.step_call hp]
      cases hh : w.hits call.target with
      | none =>
        refine .fails ?_
        simp only [handle, hh]
        exact .raise _
      | some h =>
        have hnow := hsame d h ups hd (hid ▸ hh) hplan
        refine .reads rfl (.ready h ups hnow hh ?_)
        simp only [handle, hh, Option.map_some]
  | ready h ups hplan hh hp =>
    rw [write_eq] at hp
    rw [Thread.step_call hp]
    cases hfold : (finalOperations ups h call.uname (some (w.versions call.target))).foldlM
        (Statement.apply w.time) h with
    | error e =>
      rw [handle_update_error hh hfold]
      exact .fails (.raise e)
    | ok h' =>
      rw [handle_update_ok hh hfold]
      have hset := @settled_finish rt call call.target
      generalize (!call.requiresBulkActions || (call.trigger rt).toBool) = b at hset
      cases b with
      | false => exact .fails hset
      | true =>
        have hid : h'.id = call.target := (id_after hfold).trans (hk _ _ hh)
        exact .writes h' hid rfl (performs_fresh hver hk hplan hh hfold hset) hset
  | stale h ups v hv hh hp =>
    rw [write_eq] at hp
    rw [Thread.step_call hp]
    obtain ⟨e, he⟩ := @handle_update_stale _ _ _ (finalOperations ups h call.uname (some v)) hh hv
    rw [he]
    exact .fails (.raise e)

end Steps

section Runs

variable {ι : Type} [DecidableEq ι] (rt : Runtime) (calls : ι → Call) (w₀ : World)

/-- The calls at their start. -/
def startCalls : Pool ι interface HitError (Option (Hit × Nat)) World :=
  Pool.start (fun i => transitionHit rt (calls i)) w₀

/-- The call whose turn it is computed its updates from a hit that still gives them. -/
def Steady (p : Pool ι interface HitError (Option (Hit × Nat)) World) (i : ι) : Prop :=
  Unchanged rt (calls i) (p.threads i).answers p.state

/-- The calls that have written did so one after the other, and the others have not written. -/
structure InOrder (done : List ι) (p : Pool ι interface HitError (Option (Hit × Nat)) World) :
    Prop where
  keyed : p.state.Keyed
  nodup : done.Nodup
  serial : Serial (fun i => Performs rt (calls i).fresh) w₀ done p.state
  ended : ∀ i ∈ done, Settled handle true (p.threads i).prog
  pending : ∀ i, i ∉ done → Pending rt (calls i) p.state (p.threads i)

/-- The calls are in order, unless one of them is failing. -/
def Orderly (p : Pool ι interface HitError (Option (Hit × Nat)) World) : Prop :=
  (∃ i, Settled handle false (p.threads i).prog) ∨ ∃ done, InOrder rt calls w₀ done p

variable {rt} {calls} {w₀} {p : Pool ι interface HitError (Option (Hit × Nat)) World}
  {done : List ι} {i : ι}

theorem settled_step (b : Bool) (i j : ι) (h : Settled handle b (p.threads j).prog) :
    Settled handle b ((p.step handle i).threads j).prog := by
  by_cases hji : j = i
  · subst hji
    rw [Pool.step_self]
    exact h.step p.state
  · rw [Pool.step_of_ne hji]
    exact h

/-- A call that has not written reads: all that changes is the call. -/
theorem InOrder.reads (ho : InOrder rt calls w₀ done p) (hi : i ∉ done)
    (hw : ((p.threads i).step handle p.state).2 = p.state)
    (hp : Pending rt (calls i) p.state ((p.threads i).step handle p.state).1) :
    InOrder rt calls w₀ done (p.step handle i) := by
  have hstate : (p.step handle i).state = p.state := hw
  refine ⟨hstate ▸ ho.keyed, ho.nodup, hstate ▸ ho.serial, fun j hj => ?_, fun j hj => ?_⟩
  · exact settled_step true i j (ho.ended j hj)
  · rw [hstate]
    by_cases hji : j = i
    · subst hji
      rw [Pool.step_self]
      exact hp
    · rw [Pool.step_of_ne hji]
      exact ho.pending j hj

/-- A call that writes is the next in the order. -/
theorem InOrder.writes (ho : InOrder rt calls w₀ done p) (hi : i ∉ done) {h' : Hit}
    (hw : ((p.threads i).step handle p.state).2 = p.state.setHit (calls i).target h')
    (hp : Performs rt (calls i).fresh p.state ((p.threads i).step handle p.state).2)
    (hset : Settled handle true ((p.threads i).step handle p.state).1.prog)
    (hid : h'.id = (calls i).target) : InOrder rt calls w₀ (done ++ [i]) (p.step handle i) := by
  have hstate : (p.step handle i).state = p.state.setHit (calls i).target h' := hw
  refine ⟨?_, ?_, ho.serial.snoc hp, fun j hj => ?_, fun j hj => ?_⟩
  · intro k h hk
    rw [hstate, World.setHit_hits] at hk
    by_cases hkt : k = (calls i).target
    · rw [hkt, Function.update_self] at hk
      rw [← Option.some.inj hk, hid, hkt]
    · rw [Function.update_of_ne hkt] at hk
      exact ho.keyed k h hk
  · exact List.nodup_append_comm.mp (List.nodup_cons.mpr ⟨hi, ho.nodup⟩)
  · by_cases hji : j = i
    · subst hji
      rw [Pool.step_self]
      exact hset
    · have hdone : j ∈ done := by simpa [hji] using hj
      exact settled_step true i j (ho.ended j hdone)
  · have hji : j ∉ done ∧ j ≠ i := by simpa using hj
    rw [hstate, Pool.step_of_ne hji.2]
    exact (ho.pending j hji.1).setHit _ _

theorem Orderly.step (hver : ∀ i, (calls i).version = none) (ho : Orderly rt calls w₀ p)
    (hsteady : Steady rt calls p i) : Orderly rt calls w₀ (p.step handle i) := by
  cases ho with
  | inl hfail =>
    obtain ⟨j, hj⟩ := hfail
    exact .inl ⟨j, settled_step false i j hj⟩
  | inr horder =>
    obtain ⟨done, ho⟩ := horder
    by_cases hi : i ∈ done
    · -- the call has written, and only reads
      have hset := ho.ended i hi
      have hstate : (p.step handle i).state = p.state := hset.step_state p.state
      refine .inr ⟨done, hstate ▸ ho.keyed, ho.nodup, hstate ▸ ho.serial, fun j hj => ?_,
        fun j hj => ?_⟩
      · exact settled_step true i j (ho.ended j hj)
      · have hji : j ≠ i := fun hji => hj (hji ▸ hi)
        rw [hstate, Pool.step_of_ne hji]
        exact ho.pending j hj
    · cases (ho.pending i hi).step (hver i) ho.keyed hsteady with
      | fails hset => exact .inl ⟨i, by rwa [Pool.step_self]⟩
      | reads hw hp => exact .inr ⟨done, ho.reads hi hw hp⟩
      | writes h' hid hw hp hset => exact .inr ⟨done ++ [i], ho.writes hi hw hp hset hid⟩

omit [DecidableEq ι] in
theorem orderly_start (hk : w₀.Keyed) : Orderly rt calls w₀ (startCalls rt calls w₀) :=
  .inr ⟨[], hk, List.nodup_nil, rfl, by simp, fun _ _ => pending_start rfl rfl⟩

/-- Calls that have all returned, in the order in which they wrote. -/
theorem Orderly.returned (hver : ∀ i, (calls i).version = none) (ho : Orderly rt calls w₀ p) (hret : ∀ i, p.Returned i) :
    ∃ done, (∀ i, i ∈ done) ∧ InOrder rt calls w₀ done p := by
  cases ho with
  | inl hfail =>
    obtain ⟨i, hi⟩ := hfail
    obtain ⟨a, ha⟩ := hret i
    exact absurd ha (hi.not_ret a)
  | inr horder =>
    obtain ⟨done, ho⟩ := horder
    refine ⟨done, fun i => ?_, ho⟩
    by_contra hi
    obtain ⟨a, ha⟩ := hret i
    have hcall : ∀ c k, (p.threads i).prog ≠ .call c k := by
      intro c k hp
      rw [ha] at hp
      contradiction
    cases ho.pending i hi with
    | start hhit ht hp => exact hcall _ _ (hp.trans (transitionHit_eq hhit))
    | planned d hd hid hp =>
      cases hplan : (calls i).plan rt d with
      | error e =>
        rw [transitionFrom_error hplan, ha] at hp
        contradiction
      | ok ups => exact hcall _ _ (hp.trans (transitionFrom_eq (hver i) hplan))
    | ready h ups hplan hh hp => exact hcall _ _ (hp.trans (write_eq _))
    | stale h ups v hv hh hp => exact hcall _ _ (hp.trans (write_eq _))

end Runs

/-- What transitions keep of a hit: an assessed hit is resolved, and nobody has two votes. -/
structure Sound (h : Hit) : Prop where
  assessed : ∀ a, h.assessment = some a → h.status = .resolved
  votes : h.votes.Single

theorem Performs.sound {rt : Runtime} {call : Call} {w w' : World} {k : Str}
    (hp : Performs rt call w w') (hhit : call.hit = none) (hk : w.Keyed)
    (hs : ∀ h, w.hits k = some h → Sound h) :
    w'.Keyed ∧ ∀ h, w'.hits k = some h → Sound h := by
  obtain ⟨r, hr⟩ := hp
  rcases (ends_transitionHit rt call w).1 r w' hr with hsame | ⟨d, hd, hw⟩
  · rw [hsame]
    exact ⟨hk, hs⟩
  · refine ⟨hw.keyed hk, ?_⟩
    cases hw with
    | same => exact hs
    | update h h' cur version ups hplan hh hfold =>
      intro h₁ hh₁
      rw [World.setHit_hits] at hh₁
      by_cases hkd : k = d.id
      · subst hkd
        rw [Function.update_self] at hh₁
        obtain rfl := Option.some.inj hh₁
        -- the workflow has seen the hit itself
        rw [Call.dict, hhit] at hd
        obtain ⟨h₀, hh₀, rfl⟩ := Option.map_eq_some_iff.mp hd
        have hid : h₀.id = call.id := hk _ _ hh₀
        have hsame : w.hits call.id = some h := by rwa [Hit.toDict, hid] at hh
        obtain rfl := Option.some.inj (hh₀.symm.trans hsame)
        have hsound := hs h₀ hh
        refine ⟨fun a ha => ?_, single_after hplan hfold hsound.votes⟩
        cases outcome hplan (s := h₀.status) rfl hfold with
        | assessed a' ha' he hst => exact hst
        | reopened ha' he hst => simp [ha'] at ha
        | escalated value ht he ha' hst =>
          rw [hst]
          exact hsound.assessed a (ha'.symm.trans ha)
        | moved ha' he hst => exact hst (hsound.assessed a (ha'.symm.trans ha))
      · rw [Function.update_of_ne hkd] at hh₁
        exact hs h₁ hh₁

/-- Two that are all, each of them once. -/
theorem eq_pair {done : List Bool} (hd : done.Nodup) (hall : ∀ i, i ∈ done) :
    ∃ i, done = [i, !i] := by
  have hperm : done.Perm [false, true] :=
    (List.perm_ext_iff_of_nodup hd (by decide)).mpr fun i => by simp [hall]
  have hlen : done.length = 2 := hperm.length_eq
  obtain ⟨i, j, rfl⟩ := List.length_eq_two.mp hlen
  have hij : i ≠ j := by simpa using hd
  exact ⟨i, by cases i <;> cases j <;> simp_all⟩

/-- Two calls without a version, each of which computes its updates from a hit that still gives them
when it reads the version: if both return, one of them ran before the other. -/
theorem transitions_serialise (rt : Runtime) (calls : Bool → Call)
    (hver : ∀ i, (calls i).version = none) (w₀ : World) (hk : w₀.Keyed) (schedule : List Bool)
    (hsteady : Along (Pool.step handle) (Steady rt calls) (startCalls rt calls w₀) schedule)
    (hret : ∀ i, (run (Pool.step handle) (startCalls rt calls w₀) schedule).Returned i) :
    (∃ i w₁, Performs rt (calls i).fresh w₀ w₁ ∧ Performs rt (calls !i).fresh w₁
      (run (Pool.step handle) (startCalls rt calls w₀) schedule).state) ∧
    ∀ k, (∀ h, w₀.hits k = some h → Sound h) → ∀ h,
      (run (Pool.step handle) (startCalls rt calls w₀) schedule).state.hits k = some h →
        Sound h := by
  have horderly := inv_run (Orderly rt calls w₀) (fun p i ho hs => ho.step hver hs)
    (orderly_start hk) hsteady
  obtain ⟨done, hall, ho⟩ := Orderly.returned hver horderly hret
  constructor
  · obtain ⟨i, hi⟩ := eq_pair ho.nodup hall
    have hserial := ho.serial
    rw [hi] at hserial
    obtain ⟨w₁, hfirst, w₂, hsecond, heq⟩ := hserial
    rw [heq]
    exact ⟨i, w₁, hfirst, hsecond⟩
  · intro k hs
    have hinv : World.Keyed (run (Pool.step handle) (startCalls rt calls w₀) schedule).state ∧
        ∀ h, (run (Pool.step handle) (startCalls rt calls w₀) schedule).state.hits k = some h →
          Sound h :=
      ho.serial.inv ⟨hk, hs⟩
        fun i t t' hinv hp => hp.sound rfl hinv.1 hinv.2
    exact hinv.2

/-- Two users that vote at the same time. -/
def twoVotes : Bool → Call
  | false =>
    { id := ['h'], transition := .vote, uname := ['u'],
      kwargs := { vote := some (some Vote.malicious.value), email := some (some ['a']) } }
  | true =>
    { id := ['h'], transition := .vote, uname := ['v'],
      kwargs := { vote := some (some Vote.benign.value), email := some (some ['b']) } }

/-- Both read the hit first, and then the one writes after the other. -/
def voteSchedule : List Bool := [false, true, false, false, true, true, false, true]

theorem transitions_serialise_votes :
    ((run (Pool.step handle) (startCalls .ascii twoVotes (oneHit { id := ['h'] }))
      voteSchedule).state.hits ['h']).map (·.votes) =
        some { malicious := [['a']], benign := [['b']] } ∧
    ∃ i w₁, Performs .ascii (twoVotes i).fresh (oneHit { id := ['h'] }) w₁ ∧
      Performs .ascii (twoVotes !i).fresh w₁
        (run (Pool.step handle) (startCalls .ascii twoVotes (oneHit { id := ['h'] }))
          voteSchedule).state := by
  refine ⟨rfl, (transitions_serialise .ascii twoVotes (by decide) (oneHit { id := ['h'] })
    (keyed_oneHit _) voteSchedule ?_ ?_).1⟩
  · have hno : ∀ (p : Pool Bool interface HitError (Option (Hit × Nat)) World) i,
        (twoVotes i).seen (p.threads i).answers = none → Steady .ascii twoVotes p i := by
      intro p i hnone d h ups hd
      rw [hnone] at hd
      contradiction
    have hyes : ∀ (p : Pool Bool interface HitError (Option (Hit × Nat)) World) i d₀ h₀,
        (twoVotes i).seen (p.threads i).answers = some d₀ → p.state.hits d₀.id = some h₀ →
        (twoVotes i).plan .ascii h₀.toDict = (twoVotes i).plan .ascii d₀ → Steady .ascii twoVotes p i := by
      intro p i d₀ h₀ hd₀ hh₀ hplan d h ups hd hh hups
      obtain rfl := Option.some.inj (hd₀.symm.trans hd)
      obtain rfl := Option.some.inj (hh₀.symm.trans hh)
      exact hplan.trans hups
    exact ⟨hno _ _ rfl, hno _ _ rfl, hyes _ _ _ _ rfl rfl rfl, hno _ _ rfl,
      hyes _ _ _ _ rfl rfl rfl, hno _ _ rfl, hno _ _ rfl, hno _ _ rfl, trivial⟩
  · intro i
    cases i with
    | false => exact ⟨_, rfl⟩
    | true => exact ⟨_, rfl⟩

/-- A user takes a hit over while another one assesses it. -/
def takeAndAssess : Bool → Call
  | false => { id := ['h'], transition := .assignToMe, uname := ['u'] }
  | true =>
    { id := ['h'], transition := .assess, uname := ['v'],
      kwargs := { assessment := some (some Assessment.compromise.value) } }

/-- The assessment runs between the two reads of the other call. -/
def assessBetween : List Bool :=
  [false, true, true, true, true, true, true, false, false, false]

/-- Both calls return, and the hit is assessed and in progress. -/
theorem assessed_in_progress :
    (∀ i, (run (Pool.step handle) (startCalls .ascii takeAndAssess (oneHit { id := ['h'] }))
      assessBetween).Returned i) ∧
    ((run (Pool.step handle) (startCalls .ascii takeAndAssess (oneHit { id := ['h'] }))
      assessBetween).state.hits ['h']).map (fun h => (h.assessment, h.status)) =
        some (some .compromise, .inProgress) ∧
    ¬ ∃ i w₁, Performs .ascii (takeAndAssess i).fresh (oneHit { id := ['h'] }) w₁ ∧
      Performs .ascii (takeAndAssess !i).fresh w₁
        (run (Pool.step handle) (startCalls .ascii takeAndAssess (oneHit { id := ['h'] }))
          assessBetween).state := by
  have hend : ((run (Pool.step handle)
      (startCalls .ascii takeAndAssess (oneHit { id := ['h'] })) assessBetween).state.hits
        ['h']).map (fun h => (h.assessment, h.status)) = some (some .compromise, .inProgress) := rfl
  refine ⟨fun i => ?_, hend, fun ⟨i, w₁, hfirst, hsecond⟩ => ?_⟩
  · cases i with
    | false => exact ⟨_, rfl⟩
    | true => exact ⟨_, rfl⟩
  · have hstart : ∀ h, (oneHit { id := ['h'] }).hits ['h'] = some h → Sound h := by
      intro h hh
      obtain rfl := Option.some.inj hh
      refine ⟨by simp, ⟨fun v => ?_, fun v v' x hx => ?_⟩⟩
      · cases v <;> exact List.nodup_nil
      · cases v <;> contradiction
    obtain ⟨hk, hmid⟩ := hfirst.sound rfl (keyed_oneHit _) hstart
    obtain ⟨-, hlast⟩ := hsecond.sound rfl hk hmid
    obtain ⟨h, hh, heq⟩ := Option.map_eq_some_iff.mp hend
    obtain ⟨ha, hs⟩ := Prod.mk.inj heq
    have hres := (hlast h hh).assessed _ ha
    rw [hs] at hres
    contradiction

end Howler.Hits
