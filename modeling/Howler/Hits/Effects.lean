import Howler.Hits.Service
import Howler.Hits.Table

namespace Howler.Hits

open Python Workflow

section Statements

variable {now : Datetime} {h h' : Hit} {op : OdmUpdateOperation} {ss : List Statement}

/-- What a script makes of one field: the last statement that writes it counts. -/
theorem foldlM_last {α : Type} {π : Hit → α} {P : Statement → Prop} {R : Statement → α → Prop}
    (hkeep : ∀ st h h', ¬ P st → st.apply now h = .ok h' → π h' = π h)
    (hset : ∀ st h h', P st → st.apply now h = .ok h' → R st (π h'))
    (hfold : ss.foldlM (Statement.apply now) h = .ok h') :
    (∃ st ∈ ss, P st ∧ R st (π h')) ∨ (∀ st ∈ ss, ¬ P st) ∧ π h' = π h := by
  induction ss generalizing h with
  | nil =>
    obtain rfl := Except.ok.inj hfold
    exact .inr ⟨by simp, rfl⟩
  | cons st ss ih =>
    rw [List.foldlM_cons] at hfold
    obtain ⟨mid, hmid, hfold⟩ := bind_eq_ok.mp hfold
    cases ih hfold with
    | inl hex =>
      obtain ⟨st', hmem, hst'⟩ := hex
      exact .inl ⟨st', List.mem_cons_of_mem _ hmem, hst'⟩
    | inr hno =>
      by_cases hP : P st
      · refine .inl ⟨st, List.mem_cons_self, hP, ?_⟩
        rw [hno.2]
        exact hset st h mid hP hmid
      · exact .inr ⟨List.forall_mem_cons.mpr ⟨hP, hno.1⟩, hno.2.trans (hkeep st h mid hP hmid)⟩

/-- What one operation does to a hit. -/
inductive Effect (op : OdmUpdateOperation) (h : Hit) : Hit → Prop where
  | status (s : Status) (hk : op.key = .status)
      (hs : checkEnum Status.list Status.value .opened op.value = some s) :
      Effect op h { h with status := s }
  | escalation (e : Escalation) (hk : op.key = .escalation)
      (he : checkEnum Escalation.list Escalation.value .hit op.value = some e) :
      Effect op h { h with escalation := e }
  | assessment (a : Option Assessment) (hk : op.key = .assessment)
      (ha : checkOptionalEnum Assessment.list Assessment.value op.value = some a) :
      Effect op h { h with assessment := a }
  | rationale (r : Option Str) (hk : op.key = .rationale) : Effect op h { h with rationale := r }
  | triaged (t : Option Datetime) (hk : op.key = .triaged) : Effect op h { h with triaged := t }
  | assignment (s : Str) (hk : op.key = .assignment) : Effect op h { h with assignment := s }
  | votes (v : Vote) (vs : Votes) (hk : op.key = .votes v)
      (hvs : ∃ s, op.value = some s ∧ (vs = h.votes.append v s ∧ op.operation = .append ∨
        vs = h.votes.appendIfMissing v s ∧ op.operation = .appendIfMissing ∨
        vs = h.votes.remove v s ∧ op.operation = .remove)) :
      Effect op h { h with votes := vs }

theorem effect_of_apply (ha : op.apply now h = some h') : Effect op h h' := by
  unfold OdmUpdateOperation.apply at ha
  split at ha
  case h_1 hk =>
    obtain ⟨s, hs, rfl⟩ := Option.map_eq_some_iff.mp ha
    exact .status s hk hs
  case h_2 hk =>
    obtain ⟨e, he, rfl⟩ := Option.map_eq_some_iff.mp ha
    exact .escalation e hk he
  case h_3 hk =>
    obtain ⟨a, hcheck, rfl⟩ := Option.map_eq_some_iff.mp ha
    exact .assessment a hk hcheck
  case h_4 hk => exact Option.some.inj ha ▸ .rationale _ hk
  case h_5 hk =>
    obtain ⟨t, -, rfl⟩ := Option.map_eq_some_iff.mp ha
    exact .triaged t hk
  case h_6 hk => exact Option.some.inj ha ▸ .assignment _ hk
  case h_7 v hk =>
    split at ha
    · next s ho hv => exact Option.some.inj ha ▸ .votes v _ hk ⟨s, hv, .inl ⟨rfl, ho⟩⟩
    · next s ho hv => exact Option.some.inj ha ▸ .votes v _ hk ⟨s, hv, .inr (.inl ⟨rfl, ho⟩)⟩
    · next s ho hv => exact Option.some.inj ha ▸ .votes v _ hk ⟨s, hv, .inr (.inr ⟨rfl, ho⟩)⟩
    · contradiction

/-- What a statement does to a hit. -/
theorem statement_cases {st : Statement} (ha : st.apply now h = .ok h') :
    (∃ op, st = .operation op ∧ Effect op h h') ∨
      ∃ entry, st = .log entry ∧ h' = { h with log := h.log ++ [{ entry with timestamp := now }] } := by
  cases st with
  | operation op =>
    rw [Statement.apply] at ha
    split at ha
    · contradiction
    · next h₁ happly =>
      obtain rfl := Except.ok.inj ha
      exact .inl ⟨op, rfl, effect_of_apply happly⟩
  | log entry => exact .inr ⟨entry, rfl, (Except.ok.inj ha).symm⟩

/-- A field after a script: the value of an operation on it, if there is one. -/
theorem field_after {α : Type} {π : Hit → α} {f : Field} {check : Option Str → Option α}
    (hkeep : ∀ op h h', op.key ≠ f → Effect op h h' → π h' = π h)
    (hlog : ∀ h l, π { h with log := l } = π h)
    (hset : ∀ op h h', op.key = f → Effect op h h' → check op.value = some (π h'))
    (hfold : ss.foldlM (Statement.apply now) h = .ok h') :
    (∃ op, .operation op ∈ ss ∧ op.key = f ∧ check op.value = some (π h')) ∨
      (∀ op, .operation op ∈ ss → op.key ≠ f) ∧ π h' = π h := by
  have hlast := foldlM_last (π := π) (P := fun st => ∃ op, st = .operation op ∧ op.key = f)
    (R := fun st x => ∃ op, st = .operation op ∧ op.key = f ∧ check op.value = some x)
    (fun st h h' hno ha => ?_) (fun st h h' hyes ha => ?_) hfold
  · cases hlast with
    | inl hlast =>
      obtain ⟨_, hmem, -, op, rfl, hop⟩ := hlast
      exact .inl ⟨op, hmem, hop⟩
    | inr hlast => exact .inr ⟨fun op hop hk => hlast.1 _ hop ⟨op, rfl, hk⟩, hlast.2⟩
  · cases statement_cases ha with
    | inl hop =>
      obtain ⟨op, rfl, heff⟩ := hop
      exact hkeep op h h' (fun hk => hno ⟨op, rfl, hk⟩) heff
    | inr hentry =>
      obtain ⟨entry, -, rfl⟩ := hentry
      exact hlog h _
  · obtain ⟨op, rfl, hk⟩ := hyes
    cases statement_cases ha with
    | inl hop =>
      obtain ⟨op', heq, heff⟩ := hop
      obtain rfl := Statement.operation.inj heq
      exact ⟨op, rfl, hk, hset op h h' hk heff⟩
    | inr hentry =>
      obtain ⟨entry, heq, -⟩ := hentry
      contradiction

theorem status_after (hfold : ss.foldlM (Statement.apply now) h = .ok h') :
    (∃ op, .operation op ∈ ss ∧ op.key = .status ∧
      checkEnum Status.list Status.value .opened op.value = some h'.status) ∨
    (∀ op, .operation op ∈ ss → op.key ≠ .status) ∧ h'.status = h.status := by
  refine field_after (fun op h h' hk heff => ?_) (fun _ _ => rfl) (fun op h h' hk heff => ?_) hfold
  · cases heff <;> first | rfl | contradiction
  · cases heff <;> simp_all

theorem escalation_after (hfold : ss.foldlM (Statement.apply now) h = .ok h') :
    (∃ op, .operation op ∈ ss ∧ op.key = .escalation ∧
      checkEnum Escalation.list Escalation.value .hit op.value = some h'.escalation) ∨
    (∀ op, .operation op ∈ ss → op.key ≠ .escalation) ∧ h'.escalation = h.escalation := by
  refine field_after (fun op h h' hk heff => ?_) (fun _ _ => rfl) (fun op h h' hk heff => ?_) hfold
  · cases heff <;> first | rfl | contradiction
  · cases heff <;> simp_all

theorem assessment_after (hfold : ss.foldlM (Statement.apply now) h = .ok h') :
    (∃ op, .operation op ∈ ss ∧ op.key = .assessment ∧
      checkOptionalEnum Assessment.list Assessment.value op.value = some h'.assessment) ∨
    (∀ op, .operation op ∈ ss → op.key ≠ .assessment) ∧ h'.assessment = h.assessment := by
  refine field_after (fun op h h' hk heff => ?_) (fun _ _ => rfl) (fun op h h' hk heff => ?_) hfold
  · cases heff <;> first | rfl | contradiction
  · cases heff <;> simp_all

theorem id_after (hfold : ss.foldlM (Statement.apply now) h = .ok h') : h'.id = h.id := by
  have hlast := foldlM_last (π := Hit.id) (P := fun _ => False) (R := fun _ _ => False)
    (fun st h h' _ ha => ?_) (fun _ _ _ hfalse => hfalse.elim) hfold
  · exact hlast.elim (fun hex => (hex.elim fun _ hst => hst.2.1.elim)) (·.2)
  · cases statement_cases ha with
    | inl hop =>
      obtain ⟨op, -, heff⟩ := hop
      cases heff <;> rfl
    | inr hentry =>
      obtain ⟨entry, -, rfl⟩ := hentry
      rfl

theorem mem_finalOperations {ops : List OdmUpdateOperation} {user : Str} {version : Option Nat} :
    .operation op ∈ finalOperations ops h user version ↔ op ∈ ops := by
  rw [finalOperations, List.mem_flatMap]
  constructor
  · rintro ⟨op', hmem, hop⟩
    split at hop
    · simp at hop
      exact hop ▸ hmem
    · simp at hop
      exact hop ▸ hmem
  · intro hmem
    refine ⟨op, hmem, ?_⟩
    split <;> simp

end Statements

section Plans

variable {rt : Runtime} {call : Call} {d : HitDict} {s : Status} {ups us : List OdmUpdateOperation}
  {name : Str} {args : Arguments}

theorem plan_ok (h : call.plan rt d = .ok ups) (hs : d.status = s.value) :
    ∃ tr, Row rt s call.transition tr ∧ Generates .status tr (call.arguments d) ups := by
  obtain ⟨wf, hwf, h⟩ := bind_eq_ok.mp h
  obtain rfl := Except.ok.inj ((getHitWorkflow_eq rt).symm.trans hwf)
  rw [hs] at h
  obtain ⟨tr, hfind, hgen⟩ := transition_ok h
  exact ⟨tr, find_hitWorkflow rt hfind, hgen⟩

/-- The updates of a vote are about votes, and maybe about the assignment and the status. -/
theorem voteUpdates_keys {votes : Votes} {email vote : Str}
    (h : voteUpdates votes email vote = .ok us) : ∀ op ∈ us, ∃ v, op.key = .votes v := by
  rw [voteUpdates] at h
  split at h
  · obtain rfl := Except.ok.inj h
    intro op hop
    obtain ⟨v, -, rfl⟩ := List.mem_map.mp hop
    exact ⟨v, rfl⟩
  · obtain ⟨field, hfield, h⟩ := bind_eq_ok.mp h
    obtain rfl := Except.ok.inj h
    intro op hop
    cases List.mem_append.mp hop with
    | inl hop =>
      obtain ⟨v, -, rfl⟩ := List.mem_map.mp hop
      exact ⟨v, rfl⟩
    | inr hop =>
      obtain rfl := List.mem_singleton.mp hop
      rw [voteField] at hfield
      split at hfield
      · contradiction
      · exact ⟨_, (Except.ok.inj hfield).symm⟩

theorem voteHit_ok (h : voteHit rt name args = .ok us) : ∃ email vote base,
    voteUpdates args.hit.votes email vote = .ok base ∧ (us = base ∨ us = base ++
      [update .assignment (some "unassigned".toList),
        update .status (some Status.opened.value)]) := by
  unfold voteHit at h
  split at h
  · contradiction
  · contradiction
  · split at h
    · contradiction
    · next email _ =>
      split at h
      · contradiction
      · next vote _ =>
        obtain ⟨base, hbase, h⟩ := bind_eq_ok.mp h
        refine ⟨email, vote, base, hbase, ?_⟩
        split at h
        · exact .inl (Except.ok.inj h).symm
        · split at h
          · exact .inr (Except.ok.inj h).symm
          · contradiction

theorem plain_keys {action : Str → Arguments → Except HitError (List OdmUpdateOperation)}
    (ha : Plain rt action) (h : action name args = .ok us) :
    ∀ op ∈ us, op.key ≠ .escalation ∧ op.key ≠ .assessment := by
  rcases ha with rfl | rfl | rfl | rfl
  · unfold assignHit at h
    split at h
    · contradiction
    · split at h
      · contradiction
      · obtain rfl := Except.ok.inj h
        simp [update]
  · unfold checkOwnership at h
    split at h
    · contradiction
    · obtain rfl := Except.ok.inj h
      simp
  · unfold unassignHit at h
    split at h
    · obtain rfl := Except.ok.inj h
      simp [update]
    · contradiction
  · obtain ⟨email, vote, base, hbase, h⟩ := voteHit_ok h
    have hvotes := voteUpdates_keys hbase
    intro op hop
    cases h with
    | inl h =>
      obtain ⟨v, hv⟩ := hvotes op (h ▸ hop)
      simp [hv]
    | inr h =>
      rw [h, List.mem_append] at hop
      cases hop with
      | inl hop =>
        obtain ⟨v, hv⟩ := hvotes op hop
        simp [hv]
      | inr hop =>
        simp only [List.mem_cons, List.not_mem_nil, or_false] at hop
        rcases hop with rfl | rfl
        · simp [update]
        · simp [update]

theorem enumName_value (rt : Runtime) (a : Assessment) : enumName rt a.value = a.name := by
  cases a <;> exact (congrArg (replace ['-'] ['_']) (rt.upper_eq_map rfl)).trans rfl

theorem assessmentEscalation_value (rt : Runtime) (a : Assessment) :
    assessmentEscalation rt a.value = .ok a.escalation := by
  rw [assessmentEscalation, enumName_value]
  cases a <;> rfl

/-- The escalation that a promotion or a demotion sets. -/
def Call.newEscalation (call : Call) : Option (Option Str) :=
  match call.transition with
  | .promote => some (call.kwargs.escalation.getD (some Escalation.alert.value))
  | .demote => some (call.kwargs.escalation.getD (some Escalation.hit.value))
  | _ => none

/-- What an allowed transition makes of the status, the escalation and the assessment. -/
inductive Outcome (call : Call) (s : Status) (h h' : Hit) : Prop where
  | assessed (a : Assessment) (ha : h'.assessment = some a) (he : h'.escalation = a.escalation)
      (hs : h'.status = .resolved)
  | reopened (ha : h'.assessment = none) (he : h'.escalation = .hit) (hs : h'.status = .inProgress)
  | escalated (value : Option Str) (ht : call.newEscalation = some value)
      (he : checkEnum Escalation.list Escalation.value .hit value = some h'.escalation)
      (ha : h'.assessment = h.assessment) (hs : h'.status = h.status)
  | moved (ha : h'.assessment = h.assessment) (he : h'.escalation = h.escalation)
      (hs : s = .resolved → h'.status = .resolved)

theorem eq_of_key_eq (h : (ups.map (·.key)).Nodup) {op op' : OdmUpdateOperation}
    (hop : op ∈ ups) (hop' : op' ∈ ups) (hk : op.key = op'.key) : op = op' :=
  List.inj_on_of_nodup_map h hop hop' hk

theorem assessHit_ok (h : assessHit rt name args = .ok us) :
    (update .assessment none ∈ us ∧ update .escalation none ∈ us ∧
      update .status (some Status.inProgress.value) ∈ us) ∨
    ∃ x e, assessmentEscalation rt x = .ok e ∧ update .assessment (some x) ∈ us ∧
      update .escalation (some e.value) ∈ us ∧ update .status (some Status.resolved.value) ∈ us := by
  unfold assessHit at h
  split at h
  · obtain rfl := Except.ok.inj h
    simp
  · next x _ =>
    split at h
    · contradiction
    · obtain ⟨e, he, h⟩ := bind_eq_ok.mp h
      obtain rfl := Except.ok.inj h
      exact .inr ⟨x, e, he, by simp⟩

/-- A field for which there is an update after a script of updates of distinct fields. -/
theorem value_after {α : Type} {check : Option Str → Option α} {f : Field} {x x₀ : α}
    {u : OdmUpdateOperation} (hd : (ups.map (·.key)).Nodup)
    (hu : ∃ op ∈ ups, op.key = f ∧ op.value = u.value)
    (h : (∃ op ∈ ups, op.key = f ∧ check op.value = some x) ∨
      (∀ op ∈ ups, op.key ≠ f) ∧ x = x₀) : check u.value = some x := by
  obtain ⟨op, hop, hk, hv⟩ := hu
  cases h with
  | inl h =>
    obtain ⟨op', hop', hk', hc⟩ := h
    obtain rfl := eq_of_key_eq hd hop hop' (hk.trans hk'.symm)
    rw [← hv, hc]
  | inr h => exact absurd hk (h.1 op hop)

theorem checkEnum_status (s : Status) :
    checkEnum Status.list Status.value .opened (some s.value) = some s := by
  cases s <;> rfl

theorem checkEnum_escalation (e : Escalation) :
    checkEnum Escalation.list Escalation.value .hit (some e.value) = some e := by
  cases e <;> rfl

theorem checkOptionalEnum_assessment {x : Str} {o : Option Assessment}
    (h : checkOptionalEnum Assessment.list Assessment.value (some x) = some o) :
    ∃ a, o = some a ∧ x = a.value := by
  obtain ⟨a, ha, rfl⟩ := Option.map_eq_some_iff.mp h
  have hv := List.find?_some ha
  exact ⟨a, rfl, (by simpa using hv : a.value = x).symm⟩

/-- The destination is the status that the actions set, if they do. -/
theorem status_of_dest {tr : Transition Arguments} (hgen : Generates .status tr args ups)
    {dest : Str} (hdest : tr.dest = some dest) {u : OdmUpdateOperation}
    (hu : ∃ op ∈ ups, op.key = .status ∧ op.value = u.value) : u.value = some dest := by
  obtain ⟨op, hop, hk, hv⟩ := hu
  obtain ⟨op', hop', hk', hv'⟩ := hgen.status dest hdest
  obtain rfl := eq_of_key_eq hgen.distinct hop hop' (hk.trans hk'.symm)
  rw [← hv, hv']

/-- A field that no update is about. -/
theorem kept_after {α : Type} {check : Option Str → Option α} {f : Field} {x x₀ : α}
    (hno : ∀ op ∈ ups, op.key ≠ f)
    (h : (∃ op ∈ ups, op.key = f ∧ check op.value = some x) ∨
      (∀ op ∈ ups, op.key ≠ f) ∧ x = x₀) : x = x₀ := by
  cases h with
  | inl h =>
    obtain ⟨op, hop, hk, -⟩ := h
    exact absurd hk (hno op hop)
  | inr h => exact h.2

/-- The updates of one action without a destination are those of the action. -/
theorem updates_of_action {tr : Transition Arguments} (hgen : Generates .status tr args ups)
    (hdest : tr.dest = none)
    {action : Str → Arguments → Except HitError (List OdmUpdateOperation)}
    (hactions : tr.actions = [action]) (hus : action tr.transition args = .ok us) :
    ∀ op ∈ ups, op ∈ us := by
  intro op hop
  cases hgen.source op hop with
  | inl hsource =>
    obtain ⟨a, ha, us', hus', hmem⟩ := hsource
    obtain rfl := List.mem_singleton.mp (hactions ▸ ha)
    obtain rfl := Except.ok.inj (hus.symm.trans hus')
    exact hmem
  | inr hsource =>
    obtain ⟨dest, hd, -⟩ := hsource
    simp [hdest] at hd

/-- An action that sets the escalation only. -/
theorem escalation_of_action {tr : Transition Arguments} (hgen : Generates .status tr args ups)
    (hdest : tr.dest = none)
    {action : Str → Arguments → Except HitError (List OdmUpdateOperation)}
    (hactions : tr.actions = [action]) {value : Option Str}
    (hus : action tr.transition args = .ok [update .escalation value]) :
    (∃ op ∈ ups, op.key = .escalation ∧ op.value = value) ∧ ∀ op ∈ ups, op.key = .escalation := by
  constructor
  · obtain ⟨us, hus', hsub⟩ := hgen.done action (by simp [hactions])
    obtain rfl := Except.ok.inj (hus.symm.trans hus')
    exact hsub _ List.mem_cons_self
  · intro op hop
    obtain rfl := List.mem_singleton.mp (updates_of_action hgen hdest hactions hus op hop)
    rfl

theorem outcome {h h' : Hit} {cur : Hit} {user : Str} {version : Option Nat} {now : Datetime}
    (hplan : call.plan rt d = .ok ups) (hs : d.status = s.value)
    (hfold : (finalOperations ups cur user version).foldlM (Statement.apply now) h = .ok h') :
    Outcome call s h h' := by
  obtain ⟨tr, hrow, hgen⟩ := plan_ok hplan hs
  have hstatus := status_after hfold
  have hesc := escalation_after hfold
  have hassess := assessment_after hfold
  simp only [mem_finalOperations] at hstatus hesc hassess
  have hdest : ∀ {dest : Str}, tr.dest = some dest →
      checkEnum Status.list Status.value .opened (some dest) = some h'.status := by
    intro dest hd
    obtain ⟨op, hop, hk, hv⟩ := hgen.status dest hd
    exact value_after (u := update .status (some dest)) hgen.distinct ⟨op, hop, hk, hv⟩ hstatus
  generalize ht : call.transition = t at hrow
  cases hrow with
  | assess _ =>
    obtain ⟨us, hus, hsub⟩ := hgen.done (assessHit rt) (by simp)
    cases assessHit_ok hus with
    | inl hnone =>
      have hstay := status_of_dest hgen rfl (hsub _ hnone.2.2)
      exact absurd (Option.some.inj hstay) (by decide)
    | inr hsome =>
      obtain ⟨x, e, hx, ha, he, -⟩ := hsome
      obtain ⟨a, hha, rfl⟩ :=
        checkOptionalEnum_assessment (value_after hgen.distinct (hsub _ ha) hassess)
      have hhe := value_after hgen.distinct (hsub _ he) hesc
      rw [assessmentEscalation_value] at hx
      obtain rfl := Except.ok.inj hx
      have heq := Option.some.inj ((checkEnum_escalation _).symm.trans hhe)
      have hres := Option.some.inj ((checkEnum_status .resolved).symm.trans (hdest rfl))
      exact .assessed a hha heq.symm hres.symm
  | reEvaluate _ =>
    obtain ⟨us, hus, hsub⟩ := hgen.done (assessHit rt) (by simp [fromStatus])
    cases assessHit_ok hus with
    | inl hnone =>
      obtain ⟨ha, he, -⟩ := hnone
      have hha := value_after hgen.distinct (hsub _ ha) hassess
      have hhe := value_after hgen.distinct (hsub _ he) hesc
      have hopen := Option.some.inj ((checkEnum_status .inProgress).symm.trans (hdest rfl))
      exact .reopened (Option.some.inj hha).symm (Option.some.inj hhe).symm hopen.symm
    | inr hsome =>
      obtain ⟨x, e, -, -, -, hst⟩ := hsome
      have hstay := status_of_dest hgen rfl (hsub _ hst)
      exact absurd (Option.some.inj hstay) (by decide)
  | promote =>
    obtain ⟨hset, hkeys⟩ := escalation_of_action hgen rfl rfl rfl
    have hhe := value_after (u := update .escalation _) hgen.distinct hset hesc
    exact .escalated _ (by rw [Call.newEscalation, ht]; rfl) hhe
      (kept_after (fun op hop => by simp [hkeys op hop]) hassess)
      (kept_after (fun op hop => by simp [hkeys op hop]) hstatus)
  | demote =>
    obtain ⟨hset, hkeys⟩ := escalation_of_action hgen rfl rfl rfl
    have hhe := value_after (u := update .escalation _) hgen.distinct hset hesc
    exact .escalated _ (by rw [Call.newEscalation, ht]; rfl) hhe
      (kept_after (fun op hop => by simp [hkeys op hop]) hassess)
      (kept_after (fun op hop => by simp [hkeys op hop]) hstatus)
  | @plain _ dest actions hdone hactions =>
    have hkeys : ∀ op ∈ ups, op.key ≠ .escalation ∧ op.key ≠ .assessment := by
      intro op hop
      cases hgen.source op hop with
      | inl hsource =>
        obtain ⟨action, ha, us, hus, hmem⟩ := hsource
        exact plain_keys (hactions action ha) hus op hmem
      | inr hsource =>
        obtain ⟨dest, -, rfl⟩ := hsource
        simp [destUpdate]
    have hd := Option.some.inj ((checkEnum_status dest).symm.trans (hdest rfl))
    exact .moved (kept_after (fun op hop => (hkeys op hop).2) hassess)
      (kept_after (fun op hop => (hkeys op hop).1) hesc) fun hres => hd ▸ hdone hres

end Plans

end Howler.Hits
