import Howler.Hits.Effects

namespace Howler.Hits

open Python Workflow

namespace Votes

@[simp] theorem get_set (vs : Votes) (v : Vote) (l : List Str) : (vs.set v l).get v = l := by
  cases v <;> rfl

theorem get_set_of_ne {v v' : Vote} (h : v' ≠ v) (vs : Votes) (l : List Str) :
    (vs.set v l).get v' = vs.get v' := by
  cases v <;> cases v' <;> first | rfl | exact absurd rfl h

/-- Nobody is in two of the lists, or twice in one. -/
structure Single (vs : Votes) : Prop where
  once : ∀ v, (vs.get v).Nodup
  one : ∀ v v' x, x ∈ vs.get v → x ∈ vs.get v' → v = v'

theorem Single.oldVote {vs : Votes} (h : vs.Single) {v : Vote} {email : Str}
    (hv : email ∈ vs.get v) : oldVote vs email = some v := by
  have hone := fun v' hv' => congrArg some (h.one v' v email hv' hv)
  rw [Hits.oldVote]
  split
  · next hb => exact hone .benign hb
  · next hb =>
    split
    · next ho => exact hone .obscure ho
    · next ho =>
      split
      · next hm => exact hone .malicious hm
      · next hm =>
        cases v with
        | benign => exact absurd hv hb
        | obscure => exact absurd hv ho
        | malicious => exact absurd hv hm

end Votes

/-- What an operation makes of a list of votes. -/
def Turns (op : OdmUpdateOperation) (l l' : List Str) : Prop :=
  ∃ s, op.value = some s ∧ (op.operation = .append ∧ l' = l ++ [s] ∨
    op.operation = .appendIfMissing ∧ l' = (if s ∈ l then l else l ++ [s]) ∨
    op.operation = .remove ∧ l' = l.erase s)

section Effects

variable {now : Datetime} {h h' : Hit} {op : OdmUpdateOperation}
  {ups us : List OdmUpdateOperation} {v : Vote}

theorem Effect.votes_of_ne (heff : Effect op h h') (hk : op.key ≠ .votes v) :
    h'.votes.get v = h.votes.get v := by
  cases heff with
  | votes v' vs hk' hvs =>
    have hne : v ≠ v' := by
      intro hv
      exact hk (hv ▸ hk')
    obtain ⟨s, -, ⟨rfl, -⟩ | ⟨rfl, -⟩ | ⟨rfl, -⟩⟩ := hvs
    · exact Votes.get_set_of_ne hne _ _
    · show (Votes.appendIfMissing h.votes v' s).get v = _
      rw [Votes.appendIfMissing]
      split
      · rfl
      · exact Votes.get_set_of_ne hne _ _
    · exact Votes.get_set_of_ne hne _ _
  | _ => rfl

theorem Effect.turns (heff : Effect op h h') (hk : op.key = .votes v) :
    Turns op (h.votes.get v) (h'.votes.get v) := by
  cases heff with
  | votes v' vs hk' hvs =>
    obtain rfl : v' = v := Field.votes.inj (hk'.symm.trans hk)
    obtain ⟨s, hv, hs⟩ := hvs
    refine ⟨s, hv, ?_⟩
    rcases hs with ⟨rfl, ho⟩ | ⟨rfl, ho⟩ | ⟨rfl, ho⟩
    · simp [ho, Votes.append]
    · simp only [ho, Votes.appendIfMissing]
      split <;> simp [Votes.append]
    · simp [ho, Votes.remove]
  | _ => simp_all

/-- The statements of one update. -/
theorem effect_of_statements {user : Str} {cur : Hit} {version : Option Nat} {mid : Hit}
    (hfold : (if op.silent then [.operation op]
      else [.operation op, .log (op.logEntry cur user version)] : List Statement).foldlM
        (Statement.apply now) h = .ok mid) : ∃ h₁, Effect op h h₁ ∧ mid.votes = h₁.votes := by
  have hop : ∀ h₁, Statement.apply now h (.operation op) = .ok h₁ → Effect op h h₁ := by
    intro h₁ ha
    cases statement_cases ha with
    | inl hop =>
      obtain ⟨op', heq, heff⟩ := hop
      obtain rfl := Statement.operation.inj heq
      exact heff
    | inr hentry =>
      obtain ⟨entry, heq, -⟩ := hentry
      contradiction
  split at hfold
  · rw [List.foldlM_cons] at hfold
    obtain ⟨h₁, hfirst, hrest⟩ := bind_eq_ok.mp hfold
    obtain rfl := Except.ok.inj hrest
    exact ⟨h₁, hop h₁ hfirst, rfl⟩
  · rw [List.foldlM_cons] at hfold
    obtain ⟨h₁, hfirst, hrest⟩ := bind_eq_ok.mp hfold
    obtain rfl := Except.ok.inj hrest
    exact ⟨h₁, hop h₁ hfirst, rfl⟩

/-- A list of votes after a script of updates of distinct fields. -/
theorem votes_after {user : Str} {cur : Hit} {version : Option Nat}
    (hd : (ups.map (·.key)).Nodup)
    (hfold : (finalOperations ups cur user version).foldlM (Statement.apply now) h = .ok h')
    (v : Vote) :
    (∃ op ∈ ups, op.key = .votes v ∧ Turns op (h.votes.get v) (h'.votes.get v)) ∨
      (∀ op ∈ ups, op.key ≠ .votes v) ∧ h'.votes.get v = h.votes.get v := by
  induction ups generalizing h with
  | nil =>
    obtain rfl := Except.ok.inj hfold
    simp
  | cons op ups ih =>
    rw [List.map_cons, List.nodup_cons] at hd
    rw [finalOperations, List.flatMap_cons, List.foldlM_append] at hfold
    obtain ⟨mid, hmid, hfold⟩ := bind_eq_ok.mp hfold
    obtain ⟨h₁, heff, hvotes⟩ := effect_of_statements hmid
    have hrest := ih hd.2 hfold
    rw [hvotes] at hrest
    by_cases hk : op.key = .votes v
    · -- no other update is about this list
      have hno : ∀ op' ∈ ups, op'.key ≠ .votes v := by
        intro op' hop' hk'
        exact hd.1 (List.mem_map.mpr ⟨op', hop', hk'.trans hk.symm⟩)
      have hkeep : h'.votes.get v = h₁.votes.get v := by
        cases hrest with
        | inl hex =>
          obtain ⟨op', hop', hk', -⟩ := hex
          exact absurd hk' (hno op' hop')
        | inr hkeep => exact hkeep.2
      refine .inl ⟨op, List.mem_cons_self, hk, ?_⟩
      rw [hkeep]
      exact heff.turns hk
    · rw [heff.votes_of_ne hk] at hrest
      cases hrest with
      | inl hex =>
        obtain ⟨op', hop', hturn⟩ := hex
        exact .inl ⟨op', List.mem_cons_of_mem _ hop', hturn⟩
      | inr hkeep => exact .inr ⟨List.forall_mem_cons.mpr ⟨hk, hkeep.1⟩, hkeep.2⟩

end Effects

section Plans

variable {rt : Runtime} {call : Call} {ups us base : List OdmUpdateOperation} {name : Str}
  {args : Arguments} {votes : Votes} {email vote : Str}

/-- The updates of a vote: the old one is taken back, and the new one is another. -/
theorem voteUpdates_ok (h : voteUpdates votes email vote = .ok base) : ∃ new : Option Vote,
    (∀ v, new = some v → oldVote votes email ≠ some v) ∧
    base = (oldVote votes email).toList.map
        (fun v => { operation := .remove, key := .votes v, value := some email }) ++
      new.toList.map
        fun v => { operation := .appendIfMissing, key := .votes v, value := some email } := by
  rw [voteUpdates] at h
  split at h
  · exact ⟨none, by simp, by simpa using (Except.ok.inj h).symm⟩
  · next hne =>
    obtain ⟨field, hfield, h⟩ := bind_eq_ok.mp h
    rw [voteField] at hfield
    split at hfield
    · contradiction
    · next v hv =>
      have hvalue : v.value = vote := by simpa using List.find?_some hv
      obtain rfl := Except.ok.inj hfield
      refine ⟨some v, fun v' hv' => ?_, (Except.ok.inj h).symm⟩
      obtain rfl := Option.some.inj hv'
      intro hold
      exact hne (by rw [hold, Option.map_some, hvalue])

/-- An action that is not about votes. -/
theorem no_votes {action : Str → Arguments → Except HitError (List OdmUpdateOperation)}
    (ha : action = assessHit rt ∨ action = assignHit ∨ action = checkOwnership ∨
      action = unassignHit ∨ action = promoteHit ∨ action = demoteHit)
    (h : action name args = .ok us) : ∀ op ∈ us, ∀ v, op.key ≠ .votes v := by
  rcases ha with rfl | rfl | rfl | rfl | rfl | rfl
  · unfold assessHit at h
    split at h
    · obtain rfl := Except.ok.inj h
      simp [update]
    · split at h
      · contradiction
      · obtain ⟨e, -, h⟩ := bind_eq_ok.mp h
        obtain rfl := Except.ok.inj h
        simp [update]
  · unfold assignHit at h
    split at h
    · contradiction
    · split at h
      · contradiction
      · obtain rfl := Except.ok.inj h
        simp [update]
  · unfold checkOwnership at h
    split at h
    · contradiction
    · obtain rfl := Except.ok.inj h
      simp
  · unfold unassignHit at h
    split at h
    · obtain rfl := Except.ok.inj h
      simp [update]
    · contradiction
  · obtain rfl := Except.ok.inj h
    simp [update]
  · obtain rfl := Except.ok.inj h
    simp [update]

theorem Row.actions_cases {s : Status} {t : StatusTransition} {tr : Transition Arguments}
    (hrow : Row rt s t tr) {action : Str → Arguments → Except HitError (List OdmUpdateOperation)}
    (ha : action ∈ tr.actions) : action = voteHit rt ∨
      (action = assessHit rt ∨ action = assignHit ∨ action = checkOwnership ∨
        action = unassignHit ∨ action = promoteHit ∨ action = demoteHit) := by
  cases hrow with
  | assess _ => simp at ha; tauto
  | reEvaluate _ => simp [fromStatus] at ha; tauto
  | promote => simp at ha; tauto
  | demote => simp at ha; tauto
  | plain hdest hactions =>
    have hplain := hactions action ha
    rw [Plain] at hplain
    tauto

/-- The updates of votes are those of one vote. -/
theorem votes_of_plan {s : Status} {t : StatusTransition} {tr : Transition Arguments}
    (hrow : Row rt s t tr) (hgen : Generates .status tr args ups) :
    (∀ op ∈ ups, ∀ v, op.key ≠ .votes v) ∨ ∃ email vote base,
      voteUpdates args.hit.votes email vote = .ok base ∧
      (∀ u ∈ base, ∃ op ∈ ups, op.key = u.key ∧ op.value = u.value) ∧
      ∀ op ∈ ups, (∃ v, op.key = .votes v) → op ∈ base := by
  by_cases hvote : voteHit rt ∈ tr.actions
  · obtain ⟨us, hus, hdone⟩ := hgen.done _ hvote
    obtain ⟨email, vote, base, hbase, hshape⟩ := voteHit_ok hus
    refine .inr ⟨email, vote, base, hbase, fun u hu => hdone u ?_, fun op hop hk => ?_⟩
    · cases hshape with
      | inl hshape => exact hshape ▸ hu
      | inr hshape => exact hshape ▸ List.mem_append_left _ hu
    · obtain ⟨v, hv⟩ := hk
      cases hgen.source op hop with
      | inr hdest =>
        obtain ⟨dest, -, rfl⟩ := hdest
        simp [destUpdate] at hv
      | inl hsource =>
        obtain ⟨action, ha, us', hus', hmem⟩ := hsource
        cases hrow.actions_cases ha with
        | inr hother => exact absurd hv (no_votes hother hus' op hmem v)
        | inl hsame =>
          subst hsame
          obtain rfl := Except.ok.inj (hus.symm.trans hus')
          cases hshape with
          | inl hshape => exact hshape ▸ hmem
          | inr hshape =>
            rw [hshape, List.mem_append] at hmem
            cases hmem with
            | inl hmem => exact hmem
            | inr hmem =>
              simp only [List.mem_cons, List.not_mem_nil, or_false] at hmem
              rcases hmem with rfl | rfl
              · simp [update] at hv
              · simp [update] at hv
  · refine .inl fun op hop v hv => ?_
    cases hgen.source op hop with
    | inr hdest =>
      obtain ⟨dest, -, rfl⟩ := hdest
      simp [destUpdate] at hv
    | inl hsource =>
      obtain ⟨action, ha, us', hus', hmem⟩ := hsource
      cases hrow.actions_cases ha with
      | inr hother => exact no_votes hother hus' op hmem v hv
      | inl hsame => exact hvote (hsame ▸ ha)

/-- One vote more, and maybe one vote less, of the same voter. -/
structure Votes.Revote (vs vs' : Votes) (email : Str) (new : Option Vote) : Prop where
  other : ∀ v, new = some v → oldVote vs email ≠ some v
  removed : ∀ v, oldVote vs email = some v → vs'.get v = (vs.get v).erase email
  added : ∀ v, new = some v →
    vs'.get v = if email ∈ vs.get v then vs.get v else vs.get v ++ [email]
  kept : ∀ v, oldVote vs email ≠ some v → new ≠ some v → vs'.get v = vs.get v

/-- What is in a list afterwards was there before, or is the new vote. -/
theorem Votes.Revote.mem_iff {vs vs' : Votes} {new : Option Vote} (hr : vs.Revote vs' email new)
    (h : vs.Single) (v : Vote) (x : Str) :
    x ∈ vs'.get v ↔ x ∈ vs.get v ∧ x ≠ email ∨ x = email ∧ new = some v := by
  by_cases hold : oldVote vs email = some v
  · have hnew : new ≠ some v := fun hn => hr.other v hn hold
    rw [hr.removed v hold, (h.once v).mem_erase_iff]
    simp [hnew, and_comm]
  · have hout : email ∉ vs.get v := fun he => hold (h.oldVote he)
    have hne : ∀ x ∈ vs.get v, x ≠ email := fun x hx he => hout (he ▸ hx)
    by_cases hnew : new = some v
    · rw [hr.added v hnew, if_neg hout, List.mem_append, List.mem_singleton]
      simp only [hnew, and_true]
      exact or_congr_left ⟨fun hx => ⟨hx, hne x hx⟩, fun hx => hx.1⟩
    · rw [hr.kept v hold hnew]
      simp only [hnew, and_false, or_false]
      exact ⟨fun hx => ⟨hx, hne x hx⟩, fun hx => hx.1⟩

theorem Votes.Revote.single {vs vs' : Votes} {new : Option Vote} (hr : vs.Revote vs' email new)
    (h : vs.Single) : vs'.Single := by
  constructor
  · intro v
    by_cases hold : oldVote vs email = some v
    · rw [hr.removed v hold]
      exact (h.once v).erase _
    · by_cases hnew : new = some v
      · rw [hr.added v hnew]
        split
        · exact h.once v
        · next hno => exact List.nodup_append_comm.mp (List.nodup_cons.mpr ⟨hno, h.once v⟩)
      · rw [hr.kept v hold hnew]
        exact h.once v
  · intro v v' x hx hx'
    cases (hr.mem_iff h v x).mp hx with
    | inl hold =>
      cases (hr.mem_iff h v' x).mp hx' with
      | inl hold' => exact h.one v v' x hold.1 hold'.1
      | inr hnew' => exact absurd hnew'.1 hold.2
    | inr hnew =>
      cases (hr.mem_iff h v' x).mp hx' with
      | inl hold' => exact absurd hnew.1 hold'.2
      | inr hnew' => exact Option.some.inj (hnew.2.symm.trans hnew'.2)

/-- The votes after updates of which those of votes are of one vote. -/
theorem revote_after {h h' cur : Hit} {user : Str} {version : Option Nat} {now : Datetime}
    {new : Option Vote} (hd : (ups.map (·.key)).Nodup)
    (hfold : (finalOperations ups cur user version).foldlM (Statement.apply now) h = .ok h')
    (hnew : ∀ v, new = some v → oldVote h.votes email ≠ some v)
    (hshape : base = (oldVote h.votes email).toList.map
        (fun v => { operation := .remove, key := .votes v, value := some email }) ++
      new.toList.map
        fun v => { operation := .appendIfMissing, key := .votes v, value := some email })
    (hdone : ∀ u ∈ base, ∃ op ∈ ups, op.key = u.key)
    (hsub : ∀ op ∈ ups, (∃ v, op.key = .votes v) → op ∈ base) :
    h.votes.Revote h'.votes email new := by
  have hafter := votes_after hd hfold
  have hmem : ∀ op ∈ base, op.value = some email ∧
      ((∃ v, oldVote h.votes email = some v ∧ op.key = .votes v ∧ op.operation = .remove) ∨
        ∃ v, new = some v ∧ op.key = .votes v ∧ op.operation = .appendIfMissing) := by
    intro op hop
    rw [hshape, List.mem_append] at hop
    cases hop with
    | inl hop =>
      obtain ⟨v, hv, rfl⟩ := List.mem_map.mp hop
      exact ⟨rfl, .inl ⟨v, Option.mem_toList.mp hv, rfl, rfl⟩⟩
    | inr hop =>
      obtain ⟨v, hv, rfl⟩ := List.mem_map.mp hop
      exact ⟨rfl, .inr ⟨v, Option.mem_toList.mp hv, rfl, rfl⟩⟩
  -- the operation on a list is the removal or the addition, and not both
  have hturn : ∀ v, (oldVote h.votes email = some v ∨ new = some v) → ∃ op ∈ base,
      op.key = .votes v ∧ Turns op (h.votes.get v) (h'.votes.get v) := by
    intro v hv
    have hin : ∃ u ∈ base, u.key = .votes v := by
      rw [hshape]
      cases hv with
      | inl hold => simp [hold]
      | inr hn => simp [hn]
    obtain ⟨u, hu, hk⟩ := hin
    obtain ⟨op, hop, hkop⟩ := hdone u hu
    cases hafter v with
    | inl hex =>
      obtain ⟨op', hop', hk', hturns⟩ := hex
      exact ⟨op', hsub op' hop' ⟨v, hk'⟩, hk', hturns⟩
    | inr hkeep => exact absurd (hkop.trans hk) (hkeep.1 op hop)
  refine ⟨hnew, fun v hold => ?_, fun v hn => ?_, fun v hold hn => ?_⟩
  · obtain ⟨op, hop, hk, s, hv, hs⟩ := hturn v (.inl hold)
    obtain ⟨hvalue, hcases⟩ := hmem op hop
    obtain rfl := Option.some.inj (hvalue.symm.trans hv)
    cases hcases with
    | inl hrem =>
      obtain ⟨v', -, -, ho⟩ := hrem
      simpa [ho] using hs
    | inr hadd =>
      obtain ⟨v', hv', hk', -⟩ := hadd
      obtain rfl := Field.votes.inj (hk'.symm.trans hk)
      exact absurd hold (hnew v' hv')
  · obtain ⟨op, hop, hk, s, hv, hs⟩ := hturn v (.inr hn)
    obtain ⟨hvalue, hcases⟩ := hmem op hop
    obtain rfl := Option.some.inj (hvalue.symm.trans hv)
    cases hcases with
    | inl hrem =>
      obtain ⟨v', hv', hk', -⟩ := hrem
      obtain rfl := Field.votes.inj (hk'.symm.trans hk)
      exact absurd hv' (hnew v' hn)
    | inr hadd =>
      obtain ⟨v', -, -, ho⟩ := hadd
      simpa [ho] using hs
  · cases hafter v with
    | inr hkeep => exact hkeep.2
    | inl hex =>
      obtain ⟨op, hop, hk, -⟩ := hex
      obtain ⟨-, hcases⟩ := hmem op (hsub op hop ⟨v, hk⟩)
      cases hcases with
      | inl hrem =>
        obtain ⟨v', hv', hk', -⟩ := hrem
        obtain rfl := Field.votes.inj (hk'.symm.trans hk)
        exact absurd hv' hold
      | inr hadd =>
        obtain ⟨v', hv', hk', -⟩ := hadd
        obtain rfl := Field.votes.inj (hk'.symm.trans hk)
        exact absurd hv' hn

/-- A transition from the hit as it is stored leaves everybody with one vote at most. -/
theorem single_after {h h' cur : Hit} {user : Str} {version : Option Nat} {now : Datetime}
    (hplan : call.plan rt h.toDict = .ok ups)
    (hfold : (finalOperations ups cur user version).foldlM (Statement.apply now) h = .ok h')
    (hs : h.votes.Single) : h'.votes.Single := by
  obtain ⟨tr, hrow, hgen⟩ := plan_ok hplan (s := h.status) rfl
  cases votes_of_plan hrow hgen with
  | inl hno =>
    have hafter := votes_after hgen.distinct hfold
    have hkeep : ∀ v, h'.votes.get v = h.votes.get v := by
      intro v
      cases hafter v with
      | inl hex =>
        obtain ⟨op, hop, hk, -⟩ := hex
        exact absurd hk (hno op hop v)
      | inr hkeep => exact hkeep.2
    constructor
    · intro v
      rw [hkeep]
      exact hs.once v
    · intro v v' x
      rw [hkeep, hkeep]
      exact hs.one v v' x
  | inr hvote =>
    obtain ⟨email, vote, base, hbase, hdone, hsub⟩ := hvote
    have hbase : voteUpdates h.votes email vote = .ok base := hbase
    obtain ⟨new, hnew, hshape⟩ := voteUpdates_ok hbase
    have hkeys : ∀ u ∈ base, ∃ op ∈ ups, op.key = u.key := by
      intro u hu
      obtain ⟨op, hop, hk, -⟩ := hdone u hu
      exact ⟨op, hop, hk⟩
    exact (revote_after hgen.distinct hfold hnew hshape hkeys hsub).single hs

end Plans

end Howler.Hits
