import Howler.Hits.Ballots
import Howler.Hits.Declared

namespace Howler.Hits

open Python Workflow

/-- Where the votes of an email and of everybody else are after a vote. -/
structure Votes.Moved (vs vs' : Votes) (email : Str) (v : Vote) : Prop where
  single : vs'.Single
  withdrawn : email ∈ vs.get v → ∀ v', email ∉ vs'.get v'
  cast : email ∉ vs.get v → ∀ v', email ∈ vs'.get v' ↔ v' = v
  others : ∀ x, x ≠ email → ∀ v', x ∈ vs'.get v' ↔ x ∈ vs.get v'

/-- The list that a vote goes to: none where the email is there already. -/
def newVote (votes : Votes) (email : Str) (v : Vote) : Option Vote :=
  if oldVote votes email = some v then none else some v

theorem oldVote_eq_some {vs : Votes} (h : vs.Single) {email : Str} {v : Vote} :
    oldVote vs email = some v ↔ email ∈ vs.get v := by
  constructor
  · intro hold
    rw [oldVote] at hold
    split at hold
    · next hin => exact Option.some.inj hold ▸ hin
    · split at hold
      · next hin => exact Option.some.inj hold ▸ hin
      · split at hold
        · next hin => exact Option.some.inj hold ▸ hin
        · contradiction
  · exact h.oldVote

theorem Votes.Revote.moved {vs vs' : Votes} {email : Str} {v : Vote} (h : vs.Single)
    (hr : vs.Revote vs' email (newVote vs email v)) : vs.Moved vs' email v := by
  refine ⟨hr.single h, fun hin v' hin' => ?_, fun hout v' => ?_, fun x hx v' => ?_⟩
  · rw [hr.mem_iff h, newVote, if_pos (h.oldVote hin)] at hin'
    simp at hin'
  · have hold : oldVote vs email ≠ some v := fun hold => hout ((oldVote_eq_some h).mp hold)
    rw [hr.mem_iff h, newVote, if_neg hold]
    simp [eq_comm]
  · rw [hr.mem_iff h]
    simp [hx]

/-- The updates of a vote for a list. -/
def ballot (votes : Votes) (email : Str) (v : Vote) : List OdmUpdateOperation :=
  (oldVote votes email).toList.map
      (fun v => { operation := .remove, key := .votes v, value := some email }) ++
    (newVote votes email v).toList.map
      fun v => { operation := .appendIfMissing, key := .votes v, value := some email }

/-- The updates that take a hit from its assignee. -/
def handBack : List OdmUpdateOperation :=
  [update .assignment (some "unassigned".toList), update .status (some Status.opened.value)]

theorem Vote.mem_list (v : Vote) : v ∈ Vote.list := by cases v <;> decide

theorem Vote.find_value (v : Vote) : Vote.list.find? (fun v' => v'.value = v.value) = some v := by
  cases v <;> rfl

theorem Vote.value_inj {v v' : Vote} (h : v.value = v'.value) : v = v' := by
  have hfind := v.find_value
  rw [h, v'.find_value] at hfind
  exact (Option.some.inj hfind).symm

theorem voteUpdates_value (votes : Votes) (email : Str) (v : Vote) :
    voteUpdates votes email v.value = .ok (ballot votes email v) := by
  have hsame : (oldVote votes email).map Vote.value = some v.value ↔
      oldVote votes email = some v := by
    rw [Option.map_eq_some_iff]
    constructor
    · intro hold
      obtain ⟨v', hv', hvalue⟩ := hold
      rw [hv', Vote.value_inj hvalue]
    · intro hold
      exact ⟨v, hold, rfl⟩
  rw [voteUpdates, ballot, newVote]
  by_cases hold : oldVote votes email = some v
  · rw [if_pos (hsame.mpr hold), if_pos hold]
    simp
  · rw [if_neg (fun h => hold (hsame.mp h)), if_neg hold, voteField, v.find_value]
    rfl

/-- The arguments of a vote on a hit. -/
def votingArguments (kwargs : Kwargs) (h : Hit) (uname email : Str) (v : Vote) : Arguments where
  toKwargs := { kwargs with vote := some (some v.value), email := some (some email) }
  uname := uname
  hit := h.toDict

section Updates

variable {rt : Runtime} {h h' : Hit} {kwargs : Kwargs} {uname email name : Str} {v : Vote}
  {us : List OdmUpdateOperation} {updates : Dict Field OdmUpdateOperation}

theorem voteHit_value (hemail : email ≠ [])
    (hstatus : h.assignment = uname → h.status = .inProgress ∨ h.status = .opened) :
    voteHit rt name (votingArguments kwargs h uname email v) =
      .ok (ballot h.votes email v ++ if h.assignment = uname then handBack else []) := by
  have hin : inEnum rt Vote.list Vote.name Vote.value v.value = true := by
    rw [inEnum, decide_eq_true_eq]
    exact .inr (List.mem_map_of_mem v.mem_list)
  have hne : v.value ≠ [] := by cases v <;> decide
  have hupdates : voteUpdates h.toDict.votes email v.value = .ok (ballot h.votes email v) :=
    voteUpdates_value h.votes email v
  simp only [voteHit, votingArguments, Option.filter_some, hemail, hne, hin, ne_eq,
    not_false_eq_true, decide_true, if_true, true_and, hupdates]
  by_cases hown : h.assignment = uname
  · have hvalue : h.toDict.status = Status.inProgress.value ∨
        h.toDict.status = Status.opened.value := by
      rw [Hit.toDict]
      exact (hstatus hown).imp (congrArg Status.value) (congrArg Status.value)
    have hdict : h.toDict.assignment = uname := hown
    simp [hown, hdict, hvalue, handBack, bind, Except.bind, pure, Except.pure]
  · have hdict : h.toDict.assignment ≠ uname := hown
    simp [hown, hdict, bind, Except.bind, pure, Except.pure]

/-- Updates by their fields. -/
def taken (us : List OdmUpdateOperation) : Dict Field OdmUpdateOperation :=
  us.map fun u => (u.key, u)

theorem keys_taken (us : List OdmUpdateOperation) : Dict.keys (taken us) = us.map (·.key) := by
  simp [Dict.keys, taken, Function.comp_def]

theorem taken_snd (us : List OdmUpdateOperation) : (taken us).map (·.2) = us := by
  simp [taken, Function.comp_def]

theorem get?_taken (hd : (us.map (·.key)).Nodup) {u : OdmUpdateOperation} (hu : u ∈ us) :
    Dict.get? (taken us) u.key = some u := by
  have hmem : (u.key, u) ∈ taken us := List.mem_map_of_mem hu
  rw [← keys_taken] at hd
  exact Dict.get?_of_mem hd hmem

/-- Updates of distinct fields are all taken. -/
theorem foldlM_addUpdate (hd : (us.map (·.key)).Nodup)
    (hnew : ∀ u ∈ us, u.key ∉ Dict.keys updates) :
    us.foldlM (addUpdate name) updates = .ok (updates ++ taken us) := by
  induction us generalizing updates with
  | nil => simp [taken, pure, Except.pure]
  | cons u us ih =>
    rw [List.map_cons, List.nodup_cons] at hd
    have hu : u.key ∉ Dict.keys updates := hnew u (by simp)
    have hget : updates.get? u.key = none := (Dict.get?_eq_none_iff _ _).mpr hu
    have hadd : addUpdate name updates u = .ok (updates ++ [(u.key, u)]) := by
      rw [addUpdate, hget, Dict.set_of_not_mem hu]
    have htail : ∀ u' ∈ us, u'.key ∉ Dict.keys (updates ++ [(u.key, u)]) := by
      intro u' hu'
      have hne : u'.key ≠ u.key := fun heq => hd.1 (heq ▸ List.mem_map_of_mem hu')
      have hold : u'.key ∉ Dict.keys updates := hnew u' (by simp [hu'])
      simpa [Dict.keys, hne] using hold
    have hrest := ih hd.2 htail
    rw [List.append_assoc] at hrest
    rw [List.foldlM_cons, hadd]
    exact hrest

theorem collectUpdates_single {args : Arguments}
    {action : Str → Arguments → Except HitError (List OdmUpdateOperation)}
    (h : action name args = .ok us) (hd : (us.map (·.key)).Nodup) :
    collectUpdates name args [action] [] = .ok (taken us) := by
  have hfold : us.foldlM (addUpdate name) [] = .ok ([] ++ taken us) :=
    foldlM_addUpdate hd (by simp [Dict.keys])
  simp [collectUpdates, h, hfold, bind, Except.bind]

/-- The destination beside updates of other fields. -/
theorem setDest_new {statusProp : Field} {dest : Str} (hno : ∀ u ∈ us, u.key ≠ statusProp) :
    setDest statusProp name (taken us) (some dest) =
      .ok (taken (us ++ [destUpdate statusProp dest])) := by
  have hout : statusProp ∉ Dict.keys (taken us) := by
    rw [keys_taken]
    intro hin
    obtain ⟨u, hu, hk⟩ := List.mem_map.mp hin
    exact hno u hu hk
  have hset := Dict.set_of_not_mem hout (destUpdate statusProp dest)
  rw [setDest, (Dict.get?_eq_none_iff _ _).mpr hout]
  simp only [hset]
  simp [taken, destUpdate]

/-- The destination is one of the updates. -/
theorem setDest_same {statusProp : Field} {dest : Str} (hd : (us.map (·.key)).Nodup)
    (hin : destUpdate statusProp dest ∈ us) :
    setDest statusProp name (taken us) (some dest) = .ok (taken us) := by
  have hget : Dict.get? (taken us) statusProp = some (destUpdate statusProp dest) :=
    get?_taken hd hin
  have hvalue : (destUpdate statusProp dest).value = some dest := rfl
  rw [setDest, hget]
  simp only [hvalue, if_true, Dict.set_eq_self hget]

/-- The updates have another status than the destination. -/
theorem setDest_clash {statusProp : Field} {dest : Str} (hd : (us.map (·.key)).Nodup)
    {u : OdmUpdateOperation} (hu : u ∈ us) (hk : u.key = statusProp) (hv : u.value ≠ some dest) :
    ∃ e, setDest statusProp name (taken us) (some dest) = .error e := by
  have hget : Dict.get? (taken us) statusProp = some u := hk ▸ get?_taken hd hu
  rw [setDest, hget]
  exact ⟨_, if_neg hv⟩

theorem mem_keys_fromStatus {s s' dest : Status} {t t' : StatusTransition}
    {actions : List (Str → Arguments → Except HitError (List OdmUpdateOperation))} :
    s.value ++ t.value ∈ keys (fromStatus s' t' dest actions) ↔ s = s' ∧ t = t' := by
  rw [keys_fromStatus, List.mem_singleton]
  constructor
  · exact fun h => eq_of_key (.inl h)
  · intro h
    rw [h.1, h.2]

theorem vote_ne_other : ∀ s ∈ Status.list, s.value ++ StatusTransition.vote.value ∉
    [Status.opened.value ++ StatusTransition.assess.value,
      Status.inProgress.value ++ StatusTransition.assess.value,
      StatusTransition.promote.value, StatusTransition.demote.value] := by
  decide +kernel

theorem find_vote (rt : Runtime) (s : Status) :
    (hitWorkflow rt).find s.value StatusTransition.vote.value =
      some (fromStatus s .vote s [voteHit rt]) := by
  have hother := vote_ne_other s s.mem_list
  simp only [List.mem_cons, List.not_mem_nil, or_false, not_or] at hother
  obtain ⟨hopened, hprogress, hpromote, hdemote⟩ := hother
  have hassess : s.value ++ StatusTransition.vote.value ∉ keys
      { source := .many [Status.opened.value, Status.inProgress.value]
        transition := StatusTransition.assess.value
        dest := some Status.resolved.value
        actions := [assessHit rt, assignHit] } := by
    simp [keys, hopened, hprogress]
  have hpromote : s.value ++ StatusTransition.vote.value ∉ keys
      { transition := StatusTransition.promote.value, actions := [promoteHit] } := by
    simp [keys, hpromote]
  have hdemote : s.value ++ StatusTransition.vote.value ∉ keys
      { transition := StatusTransition.demote.value, actions := [demoteHit] } := by
    simp [keys, hdemote]
  have hlast : lastUnder (hitTransitions rt) (s.value ++ StatusTransition.vote.value) =
      some (fromStatus s .vote s [voteHit rt]) := by
    rw [lastUnder, hitTransitions]
    simp only [List.filter_cons, List.filter_nil, mem_keys_fromStatus, hassess, hpromote, hdemote]
    cases s <;> simp
  rw [hitWorkflow, find_register, declared, hlast, Option.some_or]

theorem ballot_keys (votes : Votes) (email : Str) (v : Vote) :
    ((ballot votes email v).map (·.key)).Nodup ∧
      ∀ u ∈ ballot votes email v, ∃ v', u.key = .votes v' := by
  rw [ballot, newVote]
  cases hold : oldVote votes email with
  | none => simp
  | some v' =>
    by_cases hv : v' = v
    · simp [hv]
    · simp [hv]

/-- The updates of a vote on a hit, before the destination. -/
def voting (h : Hit) (uname email : Str) (v : Vote) : List OdmUpdateOperation :=
  ballot h.votes email v ++ if h.assignment = uname then handBack else []

theorem voting_keys (h : Hit) (uname email : Str) (v : Vote) :
    ((voting h uname email v).map (·.key)).Nodup := by
  obtain ⟨hdistinct, hvotes⟩ := ballot_keys h.votes email v
  rw [voting, List.map_append, List.nodup_append]
  refine ⟨hdistinct, by split <;> decide, fun k hk k' hk' heq => ?_⟩
  obtain ⟨u, hu, rfl⟩ := List.mem_map.mp hk
  obtain ⟨v', hv'⟩ := hvotes u hu
  rw [← heq] at hk'
  split at hk' <;> simp [handBack, update, hv'] at hk'

theorem transition_eq_of_voteHit {args : Arguments} {s : Status} (rt : Runtime)
    (hus : voteHit rt StatusTransition.vote.value args = .ok us) (hd : (us.map (·.key)).Nodup) :
    (hitWorkflow rt).transition s.value StatusTransition.vote.value args =
      (setDest .status StatusTransition.vote.value (taken us) (some s.value)).map
        (fun d => d.map (·.2)) := by
  have hcollect : collectUpdates (fromStatus s .vote s [voteHit rt]).transition args
      (fromStatus s .vote s [voteHit rt]).actions [] = .ok (taken us) :=
    collectUpdates_single hus hd
  have hstays : (fromStatus s .vote s [voteHit rt]).source.excludes s.value = false := rfl
  have hdest : (fromStatus s .vote s [voteHit rt]).dest = some s.value := rfl
  have hprop : (hitWorkflow rt).statusProp = .status := rfl
  rw [transition, find_vote]
  simp only [hstays, hcollect, hdest, hprop, Bool.false_eq_true, if_false]
  show (setDest .status StatusTransition.vote.value (taken us) (some s.value) >>= fun updates =>
    pure (updates.map (·.2))) = _
  cases setDest .status StatusTransition.vote.value (taken us) (some s.value) <;> rfl

theorem transition_error_of_voteHit {args : Arguments} {s : Status} {e : HitError} (rt : Runtime)
    (hus : voteHit rt StatusTransition.vote.value args = .error e) :
    (hitWorkflow rt).transition s.value StatusTransition.vote.value args = .error e := by
  have hcollect : collectUpdates (fromStatus s .vote s [voteHit rt]).transition args
      (fromStatus s .vote s [voteHit rt]).actions [] = .error e := by
    rw [fromStatus]
    simp [collectUpdates, hus, bind, Except.bind]
  have hstays : (fromStatus s .vote s [voteHit rt]).source.excludes s.value = false := rfl
  rw [transition, find_vote]
  simp only [hstays, hcollect, Bool.false_eq_true, if_false]
  rfl

/-- A vote gives the updates of the lists, those of the assignment, and the status. -/
theorem transition_vote (rt : Runtime) (hemail : email ≠ [])
    (hstatus : h.assignment = uname → h.status = .opened) :
    (hitWorkflow rt).transition h.status.value StatusTransition.vote.value
        (votingArguments kwargs h uname email v) =
      .ok (ballot h.votes email v ++ if h.assignment = uname then handBack
        else [destUpdate .status h.status.value]) := by
  have hhit : voteHit rt StatusTransition.vote.value (votingArguments kwargs h uname email v) =
      .ok (voting h uname email v) := voteHit_value hemail fun hown => .inr (hstatus hown)
  have hkeys := voting_keys h uname email v
  rw [transition_eq_of_voteHit rt hhit hkeys]
  by_cases hown : h.assignment = uname
  · have hin : destUpdate .status h.status.value ∈ voting h uname email v := by
      rw [voting, if_pos hown, hstatus hown]
      exact List.mem_append_right _ (by simp [handBack, update, destUpdate])
    rw [setDest_same hkeys hin, Except.map, taken_snd, voting, if_pos hown, if_pos hown]
  · have hno : ∀ u ∈ voting h uname email v, u.key ≠ .status := by
      rw [voting, if_neg hown, List.append_nil]
      intro u hu
      obtain ⟨v', hv'⟩ := (ballot_keys h.votes email v).2 u hu
      simp [hv']
    rw [setDest_new hno, Except.map, taken_snd, voting, if_neg hown, if_neg hown, List.append_nil]

/-- An assignee who votes on a hit in progress sets a status that is not the destination. -/
theorem transition_vote_error (rt : Runtime)
    (hfail : email = [] ∨ h.status = .inProgress ∧ h.assignment = uname) :
    ∃ e, (hitWorkflow rt).transition h.status.value StatusTransition.vote.value
      (votingArguments kwargs h uname email v) = .error e := by
  by_cases hemail : email = []
  · subst hemail
    have hhit : ∃ e, voteHit rt StatusTransition.vote.value
        (votingArguments kwargs h uname [] v) = .error e := ⟨_, rfl⟩
    obtain ⟨e, he⟩ := hhit
    exact ⟨e, transition_error_of_voteHit rt he⟩
  · obtain ⟨hstatus, hown⟩ := hfail.resolve_left hemail
    have hhit : voteHit rt StatusTransition.vote.value (votingArguments kwargs h uname email v) =
        .ok (voting h uname email v) := voteHit_value hemail fun _ => .inl hstatus
    have hkeys := voting_keys h uname email v
    have hin : update .status (some Status.opened.value) ∈ voting h uname email v := by
      rw [voting, if_pos hown]
      exact List.mem_append_right _ (by simp [handBack])
    have hne : (update .status (some Status.opened.value)).value ≠ some h.status.value := by
      rw [hstatus]
      decide
    obtain ⟨e, he⟩ : ∃ e, setDest .status StatusTransition.vote.value
        (taken (voting h uname email v)) (some h.status.value) = .error e :=
      setDest_clash hkeys hin rfl hne
    rw [transition_eq_of_voteHit rt hhit hkeys, he]
    exact ⟨e, rfl⟩

end Updates

/-- A hit after a vote: the lists, and for the assignee the assignment and the status. -/
structure Voted (h h' : Hit) (uname email : Str) (v : Vote) : Prop where
  moved : h.votes.Moved h'.votes email v
  handedBack : h.assignment = uname →
    h'.assignment = "unassigned".toList ∧ h'.status = .opened

/-- The workflow has updates for a vote, and every script for them makes what the vote is for. -/
def VoteTaken (rt : Runtime) (kwargs : Kwargs) (h : Hit) (uname email : Str) (v : Vote) : Prop :=
  ∃ wf ups, getHitWorkflow rt = .ok wf ∧
    wf.transition h.status.value StatusTransition.vote.value
      (votingArguments kwargs h uname email v) = .ok ups ∧
    ∀ cur user version now, ∃ h',
      (finalOperations ups cur user version).foldlM (Statement.apply now) h = .ok h' ∧
        Voted h h' uname email v

section Effects

variable {now : Datetime} {h h' cur : Hit} {ups : List OdmUpdateOperation} {user : Str}
  {version : Option Nat} {ss : List Statement}

/-- A script of updates that are valid for every hit. -/
theorem exists_after (hvalid : ∀ op ∈ ups, ∀ h : Hit, ∃ h', op.apply now h = some h') (h : Hit) :
    ∃ h', (finalOperations ups cur user version).foldlM (Statement.apply now) h = .ok h' := by
  induction ups generalizing h with
  | nil => exact ⟨h, rfl⟩
  | cons op ups ih =>
    obtain ⟨h₁, hop⟩ := hvalid op (by simp) h
    have hstatement : Statement.apply now h (.operation op) = .ok h₁ := by
      rw [Statement.apply, hop]
    have htail := ih fun op' hop' => hvalid op' (by simp [hop'])
    rw [finalOperations] at htail
    rw [finalOperations, List.flatMap_cons]
    cases op.silent with
    | true =>
      obtain ⟨h', hrest⟩ := htail h₁
      exact ⟨h', by simpa [hstatement, bind, Except.bind] using hrest⟩
    | false =>
      have hlog : Statement.apply now h₁ (.log (op.logEntry cur user version)) =
          .ok { h₁ with log := h₁.log ++ [{ op.logEntry cur user version with timestamp := now }] } :=
        rfl
      obtain ⟨h', hrest⟩ :=
        htail { h₁ with log := h₁.log ++ [{ op.logEntry cur user version with timestamp := now }] }
      exact ⟨h', by simpa [hstatement, hlog, bind, Except.bind] using hrest⟩

/-- The assignment that an operation on it sets. -/
def assigned (op : OdmUpdateOperation) : Str :=
  (checkOptionalKeyword op.value).getD "unassigned".toList

theorem assignment_after (hfold : ss.foldlM (Statement.apply now) h = .ok h') :
    (∃ op, .operation op ∈ ss ∧ op.key = .assignment ∧ h'.assignment = assigned op) ∨
    (∀ op, .operation op ∈ ss → op.key ≠ .assignment) ∧ h'.assignment = h.assignment := by
  have hkeep : ∀ (st : Statement) (h h' : Hit), (¬ ∃ op, st = .operation op ∧ op.key = .assignment) →
      st.apply now h = .ok h' → h'.assignment = h.assignment := by
    intro st h h' hno happly
    cases statement_cases happly with
    | inl hop =>
      obtain ⟨op, rfl, heff⟩ := hop
      cases heff with
      | assignment s hk => exact absurd ⟨op, rfl, hk⟩ hno
      | _ => rfl
    | inr hentry =>
      obtain ⟨entry, -, rfl⟩ := hentry
      rfl
  have hset : ∀ (st : Statement) (h h' : Hit), (∃ op, st = .operation op ∧ op.key = .assignment) →
      st.apply now h = .ok h' →
      ∃ op, st = .operation op ∧ op.key = .assignment ∧ h'.assignment = assigned op := by
    intro st h h' hyes happly
    obtain ⟨op, rfl, hk⟩ := hyes
    have hop : op.apply now h = some { h with assignment := assigned op } := by
      rw [OdmUpdateOperation.apply, hk]
      rfl
    rw [Statement.apply, hop] at happly
    exact ⟨op, rfl, hk, congrArg Hit.assignment (Except.ok.inj happly).symm⟩
  cases @foldlM_last now h h' ss Str Hit.assignment _
      (fun st x => ∃ op, st = .operation op ∧ op.key = .assignment ∧ x = assigned op)
      hkeep hset hfold with
  | inl hlast =>
    obtain ⟨_, hmem, -, op, rfl, hop⟩ := hlast
    exact .inl ⟨op, hmem, hop⟩
  | inr hlast => exact .inr ⟨fun op hop hk => hlast.1 _ hop ⟨op, rfl, hk⟩, hlast.2⟩

/-- The updates of a vote that is accepted. -/
def accepted (h : Hit) (uname email : Str) (v : Vote) : List OdmUpdateOperation :=
  ballot h.votes email v ++ if h.assignment = uname then handBack
    else [destUpdate .status h.status.value]

variable {uname email : Str} {v : Vote}

theorem accepted_keys (h : Hit) (uname email : Str) (v : Vote) :
    ((accepted h uname email v).map (·.key)).Nodup := by
  obtain ⟨hdistinct, hvotes⟩ := ballot_keys h.votes email v
  rw [accepted, List.map_append, List.nodup_append]
  refine ⟨hdistinct, by split <;> simp [handBack, update], fun k hk k' hk' heq => ?_⟩
  obtain ⟨u, hu, rfl⟩ := List.mem_map.mp hk
  obtain ⟨v', hv'⟩ := hvotes u hu
  rw [← heq] at hk'
  split at hk' <;> simp [handBack, update, destUpdate, hv'] at hk'

theorem checkEnum_value (s : Status) :
    checkEnum Status.list Status.value .opened (some s.value) = some s := by
  cases s <;> rfl

theorem accepted_valid : ∀ op ∈ accepted h uname email v, ∀ g : Hit, ∃ g', op.apply now g = some g' := by
  intro op hop g
  have hballot : op ∈ ballot h.votes email v → ∃ g', op.apply now g = some g' := by
    intro hop
    rw [ballot, List.mem_append] at hop
    cases hop with
    | inl hop =>
      obtain ⟨v', -, rfl⟩ := List.mem_map.mp hop
      exact ⟨_, rfl⟩
    | inr hop =>
      obtain ⟨v', -, rfl⟩ := List.mem_map.mp hop
      exact ⟨_, rfl⟩
  have hstatus : ∀ s : Status, ∃ g', (destUpdate .status s.value).apply now g = some g' := by
    intro s
    exact ⟨{ g with status := s }, by
      rw [OdmUpdateOperation.apply]
      simp [destUpdate, checkEnum_value]⟩
  rw [accepted, List.mem_append] at hop
  cases hop with
  | inl hop => exact hballot hop
  | inr hop =>
    split at hop
    · simp only [handBack, List.mem_cons, List.not_mem_nil, or_false] at hop
      cases hop with
      | inl hop => exact ⟨_, by rw [hop]; rfl⟩
      | inr hop => exact hop ▸ hstatus .opened
    · obtain rfl := List.mem_singleton.mp hop
      exact hstatus h.status

/-- What the script for a vote makes of the hit. -/
theorem voted_after (hs : h.votes.Single)
    (hfold : (finalOperations (accepted h uname email v) cur user version).foldlM
      (Statement.apply now) h = .ok h') : Voted h h' uname email v := by
  have hkeys := accepted_keys h uname email v
  constructor
  · refine (revote_after hkeys hfold (fun v' hv' => ?_) rfl (fun u hu => ?_) fun op hop hk => ?_).moved hs
    · rw [newVote] at hv'
      split at hv'
      · contradiction
      · next hne => exact Option.some.inj hv' ▸ hne
    · exact ⟨u, List.mem_append_left _ hu, rfl⟩
    · obtain ⟨v', hv'⟩ := hk
      cases List.mem_append.mp hop with
      | inl hop => exact hop
      | inr hop =>
        exfalso
        split at hop
        · simp only [handBack, List.mem_cons, List.not_mem_nil, or_false] at hop
          cases hop with
          | inl hop => simp [hop, update] at hv'
          | inr hop => simp [hop, update] at hv'
        · simp [List.mem_singleton.mp hop, destUpdate] at hv'
  · intro hown
    have hsame : ∀ op ∈ accepted h uname email v, ∀ op' ∈ accepted h uname email v,
        op.key = op'.key → op = op' := fun op hop op' hop' hk =>
      List.inj_on_of_nodup_map hkeys hop hop' hk
    have hin : ∀ op ∈ handBack, op ∈ accepted h uname email v := by
      intro op hop
      rw [accepted, if_pos hown]
      exact List.mem_append_right _ hop
    have hassignment := hin (update .assignment (some "unassigned".toList)) (by simp [handBack])
    have hstatus := hin (update .status (some Status.opened.value)) (by simp [handBack])
    constructor
    · cases assignment_after hfold with
      | inl hop =>
        obtain ⟨op, hop, hk, hvalue⟩ := hop
        rw [hsame op (mem_finalOperations.mp hop) _ hassignment hk] at hvalue
        exact hvalue
      | inr hno => exact absurd rfl (hno.1 _ (mem_finalOperations.mpr hassignment))
    · cases status_after hfold with
      | inl hop =>
        obtain ⟨op, hop, hk, hvalue⟩ := hop
        rw [hsame op (mem_finalOperations.mp hop) _ hstatus hk] at hvalue
        exact Option.some.inj (hvalue.symm.trans (checkEnum_value .opened))
      | inr hno => exact absurd rfl (hno.1 _ (mem_finalOperations.mpr hstatus))

end Effects

theorem not_voteTaken {rt : Runtime} {kwargs : Kwargs} {h : Hit} {uname email : Str} {v : Vote}
    (hfail : email = [] ∨ h.status = .inProgress ∧ h.assignment = uname) :
    ¬ VoteTaken rt kwargs h uname email v := by
  intro htaken
  obtain ⟨wf, ups, hwf, hups, -⟩ := htaken
  obtain rfl := Except.ok.inj ((getHitWorkflow_eq rt).symm.trans hwf)
  obtain ⟨e, he⟩ := @transition_vote_error h kwargs uname email v rt hfail
  have herror : Except.ok ups = Except.error e := hups.symm.trans he
  cases herror

/-- A vote of somebody who is not the assignee, or of the assignee of a hit that is open or in
progress, is taken exactly where it has an email and is not that of the assignee of a hit in
progress. -/
theorem vote_taken_iff (rt : Runtime) (kwargs : Kwargs) (h : Hit) (hs : h.votes.Single)
    (uname email : Str) (v : Vote)
    (hstatus : h.assignment ≠ uname ∧ (h.status = .opened ∨ h.status = .inProgress ∨
        h.status = .onHold) ∨
      h.assignment = uname ∧ (h.status = .opened ∨ h.status = .inProgress)) :
    VoteTaken rt kwargs h uname email v ↔
      email ≠ [] ∧ ¬ (h.status = .inProgress ∧ h.assignment = uname) := by
  constructor
  · intro htaken
    constructor
    · exact fun hemail => not_voteTaken (.inl hemail) htaken
    · exact fun hown => not_voteTaken (.inr hown) htaken
  · intro hfine
    have hopen : h.assignment = uname → h.status = .opened := by
      intro hown
      cases hstatus with
      | inl hother => exact absurd hown hother.1
      | inr hmine => exact hmine.2.resolve_right fun hprogress => hfine.2 ⟨hprogress, hown⟩
    have hups : (hitWorkflow rt).transition h.status.value StatusTransition.vote.value
        (votingArguments kwargs h uname email v) = .ok (accepted h uname email v) :=
      transition_vote rt hfine.1 hopen
    refine ⟨hitWorkflow rt, accepted h uname email v, getHitWorkflow_eq rt, hups,
      fun cur user version now => ?_⟩
    obtain ⟨h', hfold⟩ := exists_after accepted_valid h
    exact ⟨h', hfold, voted_after hs hfold⟩

/-- A hit in progress with votes, one of which is changed by somebody who is not the assignee. -/
def contestedHit : Hit :=
  { id := ['h'], status := .inProgress, assignment := ['o'],
    votes := { benign := [['x']], malicious := [['e'], ['y']] } }

theorem contestedHit_single : contestedHit.votes.Single := by
  refine ⟨fun v => by cases v <;> decide, fun v v' x hx hx' => ?_⟩
  cases v <;> cases v' <;> simp_all [contestedHit, Votes.get]

theorem vote_taken_contested : VoteTaken .ascii {} contestedHit ['u'] ['e'] .benign := by
  have hother : contestedHit.assignment ≠ ['u'] := by decide
  refine (vote_taken_iff .ascii {} contestedHit contestedHit_single ['u'] ['e'] .benign
    (.inl ⟨hother, .inr (.inl rfl)⟩)).mpr ⟨List.cons_ne_nil _ _, fun h => hother h.2⟩

/-- A hit in progress with its assignee. -/
def assignedHit : Hit := { id := ['h'], status := .inProgress, assignment := ['u'] }

theorem assignedHit_single : assignedHit.votes.Single :=
  ⟨fun v => by cases v <;> exact List.nodup_nil, fun v v' x hx => by cases v <;> contradiction⟩

/-- The vote of the assignee of a hit in progress is refused. -/
theorem assignee_vote_refused :
    assignedHit.votes.Single ∧ ¬ VoteTaken .ascii {} assignedHit ['u'] ['e'] .benign :=
  ⟨assignedHit_single, not_voteTaken (.inr ⟨rfl, rfl⟩)⟩

end Howler.Hits
