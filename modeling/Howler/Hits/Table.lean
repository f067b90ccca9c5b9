import Howler.Hits.Actions

namespace Howler.Hits

open Python Workflow

variable (rt : Runtime)

def hitWorkflow : Workflow Arguments := ⟨.status, register (hitTransitions rt)⟩

/-- The transitions that start from a status: that status, the name and the destination. -/
def rows : List (Status × StatusTransition × Status) :=
  [(.opened, .assignToMe, .inProgress), (.opened, .assignToOther, .opened),
   (.opened, .start, .inProgress), (.opened, .vote, .opened),
   (.inProgress, .assignToOther, .inProgress), (.inProgress, .release, .opened),
   (.opened, .assess, .resolved), (.inProgress, .assess, .resolved),
   (.inProgress, .vote, .inProgress), (.opened, .release, .opened),
   (.inProgress, .pause, .onHold), (.onHold, .resume, .inProgress),
   (.inProgress, .assignToMe, .inProgress), (.onHold, .assignToOther, .inProgress),
   (.onHold, .vote, .onHold), (.resolved, .reEvaluate, .inProgress),
   (.resolved, .vote, .resolved)]

theorem getHitWorkflow_eq : getHitWorkflow rt = .ok (hitWorkflow rt) := by
  have hvalid : (hitTransitions rt).all validateTransition = true := rfl
  have hkeys : ((hitTransitions rt).flatMap fun t => (keys t).map (· ++ t.dest.getD [])) =
      (rows.map fun r => r.1.value ++ r.2.1.value ++ r.2.2.value) ++
        [StatusTransition.promote.value ++ [], StatusTransition.demote.value ++ []] := rfl
  rw [getHitWorkflow, new, hvalid, if_neg (by decide), hkeys,
    if_neg (by decide +kernel), hitWorkflow]

/-- An action that writes neither the assessment nor the escalation. -/
def Plain (action : Str → Arguments → Except HitError (List OdmUpdateOperation)) : Prop :=
  action = assignHit ∨ action = checkOwnership ∨ action = unassignHit ∨ action = voteHit rt

/-- What the workflow does for a transition from a status. -/
inductive Row (s : Status) : StatusTransition → Transition Arguments → Prop where
  | assess (hs : s = .opened ∨ s = .inProgress) : Row s .assess
      { source := .many [Status.opened.value, Status.inProgress.value]
        transition := StatusTransition.assess.value
        dest := some Status.resolved.value
        actions := [assessHit rt, assignHit] }
  | reEvaluate (hs : s = .resolved) : Row s .reEvaluate
      (fromStatus .resolved .reEvaluate .inProgress [assessHit rt, assignHit])
  | promote : Row s .promote
      { transition := StatusTransition.promote.value, actions := [promoteHit] }
  | demote : Row s .demote
      { transition := StatusTransition.demote.value, actions := [demoteHit] }
  | plain {t : StatusTransition} {dest : Status}
      {actions : List (Str → Arguments → Except HitError (List OdmUpdateOperation))}
      (hdest : s = .resolved → dest = .resolved) (hactions : ∀ a ∈ actions, Plain rt a) :
      Row s t (fromStatus s t dest actions)

theorem key_injective : ∀ s ∈ Status.list, ∀ s' ∈ Status.list, ∀ t ∈ StatusTransition.list,
    ∀ t' ∈ StatusTransition.list, s.value ++ t.value = s'.value ++ t'.value → s = s' ∧ t = t' := by
  decide +kernel

theorem key_ne_transition : ∀ s ∈ Status.list, ∀ t ∈ StatusTransition.list,
    ∀ t' ∈ StatusTransition.list, s.value ++ t.value ≠ t'.value := by
  decide +kernel

theorem transition_injective : ∀ t ∈ StatusTransition.list, ∀ t' ∈ StatusTransition.list,
    t.value = t'.value → t = t' := by
  decide +kernel

theorem Status.mem_list (s : Status) : s ∈ Status.list := by cases s <;> decide

theorem StatusTransition.mem_list (t : StatusTransition) : t ∈ StatusTransition.list := by
  cases t <;> decide

/-- A key is that of one status and one transition. -/
theorem eq_of_key {s s' : Status} {t t' : StatusTransition}
    (h : s.value ++ t.value = s'.value ++ t'.value ∨ t.value = s'.value ++ t'.value) :
    s = s' ∧ t = t' := by
  cases h with
  | inl h => exact key_injective s s.mem_list s' s'.mem_list t t.mem_list t' t'.mem_list h
  | inr h => exact absurd h.symm (key_ne_transition s' s'.mem_list t' t'.mem_list t t.mem_list)

theorem eq_of_sourceless {s : Status} {t t' : StatusTransition}
    (h : s.value ++ t.value = t'.value ∨ t.value = t'.value) : t = t' := by
  cases h with
  | inl h => exact absurd h (key_ne_transition s s.mem_list t t.mem_list t' t'.mem_list)
  | inr h => exact transition_injective t t.mem_list t' t'.mem_list h

theorem keys_fromStatus (s dest : Status) (t : StatusTransition)
    (actions : List (Str → Arguments → Except HitError (List OdmUpdateOperation))) :
    keys (fromStatus s t dest actions) = [s.value ++ t.value] := rfl

theorem row_fromStatus {s s' dest : Status} {t t' : StatusTransition}
    {actions : List (Str → Arguments → Except HitError (List OdmUpdateOperation))}
    (hkey : s.value ++ t.value ∈ keys (fromStatus s' t' dest actions) ∨
      t.value ∈ keys (fromStatus s' t' dest actions))
    (hdest : s' = .resolved → dest = .resolved) (hactions : ∀ a ∈ actions, Plain rt a) :
    Row rt s t (fromStatus s' t' dest actions) := by
  obtain ⟨rfl, rfl⟩ := eq_of_key (hkey.imp List.mem_singleton.mp List.mem_singleton.mp)
  exact .plain hdest hactions

theorem row_reEvaluate {s : Status} {t : StatusTransition}
    (hkey : s.value ++ t.value ∈
        keys (fromStatus .resolved .reEvaluate .inProgress [assessHit rt, assignHit]) ∨
      t.value ∈ keys (fromStatus .resolved .reEvaluate .inProgress [assessHit rt, assignHit])) :
    Row rt s t (fromStatus .resolved .reEvaluate .inProgress [assessHit rt, assignHit]) := by
  rw [keys_fromStatus] at hkey
  obtain ⟨rfl, rfl⟩ := eq_of_key (hkey.imp List.mem_singleton.mp List.mem_singleton.mp)
  exact .reEvaluate rfl

/-- An assessment starts from two statuses. -/
theorem row_assess {s : Status} {t : StatusTransition}
    (hkey : s.value ++ t.value ∈ [Status.opened.value, Status.inProgress.value].map
        (· ++ StatusTransition.assess.value) ∨
      t.value ∈ [Status.opened.value, Status.inProgress.value].map
        (· ++ StatusTransition.assess.value)) :
    Row rt s t
      { source := .many [Status.opened.value, Status.inProgress.value]
        transition := StatusTransition.assess.value
        dest := some Status.resolved.value
        actions := [assessHit rt, assignHit] } := by
  have hcase : (s = .opened ∨ s = .inProgress) ∧ t = .assess := by
    simp only [List.map_cons, List.map_nil, List.mem_cons, List.not_mem_nil, or_false] at hkey
    rcases hkey with (h | h) | (h | h)
    · exact (eq_of_key (.inl h)).imp_left .inl
    · exact (eq_of_key (.inl h)).imp_left .inr
    · exact (eq_of_key (s := s) (.inr h)).imp_left .inl
    · exact (eq_of_key (s := s) (.inr h)).imp_left .inr
  obtain ⟨hs, rfl⟩ := hcase
  exact .assess hs

theorem row_promote {s : Status} {t : StatusTransition}
    (hkey : s.value ++ t.value ∈ [StatusTransition.promote.value] ∨
      t.value ∈ [StatusTransition.promote.value]) :
    Row rt s t { transition := StatusTransition.promote.value, actions := [promoteHit] } := by
  obtain rfl := eq_of_sourceless (hkey.imp List.mem_singleton.mp List.mem_singleton.mp)
  exact .promote

theorem row_demote {s : Status} {t : StatusTransition}
    (hkey : s.value ++ t.value ∈ [StatusTransition.demote.value] ∨
      t.value ∈ [StatusTransition.demote.value]) :
    Row rt s t { transition := StatusTransition.demote.value, actions := [demoteHit] } := by
  obtain rfl := eq_of_sourceless (hkey.imp List.mem_singleton.mp List.mem_singleton.mp)
  exact .demote

theorem find_hitWorkflow {s : Status} {t : StatusTransition} {tr : Transition Arguments}
    (h : (hitWorkflow rt).find s.value t.value = some tr) : Row rt s t tr := by
  obtain ⟨hmem, hkey⟩ := mem_of_find h
  simp only [hitTransitions, List.mem_cons, List.not_mem_nil, or_false] at hmem
  rcases hmem with rfl | rfl | rfl | rfl | rfl | rfl | rfl | rfl | rfl | rfl | rfl | rfl | rfl |
    rfl | rfl | rfl | rfl | rfl
  all_goals first
    | exact row_fromStatus rt hkey (by decide) (by simp [Plain])
    | exact row_reEvaluate rt hkey
    | exact row_assess rt hkey
    | exact row_promote rt hkey
    | exact row_demote rt hkey

end Howler.Hits
