import Howler.Hits.Workflow

namespace Howler.Hits

open Python

/-- A keyword argument: absent, `None` or a text. -/
abbrev Kwarg := Option (Option Str)

/-- Whether a text is given that is not empty. -/
def Kwarg.text (a : Kwarg) : Option Str := a.join.filter (· ≠ [])

/-- What a hit is for the actions. -/
structure HitDict where
  id : Str
  status : Str
  assignment : Str
  votes : Votes
  deriving DecidableEq, Repr

def Hit.toDict (h : Hit) : HitDict := ⟨h.id, h.status.value, h.assignment, h.votes⟩

/-- The arguments of a transition that only its actions use. -/
structure Kwargs where
  assessment : Kwarg := none
  rationale : Kwarg := none
  assignee : Kwarg := none
  escalation : Kwarg := none
  vote : Kwarg := none
  email : Kwarg := none
  deriving DecidableEq

/-- The arguments of the actions. `uname` is that of the user. -/
structure Arguments extends Kwargs where
  uname : Str
  hit : HitDict
  deriving DecidableEq

/-- `odm_helper.update`. -/
def update (key : Field) (value : Option Str) (silent : Bool := false) : OdmUpdateOperation :=
  { operation := .set, key := key, value := value, silent := silent }

/-- The list of votes that has a key, if there is one. -/
def voteField (vote : Str) : Except HitError Field :=
  match Vote.list.find? fun v => v.value = vote with
  | none => .error (.howlerValue ("Key howler.votes.".toList ++ vote ++ " not found in Hit".toList))
  | some v => .ok (.votes v)

section Actions

variable (rt : Runtime)

def assessHit (_ : Str) (args : Arguments) : Except HitError (List OdmUpdateOperation) :=
  match args.assessment.text with
  | none => .ok [
      update .assessment none,
      update .escalation none,
      update .rationale none true,
      update .triaged none,
      update .status (some Status.inProgress.value)]
  | some assessment =>
    if inEnum rt Assessment.list Assessment.name Assessment.value assessment = false then
      .error (.invalidData ("Must set assessment to one of ".toList ++
        join ", ".toList (Assessment.list.map Assessment.value) ++ ".".toList))
    else do
      let escalation ← assessmentEscalation rt assessment
      return [
        update .assessment (some assessment),
        update .escalation (some escalation.value),
        update .rationale args.rationale.join true,
        update .triaged (some "NOW".toList),
        update .status (some Status.resolved.value)]

def unassignHit (_ : Str) (args : Arguments) : Except HitError (List OdmUpdateOperation) :=
  if args.hit.assignment = args.uname then
    .ok [update .assignment (some "unassigned".toList)]
  else .error (.invalidData "Cannot release hit that isn't assigned to you.".toList)

def assignHit (transition : Str) (args : Arguments) : Except HitError (List OdmUpdateOperation) :=
  if transition = StatusTransition.assignToOther.value ∧ args.assignee.text = none then
    .error (.invalidData "Must specify an assignee when assigning to another user.".toList)
  else if transition = StatusTransition.assignToOther.value ∧
      args.assignee.text = some args.hit.assignment then
    .error (.invalidData
      "Must specify an assignee that is different from the current assigned user.".toList)
  else .ok [update .assignment (some (args.assignee.text.getD args.uname))]

def checkOwnership (_ : Str) (args : Arguments) : Except HitError (List OdmUpdateOperation) :=
  if args.hit.assignment ≠ args.uname then
    .error (.invalidData
      "Cannot use this transition when the hit is not assigned to you.".toList)
  else .ok []

def promoteHit (_ : Str) (args : Arguments) : Except HitError (List OdmUpdateOperation) :=
  .ok [update .escalation (args.escalation.getD (some Escalation.alert.value))]

def demoteHit (_ : Str) (args : Arguments) : Except HitError (List OdmUpdateOperation) :=
  .ok [update .escalation (args.escalation.getD (some Escalation.hit.value))]

/-- The list that an email is in: of several, the first. -/
def oldVote (votes : Votes) (email : Str) : Option Vote :=
  if email ∈ votes.benign then some .benign
  else if email ∈ votes.obscure then some .obscure
  else if email ∈ votes.malicious then some .malicious
  else none

/-- The removal of an old vote and the addition of a new one, which is not the same. -/
def voteUpdates (votes : Votes) (email vote : Str) : Except HitError (List OdmUpdateOperation) :=
  let removal : List OdmUpdateOperation := (oldVote votes email).toList.map fun v =>
    { operation := .remove, key := .votes v, value := some email }
  if (oldVote votes email).map Vote.value = some vote then .ok removal
  else do
    let field ← voteField vote
    return removal ++ [{ operation := .appendIfMissing, key := field, value := some email }]

def voteHit (_ : Str) (args : Arguments) : Except HitError (List OdmUpdateOperation) :=
  match args.vote, args.email with
  | none, _ | _, none => .error .type
  | some vote, some email =>
    match email.filter (· ≠ []) with
    | none => .error (.invalidData "Could not vote on Hit as no email was provided".toList)
    | some email =>
      match vote.filter fun s => s ≠ [] ∧ inEnum rt Vote.list Vote.name Vote.value s with
      | none => .error (.invalidData ("vote is not optional. Provide a value from: ".toList ++
          join ", ".toList (Vote.list.map Vote.value)))
      | some vote => do
        let updates ← voteUpdates args.hit.votes email vote
        if args.hit.assignment ≠ args.uname then return updates
        else if args.hit.status = Status.inProgress.value ∨
            args.hit.status = Status.opened.value then
          return updates ++ [
            update .assignment (some "unassigned".toList),
            update .status (some Status.opened.value)]
        else throw (.invalidData "Cannot vote on hit you are assigned to.".toList)

/-- A transition from one status. -/
def fromStatus (source : Status) (transition : StatusTransition) (dest : Status)
    (actions : List (Str → Arguments → Except HitError (List OdmUpdateOperation))) :
    Transition Arguments where
  source := .one source.value
  transition := transition.value
  dest := some dest.value
  actions := actions

def hitTransitions : List (Transition Arguments) :=
  [fromStatus .opened .assignToMe .inProgress [assignHit],
   fromStatus .opened .assignToOther .opened [assignHit],
   fromStatus .opened .start .inProgress [checkOwnership],
   fromStatus .opened .vote .opened [voteHit rt],
   fromStatus .inProgress .assignToOther .inProgress [assignHit],
   fromStatus .inProgress .release .opened [unassignHit],
   { source := .many [Status.opened.value, Status.inProgress.value]
     transition := StatusTransition.assess.value
     dest := some Status.resolved.value
     actions := [assessHit rt, assignHit] },
   fromStatus .inProgress .vote .inProgress [voteHit rt],
   fromStatus .opened .release .opened [unassignHit],
   fromStatus .inProgress .pause .onHold [checkOwnership],
   fromStatus .onHold .resume .inProgress [checkOwnership],
   fromStatus .inProgress .assignToMe .inProgress [assignHit],
   fromStatus .onHold .assignToOther .inProgress [assignHit],
   fromStatus .onHold .vote .onHold [voteHit rt],
   fromStatus .resolved .reEvaluate .inProgress [assessHit rt, assignHit],
   fromStatus .resolved .vote .resolved [voteHit rt],
   { transition := StatusTransition.promote.value
     actions := [promoteHit] },
   { transition := StatusTransition.demote.value
     actions := [demoteHit] }]

def getHitWorkflow : Except HitError (Workflow Arguments) :=
  Workflow.new .status (hitTransitions rt)

end Actions

end Howler.Hits
