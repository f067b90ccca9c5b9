import Howler.Hits.Actions

namespace Howler.Hits

open Python Systems.Prog

def getHit (id : Str) : Service (Option Hit) := perform (I := interface) (.getHit id)

def getVersion (id : Str) : Service (Option (Hit × Nat)) :=
  perform (I := interface) (.getVersion id)

def updateDocument (id : Str) (statements : List Statement) (version : Option Nat) :
    Service Unit := do
  let r ← perform (I := interface) (.update id statements version)
  fromExcept r

def OdmUpdateOperation.type (op : OdmUpdateOperation) : OperationType :=
  if op.key.multivalued then
    if op.operation = .append ∨ op.operation = .appendIfMissing then .appended else .removed
  else .set

def OdmUpdateOperation.logEntry (op : OdmUpdateOperation) (h : Hit) (user : Str)
    (version : Option Nat) : LogEntry where
  previousVersion := version
  key := op.key.key
  newValue := (op.value.filter (· ≠ [])).getD "None".toList
  previousValue := h.previous op.key
  type := op.type
  user := if user = [] then "Unknown".toList else user

/-- The operations, with an entry of the log for each that is not silent. -/
def finalOperations (operations : List OdmUpdateOperation) (h : Hit) (user : Str)
    (version : Option Nat) : List Statement :=
  operations.flatMap fun op =>
    if op.silent then [.operation op] else [.operation op, .log (op.logEntry h user version)]

/-- The hit as `_update_hit` fetches it. If no version is given, it takes the one of that moment. An
empty version is no version for the datastore. -/
def fetchCurrent (hitId : Str) : Option (Option Nat) → Service (Hit × Option Nat)
  | none => do
    match ← getVersion hitId with
    | none => throw .attribute
    | some (h, version) => return (h, some version)
  | some version => do
    match ← getHit hitId with
    | none => throw .attribute
    | some h => return (h, version)

/-- `_update_hit`. -/
def updateHit (hitId : Str) (operations : List OdmUpdateOperation) (user : Str)
    (version : Option (Option Nat)) : Service (Option (Hit × Nat)) := do
  let current ← fetchCurrent hitId version
  updateDocument hitId (finalOperations operations current.1 user current.2) current.2
  getVersion hitId

/-- A call of `transition_hit`. The hit may be given with it, and is read otherwise. -/
structure Call where
  id : Str
  transition : StatusTransition
  uname : Str
  version : Option (Option Nat) := none
  hit : Option HitDict := none
  kwargs : Kwargs := {}
  deriving DecidableEq

namespace Call

variable (rt : Runtime) (call : Call)

def arguments (d : HitDict) : Arguments where
  toKwargs := call.kwargs
  uname := call.uname
  hit := d

/-- The updates that the workflow generates for a hit. -/
def plan (d : HitDict) : Except HitError (List OdmUpdateOperation) := do
  let workflow ← getHitWorkflow rt
  workflow.transition d.status call.transition.value (call.arguments d)

/-- The trigger of the actions to be executed, for the transitions that have one. -/
def trigger : Except HitError StatusTransition :=
  match call.transition with
  | .assess =>
    match call.kwargs.assessment with
    | none => .error .key
    | some assessment => do
      let escalation ← assessmentEscalation rt (assessment.getD "None".toList)
      return if escalation = .evidence then .promote else .demote
  | .reEvaluate => .ok .promote
  | t => .ok t

def requiresBulkActions : Bool :=
  call.transition ∈ [.promote, .demote, .assess, .reEvaluate]

end Call

variable (rt : Runtime)

/-- What follows the update. -/
def finishTransition (call : Call) (hitId : Str) (updated : Option (Hit × Nat)) :
    Service (Option (Hit × Nat)) :=
  if call.requiresBulkActions then do
    let _ ← fromExcept (call.trigger rt)
    let _ ← getVersion hitId
    getVersion hitId
  else pure updated

/-- The update, if there is anything to update. -/
def applyUpdates (call : Call) (hitId : Str) (updates : List OdmUpdateOperation) :
    Service (Option (Hit × Nat)) :=
  if updates = [] then pure none else updateHit hitId updates call.uname call.version

/-- `transition_hit` once the hit is known. -/
def transitionFrom (call : Call) (d : HitDict) : Service (Option (Hit × Nat)) := do
  let updates ← fromExcept (call.plan rt d)
  let updated ← applyUpdates call d.id updates
  finishTransition rt call d.id updated

def transitionHit (call : Call) : Service (Option (Hit × Nat)) :=
  match call.hit with
  | some d => transitionFrom rt call d
  | none => do
    match ← getHit call.id with
    | none => throw (.notFound "Hit does not exist".toList)
    | some h => transitionFrom rt call h.toDict

/-- What `convert_hit` does to a new hit that is assessed: the hit and the warnings. -/
def convertEscalation (h : Hit) : Hit × List Str :=
  match h.assessment with
  | none => (h, [])
  | some a =>
    if h.escalation = a.escalation then (h, [])
    else ({ h with escalation := a.escalation },
      ["Hits with assessment ".toList ++ a.value ++ " must also have escalation set to ".toList ++
        a.escalation.value ++ ".".toList])

/-- What `convert_hit` does to a new hit that is escalated. -/
def convertStatus (h : Hit) : Hit × List Str :=
  if (h.escalation = .miss ∨ h.escalation = .evidence) ∧ h.status ≠ .resolved then
    ({ h with status := .resolved },
      [("Hits with escalation miss or evidence must also have their status set to ".toList ++
        "resolved.".toList)])
  else (h, [])

/-- `convert_hit`, for a hit that is valid. -/
def convertHit (h : Hit) : Hit × List Str :=
  let escalated := convertEscalation h
  let resolved := convertStatus escalated.1
  (resolved.1, escalated.2 ++ resolved.2)

end Howler.Hits
