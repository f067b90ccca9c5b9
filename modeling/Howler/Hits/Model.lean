import Howler.Python.Datetime
import Howler.Python.Dict
import Howler.Python.Runtime
import Howler.Systems.Programs

namespace Howler.Hits

open Python

inductive Status where
  | opened
  | inProgress
  | onHold
  | resolved
  deriving DecidableEq, Repr

inductive Escalation where
  | miss
  | hit
  | alert
  | evidence
  deriving DecidableEq, Repr

inductive Vote where
  | malicious
  | obscure
  | benign
  deriving DecidableEq, Repr

inductive Assessment where
  | ambiguous
  | security
  | development
  | falsePositive
  | legitimate
  | trivial
  | recon
  | attempt
  | compromise
  | mitigated
  deriving DecidableEq, Repr

/-- `HitStatusTransition`. -/
inductive StatusTransition where
  | assignToMe
  | assignToOther
  | vote
  | assess
  | release
  | start
  | pause
  | resume
  | reEvaluate
  | promote
  | demote
  deriving DecidableEq, Repr

def Status.value : Status → Str
  | opened => "open".toList
  | inProgress => "in-progress".toList
  | onHold => "on-hold".toList
  | resolved => "resolved".toList

def Status.list : List Status := [.opened, .inProgress, .onHold, .resolved]

def Escalation.value : Escalation → Str
  | miss => "miss".toList
  | hit => "hit".toList
  | alert => "alert".toList
  | evidence => "evidence".toList

def Escalation.list : List Escalation := [.miss, .hit, .alert, .evidence]

/-- The name of the enum member for a benign vote is `BEINIGN`. -/
def Vote.name : Vote → Str
  | malicious => "MALICIOUS".toList
  | obscure => "OBSCURE".toList
  | benign => "BEINIGN".toList

def Vote.value : Vote → Str
  | malicious => "malicious".toList
  | obscure => "obscure".toList
  | benign => "benign".toList

def Vote.list : List Vote := [.malicious, .obscure, .benign]

namespace Assessment

def name : Assessment → Str
  | ambiguous => "AMBIGUOUS".toList
  | security => "SECURITY".toList
  | development => "DEVELOPMENT".toList
  | falsePositive => "FALSE_POSITIVE".toList
  | legitimate => "LEGITIMATE".toList
  | trivial => "TRIVIAL".toList
  | recon => "RECON".toList
  | attempt => "ATTEMPT".toList
  | compromise => "COMPROMISE".toList
  | mitigated => "MITIGATED".toList

def value : Assessment → Str
  | ambiguous => "ambiguous".toList
  | security => "security".toList
  | development => "development".toList
  | falsePositive => "false-positive".toList
  | legitimate => "legitimate".toList
  | trivial => "trivial".toList
  | recon => "recon".toList
  | attempt => "attempt".toList
  | compromise => "compromise".toList
  | mitigated => "mitigated".toList

def list : List Assessment :=
  [.ambiguous, .security, .development, .falsePositive, .legitimate, .trivial, .recon, .attempt,
    .compromise, .mitigated]

/-- `AssessmentEscalationMap`, whose members have the names of those of `Assessment`. -/
def escalation : Assessment → Escalation
  | ambiguous => .miss
  | attempt => .evidence
  | compromise => .evidence
  | development => .miss
  | falsePositive => .miss
  | legitimate => .miss
  | mitigated => .evidence
  | recon => .evidence
  | security => .miss
  | trivial => .evidence

end Assessment

def StatusTransition.value : StatusTransition → Str
  | assignToMe => "assign_to_me".toList
  | assignToOther => "assign_to_other".toList
  | vote => "vote".toList
  | assess => "assess".toList
  | release => "release".toList
  | start => "start".toList
  | pause => "pause".toList
  | resume => "resume".toList
  | reEvaluate => "re_evaluate".toList
  | promote => "promote".toList
  | demote => "demote".toList

def StatusTransition.list : List StatusTransition :=
  [.assignToMe, .assignToOther, .vote, .assess, .release, .start, .pause, .resume, .reEvaluate,
    .promote, .demote]

/-- The exceptions of the workflow and of the datastore, with their messages. -/
inductive HitError where
  | notFound (msg : Str)
  | invalidData (msg : Str)
  | workflow (msg : Str)
  | howlerValue (msg : Str)
  | dataStore (msg : Str)
  | versionConflict
  | type
  | key
  | attribute
  deriving DecidableEq, Repr

/-- How the name of an enum member is looked up. -/
def enumName (rt : Runtime) (s : Str) : Str := replace ['-'] ['_'] (rt.upper s)

/-- `s in E` for an enum: the name or the value of a member. -/
def inEnum {E : Type} (rt : Runtime) (list : List E) (name value : E → Str) (s : Str) : Bool :=
  enumName rt s ∈ list.map name ∨ s ∈ list.map value

/-- `AssessmentEscalationMap[s]`. -/
def assessmentEscalation (rt : Runtime) (s : Str) : Except HitError Escalation :=
  match Assessment.list.find? fun a => a.name = enumName rt s with
  | none => .error .key
  | some a => .ok a.escalation

structure Votes where
  benign : List Str := []
  obscure : List Str := []
  malicious : List Str := []
  deriving DecidableEq, Repr

namespace Votes

def get (vs : Votes) : Vote → List Str
  | .benign => vs.benign
  | .obscure => vs.obscure
  | .malicious => vs.malicious

def set (vs : Votes) (v : Vote) (voters : List Str) : Votes :=
  match v with
  | .benign => { vs with benign := voters }
  | .obscure => { vs with obscure := voters }
  | .malicious => { vs with malicious := voters }

end Votes

/-- The fields of a hit that transitions write, apart from the log. -/
inductive Field where
  | status
  | escalation
  | assessment
  | rationale
  | triaged
  | assignment
  | votes (v : Vote)
  deriving DecidableEq, Repr

def Field.key : Field → Str
  | status => "howler.status".toList
  | escalation => "howler.escalation".toList
  | assessment => "howler.assessment".toList
  | rationale => "howler.rationale".toList
  | triaged => "howler.triaged".toList
  | assignment => "howler.assignment".toList
  | votes v => "howler.votes.".toList ++ v.value

def Field.multivalued : Field → Bool
  | votes _ => true
  | _ => false

/-- The value a field had, as a log entry shows it. Where there was none it says so. -/
inductive Previous where
  | nothing
  | text (s : Str)
  | time (t : Datetime)
  | voters (vs : List Str)
  deriving DecidableEq

/-- `HitOperationType`. -/
inductive OperationType where
  | appended
  | removed
  | set
  deriving DecidableEq, Repr

structure LogEntry where
  previousVersion : Option Nat
  key : Str
  newValue : Str
  previousValue : Previous
  type : OperationType
  user : Str
  deriving DecidableEq

structure Log extends LogEntry where
  timestamp : Datetime
  deriving DecidableEq

/-- What the workflow reads and writes of a hit. -/
structure Hit where
  id : Str
  status : Status := .opened
  escalation : Escalation := .hit
  assessment : Option Assessment := none
  rationale : Option Str := none
  triaged : Option Datetime := none
  assignment : Str := "unassigned".toList
  votes : Votes := {}
  log : List Log := []
  deriving DecidableEq

/-- `current_hit[key] or "None"`. -/
def Hit.previous (h : Hit) : Field → Previous
  | .status => .text h.status.value
  | .escalation => .text h.escalation.value
  | .assessment => (h.assessment.map fun a => Previous.text a.value).getD .nothing
  | .rationale =>
    match h.rationale with
    | none | some [] => .nothing
    | some s => .text s
  | .triaged => (h.triaged.map Previous.time).getD .nothing
  | .assignment => if h.assignment = [] then .nothing else .text h.assignment
  | .votes v => if h.votes.get v = [] then .nothing else .voters (h.votes.get v)

inductive UpdateOperation where
  | set
  | append
  | appendIfMissing
  | remove
  deriving DecidableEq, Repr

structure OdmUpdateOperation where
  operation : UpdateOperation
  key : Field
  value : Option Str
  explanation : Option Str := none
  silent : Bool := false
  deriving DecidableEq, Repr

/-- `Enum.check` for a field with a default. -/
def checkEnum {E : Type} (list : List E) (value : E → Str) (default : E) :
    Option Str → Option E
  | none | some [] => some default
  | some s => list.find? fun e => value e = s

/-- `Enum.check` for an optional field, where an empty text is no value. -/
def checkOptionalEnum {E : Type} (list : List E) (value : E → Str) :
    Option Str → Option (Option E)
  | none => some none
  | some s => (list.find? fun e => value e = s).map some

/-- `Keyword.check` for an optional field. -/
def checkOptionalKeyword : Option Str → Option Str
  | some [] => none
  | x => x

/-- `Date.check`. `NOW` is the only text that an action sets a date to. -/
def checkDate (now : Datetime) : Option Str → Option (Option Datetime)
  | none => some none
  | some s => if s = "NOW".toList then some (some now) else none

namespace Votes

def append (vs : Votes) (v : Vote) (email : Str) : Votes := vs.set v (vs.get v ++ [email])

def appendIfMissing (vs : Votes) (v : Vote) (email : Str) : Votes :=
  if email ∈ vs.get v then vs else vs.append v email

def remove (vs : Votes) (v : Vote) (email : Str) : Votes := vs.set v ((vs.get v).erase email)

end Votes

namespace OdmUpdateOperation

/-- The hit with a new value of a field, if the value is valid for it. -/
def apply (now : Datetime) (op : OdmUpdateOperation) (h : Hit) : Option Hit :=
  match op.key with
  | .status => (checkEnum Status.list Status.value .opened op.value).map
      fun s => { h with status := s }
  | .escalation => (checkEnum Escalation.list Escalation.value .hit op.value).map
      fun e => { h with escalation := e }
  | .assessment => (checkOptionalEnum Assessment.list Assessment.value op.value).map
      fun a => { h with assessment := a }
  | .rationale => some { h with rationale := checkOptionalKeyword op.value }
  | .triaged => (checkDate now op.value).map fun t => { h with triaged := t }
  | .assignment => some { h with
      assignment := (checkOptionalKeyword op.value).getD "unassigned".toList }
  | .votes v =>
    match op.operation, op.value with
    | .append, some s => some { h with votes := h.votes.append v s }
    | .appendIfMissing, some s => some { h with votes := h.votes.appendIfMissing v s }
    | .remove, some s => some { h with votes := h.votes.remove v s }
    | _, _ => none

def invalid (op : OdmUpdateOperation) : HitError :=
  .dataStore ("Invalid value for field ".toList ++ op.key.key ++ ": ".toList ++
    op.value.getD "None".toList)

end OdmUpdateOperation

/-- One statement of an update script: an operation, or an entry of the log. -/
inductive Statement where
  | operation (op : OdmUpdateOperation)
  | log (entry : LogEntry)
  deriving DecidableEq

def Statement.apply (now : Datetime) (h : Hit) : Statement → Except HitError Hit
  | .operation op =>
    match op.apply now h with
    | none => .error op.invalid
    | some h' => .ok h'
  | .log entry => .ok { h with log := h.log ++ [{ entry with timestamp := now }] }

/-- The commands to the datastore. A transition reads the hit first, and its version later. -/
inductive Command where
  | getHit (id : Str)
  | getVersion (id : Str)
  | update (id : Str) (statements : List Statement) (version : Option Nat)

def Command.Answer : Command → Type
  | .getHit _ => Option Hit
  | .getVersion _ => Option (Hit × Nat)
  | .update _ _ _ => Except HitError Unit

abbrev interface : Systems.Interface := ⟨Command, Command.Answer⟩

/-- A function of the hit service. -/
abbrev Service := Systems.Prog interface HitError

structure World where
  hits : Str → Option Hit
  versions : Str → Nat := fun _ => 0
  time : Datetime

/-- A hit is written in one step, and gets the next version. -/
def World.setHit (w : World) (id : Str) (h : Hit) : World :=
  { w with
    hits := Function.update w.hits id (some h)
    versions := Function.update w.versions id (w.versions id + 1) }

/-- An update is checked first. It is rejected where it has a version that is stale, and passed
over where there is no hit. -/
def handle : Systems.Handler interface World
  | .getHit id, w => (w.hits id, w)
  | .getVersion id, w => ((w.hits id).map fun h => (h, w.versions id), w)
  | .update id statements version, w =>
    match statements.foldlM (Statement.apply w.time) ((w.hits id).getD { id := id }) with
    | .error e => (.error e, w)
    | .ok h =>
      if w.hits id = none then (.ok (), w)
      else if version = none ∨ version = some (w.versions id) then (.ok (), w.setHit id h)
      else (.error .versionConflict, w)

end Howler.Hits
