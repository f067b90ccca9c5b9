import Howler.Python.Text
import Howler.Python.Dict
import Howler.Python.Datetime
import Howler.Systems.Programs

namespace Howler

open Python

inductive CaseItemTypes where
  | event
  | hit
  | case
  | reference
  | folder
  | markdown
  deriving DecidableEq, Repr

inductive RuleIndexTypes where
  | hit
  | event
  deriving DecidableEq, Repr

/-- The type of the items that stand for the records of an index. -/
def RuleIndexTypes.itemType : RuleIndexTypes → CaseItemTypes
  | .hit => .hit
  | .event => .event

theorem RuleIndexTypes.itemType_inj {t t' : RuleIndexTypes} (h : t.itemType = t'.itemType) :
    t = t' := by
  cases t <;> cases t' <;> first | rfl | contradiction

/-- `CLASSIFICATION.UNRESTRICTED` of the definition that comes with the code. -/
def unrestricted : Str := "NULL".toList

structure CaseItem where
  id : Str
  parent : Option Str
  name : Option Str
  type : CaseItemTypes
  value : Str
  visible : Bool := true
  classification : Option Str := some unrestricted
  deriving DecidableEq, Repr

structure CaseLog where
  timestamp : Datetime
  key : Option Str := none
  previousValue : Option Str := none
  newValue : Option Str := none
  user : Str
  explanation : Option Str := none
  deriving DecidableEq

structure CaseRule where
  ruleId : Str
  destination : Str
  query : Str
  author : Str
  enabled : Bool := true
  createdAt : Datetime
  timeframe : Option Int := none
  expireAfterResolved : Bool := false
  indexes : List RuleIndexTypes := [.hit]
  deriving DecidableEq

/-- A stored case. `other` holds the fields that only `update_case` writes. -/
structure Case where
  caseId : Str
  items : List CaseItem := []
  rules : List CaseRule := []
  log : List CaseLog := []
  targets : List Str := []
  threats : List Str := []
  indicators : List Str := []
  updated : Option Datetime := none
  other : Dict Str Str := []
  deriving DecidableEq

structure Outline where
  threat : Option Str := none
  target : Option Str := none
  indicators : List Str := []
  deriving DecidableEq, Repr

/-- What the operations on cases read and write of a hit or an event: `howler.related` (`cases`),
the classification, the ECS `related` values and, for hits, the outline. -/
structure Record where
  id : Str
  related : List Str := []
  classification : Str
  ecsRelated : List Str := []
  outline : Option Outline := none
  deriving DecidableEq, Repr

/-- The exceptions of the case service, with their messages. -/
inductive HowlerError where
  | notFound (msg : Str)
  | invalidData (msg : Str)
  | resourceExists (msg : Str)
  | howlerValue (msg : Str)
  | dataStore (msg : Str)
  | versionConflict
  | runtime (msg : Str)
  | recursion
  | datetime (e : DatetimeError)
  deriving DecidableEq, Repr

/-- A record that a search returns, with the fields that templates may use. -/
structure Match where
  id : Str
  index : RuleIndexTypes := .hit
  fields : Dict Str Str := []
  deriving DecidableEq, Repr

/-- The fields of a case that are derived from its items. -/
structure ItemFields where
  items : List CaseItem
  targets : List Str
  threats : List Str
  indicators : List Str
  deriving DecidableEq, Repr

def Case.itemFields (c : Case) : ItemFields := ⟨c.items, c.targets, c.threats, c.indicators⟩

def Case.setItemFields (c : Case) (f : ItemFields) : Case :=
  { c with items := f.items, targets := f.targets, threats := f.threats, indicators := f.indicators }

namespace Cases

/-- The commands to the datastore and to the system. -/
inductive Command where
  | getCase (id : Str)
  | saveCase (case : Case)
  | createCase (case : Case)
  | getRecord (t : RuleIndexTypes) (id : Str)
  | saveRecord (t : RuleIndexTypes) (record : Record) (version : Nat)
  | bulkRelated (t : RuleIndexTypes) (plan : List (Str × List Str))
  | bulkItems (plan : List (Str × ItemFields))
  | casesWithRules
  | casesWithItemValue (values : List Str)
  | deleteCases (ids : List Str)
  | search (indexes : List RuleIndexTypes) (query : Str) (ids : List Str)
  | now
  | randomId

def Command.Answer : Command → Type
  | .getCase _ => Option Case
  | .saveCase _ => Except HowlerError Unit
  | .createCase _ => Except HowlerError Unit
  | .getRecord _ _ => Option (Record × Nat)
  | .saveRecord _ _ _ => Except HowlerError Unit
  | .bulkRelated _ _ => Bool
  | .bulkItems _ => Bool
  | .casesWithRules => List Case
  | .casesWithItemValue _ => List Str
  | .deleteCases _ => Except HowlerError Unit
  | .search _ _ _ => Except HowlerError (List Match)
  | .now => Datetime
  | .randomId => Str

abbrev interface : Systems.Interface := ⟨Command, Command.Answer⟩

/-- A function of the services. -/
abbrev Service := Systems.Prog interface HowlerError

/-- The stored documents, with the version of each record, the random ids to come, the time, and
which of the writes to come fail. -/
structure World where
  cases : Str → Option Case
  records : RuleIndexTypes → Str → Option Record
  versions : RuleIndexTypes → Str → Nat := fun _ _ => 0
  uids : Nat → Str
  nextUid : Nat := 0
  time : Datetime
  faults : Nat → Bool := fun _ => false
  writes : Nat := 0

namespace World

def setCase (w : World) (c : Case) : World :=
  { w with cases := Function.update w.cases c.caseId (some c) }

def setRecord (w : World) (t : RuleIndexTypes) (r : Record) : World :=
  { w with
    records := Function.update w.records t (Function.update (w.records t) r.id (some r))
    versions := Function.update w.versions t
      (Function.update (w.versions t) r.id (w.versions t r.id + 1)) }

/-- One write, which may fail. -/
def write (w : World) (f : World → World) : Except HowlerError Unit × World :=
  if w.faults w.writes then
    (.error (.dataStore "write failed".toList), { w with writes := w.writes + 1 })
  else (.ok (), f { w with writes := w.writes + 1 })

/-- The operations of a bulk plan, one after the other. One that fails, or that is about a document
which does not exist, does not stop the others. -/
def bulk {α : Type} (f : α → World → Option World) : List α → World → Bool × World
  | [], w => (true, w)
  | a :: plan, w =>
    match f a w with
    | none => (false, (bulk f plan w).2)
    | some w' =>
      let r := w.write fun v => { w' with writes := v.writes }
      let rest := bulk f plan r.2
      (r.1.isOk && rest.1, rest.2)

def updateRelated (t : RuleIndexTypes) (u : Str × List Str) (w : World) : Option World :=
  (w.records t u.1).map fun r => w.setRecord t { r with id := u.1, related := u.2 }

def updateItems (u : Str × ItemFields) (w : World) : Option World :=
  (w.cases u.1).map fun c => w.setCase { c.setItemFields u.2 with caseId := u.1 }

end World

/-- What Elasticsearch returns for the searches of the services. -/
structure Elastic where
  withRules : World → List Case
  withItemValue : World → List Str → List Str
  search : World → List RuleIndexTypes → Str → List Str → Except HowlerError (List Match)

def handle (es : Elastic) : Systems.Handler interface World
  | .getCase id, w => (w.cases id, w)
  | .saveCase c, w => w.write (·.setCase c)
  | .createCase c, w =>
    match w.cases c.caseId with
    | some _ => (.error .versionConflict, w)
    | none => w.write (·.setCase c)
  | .getRecord t id, w => ((w.records t id).map fun r => (r, w.versions t id), w)
  | .saveRecord t r version, w =>
    if w.versions t r.id ≠ version then (.error .versionConflict, w)
    else w.write (·.setRecord t r)
  | .bulkRelated t plan, w => w.bulk (World.updateRelated t) plan
  | .bulkItems plan, w => w.bulk World.updateItems plan
  | .casesWithRules, w => (es.withRules w, w)
  | .casesWithItemValue values, w => (es.withItemValue w values, w)
  | .deleteCases ids, w =>
    w.write fun w => { w with cases := fun id => if id ∈ ids then none else w.cases id }
  | .search indexes query ids, w => (es.search w indexes query ids, w)
  | .now, w => (w.time, w)
  | .randomId, w => (w.uids w.nextUid, { w with nextUid := w.nextUid + 1 })

open Systems.Prog

/-- A command that raises where its answer is an error. -/
def attempt {α : Type} (p : Service (Except HowlerError α)) : Service α := do
  let r ← p
  fromExcept r

def getCase (id : Str) : Service (Option Case) := perform (I := interface) (.getCase id)

def saveCase (c : Case) : Service Unit := attempt (perform (I := interface) (.saveCase c))

def createNewCase (c : Case) : Service Unit := attempt (perform (I := interface) (.createCase c))

def getRecord (t : RuleIndexTypes) (id : Str) : Service (Option (Record × Nat)) :=
  perform (I := interface) (.getRecord t id)

def saveRecord (t : RuleIndexTypes) (r : Record) (version : Nat) : Service Unit :=
  attempt (perform (I := interface) (.saveRecord t r version))

def bulkRelated (t : RuleIndexTypes) (plan : List (Str × List Str)) : Service Bool :=
  perform (I := interface) (.bulkRelated t plan)

def bulkItems (plan : List (Str × ItemFields)) : Service Bool :=
  perform (I := interface) (.bulkItems plan)

def casesWithRules : Service (List Case) := perform (I := interface) .casesWithRules

def casesWithItemValue (values : List Str) : Service (List Str) :=
  perform (I := interface) (.casesWithItemValue values)

def deleteCaseDocuments (ids : List Str) : Service Unit :=
  attempt (perform (I := interface) (.deleteCases ids))

def searchRecords (indexes : List RuleIndexTypes) (query : Str) (ids : List Str) :
    Service (List Match) :=
  attempt (perform (I := interface) (.search indexes query ids))

def now : Service Datetime := perform (I := interface) .now

def randomId : Service Str := perform (I := interface) .randomId

section Run

variable (es : Elastic) (w : World)

theorem run_attempt {α : Type} {p : Service (Except HowlerError α)} {r : Except HowlerError α}
    {w w' : World} (h : p.run (handle es) w = (.ok r, w')) :
    (attempt p).run (handle es) w = (r, w') := by
  rw [attempt, run_bind_ok h, run_fromExcept]

@[simp] theorem run_getCase (id : Str) :
    (getCase id).run (handle es) w = (.ok (w.cases id), w) := rfl

@[simp] theorem run_saveCase (c : Case) :
    (saveCase c).run (handle es) w = w.write (·.setCase c) :=
  run_attempt es rfl

@[simp] theorem run_getRecord (t : RuleIndexTypes) (id : Str) :
    (getRecord t id).run (handle es) w =
      (.ok ((w.records t id).map fun r => (r, w.versions t id)), w) := rfl

theorem run_saveRecord (t : RuleIndexTypes) (r : Record) (version : Nat) :
    (saveRecord t r version).run (handle es) w =
      if w.versions t r.id ≠ version then (.error .versionConflict, w)
      else w.write (·.setRecord t r) :=
  run_attempt es rfl

@[simp] theorem run_deleteCaseDocuments (ids : List Str) :
    (deleteCaseDocuments ids).run (handle es) w = w.write fun w =>
      { w with cases := fun id => if id ∈ ids then none else w.cases id } :=
  run_attempt es rfl

@[simp] theorem run_casesWithItemValue (values : List Str) :
    (casesWithItemValue values).run (handle es) w = (.ok (es.withItemValue w values), w) := rfl

@[simp] theorem run_casesWithRules :
    casesWithRules.run (handle es) w = (.ok (es.withRules w), w) := rfl

@[simp] theorem run_now : now.run (handle es) w = (.ok w.time, w) := rfl

@[simp] theorem run_randomId : randomId.run (handle es) w =
    (.ok (w.uids w.nextUid), { w with nextUid := w.nextUid + 1 }) := rfl

variable {w}

/-- A write that succeeds. -/
theorem World.write_ok {f : World → World} {u : Unit} {w' : World} (h : w.write f = (.ok u, w')) :
    w' = f { w with writes := w.writes + 1 } := by
  unfold World.write at h
  split at h
  · simp at h
  · exact (Prod.ext_iff.mp h).2.symm

theorem World.write_error {f : World → World} {e : HowlerError} {w' : World}
    (h : w.write f = (.error e, w')) : w' = { w with writes := w.writes + 1 } := by
  unfold World.write at h
  split at h
  · exact (Prod.ext_iff.mp h).2.symm
  · simp at h

end Run

/-- Every document is stored under its own id. -/
structure World.Keyed (w : World) : Prop where
  cases : ∀ k c, w.cases k = some c → c.caseId = k
  records : ∀ t k r, w.records t k = some r → r.id = k

/-- The store that holds some documents. -/
def World.ofDocuments (cases : List Case) (records : List (RuleIndexTypes × Record))
    (uids : Nat → Str) (time : Datetime) : World where
  cases := fun k => cases.find? (·.caseId = k)
  records := fun t k => (records.find? fun r => r.1 = t ∧ r.2.id = k).map (·.2)
  uids := uids
  time := time

theorem World.keyed_ofDocuments (cases : List Case) (records : List (RuleIndexTypes × Record))
    (uids : Nat → Str) (time : Datetime) : (World.ofDocuments cases records uids time).Keyed := by
  constructor
  · intro k c h
    simpa using List.find?_some h
  · intro t k r h
    obtain ⟨r', hr', rfl⟩ := Option.map_eq_some_iff.mp h
    have hk : r'.1 = t ∧ r'.2.id = k := by simpa using List.find?_some hr'
    exact hk.2

end Cases

end Howler
