import Howler.Classification.Engine
import Howler.Datastore.Masks
import Howler.Datastore.Scripts
import Howler.Structures.Addresses

namespace Howler.Datastore

open Python Structures

section Access

variable (rt : Runtime) (E : Engine)

def lvlJson : LvlEntry → Json
  | .idx n => .num n
  | .text s => .str s

/-- The names of the fields that searches filter on. -/
def accessKeys : List Str :=
  ["__access_lvl__".toList, "__access_req__".toList, "__access_grp1__".toList,
    "__access_grp2__".toList]

def accessFields (parts : AccessControlParts) : Dict Str Json :=
  [("__access_lvl__".toList, lvlJson parts.accessLvl),
    ("__access_req__".toList, .list (parts.accessReq.map .str)),
    ("__access_grp1__".toList, .list (parts.accessGrp1.map .str)),
    ("__access_grp2__".toList, .list (parts.accessGrp2.map .str))]

/-- `ClassificationObject.get_access_control_parts`. -/
def accessParts (isUc : Bool) (c : Str) : Except PyError (Dict Str Json) := do
  return accessFields (← E.getAccessControlParts rt c isUc)

end Access

section Documents

/-- What a field of a document holds: the primitives of a value, or a `ClassificationObject`. -/
inductive Held where
  | value (j : Json)
  | marking (isUc : Bool) (c : Str)

/-- An instance of a model with a field for the classification, or of a part of its fields. -/
structure Instance (isUc : Bool) where
  held : Dict Str Held
  nodup : (Dict.keys held).Nodup
  named : ∀ k ∈ accessKeys, k ∉ Dict.keys held
  nonempty : [] ∉ Dict.keys held
  keyed : ∀ e ∈ held, ∀ j, e.2 = .value j → Json.Keyed j
  marked : ∀ v, Dict.get? held "classification".toList = some v → ∃ c, v = .marking isUc c

variable (rt : Runtime) (E : Engine)

/-- `d.update(other)`. -/
def updateAll (d : Dict Str Json) (other : List (Str × Json)) : Dict Str Json :=
  other.foldl (fun d e => Dict.set d e.1 e.2) d

/-- One field of `as_primitives(hidden_fields=True)`. -/
def addPrimitive (out : Dict Str Json) (key : Str) : Held → Except PyError (Dict Str Json)
  | .value j => return Dict.set out key j
  | .marking isUc c => return updateAll (Dict.set out key (.str c)) (← accessParts rt E isUc c)

/-- `Model.as_primitives(hidden_fields=True)`. -/
def Instance.asPrimitives {isUc : Bool} (d : Instance isUc) : Except PyError (Dict Str Json) :=
  d.held.foldlM (fun out e => addPrimitive rt E out e.1 e.2) []

end Documents

section Plans

variable (rt : Runtime) (E : Engine)

/-- An index and the id of a document in it. -/
abbrev Place := Str × Str

abbrev Store := Place → Option Json

def Store.put (s : Store) (p : Place) (doc : Option Json) : Store :=
  fun q => if q = p then doc else s q

/-- The operations of a bulk request on a document. -/
inductive Action where
  | create (doc : Json)
  | index (doc : Json)
  | update (doc : Json) (docAsUpsert : Bool)

/-- What the operations make of the document that is stored. -/
def Action.apply : Action → Option Json → Option Json
  | create doc, none => some doc
  | create _, some stored => some stored
  | index doc, _ => some doc
  | update doc docAsUpsert, none => if docAsUpsert then some doc else none
  | update doc _, some stored => some (Json.merge stored doc)

abbrev BulkOperation := Place × Action

def BulkOperation.perform (o : BulkOperation) (s : Store) : Store := s.put o.1 (o.2.apply (s o.1))

variable {isUc : Bool}

/-- `saved_doc` with its id. -/
def savedDoc (docId : Str) (doc : Instance isUc) : Except PyError Json :=
  return .obj (Dict.set (← doc.asPrimitives rt E) "id".toList (.str docId))

/-- `index or self.indexes[0]`. -/
def defaultIndex (indexes : List Str) (index : Str) : Except PyError Str :=
  if index ≠ [] then return index
  else match indexes with
    | [] => throw .indexError
    | i :: _ => return i

/-- The operation for one of the three that write a whole document. -/
def addWholeOperation (action : Json → Action) (indexes : List Str) (docId : Str)
    (doc : Instance isUc) (index : Str) : Except PyError (List BulkOperation) := do
  let saved ← savedDoc rt E docId doc
  return [((← defaultIndex indexes index, docId), action saved)]

def addInsertOperation (indexes : List Str) (docId : Str) (doc : Instance isUc) (index : Str) :
    Except PyError (List BulkOperation) :=
  addWholeOperation rt E .create indexes docId doc index

def addIndexOperation (indexes : List Str) (docId : Str) (doc : Instance isUc) (index : Str) :
    Except PyError (List BulkOperation) :=
  addWholeOperation rt E .index indexes docId doc index

def addUpsertOperation (indexes : List Str) (docId : Str) (doc : Instance isUc) (index : Str) :
    Except PyError (List BulkOperation) :=
  addWholeOperation rt E (.update · true) indexes docId doc index

/-- The body of an update, which is cut down to the fields that are asked for. -/
def updateBody (knownPaths : List Str) (doc : Instance isUc) (fields : Option (List Str)) :
    Except PyError (Dict Str Json) := do
  let saved ← doc.asPrimitives rt E
  match fields with
  | none => return saved
  | some patterns => return pruneFields (expandFieldPatterns knownPaths patterns) [] saved

/-- The indexes that an update goes to. -/
def updateTargets (indexes : List Str) (index : Str) : List Str :=
  if index ≠ [] then [index] else indexes

def addUpdateOperation (knownPaths : List Str) (indexes : List Str) (docId : Str)
    (doc : Instance isUc) (index : Str) (fields : Option (List Str)) :
    Except PyError (List BulkOperation) := do
  let body ← updateBody rt E knownPaths doc fields
  return (updateTargets indexes index).map fun i => ((i, docId), .update (.obj body) false)

end Plans

end Howler.Datastore
