import Howler.Structures.Json
import Howler.Systems.Requests
import Howler.Systems.Versioned

namespace Howler.Dossiers

open Python Structures Systems Systems.Prog

inductive DossierType where
  | personal
  | global
  deriving DecidableEq, Repr

/-- A pivot, with the keys of its mappings. -/
structure Pivot where
  data : Json
  mappingKeys : List Str

structure Dossier where
  dossierId : Str
  leads : List Json
  pivots : List Pivot
  title : Str
  owner : Str
  query : Option Str
  type : DossierType

structure User where
  uname : Str
  type : List Str

/-- What the service raises; `howler` is for exceptions of howler that it has no branch for. -/
inductive DossierError where
  | notFound (message : Str)
  | invalidData (message : Str)
  | forbidden (message : Str)
  | search (message : Str)
  | howler (message : Str)
  | typeError
  | attributeError
  deriving DecidableEq, Repr

/-- `Dossier(data)`, with a random id where there is none, and whether a search for a query runs. -/
structure Surroundings where
  build : Dict Str Json → Str → Except DossierError Dossier
  search : Json → Except DossierError Unit

def permittedKeys : List Str :=
  ["title".toList, "query".toList, "leads".toList, "pivots".toList, "type".toList, "owner".toList]

section Store

/-- What is asked of the datastore. -/
inductive Command where
  | exists (id : Str)
  | get (id : Str)
  | search (query : Json)
  | save (id : Str) (dossier : Dossier) (version : Option ℕ)
  | delete (id : Str)
  | randomId

def Command.Answer : Command → Type
  | .exists _ => Bool
  | .get _ => Option (Dossier × ℕ)
  | .search _ => Unit
  | .save _ _ _ => Unit
  | .delete _ => Bool
  | .randomId => Str

abbrev interface : Interface := ⟨Command, Command.Answer⟩

structure World where
  docs : Versioned Str Dossier
  uids : ℕ → Str
  nextUid : ℕ := 0

/-- The datastore: a save with a version succeeds only for the document as it is. -/
def server (around : Surroundings) : Server interface DossierError World
  | .exists id, w => .ok ((w.docs.current id).isSome, w)
  | .get id, w => .ok ((w.docs.current id).map fun d => (d, w.docs.version id), w)
  | .search query, w => (around.search query).map fun u => (u, w)
  | .save id dossier version, w =>
    if ' ' ∈ id then
      .error (.howler "You are not allowed to use spaces in datastore keys.".toList)
    else if version = none ∨ version = some (w.docs.version id) then
      .ok ((), { w with docs := w.docs.record id (some dossier) })
    else .error (.howler "version conflict".toList)
  | .delete id, w =>
    match w.docs.current id with
    | none => .ok (false, w)
    | some _ => .ok (true, { w with docs := w.docs.record id none })
  | .randomId, w => .ok (w.uids w.nextUid, { w with nextUid := w.nextUid + 1 })

abbrev Service := Prog (interface.fallible DossierError) DossierError

/-- A request to the datastore. -/
def ask (c : Command) : Service c.Answer := @request interface DossierError c

end Store

section Pivots

/-- A value that may be in a set: true and false are numbers. -/
inductive Hashed where
  | none
  | num (n : ℚ)
  | str (s : Str)
  deriving DecidableEq

/-- `mapping.get("key")`, as it is put into a set. -/
def keyOf : Json → Except DossierError Hashed
  | .obj fields =>
    match Json.entry fields "key".toList with
    | .null => .ok .none
    | .bool b => .ok (.num (if b then 1 else 0))
    | .num n => .ok (.num n)
    | .str s => .ok (.str s)
    | .list _ | .obj _ => .error .typeError
  | _ => .error .attributeError

/-- `pivot.get("mappings") or []`, with its items. Those of a text and the keys of a map have no
keys of their own. -/
def mappingsOf : Json → Except DossierError (List Json)
  | .obj fields =>
    match Json.entry fields "mappings".toList with
    | .list mappings => .ok mappings
    | .null | .str [] | .obj [] | .bool false => .ok []
    | .str (_ :: _) | .obj (_ :: _) => .error .attributeError
    | .bool true => .error .typeError
    | .num n => if n = 0 then .ok [] else .error .typeError
  | _ => .error .attributeError

def duplicateKeys : DossierError := .invalidData "One of your pivots has duplicate keys set.".toList

def checkPivot (pivot : Json) : Except DossierError Unit := do
  let mappings ← mappingsOf pivot
  let keys ← mappings.mapM keyOf
  if keys.length ≠ keys.dedup.length then throw duplicateKeys

/-- The pivots of an update are checked. -/
def checkPivots : Json → Except DossierError Unit
  | .list pivots => pivots.forM checkPivot
  | .str [] | .obj [] => .ok ()
  | .str (_ :: _) | .obj (_ :: _) => .error .attributeError
  | .null | .bool _ | .num _ => .error .typeError

end Pivots

section Service

variable (around : Surroundings)

/-- `as_primitives`. -/
def Dossier.primitives (d : Dossier) : Dict Str Json :=
  [("dossier_id".toList, .str d.dossierId), ("leads".toList, .list d.leads),
    ("pivots".toList, .list (d.pivots.map (·.data))), ("title".toList, .str d.title),
    ("owner".toList, .str d.owner), ("query".toList, (d.query.map Json.str).getD .null),
    ("type".toList, .str (match d.type with
      | .personal => "personal".toList
      | .global => "global".toList))]

/-- The existing data with the new data merged in: no value of a dossier is a map. -/
def merged (existing : Dossier) (data : Dict Str Json) : Dict Str Json :=
  data.foldl (fun fields e => Dict.set fields e.1 e.2) existing.primitives

def truthy : Json → Bool
  | .null => false
  | .bool b => b
  | .num n => n ≠ 0
  | .str s => s ≠ []
  | .list xs => !xs.isEmpty
  | .obj fields => !fields.isEmpty

/-- `str(e)` for an exception of howler. -/
def DossierError.text : DossierError → Str
  | .notFound message | .invalidData message | .forbidden message | .search message
  | .howler message => message
  | .typeError | .attributeError => []

/-- What `create_dossier` makes of an exception. -/
def convertCreate : DossierError → Service Dossier
  | .typeError => throw .typeError
  | .attributeError => throw .attributeError
  | .search _ =>
    throw (.invalidData "You must use a valid query when creating a dossier.".toList)
  | e => throw (.invalidData e.text)

/-- A query that is set has to run. -/
def validateQuery (fields : Dict Str Json) : Service Unit :=
  match Dict.get? fields "query".toList with
  | some query => if truthy query then ask (.search query) else pure ()
  | none => pure ()

def withOwner (fields : Dict Str Json) (username : Str) : Dict Str Json :=
  if "owner".toList ∈ Dict.keys fields then fields
  else Dict.set fields "owner".toList (.str username)

def saveNew (dossier : Dossier) : Service Dossier := do
  ask (.save dossier.dossierId dossier none)
  return dossier

/-- The part of `create_dossier` that may raise. -/
def createFrom (fields : Dict Str Json) (username : Str) : Service Dossier := do
  validateQuery fields
  let id ← ask .randomId
  let dossier ← fromExcept (around.build (withOwner fields username) id)
  if ∃ pivot ∈ dossier.pivots, ¬ pivot.mappingKeys.Nodup then throw duplicateKeys
  else saveNew { dossier with owner := username }

def createDossier (dossierData : Json) (username : Str) : Service Dossier :=
  match dossierData with
  | .obj fields =>
    if "title".toList ∉ Dict.keys fields then
      throw (.invalidData "You must specify a title when creating a dossier.".toList)
    else if "query".toList ∉ Dict.keys fields then
      throw (.invalidData "You must specify a query when creating a dossier.".toList)
    else if "type".toList ∉ Dict.keys fields then
      throw (.invalidData "You must specify a type when creating a dossier.".toList)
    else tryCatch (createFrom around fields username) convertCreate
  | _ => throw (.invalidData "Invalid data format".toList)

/-- The existing dossier may be changed by the user. -/
def checkAccess (existing : Dossier) (user : User) : Except DossierError Unit :=
  if existing.type = .personal ∧ existing.owner ≠ user.uname ∧ "admin".toList ∉ user.type then
    .error (.forbidden "You cannot update a personal dossier that is not owned by you.".toList)
  else if existing.type = .global ∧ existing.owner ≠ user.uname ∧ "admin".toList ∉ user.type then
    .error (.forbidden
      "Only the owner of a dossier and administrators can edit a global dossier.".toList)
  else .ok ()

/-- What `update_dossier` makes of an exception. -/
def convertUpdate : DossierError → Service Dossier
  | .attributeError => throw .attributeError
  | .search _ =>
    throw (.invalidData "You must use a valid query when updating a dossier.".toList)
  | _ => throw (.invalidData "We were unable to update the dossier.".toList)

def searchQuery (data : Dict Str Json) : Service Unit :=
  match Dict.get? data "query".toList with
  | some query => ask (.search query)
  | none => pure ()

def saveOver (dossierId : Str) (dossier : Dossier) (version : ℕ) : Service Dossier := do
  ask (.save dossierId dossier (some version))
  return dossier

/-- The part of `update_dossier` that may raise. -/
def updateFrom (dossierId : Str) (data : Dict Str Json) (existing : Dossier) (version : ℕ) :
    Service Dossier := do
  searchQuery data
  let newData ← fromExcept (around.build (merged existing data) existing.dossierId)
  saveOver dossierId newData version

/-- What `update_dossier` does with the existing dossier. -/
def updateExisting (dossierId : Str) (data : Dict Str Json) (user : User) (existing : Dossier)
    (version : ℕ) : Service Dossier := do
  fromExcept (checkAccess existing user)
  fromExcept (match Dict.get? data "pivots".toList with
    | some pivots => checkPivots pivots
    | none => .ok ())
  tryCatch (updateFrom around dossierId data existing version) convertUpdate

def updateDossier (dossierId : Str) (data : Dict Str Json) (user : User) : Service Dossier := do
  let found ← ask (.exists dossierId)
  if !found then
    throw (.notFound ("Dossier with id '".toList ++ dossierId ++ "' does not exist.".toList))
  else if ∃ key ∈ Dict.keys data, key ∉ permittedKeys then
    throw (.invalidData ("Only ".toList ++ join ", ".toList permittedKeys ++
      " can be updated.".toList))
  else do
    match ← ask (.get dossierId) with
    | none => throw .attributeError
    | some (existing, version) => updateExisting around dossierId data user existing version

/-- `delete_dossier` of the API. -/
def deleteDossier (dossierId : Str) (user : User) : Service Bool := do
  match ← ask (.get dossierId) with
  | none => throw (.notFound "This dossier does not exist".toList)
  | some (existing, _) =>
    if existing.owner ≠ user.uname ∧ "admin".toList ∉ user.type then
      throw (.forbidden
        "You cannot delete a dossier unless you are an administrator, or the owner.".toList)
    else ask (.delete dossierId)

/-- A request of a user. -/
inductive Request where
  | create (dossierData : Json) (username : Str)
  | update (dossierId : Str) (data : Dict Str Json) (user : User)
  | delete (dossierId : Str) (user : User)

/-- What a request does; a dossier that is created or updated is returned. -/
def Request.program : Request → Service (Option Dossier)
  | .create dossierData username => some <$> createDossier around dossierData username
  | .update dossierId data user => some <$> updateDossier around dossierId data user
  | .delete dossierId user => (fun _ => none) <$> deleteDossier dossierId user

end Service

end Howler.Dossiers
