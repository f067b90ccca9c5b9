import Howler.Painless.Reader

namespace Howler.Datastore

open Python Structures Painless

/-- `UPDATE_OPERATIONS`. -/
inductive UpdateOperation where
  | append
  | appendIfMissing
  | dec
  | inc
  | max
  | min
  | remove
  | set
  | delete
  deriving DecidableEq, Repr

def UpdateOperation.ofName : Dict Str UpdateOperation :=
  [("APPEND".toList, append), ("APPEND_IF_MISSING".toList, appendIfMissing), ("DEC".toList, dec),
    ("INC".toList, inc), ("MAX".toList, max), ("MIN".toList, min), ("REMOVE".toList, remove),
    ("SET".toList, set), ("DELETE".toList, delete)]

structure DocOperation where
  op : UpdateOperation
  key : Str
  value : Json

section Validate

/-- What is known of a field of a model: its check of a value, which gives the primitives of what
it makes of it, and the check of the values of a mapping. -/
structure FieldCheck where
  check : Json → Option Json
  child : Option (Json → Option Json) := none

inductive ValidationError where
  | dataStore
  | keyError
  deriving DecidableEq, Repr

/-- The part of a key before its last dot. -/
def parentKey (key : Str) : Str := (key.reverse.dropWhile (· ≠ '.')).tail.reverse

/-- The check for the values of a key. -/
def fieldFor (fields : Dict Str FieldCheck) (key : Str) :
    Except ValidationError (Json → Option Json) :=
  match fields.get? key with
  | some field => .ok field.check
  | none =>
    if '.' ∈ key then
      match fields.get? (parentKey key) with
      | some field => match field.child with
        | some check => .ok check
        | none => .error .dataStore
      | none => .error .keyError
    else .error .dataStore

def isChecked : UpdateOperation → Bool
  | .max | .min | .delete => false
  | _ => true

/-- `_validate_operations` for one operation. -/
def validateOperation (fields : Dict Str FieldCheck) (op : Str × Str × Json) :
    Except ValidationError DocOperation := do
  match UpdateOperation.ofName.get? op.1 with
  | none => throw .dataStore
  | some o =>
    let check ← fieldFor fields op.2.1
    if isChecked o then
      match check op.2.2 with
      | some value => return ⟨o, op.2.1, value⟩
      | none => throw .dataStore
    else
      return ⟨o, op.2.1, op.2.2⟩

def validateOperations (fields : Dict Str FieldCheck) (ops : List (Str × Str × Json)) :
    Except ValidationError (List DocOperation) :=
  ops.mapM (validateOperation fields)

end Validate

section Scripts

/-- `value{val_id}`. -/
def valueName (valId : ℕ) : Str := "value".toList ++ Nat.toDigits 10 valId

/-- The statement for an operation on a place `src` of the document and a parameter `val`. -/
def opParts (op : UpdateOperation) (src val : Str) : List Str :=
  match op with
  | .set => [src, " = ".toList, val]
  | .delete => [src, ".remove(".toList, val, ")".toList]
  | .append => [src, ".add(".toList, val, ")".toList]
  | .appendIfMissing =>
    ["if (".toList, src, ".indexOf(".toList, val, ") == -1) ".toList,
      "\x7b".toList, src, ".add(".toList, val, ")\x7d".toList]
  | .remove =>
    ["if (".toList, src, ".indexOf(".toList, val, ") != -1) ".toList,
      "\x7b".toList, src, ".remove(".toList, src, ".indexOf(".toList, val, "))\x7d".toList]
  | .inc => [src, " += ".toList, val]
  | .dec => [src, " -= ".toList, val]
  | .max =>
    ["if (".toList, src, " == null || ".toList, src, ".compareTo(".toList, val, ") < 0) ".toList,
      "\x7b".toList, src, " = ".toList, val, "\x7d".toList]
  | .min =>
    ["if (".toList, src, " == null || ".toList, src, ".compareTo(".toList, val, ") > 0) ".toList,
      "\x7b".toList, src, " = ".toList, val, "\x7d".toList]

/-- The statement on `ctx._source.{doc_key}` and `params.value{val_id}`. -/
def opSource (op : UpdateOperation) (docKey : Str) (valId : ℕ) : Str :=
  (opParts op ("ctx._source.".toList ++ docKey) ("params.".toList ++ valueName valId)).flatten

structure Script where
  source : Str
  params : Dict Str Json

/-- `_create_scripts_from_operations`. -/
def createScripts (ops : List DocOperation) : Script where
  source := replace "\x7d;\n".toList "\x7d\n".toList
    (join ";\n".toList (ops.mapIdx fun valId o => opSource o.op o.key valId))
  params := ops.mapIdx fun valId o => (valueName valId, o.value)

end Scripts

section Meaning

variable (V : Values)

def pathOf (key : Str) : List Str := key.splitOn '.'

/-- What an operation does to the value at its path. -/
def UpdateOperation.onValue (value : Json) (op : UpdateOperation) (old : Json) : Option Json :=
  match op with
  | .set => some value
  | .delete => removeKey value old
  | .append => Painless.append value old
  | .appendIfMissing => do
    match ← indexOf V value old with
    | some _ => some old
    | none => Painless.append value old
  | .remove => do
    match ← indexOf V value old with
    | some i => removeIndex (some i) old
    | none => some old
  | .inc => V.plus old value
  | .dec => V.minus old value
  | .max => do
    if isNull old then some value
    else if (← V.compareTo old value) < 0 then some value else some old
  | .min => do
    if isNull old then some value
    else if 0 < (← V.compareTo old value) then some value else some old

/-- An operation on a document. -/
def DocOperation.apply (o : DocOperation) (doc : Json) : Option Json :=
  Json.modifyAt (o.op.onValue V o.value) (pathOf o.key) doc

/-- The operations one after the other. -/
def applyAll (ops : List DocOperation) (doc : Json) : Option Json :=
  ops.foldlM (fun doc o => o.apply V doc) doc

end Meaning

end Howler.Datastore
