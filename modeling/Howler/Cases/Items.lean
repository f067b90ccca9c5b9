import Howler.Cases.Model

namespace Howler

open Python

/-- What the `Optional` fields make of an empty string. -/
def optionalText : Option Str → Option Str
  | some [] => none
  | x => x

/-- The argument of the constructor of `CaseItem`, with the defaults of the fields that are absent. A
classification of `none` is an explicit null. -/
structure ItemData where
  id : Option Str := none
  parent : Option Str := none
  name : Option Str := none
  type : CaseItemTypes
  value : Option Str := none
  visible : Bool := true
  classification : Option Str := some unrestricted
  deriving DecidableEq, Repr

open Cases in
/-- The field `id`, which is random where none is given. -/
def itemId : Option Str → Service Str
  | some id => pure id
  | none => randomId

open Cases in
/-- `CaseItem.__init__`. The value of a folder is its name. -/
def CaseItem.new (data : ItemData) : Service CaseItem :=
  if data.type = .case ∧ data.parent ≠ none then
    throw (.howlerValue "Case items must be root-level (parent must be null)".toList)
  else do
    let id ← itemId data.id
    match if data.type = .folder then data.name else data.value with
    | none | some [] =>
      throw (.howlerValue "[value] Empty strings are not allowed without defaults".toList)
    | some value =>
      return {
        id := id
        parent := optionalText data.parent
        name := optionalText data.name
        type := data.type
        value := value
        visible := data.visible
        classification := data.classification }

namespace Case

/-- `items_by_id[id]`: of several items with one id, the last. -/
def itemById (items : List CaseItem) (id : Str) : Option CaseItem :=
  items.reverse.find? (·.id = id)

/-- The assignment to a field of the item with an id: the first that is found. -/
def updateItem (id : Str) (f : CaseItem → CaseItem) : List CaseItem → List CaseItem
  | [] => []
  | i :: is => if i.id = id then f i :: is else i :: updateItem id f is

/-- The name an item is known by. -/
def displayName (item : CaseItem) : Str := item.name.getD item.value

def checkConflicts (case : Case) (item : CaseItem) : Except HowlerError Bool :=
  if (item.type = .hit ∨ item.type = .event) ∧
      ∃ existing ∈ case.items, existing.type = item.type ∧ existing.value = item.value then
    .error (.invalidData ("Item ".toList ++ item.value ++ " already exists in case ".toList ++
      case.caseId))
  else .ok (case.items.any fun ci => ci.name = some (displayName item) ∧ ci.parent = item.parent)

/-- The name that an item gets where its name is taken. -/
def renamed (item : CaseItem) : CaseItem :=
  { item with
    name := some (match item.name with
      | none | some [] => item.value
      | some name => name ++ " (".toList ++ item.value ++ ")".toList) }

def ensureParentExists (case : Case) (parentId : Str) : Except HowlerError Unit :=
  match case.items.find? (·.id = parentId) with
  | none => .error (.invalidData
      ("Parent item '".toList ++ parentId ++ "' does not exist in the case".toList))
  | some parent =>
    if parent.type = .folder then .ok ()
    else .error (.invalidData ("Parent item '".toList ++ parentId ++ "' is not a folder".toList))

/-- The check of the parent of an item, if it has one. -/
def checkParent (case : Case) : Option Str → Except HowlerError Unit
  | none => .ok ()
  | some parentId => ensureParentExists case parentId

/-- The loop of `_is_descendant`. The items that were not visited are in `rest`, so that a visited
id is not found again; every step takes one out, and `fuel` is more than there are. -/
def isDescendantLoop (ancestorId : Str) : Nat → List CaseItem → Option Str → Bool
  | 0, _, _ => false
  | _ + 1, _, none => false
  | fuel + 1, rest, some current =>
    if current = ancestorId then true
    else match itemById rest current with
      | none => false
      | some item =>
        isDescendantLoop ancestorId fuel (rest.filter (·.id ≠ current)) item.parent

def isDescendant (items : List CaseItem) (candidateId ancestorId : Str) : Bool :=
  isDescendantLoop ancestorId (items.length + 1) items (some candidateId)

/-- The check of the new parent of an item that moves. -/
def checkNewParent (case : Case) (item : CaseItem) (itemId : Str) :
    Option Str → Except HowlerError Unit
  | none => .ok ()
  | some parentId => do
    ensureParentExists case parentId
    if item.type = .folder ∧ isDescendant case.items parentId itemId = true then
      .error (.invalidData ("Cannot move folder '".toList ++ itemId ++
        "' under its own descendant '".toList ++ parentId ++ "'".toList))
    else .ok ()

/-- `_collect_descendant_ids`. A chain of folders is no longer than the list, so the recursion ends
before the fuel does unless it never ends. -/
def collectDescendantIds (items : List CaseItem) : Nat → Str → Except HowlerError (List Str)
  | 0, _ => .error .recursion
  | fuel + 1, parentId => do
    let below ← (items.filter (·.parent = some parentId)).mapM fun item => do
      let ids ← collectDescendantIds items fuel item.id
      return item.id :: ids
    return below.flatten

/-- The ids of the items that go with one item: what is in a folder, if that is forced. -/
def childrenToRemove (items : List CaseItem) (force : Bool) (iid : Str) :
    Except HowlerError (List Str) :=
  match itemById items iid with
  | none => .ok []
  | some item =>
    if item.type ≠ .folder then .ok []
    else if force then collectDescendantIds items (items.length + 1) iid
    else if ∃ ci ∈ items, ci.parent = some iid then
      .error (.invalidData ("Folder '".toList ++ iid ++
        "' is not empty. Use force=True to remove it and its children.".toList))
    else .ok []

/-- The ids of all the items that a request removes. -/
def idsToRemove (items : List CaseItem) (force : Bool) : List Str → Except HowlerError (List Str)
  | [] => .ok []
  | iid :: rest => do
    let children ← childrenToRemove items force iid
    let others ← idsToRemove items force rest
    return children ++ iid :: others

end Case

namespace Record

/-- `add_backreference`: the record with the reference, and whether it is new. -/
def addBackreference (r : Record) (caseId : Str) : Record × Bool :=
  if caseId ∈ r.related then (r, false) else ({ r with related := r.related ++ [caseId] }, true)

/-- `remove_backreference`: the first occurrence goes. -/
def removeBackreference (r : Record) (caseId : Str) : Record :=
  { r with related := r.related.erase caseId }

end Record

end Howler
