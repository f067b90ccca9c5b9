import Howler.Cases.Items

namespace Howler.Cases

open Python Systems.Prog

/-- `case = ds.case.get(case_id)` and the check that it is there. -/
def fetchCase (caseId : Str) (missing : HowlerError) : Service Case := do
  match ← getCase caseId with
  | none => throw missing
  | some case => return case

/-- The folders of a path. Slashes at its ends, and doubled ones, give empty parts. -/
def pathParts (path : Str) : List Str := (path.splitOn '/').filter (· ≠ [])

/-- The folder of a name under a parent. -/
def findFolder (items : List CaseItem) (name : Str) (parent : Option Str) : Option CaseItem :=
  items.find? fun item => item.type = .folder ∧ item.name = some name ∧ item.parent = parent

/-- The loop of `get_parent_from_path`: the case with the folders that were created, and the last
folder, or `none` where one is missing. -/
def walkPath (createIfMissing : Bool) : List Str → Case → Option Str →
    Service (Option (Case × Option Str))
  | [], case, currentParent => return some (case, currentParent)
  | part :: parts, case, currentParent =>
    match findFolder case.items part currentParent with
    | some folder => walkPath createIfMissing parts case (some folder.id)
    | none =>
      if createIfMissing then do
        let folder ← CaseItem.new
          { type := .folder, name := some part, parent := currentParent, value := some [] }
        walkPath createIfMissing parts { case with items := case.items ++ [folder] }
          (some folder.id)
      else return none

/-- The folders that were created are saved at once, unless the caller saves them. -/
def persistPath (persist : Bool) (case : Case) : Service Unit :=
  if persist then saveCase case else pure ()

/-- `get_parent_from_path` for a case that was fetched: the case as it is afterwards and the
parent. -/
def getParentFromPath (case : Case) (path : Option Str) (createIfMissing persist : Bool) :
    Service (Case × Option CaseItem) :=
  if pathParts (path.getD []) = [] then pure (case, none)
  else do
    match ← walkPath createIfMissing (pathParts (path.getD [])) case none with
    | none => return (case, none)
    | some (case, currentParent) => do
      persistPath persist case
      return (case, case.items.find? fun item => some item.id = currentParent)

/-- `get_parent_from_path` for the id of a case. -/
def getParentFromPathOf (caseId : Str) (path : Option Str) (createIfMissing : Bool) :
    Service (Option CaseItem) := do
  let case ← fetchCase caseId (.notFound "Case does not exist".toList)
  let result ← getParentFromPath case path createIfMissing true
  return result.2

/-- What the items of a case say about threats, targets and indicators. -/
structure Metadata where
  targets : List Str := []
  threats : List Str := []
  indicators : List Str := []
  deriving DecidableEq, Repr

/-- The values of a record. Only hits have an outline. -/
def Metadata.addRecord (m : Metadata) (t : RuleIndexTypes) (r : Record) : Metadata :=
  let m := { m with indicators := m.indicators ++ r.ecsRelated.filter (· ≠ []) }
  match t, r.outline with
  | .hit, some o =>
    { threats := m.threats ++ o.threat.toList.filter (· ≠ [])
      targets := m.targets ++ o.target.toList.filter (· ≠ [])
      indicators := m.indicators ++ o.indicators.filter (· ≠ []) }
  | _, _ => m

/-- The index that the record behind an item is in, if there is one. -/
def CaseItemTypes.index : CaseItemTypes → Option RuleIndexTypes
  | .hit => some .hit
  | .event => some .event
  | _ => none

/-- The index that metadata are read from for an item. -/
def metadataIndex (item : CaseItem) : Option RuleIndexTypes :=
  if item.value = [] then none else CaseItemTypes.index item.type

/-- The loop of `recompute_case_metadata`. -/
def collectMetadata : List CaseItem → Metadata → Service Metadata
  | [], m => return m
  | item :: items, m =>
    match metadataIndex item with
    | none => collectMetadata items m
    | some t => do
      match ← getRecord t item.value with
      | none => collectMetadata items m
      | some (r, _) => collectMetadata items (m.addRecord t r)

def recomputeCaseMetadata (case : Case) : Service Case := do
  let m ← collectMetadata case.items {}
  return { case with
    targets := sorted m.targets.dedup
    threats := sorted m.threats.dedup
    indicators := sorted m.indicators.dedup }

/-- `append_hit` and `append_event`, for the index of the record. -/
def appendRecord (t : RuleIndexTypes) (kind : Str) (case : Case) (item : CaseItem) :
    Service Case := do
  match ← getRecord t item.value with
  | none => throw (.notFound (kind ++ " ".toList ++ item.value ++
      " not found, cannot be added to case".toList))
  | some (r, version) =>
    let item := { item with classification := some r.classification }
    let case := { case with items := case.items ++ [item] }
    saveRecord t (r.addBackreference case.caseId).1 version
    let case ← recomputeCaseMetadata case
    saveCase case
    return case

def appendHit : Case → CaseItem → Service Case := appendRecord .hit "Hit".toList

def appendEvent : Case → CaseItem → Service Case := appendRecord .event "Event".toList

/-- The item is appended and the case is saved. -/
def appendPlain (case : Case) (item : CaseItem) : Service Case := do
  let case := { case with items := case.items ++ [item] }
  saveCase case
  return case

def appendCase (case : Case) (item : CaseItem) : Service Case :=
  if case.items.any (·.value = item.value) then
    throw (.invalidData ("Item ".toList ++ item.value ++ " already exists in case ".toList ++
      case.caseId))
  else do
    match ← getCase item.value with
    | none => throw (.notFound ("Referenced case ".toList ++ Case.displayName item ++
        " not found, cannot be added to case".toList))
    | some _ => appendPlain case item

/-- The end of `append_case_item`, by the type of the item. -/
def dispatch (case : Case) (item : CaseItem) (conflict : Bool) : Service Case :=
  match item.type with
  | .hit => appendHit case (if conflict then Case.renamed item else item)
  | .event => appendEvent case (if conflict then Case.renamed item else item)
  | .case => appendCase case (if conflict then Case.renamed item else item)
  | .reference | .markdown | .folder =>
    if conflict then
      throw (.resourceExists "An item with the same name already exists in this location.".toList)
    else appendPlain case item

/-- An item without a name is called by its value. -/
def named (item : CaseItem) : CaseItem := { item with name := some (Case.displayName item) }

/-- `append_case_item` for a case that was fetched and an item that was built. -/
def appendTo (case : Case) (item : CaseItem) : Service Case := do
  fromExcept (Case.checkParent case item.parent)
  let conflict ← fromExcept (Case.checkConflicts case (named item))
  dispatch case (named item) conflict

def appendCaseItem (caseId : Str) (item : CaseItem) : Service Case := do
  let case ← fetchCase caseId (.notFound "Case does not exist".toList)
  appendTo case item

/-- `append_case_item` for the parts of an item. -/
def appendNewItem (caseId : Str) (type : CaseItemTypes) (value : Str) (parent name : Option Str) :
    Service Case := do
  let case ← fetchCase caseId (.notFound "Case does not exist".toList)
  if value = [] then
    throw (.invalidData
      "item_type and item_value are required if item is not provided".toList)
  else do
    let item ← CaseItem.new { type, value := some value, parent, name }
    appendTo case item

/-- `append_case_item` for the body of a request. -/
def appendItem (caseId : Str) (data : ItemData) : Service Case := do
  let item ← CaseItem.new data
  appendCaseItem caseId item

/-- The items of the body of a new case, one after the other. -/
def appendAll (caseId : Str) : List ItemData → Service Unit
  | [] => return ()
  | data :: rest => do
    let _ ← appendItem caseId data
    appendAll caseId rest

/-- The end of `create_case`: the case is read again where items were added. -/
def reread (case : Case) (items : List ItemData) : Service Case :=
  if items = [] then pure case
  else fetchCase case.caseId (.howlerValue "Error occurred when creating case".toList)

/-- The case that `create_case` starts with. -/
def newCase (case : Case) (caseId : Str) (timestamp : Datetime) (user : Option Str) : Case :=
  { case with
    caseId := caseId
    items := []
    log := [{ timestamp, explanation := some "Case created".toList,
              user := user.getD "system".toList }] }

/-- `create_case`, with the fields of the body other than its items in `case`. -/
def createCase (case : Case) (items : List ItemData) (user : Option Str) : Service Case := do
  let caseId ← randomId
  let timestamp ← now
  createNewCase (newCase case caseId timestamp user)
  appendAll caseId items
  reread (newCase case caseId timestamp user) items

def itemNotFound (itemId caseId : Str) : HowlerError :=
  .notFound ("Item ".toList ++ itemId ++ " does not exist in case ".toList ++ caseId)

def moveCaseItem (caseId itemId : Str) (newParent : Option Str) : Service Case := do
  let case ← fetchCase caseId (.notFound "Case does not exist".toList)
  match case.items.find? (·.id = itemId) with
  | none => throw (itemNotFound itemId case.caseId)
  | some item =>
    if item.type = .case ∧ newParent ≠ none then
      throw (.invalidData "Case items must be root-level (parent must be null)".toList)
    else do
      fromExcept (Case.checkNewParent case item itemId newParent)
      if ∃ ci ∈ case.items, ci.name = item.name ∧ ci.parent = newParent ∧ ci.id ≠ itemId then
        throw (.invalidData ("An item with name '".toList ++ Case.displayName item ++
          "' already exists in destination.".toList))
      else do
        let case := { case with
          items := Case.updateItem itemId (fun i => { i with parent := optionalText newParent })
            case.items }
        saveCase case
        return case

def renameCaseItem (caseId itemId newName : Str) : Service Case :=
  if strip newName = [] then
    throw (.invalidData "new_name must be a non-empty string".toList)
  else do
    let case ← fetchCase caseId (.notFound ("Case ".toList ++ caseId ++ " does not exist".toList))
    match case.items.find? (·.id = itemId) with
    | none => throw (itemNotFound itemId case.caseId)
    | some item =>
      if ∃ i ∈ case.items, i.name = some (strip newName) ∧ i.id ≠ itemId ∧
          i.parent = item.parent then
        throw (.invalidData ("Name '".toList ++ strip newName ++
          "' is already used by a sibling item in this case".toList))
      else do
        let case := { case with
          items := Case.updateItem itemId
            (fun i => { i with
              name := some (strip newName)
              value := if i.type = .folder then strip newName else i.value }) case.items }
        saveCase case
        return case

/-- The records behind the items that go, with their versions. -/
def backingRecords : List CaseItem → Service (List (RuleIndexTypes × Record × Nat))
  | [] => return []
  | item :: items =>
    match CaseItemTypes.index item.type with
    | none => backingRecords items
    | some t => do
      let found ← getRecord t item.value
      let others ← backingRecords items
      match found with
      | none => return others
      | some (r, version) => return (t, r, version) :: others

def removeBackreferences (caseId : Str) : List (RuleIndexTypes × Record × Nat) → Service Unit
  | [] => return ()
  | (t, r, version) :: rest => do
    saveRecord t (r.removeBackreference caseId) version
    removeBackreferences caseId rest

/-- `remove_case_items`. The set of ids is gone through in the order of the request. -/
def removeCaseItems (caseId : Str) (itemIds : List Str) (force : Bool) : Service Case := do
  let case ← fetchCase caseId (.notFound "Case does not exist".toList)
  let missing := itemIds.filter fun iid => (Case.itemById case.items iid).isNone
  if missing ≠ [] then
    throw (.notFound ("Item(s) not found in case: ".toList ++ join ", ".toList missing))
  else do
    let ids ← fromExcept (Case.idsToRemove case.items force itemIds)
    let backing ← backingRecords (ids.dedup.filterMap (Case.itemById case.items))
    removeBackreferences case.caseId backing
    let case ← recomputeCaseMetadata { case with items := case.items.filter (·.id ∉ ids) }
    saveCase case
    return case

/-- The loop of `delete_cases` over the other cases with an item that has one of the values. -/
def removeReferences (caseIds : List Str) : List Str → Service Unit
  | [] => return ()
  | relatedId :: rest => do
    if relatedId ∈ caseIds then removeReferences caseIds rest
    else
      match ← getCase relatedId with
      | none => removeReferences caseIds rest
      | some case => do
        saveCase { case with items := case.items.filter (·.value ∉ caseIds) }
        removeReferences caseIds rest

def deleteCases (caseIds : List Str) : Service Unit := do
  let related ← casesWithItemValue caseIds
  removeReferences caseIds related
  deleteCaseDocuments caseIds

end Howler.Cases
