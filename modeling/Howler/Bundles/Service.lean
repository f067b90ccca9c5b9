import Howler.Cases.Service
import Howler.Python.Stateful

namespace Howler.Bundles

open Python Cases Systems.Prog

/-- What the service raises. -/
inductive BundleError where
  | conflict (message : Str)
  | howler (e : HowlerError)
  deriving DecidableEq

/-- A call of the service, with nobody else around. -/
abbrev BundleM := ExceptT BundleError (StateM World)

/-- The analytic and the detection of a hit. -/
structure HitNames where
  analytic : Str
  detection : Option Str

/-- What `convert_hit` makes of the data of a new hit. -/
structure NewHit where
  names : HitNames
  record : Record
  warnings : List Str := []

/-- The fields of a hit that only bundles used to have. -/
structure Response where
  id : Str
  isBundle : Bool
  hits : List Str
  bundleSize : ℕ
  caseId : Str
  warnings : List Str := []
  deriving DecidableEq

def caseTitle (names : HitNames) : Str :=
  (if names.analytic = [] then "Unknown".toList else names.analytic) ++ " - ".toList ++
    match names.detection with
    | none | some [] => "Alert".toList
    | some detection => detection

/-- The title and the summary of the case of a bundle. -/
def caseData (names : HitNames) (bundleId : Str) : Case where
  caseId := []
  other := [("title".toList, caseTitle names),
    ("summary".toList, "Auto-created case for bundle ".toList ++ bundleId)]

/-- The loop of `find_case_for_bundle`. -/
def findRelated (bundleHitId : Str) : List Str → Service (Option Case)
  | [] => return none
  | relatedId :: rest => do
    match ← getCase relatedId with
    | none => findRelated bundleHitId rest
    | some case =>
      if case.items.any (fun item => item.value = bundleHitId ∧ item.parent = none) then
        return some case
      else findRelated bundleHitId rest

def findCaseForBundle (bundleHitId : Str) : Service (Option Case) := do
  match ← getRecord .hit bundleHitId with
  | none => return none
  | some (hit, _) => findRelated bundleHitId hit.related

def synthesizeBundleResponse (case : Case) (rootId : Str) (warnings : List Str) : Response :=
  let childIds := (case.items.filter fun item => item.type = .hit ∧ item.value ≠ rootId).map (·.value)
  { id := rootId, isBundle := childIds ≠ [], hits := childIds, bundleSize := childIds.length,
    caseId := case.caseId, warnings := warnings }

/-- `append_case_item` for a hit and a case that was fetched. -/
def appendHitTo (case : Case) (value : Str) (parent name : Option Str) : Service Case :=
  if value = [] then
    throw (.invalidData
      "item_type and item_value are required if item is not provided".toList)
  else do
    let item ← CaseItem.new { type := .hit, value := some value, parent, name }
    appendTo case item

/-- `remove_case_items` for a case that was fetched. -/
def removeItemsOf (case : Case) (itemIds : List Str) (force : Bool) : Service Case := do
  let missing := itemIds.filter fun iid => (Case.itemById case.items iid).isNone
  if missing ≠ [] then
    throw (.notFound ("Item(s) not found in case: ".toList ++ join ", ".toList missing))
  else do
    let ids ← fromExcept (Case.idsToRemove case.items force itemIds)
    let backing ← backingRecords (ids.dedup.filterMap (Case.itemById case.items))
    removeBackreferences case.caseId backing
    let case ← recomputeCaseMetadata { case with items := case.items.filter (·.id ∉ ids) }
    saveCase case
    return case

def nestedBundle (hitId : Str) : HowlerError :=
  .invalidData ("You cannot specify a bundle as a child of another bundle - ".toList ++ hitId ++
    " is a bundle.".toList)

def bundleNotFound (bundleId : Str) : HowlerError :=
  .notFound ("Bundle hit ".toList ++ bundleId ++ " does not exist".toList)

def caseNotFound (caseId : Str) : HowlerError :=
  .notFound ("Case ".toList ++ caseId ++ " not found".toList)

/-- The children of a new bundle are checked before anything is created. -/
def checkChildren : List Str → Service Unit
  | [] => return ()
  | childId :: rest => do
    match ← getRecord .hit childId with
    | none => checkChildren rest
    | some _ => do
      match ← findCaseForBundle childId with
      | some _ => throw (nestedBundle childId)
      | none => checkChildren rest

/-- What is logged only when a child cannot be added. -/
def tolerated : HowlerError → Bool
  | .invalidData _ | .notFound _ | .dataStore _ => true
  | _ => false

section Names

/- The analytic and the detection of the stored hits, which no call changes. -/
variable (names : Str → HitNames)

/-- The children of a new bundle are appended in its folder. -/
def appendChildren (case : Case) (parent : Option Str) : List Str → Service Unit
  | [] => return ()
  | childId :: rest => do
    match ← getRecord .hit childId with
    | none => appendChildren case parent rest
    | some _ => do
      let name := (names childId).analytic ++ " (".toList ++ childId ++ ")".toList
      let appended ← tryCatch (some <$> appendHitTo case childId parent (some name)) fun e =>
        if tolerated e then pure none else throw e
      appendChildren (appended.getD case) parent rest

/-- The hits are appended to the case, without a folder. -/
def appendHits (caseId : Str) : List Str → Service Unit
  | [] => return ()
  | hitId :: rest => do
    match ← getRecord .hit hitId with
    | none => appendHits caseId rest
    | some _ => do
      let _ ← appendNewItem caseId .hit hitId none none
      appendHits caseId rest

variable (es : Elastic)

/-- A call of the other services. -/
def call {α : Type} (p : Service α) : BundleM α :=
  ExceptT.mk fun w => ((p.run (handle es) w).1.mapError .howler, (p.run (handle es) w).2)

/-- `hit_service.create_hit`. -/
def createHit (r : Record) : BundleM Unit :=
  ExceptT.mk fun w =>
    match w.records .hit r.id with
    | some _ =>
      (.error (.howler (.resourceExists ("Hit ".toList ++ r.id ++
        " already exists in datastore".toList))), w)
    | none => ((w.write (·.setRecord .hit r)).1.mapError .howler, (w.write (·.setRecord .hit r)).2)

/-- `create_bundle`, for what the data of the bundle are converted to. -/
def createBundle (bundleHitData : Except HowlerError NewHit) (childHitIds : List Str) (user : Str) :
    BundleM Response := do
  if childHitIds = [] then
    throw (.howler (.invalidData "You did not provide any child hits.".toList))
  else do
    call es (checkChildren childHitIds)
    let id ← call es randomId
    let hit ← call es (fromExcept bundleHitData)
    createHit { hit.record with id := id }
    let case ← call es (createCase (caseData hit.names id) [] (some user))
    let case ← call es (appendHitTo case id none
      (some (hit.names.analytic ++ " (".toList ++ id ++ ")".toList)))
    let (case, folder) ← call es (getParentFromPath case (some "hits".toList) true true)
    call es (appendChildren names case (folder.map (·.id)) childHitIds)
    let updated ← call es (fetchCase case.caseId
      (.notFound ("Case ".toList ++ case.caseId ++ " disappeared after creation".toList)))
    return synthesizeBundleResponse updated id hit.warnings

/-- The hits that are added to a bundle are checked one after the other. -/
def checkHits (bundleId : Str) (existing : List Str) : List Str → BundleM Unit
  | [] => return ()
  | hitId :: rest => do
    if hitId ∈ existing then
      throw (.conflict ("The hit ".toList ++ hitId ++ " is already in the bundle ".toList ++ bundleId ++
        ".".toList))
    else do
      match ← call es (findCaseForBundle hitId) with
      | some _ => throw (.howler (nestedBundle hitId))
      | none => checkHits bundleId existing rest

/-- The case of a bundle, which is created where a hit is no bundle yet. -/
def ensureCase (bundleId : Str) : BundleM Str := do
  match ← call es (findCaseForBundle bundleId) with
  | some case => return case.caseId
  | none => do
    let case ← call es (createCase (caseData (names bundleId) bundleId) [] none)
    let _ ← call es (appendNewItem case.caseId .hit bundleId none none)
    return case.caseId

def addToBundle (bundleId : Str) (hitIds : List Str) : BundleM Response := do
  match ← call es (getRecord .hit bundleId) with
  | none => throw (.howler (bundleNotFound bundleId))
  | some _ => do
    let caseId ← ensureCase names es bundleId
    let current ← call es (fetchCase caseId (caseNotFound caseId))
    checkHits es bundleId (current.items.map (·.value)) hitIds
    call es (appendHits caseId hitIds)
    let updated ← call es (fetchCase caseId (caseNotFound caseId))
    return synthesizeBundleResponse updated bundleId []

/-- The values that go, which are in the case. -/
def valuesToRemove (case : Case) (bundleId : Str) (hitIds : List Str) : List Str :=
  let values := case.items.map (·.value)
  (if hitIds = ["*".toList] then values.filter (· ≠ bundleId)
    else hitIds.filter (· ≠ bundleId)).filter (· ∈ values)

def removeFromBundle (bundleId : Str) (hitIds : List Str) : BundleM Response := do
  match ← call es (getRecord .hit bundleId) with
  | none => throw (.howler (bundleNotFound bundleId))
  | some _ => do
    match ← call es (findCaseForBundle bundleId) with
    | none => throw (.howler (.invalidData "The specified hit must be a bundle.".toList))
    | some found => do
      let case ← call es (fetchCase found.caseId (caseNotFound found.caseId))
      let values := valuesToRemove case bundleId hitIds
      if values ≠ [] then
        let _ ← call es (removeItemsOf found
          ((case.items.filter (·.value ∈ values)).map (·.id)) (hitIds = ["*".toList]))
      let updated ← call es (fetchCase found.caseId (caseNotFound found.caseId))
      return synthesizeBundleResponse updated bundleId []

end Names

end Howler.Bundles
