import Howler.Correlation.ActiveRules

namespace Howler.Correlation

open Python Cases Systems.Prog

/-- A record, by its index and its id. -/
abbrev Key := RuleIndexTypes × Str

/-- What `process_batch` keeps in memory until the rules have been evaluated. -/
structure Batch where
  caseCache : Dict Str (Option Case) := []
  originalItemCounts : Dict Str Nat := []
  backingCache : Dict Key (Option Record) := []
  dirtyBackingKeys : List Key := []
  added : Nat := 0

/-- The records of an index that a rule is about. -/
def ruleIndexes (rule : CaseRule) : List RuleIndexTypes :=
  if rule.indexes = [] then [.hit] else rule.indexes

/-- What is kept once a record was dealt with: its case and the records as they are now, and
whether it is newly referred to. -/
def Batch.next (b : Batch) (caseId : Str) (case : Case) (cache : Dict Key (Option Record))
    (key : Option Key) : Batch where
  caseCache := b.caseCache.set caseId (some case)
  originalItemCounts := b.originalItemCounts
  backingCache := cache
  dirtyBackingKeys := b.dirtyBackingKeys ++ key.toList
  added := b.added + key.toList.length

/-- `rendered_path.rsplit("/", maxsplit=1)`: the part before the last slash, if there is one, and
the part after it. -/
def splitPath (rendered : Str) : Option Str × Str :=
  if '/' ∈ rendered then
    (some ((rendered.reverse.dropWhile (· ≠ '/')).drop 1).reverse,
      (rendered.reverse.takeWhile (· ≠ '/')).reverse)
  else (none, rendered)

/-- `_resolve_backing_object`: the cache afterwards and the record. -/
def resolveBackingObject (key : Key) (cache : Dict Key (Option Record)) :
    Service (Dict Key (Option Record) × Option Record) := do
  match cache.get? key with
  | some r => return (cache, r)
  | none =>
    let found ← getRecord key.1 key.2
    return (cache.set key (found.map (·.1)), found.map (·.1))

/-- What the check of a batch makes of an item: the item as it is added, unless it is skipped. -/
def placeItem (case : Case) (item : CaseItem) : Option CaseItem :=
  let item := { item with name := some (Case.displayName item) }
  match Case.checkConflicts case item with
  | .error _ => none
  | .ok false => some item
  | .ok true =>
    match Case.checkConflicts case (Case.renamed item) with
    | .ok false => some (Case.renamed item)
    | _ => none

/-- `_add_record_to_case`, in memory only: the case and the cache afterwards, and the record if it
is newly referred to. -/
def addRecordToCase (render : Str → Match → Str) (case : Case) (record : Match)
    (destination : Str) (cache : Dict Key (Option Record)) :
    Service (Case × Dict Key (Option Record) × Option Key) := do
  let key := (record.index, record.id)
  let (path, name) := splitPath (render destination record)
  let (cache, backing) ← resolveBackingObject key cache
  match backing with
  | none => return (case, cache, none)
  | some r =>
    let (case, parent) ← getParentFromPath case path true false
    let item ← (CaseItem.new
      { type := record.index.itemType, value := some record.id, parent := parent.map (·.id),
        name := some name }).optional
    match item.bind (placeItem case) with
    | none => return (case, cache, none)
    | some item =>
      let case := { case with
        items := case.items ++ [{ item with classification := some r.classification }] }
      let (r, new) := r.addBackreference case.caseId
      return (case, cache.set key (some r), if new then some key else none)

/-- The loop over the records that a rule matches. -/
def addRecords (render : Str → Match → Str) (caseId destination : Str) :
    List Match → Case → Batch → Service Batch
  | [], _, b => return b
  | record :: records, case, b => do
    let (case, cache, key) ← addRecordToCase render case record destination b.backingCache
    addRecords render caseId destination records case (b.next caseId case cache key)

/-- The case of a rule is fetched once. -/
def loadCase (caseId : Str) (b : Batch) : Service Batch := do
  match b.caseCache.get? caseId with
  | some _ => return b
  | none =>
    match ← getCase caseId with
    | none => return { b with caseCache := b.caseCache.set caseId none }
    | some case => return { b with
        caseCache := b.caseCache.set caseId (some case)
        originalItemCounts := b.originalItemCounts.set caseId case.items.length }

/-- The loop of `process_batch` over the rules. A rule whose search fails is passed over. -/
def evaluateRules (render : Str → Match → Str) (recordIds : List Str) :
    List (Str × CaseRule) → Batch → Service Batch
  | [], b => return b
  | (caseId, rule) :: rules, b => do
    let b ← loadCase caseId b
    match b.caseCache.get? caseId with
    | none | some none => evaluateRules render recordIds rules b
    | some (some case) =>
      let found ← (searchRecords (ruleIndexes rule) rule.query recordIds).optional
      match found with
      | none => evaluateRules render recordIds rules b
      | some records =>
        let b ← addRecords render caseId rule.destination records case b
        evaluateRules render recordIds rules b

/-- The updates of `howler.related` for the records of an index. -/
def backingPlan (b : Batch) (t : RuleIndexTypes) : List (Str × List Str) :=
  (b.dirtyBackingKeys.dedup.filter (·.1 = t)).filterMap fun key =>
    match b.backingCache.get? key with
    | some (some r) => some (key.2, r.related)
    | _ => none

def flushBacking (b : Batch) (t : RuleIndexTypes) : Service Unit := do
  if backingPlan b t = [] then return ()
  if ← bulkRelated t (backingPlan b t) then return ()
  throw (.runtime
    "Bulk backing record update reported errors while flushing correlation batch".toList)

/-- The cases with more items than they had. -/
def modifiedCases (b : Batch) : List Case :=
  b.caseCache.filterMap fun entry =>
    match entry.2 with
    | none => none
    | some case =>
      if b.originalItemCounts.get? entry.1 = some case.items.length then none else some case

/-- The updates of the cases, with their metadata computed anew. -/
def casePlan : List Case → Service (List (Str × ItemFields))
  | [] => return []
  | case :: cases => do
    let case ← recomputeCaseMetadata case
    let plan ← casePlan cases
    return (case.caseId, case.itemFields) :: plan

def flushCases (b : Batch) : Service Unit := do
  let plan ← casePlan (modifiedCases b)
  if plan = [] then return ()
  if ← bulkItems plan then return ()
  throw (.runtime
    "Bulk case update reported errors while flushing correlation batch".toList)

/-- `process_batch`, with the template engine as a parameter. -/
def processBatch (render : Str → Match → Str) (recordIds : List Str) : Service Nat := do
  if recordIds = [] then return 0
  let rules ← getActiveRules
  if rules = [] then return 0
  let b ← evaluateRules render recordIds rules {}
  flushBacking b .hit
  flushBacking b .event
  flushCases b
  return b.added

end Howler.Correlation
