import Howler.Correlation.Batch
import Howler.Cases.Paths

namespace Howler.Correlation

open Python Cases Systems Systems.Prog

/-- The record behind a key: as it is kept, or as it is stored. -/
def lookupBacking (cache : Dict Key (Option Record)) (w : World) (key : Key) : Option Record :=
  match cache.get? key with
  | some r => r
  | none => w.records key.1 key.2

/-- What is kept after the record behind a key was looked up. -/
def resolvedCache (cache : Dict Key (Option Record)) (w : World) (key : Key) :
    Dict Key (Option Record) :=
  match cache.get? key with
  | some _ => cache
  | none => cache.set key (w.records key.1 key.2)

theorem run_resolveBackingObject (es : Elastic) (w : World) (key : Key)
    (cache : Dict Key (Option Record)) :
    (resolveBackingObject key cache).run (handle es) w =
      (.ok (resolvedCache cache w key, lookupBacking cache w key), w) := by
  rw [resolveBackingObject, resolvedCache, lookupBacking]
  cases cache.get? key with
  | some r => rfl
  | none =>
    rw [run_bind_ok (run_getRecord es w key.1 key.2)]
    cases w.records key.1 key.2 <;> rfl

/-- A record about to be added to a case, with the batch and the store as they are then. -/
structure Visit where
  caseId : Str
  destination : Str
  record : Match
  case : Case
  batch : Batch
  world : World

namespace Visit

variable (v : Visit) (render : Str → Match → Str)

def key : Key := (v.record.index, v.record.id)

/-- The folders of the destination. -/
def path : Option Str := (splitPath (render v.destination v.record)).1

/-- The last part of the destination. -/
def name : Str := (splitPath (render v.destination v.record)).2

/-- The hit or event itself, if it exists. -/
def backing : Option Record := lookupBacking v.batch.backingCache v.world v.key

end Visit

section Visits

variable (es : Elastic) (render : Str → Match → Str)

/-- The records that a rule matches, one after the other. -/
def recordVisits (caseId destination : Str) : List Match → Case → Batch → World → List Visit
  | [], _, _, _ => []
  | record :: records, case, batch, world =>
    { caseId, destination, record, case, batch, world } ::
      match (addRecordToCase render case record destination batch.backingCache).run (handle es)
        world with
      | (.ok (case, cache, key), world) =>
        recordVisits caseId destination records case (batch.next caseId case cache key) world
      | (.error _, _) => []

/-- The records that the rules match, one rule after the other. -/
def ruleVisits (recordIds : List Str) : List (Str × CaseRule) → Batch → World → List Visit
  | [], _, _ => []
  | (caseId, rule) :: rules, b, w =>
    match (loadCase caseId b).run (handle es) w with
    | (.error _, _) => []
    | (.ok b, w) =>
      match b.caseCache.get? caseId with
      | none | some none => ruleVisits recordIds rules b w
      | some (some case) =>
        match (searchRecords (ruleIndexes rule) rule.query recordIds).run (handle es) w with
        | (.error _, w) => ruleVisits recordIds rules b w
        | (.ok records, w) =>
          recordVisits es render caseId rule.destination records case b w ++
            match (addRecords render caseId rule.destination records case b).run (handle es) w with
            | (.ok b, w) => ruleVisits recordIds rules b w
            | (.error _, _) => []

/-- The records that `process_batch` adds to cases, in the order in which it does. -/
def visits (recordIds : List Str) (w : World) : List Visit :=
  if recordIds = [] then []
  else match getActiveRules.run (handle es) w with
    | (.ok rules, w) => ruleVisits es render recordIds rules {} w
    | (.error _, _) => []

end Visits

end Howler.Correlation
