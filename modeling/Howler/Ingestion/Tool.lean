import Howler.Ingestion.Facet

namespace Howler.Ingestion

open Python

/-- A hit that a request has been converted to. -/
structure Odm where
  id : Str
  hash : Str
  deriving DecidableEq

/-- What a request gets back for one of its hits. -/
structure Outcome where
  id : Option Str
  error : Option Str
  deriving DecidableEq

/-- `entry["error"]` is true. -/
def Outcome.failed (entry : Outcome) : Bool := entry.error.any (· ≠ [])

/-- A request to create hits for a tool, after its hits have been converted. Each has got a new
identifier, and those that cannot be converted have got none. -/
structure Ingested where
  odms : List Odm
  out : List Outcome
  bundleId : Option Str
  distinct : (odms.map Odm.id).Nodup
  failures : ∀ entry ∈ out, entry.failed = true → entry.id = none

inductive ToolError where
  | badRequest
  | invalidData (message : Str)
  | request
  deriving DecidableEq

/-- The loop that leaves out the hits whose hash exists already. -/
def deduplicate (existing : List Str) : List Odm → List Outcome → List Odm × List Outcome
  | [], out => ([], out)
  | odm :: odms, out =>
    if odm.hash ∈ existing then
      deduplicate existing odms (out.filter fun entry => entry.id ≠ some odm.id)
    else
      let (rest, out) := deduplicate existing odms out
      (odm :: rest, out)

/-- The hits that are created, a bundle after its children. -/
def createHits (bundleId : Option Str) (odms : List Odm) : Except ToolError (List Odm) :=
  match bundleId.bind fun bundleId => odms.find? (·.id = bundleId) with
  | none => .ok odms
  | some bundle =>
    let children := odms.filter (·.id ≠ bundle.id)
    if children = [] then .error (.invalidData "You did not provide any child hits.".toList)
    else .ok (children ++ [bundle])

variable (search : Str → Option (Str → Bool))

/-- The hits that `create_one_or_many_hits` creates, for the hashes that are stored. -/
def createOneOrManyHits (stored : List Str) (r : Ingested) : Except ToolError (List Odm) := do
  let (odms, out) ←
    if r.odms = [] then .ok (r.odms, r.out)
    else
      match existingHashes search stored (r.odms.map Odm.hash) with
      | none => .error .request
      | some existing => .ok (deduplicate existing r.odms r.out)
  if out.any Outcome.failed then .error .badRequest
  else createHits r.bundleId odms

end Howler.Ingestion
