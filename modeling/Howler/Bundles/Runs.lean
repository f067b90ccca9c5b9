import Howler.Bundles.Addition
import Howler.Systems.Runs

namespace Howler.Bundles

open Python Cases Systems

section Runs

variable (names : Str → HitNames) (es : Elastic)

def perform : Call → BundleM Response
  | .create data childIds user => createBundle names es data childIds user
  | .add bundleId hitIds => addToBundle names es bundleId hitIds
  | .remove bundleId hitIds => removeFromBundle es bundleId hitIds

/-- A call of the service beside the legacy model. -/
def step (s : World × Legacy) (request : Call) : World × Legacy :=
  let result := (perform names es request).run s.1
  (result.2, nextLegacy s.1 s.2 request result.1)

/-- A call that the legacy model knows: no child of a new bundle has the name of the folder, and
what is added is known. -/
def Lawful (s : World × Legacy) : Call → Prop
  | .create _ childIds _ => hitsName ∈ childIds → s.1.records .hit hitsName = none
  | .add bundleId hitIds => Harmless s.1 s.2 bundleId hitIds
  | .remove _ _ => True

variable {w : World} {s : World × Legacy}

/-- A call that the legacy model knows does what it does there. -/
theorem agrees_of_lawful (hs : Refines s.1 s.2) {request : Call} (hlawful : Lawful s request) :
    Agrees s.1 s.2 request ((perform names es request).run s.1) := by
  cases request with
  | create data childIds user => exact createBundle_agrees names es hs data childIds user hlawful
  | add bundleId hitIds => exact agrees_of_harmless names es hs hlawful
  | remove bundleId hitIds => exact removeFromBundle_agrees es hs bundleId hitIds

/-- From a store without cases, all calls that the legacy model knows do what they do there. -/
theorem runs_agree (hw : Pristine w) (calls : List Call)
    (hlawful : Along (step names es) Lawful (w, fun _ => none) calls) :
    Along (step names es)
      (fun s request => Agrees s.1 s.2 request ((perform names es request).run s.1))
      (w, fun _ => none) calls := by
  refine along_of_inv (fun s => Refines s.1 s.2) (fun s request hs hok => ?_)
    (fun s request hs hok => agrees_of_lawful names es hs hok) (refines_pristine hw) hlawful
  exact (agrees_of_lawful names es hs hok).refines

theorem runs_agree_twoHits : Along (step noNames noSearches)
    (fun s request => Agrees s.1 s.2 request ((perform noNames noSearches request).run s.1))
    (twoHits, fun _ => none)
    [.add ['a'] [['x']], .create (.ok emptyHit) [['b'], ['x']] ['u'], .remove ['a'] [['x']]] := by
  refine runs_agree noNames noSearches pristine_twoHits _ ⟨.inr (.inl ?_), fun h => ?_, trivial, trivial⟩
  · simp only [List.mem_singleton, forall_eq]
    decide
  · simp [hitsName] at h

end Runs

end Howler.Bundles
