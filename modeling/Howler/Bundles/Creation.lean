import Howler.Bundles.Calls

namespace Howler.Bundles

open Python Structures Cases Systems.Prog

section Create

variable {es : Elastic} {w w₁ : World} {L : Legacy} {b k : Str} {c : Case}

theorem pathParts_hits : pathParts hitsName = [hitsName] := by decide

variable (es) in
/-- The folder of the children is created where the case has none. -/
theorem run_getParentFromPath_hits (hs : w₁.Sound) (hnone : findFolder c.items hitsName none = none)
    (hnew : ∀ j ∈ c.items, j.id ≠ w₁.uids w₁.nextUid) :
    (getParentFromPath c (some hitsName) true true).run (handle es) w₁ =
      (.ok (withFolder w₁ c, some (newFolder (w₁.uids w₁.nextUid) hitsName none)),
        (w₁.atUid (w₁.nextUid + 1)).wrote.setCase (withFolder w₁ c)) := by
  have hcreate : createPath w₁.uids w₁.nextUid [hitsName] c.items none =
      ⟨(withFolder w₁ c).items, some (w₁.uids w₁.nextUid), w₁.nextUid + 1⟩ := by
    rw [createPath, hnone]
    rfl
  have hwalk := @run_walkPath es w₁ c [hitsName] (by simp [hitsName]) none
  rw [hcreate] at hwalk
  have hs' : (w₁.atUid (w₁.nextUid + 1)).Sound := hs
  have hsave := run_saveCase_sound es hs' (withFolder w₁ c)
  have hfind : (withFolder w₁ c).items.find? (fun item => some item.id = some (w₁.uids w₁.nextUid)) =
      some (newFolder (w₁.uids w₁.nextUid) hitsName none) := by
    have hold : c.items.find? (fun item => some item.id = some (w₁.uids w₁.nextUid)) = none := by
      apply List.find?_eq_none.mpr
      intro j hj
      simpa using hnew j hj
    rw [withFolder, List.find?_append, hold]
    simp [newFolder]
  have hparts : pathParts ((some hitsName).getD []) = [hitsName] := pathParts_hits
  rw [getParentFromPath, hparts, if_neg (by simp)]
  refine (run_bind_ok hwalk _).trans ((run_bind_ok hsave _).trans ?_)
  rw [← hfind]
  rfl

/-- The case of a bundle has no folder before its children are added. -/
theorem findFolder_of_placed {i : CaseItem} (hi : IsRoot b i) :
    findFolder [i] hitsName none = none := by
  have htype : i.type ≠ .folder := by
    rw [hi.1]
    decide
  simp [findFolder, htype]

/-- The part of `create_bundle` after the hit is converted. -/
def createFrom (names : Str → HitNames) (es : Elastic) (id : Str) (hit : NewHit)
    (childHitIds : List Str) (user : Str) : BundleM Response := do
  createHit { hit.record with id := id }
  let case ← call es (createCase (caseData hit.names id) [] (some user))
  let case ← call es (appendHitTo case id none
    (some (hit.names.analytic ++ " (".toList ++ id ++ ")".toList)))
  let (case, folder) ← call es (getParentFromPath case (some "hits".toList) true true)
  call es (appendChildren names case (folder.map (·.id)) childHitIds)
  let updated ← call es (fetchCase case.caseId
    (.notFound ("Case ".toList ++ case.caseId ++ " disappeared after creation".toList)))
  return synthesizeBundleResponse updated id hit.warnings

/-- A new hit and its case are created, and the case lists the children that exist. -/
theorem run_createFrom (names : Str → HitNames) (es : Elastic) (hw : Refines w L) (hit : NewHit)
    (childIds : List Str) (user : Str)
    (hname : hitsName ∈ childIds → w.records .hit hitsName = none) :
    ∃ c k w', (createFrom names es (w.uids w.nextUid) hit childIds user).run
        (w.atUid (w.nextUid + 1)) =
          (.ok (synthesizeBundleResponse c (w.uids w.nextUid) hit.warnings), w') ∧
      Building w (w.uids w.nextUid) k c w' ∧
      Placed c.items (w.uids w.nextUid) (addAll (isStored w) [] childIds) := by
  have hnew := hw.fresh
  have hb : w.records .hit (w.uids w.nextUid) = none := hnew.hit _ le_rfl
  have hcreateHit : (createHit { hit.record with id := w.uids w.nextUid }).run
      (w.atUid (w.nextUid + 1)) = (.ok (), withHit w hit.record) := by
    have hs : (w.atUid (w.nextUid + 1)).Sound := hw.sound
    have hwrite := write_sound hs
      (fun v => v.setRecord .hit { hit.record with id := w.uids w.nextUid })
    have hfree : (w.atUid (w.nextUid + 1)).records .hit (w.uids w.nextUid) = none := hb
    simp only [createHit, ExceptT.run, ExceptT.mk, hfree]
    rw [hwrite]
    rfl
  have hfresh := freshIds_withHit hnew hit.record
  have hsound : (withHit w hit.record).Sound := hw.sound
  have hcreateCase := run_createCase_empty es hsound (hfresh.case _ le_rfl)
    (caseData hit.names (w.uids w.nextUid)) (some user)
  have hnext : (withHit w hit.record).nextUid + 1 = w.nextUid + 2 := rfl
  rw [hnext] at hcreateCase
  have hbuilding := building_create hnew hit.record (caseData hit.names (w.uids w.nextUid)) (some user)
  -- the case lists the hit itself at its root
  have hrecord : (((withHit w hit.record).atUid (w.nextUid + 2)).wrote.setCase
      (emptyCase (withHit w hit.record) (caseData hit.names (w.uids w.nextUid)) (some user))).records
        .hit (w.uids w.nextUid) = some { hit.record with id := w.uids w.nextUid } := by
    change (withHit w hit.record).records .hit (w.uids w.nextUid) = _
    rw [withHit_records, if_pos rfl]
  have hlisted : ¬ Listed (emptyCase (withHit w hit.record)
      (caseData hit.names (w.uids w.nextUid)) (some user)) (w.uids w.nextUid) := by
    intro h
    obtain ⟨i, hi, -⟩ := h
    cases hi
  have hparent : Case.checkParent (emptyCase (withHit w hit.record)
      (caseData hit.names (w.uids w.nextUid)) (some user)) (optionalText none) = .ok () := rfl
  obtain ⟨c₁, w₁, happend, ha⟩ := run_appendHitTo_ok es (hbuilding.frame.sound hw.sound)
    (hbuilding.frame.keyed hw.keyed) (hnew.nonempty _) hrecord hparent hlisted
    (some (hit.names.analytic ++ " (".toList ++ w.uids w.nextUid ++ ")".toList))
  have h₁ := hbuilding.append hrecord ha fun h => h
  obtain ⟨root, hitems, htype, hvalue, hatRoot, -⟩ := ha.items
  have hroot : IsRoot (w.uids w.nextUid) root := ⟨htype, hvalue, hatRoot⟩
  have hsingle : c₁.items = [root] := hitems
  have hplaced : Placed c₁.items (w.uids w.nextUid) [] := by
    rw [hsingle]
    exact placed_singleton hroot
  -- the children are added in the folder
  have hids := h₁.newId hnew.injective
  have hfolder := run_getParentFromPath_hits es (h₁.frame.sound hw.sound)
    (by rw [hsingle]; exact findFolder_of_placed hroot) hids
  have hplaced' : Placed (withFolder w₁ c₁).items (w.uids w.nextUid) [] :=
    hplaced.addFolder hids (isFolder_newFolder _) (hnew.name _)
  obtain ⟨c', w', hchildren, h', hp'⟩ := run_appendChildren es names hw hb h₁.addFolder hplaced'
    (List.mem_append_right _ (List.mem_singleton.mpr rfl)) rfl childIds hname
  refine ⟨c', _, w', ?_, h', hp'⟩
  have hcaseId : (withFolder w₁ c₁).caseId = w.uids (w.nextUid + 1) := h₁.caseId
  have hpath : "hits".toList = hitsName := rfl
  rw [createFrom, run_exceptT_bind_ok hcreateHit, run_bind_call hcreateCase,
    run_bind_call happend, hpath, run_bind_call hfolder]
  dsimp only [Option.map_some]
  rw [run_bind_call hchildren, hcaseId, run_bind_call (run_fetchCase_some es _ h'.get)]
  rfl

/-- The creation of a bundle does what the legacy model does, if no child is called like the
folder. -/
theorem createBundle_agrees (names : Str → HitNames) (es : Elastic) (hw : Refines w L)
    (data : Except HowlerError NewHit) (childIds : List Str) (user : Str)
    (hname : hitsName ∈ childIds → w.records .hit hitsName = none) :
    Agrees w L (.create data childIds user) ((createBundle names es data childIds user).run w) := by
  by_cases hnil : childIds = []
  · have hrun : (createBundle names es data childIds user).run w =
        (.error (.howler (.invalidData "You did not provide any child hits.".toList)), w) := by
      rw [createBundle, if_pos hnil]
      rfl
    rw [hrun]
    exact agrees_of_raise _ (fun h => h.1 hnil) rfl rfl hw
  obtain ⟨r, hcheck, hchecked⟩ := @run_checkChildren es w childIds
  rw [createBundle, if_neg hnil]
  cases r with
  | error e =>
    have hnot : ¬ Accepts w L (.create data childIds user) := by
      intro h
      have hok := hchecked.mpr fun id hid => hw.caseForBundle_none (h.2.1 id hid)
      cases hok
    rw [run_bind_raise (run_call_error hcheck)]
    exact agrees_of_raise _ hnot rfl rfl hw
  | ok u =>
    have hid : run (handle es) randomId w = (.ok (w.uids w.nextUid), w.atUid (w.nextUid + 1)) :=
      run_randomId es w
    rw [run_bind_call hcheck, run_bind_call hid]
    have hdata := run_fromExcept (handle es) data (w.atUid (w.nextUid + 1))
    cases data with
    | error e =>
      rw [run_bind_raise (run_call_error hdata)]
      exact agrees_of_raise _ (fun h => nomatch h.2.2) rfl rfl hw.draw
    | ok hit =>
      rw [run_bind_call hdata]
      obtain ⟨c, k, w', hrun, h, hp⟩ := run_createFrom names es hw hit childIds user hname
      have hb : w.records .hit (w.uids w.nextUid) = none := hw.fresh.hit _ le_rfl
      have hL : L (w.uids w.nextUid) = none := by
        cases hL : L (w.uids w.nextUid) with
        | none => rfl
        | some cs =>
          obtain ⟨-, -, -, -, r, hr⟩ := hw.caseForBundle_some hL
          rw [hb] at hr
          cases hr
      have hhits : (synthesizeBundleResponse c (w.uids w.nextUid) hit.warnings).hits =
          addAll (isStored w) [] childIds := hp.children
      refine Eq.mpr (congrArg _ hrun) (agrees_of_answer hb hhits ?_)
      rw [hhits]
      exact h.refines hw hL hp

end Create

end Howler.Bundles
