import Howler.Bundles.Building

namespace Howler.Bundles

open Python Structures Cases Systems.Prog

/-- A call of the service. -/
inductive Call where
  | create (data : Except HowlerError NewHit) (childIds : List Str) (user : Str)
  | add (bundleId : Str) (hitIds : List Str)
  | remove (bundleId : Str) (hitIds : List Str)

/-- A hit is stored. -/
def isStored (w : World) (id : Str) : Bool := (w.records .hit id).isSome

/-- The children of a bundle after a call in the legacy model. -/
def childrenAfter (w : World) (L : Legacy) : Call → List Str
  | .create _ childIds _ => addAll (isStored w) [] childIds
  | .add b hitIds => addAll (isStored w) ((L b).getD []) hitIds
  | .remove b hitIds =>
    if hitIds = ["*".toList] then [] else ((L b).getD []).filter (· ∉ hitIds)

/-- The bundle that a call is about: a new hit, or the one that is named. -/
def IsAbout (w : World) (id : Str) : Call → Prop
  | .create _ _ _ => w.records .hit id = none
  | .add b _ => id = b
  | .remove b _ => id = b

/-- What a call needs to be answered. -/
def Accepts (w : World) (L : Legacy) : Call → Prop
  | .create data childIds _ =>
    childIds ≠ [] ∧ (∀ id ∈ childIds, L id = none) ∧ ∃ hit, data = .ok hit
  | .add b hitIds =>
    isStored w b ∧ ∀ id ∈ hitIds, id ≠ b ∧ id ≠ hitsName ∧ id ∉ (L b).getD [] ∧ L id = none
  | .remove b hitIds => L b ≠ none ∧ hitsName ∉ hitIds

/-- The legacy model after a call. -/
def nextLegacy (w : World) (L : Legacy) (request : Call) : Except BundleError Response → Legacy
  | .ok response => Function.update L response.id (some (childrenAfter w L request))
  | .error _ => L

/-- The legacy model does what a call does: a call that can be answered is, the answer lists the
children, a call that raises leaves every case and hit as it was, and the cases stand for the
bundles afterwards. -/
structure Agrees (w : World) (L : Legacy) (request : Call)
    (result : Except BundleError Response × World) : Prop where
  accepted : Accepts w L request → ∃ response, result.1 = .ok response
  answered : ∀ response, result.1 = .ok response →
    IsAbout w response.id request ∧ response.hits = childrenAfter w L request
  raised : ∀ e, result.1 = .error e → result.2.cases = w.cases ∧ result.2.records = w.records
  refines : Refines result.2 (nextLegacy w L request result.1)

section Agrees

variable {w w' : World} {L : Legacy} {request : Call}

theorem agrees_of_raise (e : BundleError) (hnot : ¬ Accepts w L request)
    (hcases : w'.cases = w.cases) (hrecords : w'.records = w.records) (hw' : Refines w' L) :
    Agrees w L request (.error e, w') :=
  ⟨fun h => absurd h hnot, fun _ hr => (nomatch hr), fun _ _ => ⟨hcases, hrecords⟩, hw'⟩

theorem agrees_of_answer {response : Response} (habout : IsAbout w response.id request)
    (hhits : response.hits = childrenAfter w L request)
    (hw' : Refines w' (Function.update L response.id (some response.hits))) :
    Agrees w L request (.ok response, w') := by
  refine ⟨fun _ => ⟨response, rfl⟩, fun r hr => ?_, fun _ he => (nomatch he), ?_⟩
  · obtain rfl : response = r := Except.ok.inj hr
    exact ⟨habout, hhits⟩
  · rw [hhits] at hw'
    exact hw'

end Agrees

section Run

variable {α β : Type} {es : Elastic} {w w' : World} {p : Service α}

theorem run_call_ok {a : α} (h : p.run (handle es) w = (.ok a, w')) :
    (call es p).run w = (.ok a, w') := by
  change ((p.run (handle es) w).1.mapError _, (p.run (handle es) w).2) = _
  rw [h]
  rfl

theorem run_call_error {e : HowlerError} (h : p.run (handle es) w = (.error e, w')) :
    (call es p).run w = (.error (.howler e), w') := by
  change ((p.run (handle es) w).1.mapError _, (p.run (handle es) w).2) = _
  rw [h]
  rfl

theorem run_bind_call {a : α} (h : p.run (handle es) w = (.ok a, w')) (f : α → BundleM β) :
    (call es p >>= f).run w = (f a).run w' :=
  run_exceptT_bind_ok (run_call_ok h) f

theorem run_bind_raise {m : BundleM α} {e : BundleError} (h : m.run w = (.error e, w'))
    (f : α → BundleM β) : (m >>= f).run w = (.error e, w') := by
  rw [run_exceptT_bind, h]

theorem run_tryCatch_ok {a : α} (h : p.run (handle es) w = (.ok a, w'))
    (f : HowlerError → Service (Option α)) :
    (tryCatch (some <$> p) f).run (handle es) w = (.ok (some a), w') := by
  have hmap : (some <$> p).run (handle es) w = (.ok (some a), w') :=
    run_bind_ok h fun a => pure (some a)
  rw [run_catch, hmap]

theorem run_tryCatch_error {e : HowlerError} (h : p.run (handle es) w = (.error e, w'))
    (f : HowlerError → Service (Option α)) :
    (tryCatch (some <$> p) f).run (handle es) w = (f e).run (handle es) w' := by
  have hmap : (some <$> p).run (handle es) w = (.error e, w') :=
    run_bind_error h fun a => pure (some a)
  rw [run_catch, hmap]

end Run

section Checks

variable {es : Elastic} {w : World} {L : Legacy}

variable (es) in
theorem run_checkChildren (w : World) (ids : List Str) :
    ∃ r, (checkChildren ids).run (handle es) w = (r, w) ∧
      (r = .ok () ↔ ∀ id ∈ ids, caseForBundle w id = none) := by
  induction ids with
  | nil => exact ⟨.ok (), rfl, by simp⟩
  | cons id ids ih =>
    obtain ⟨r, hrun, hr⟩ := ih
    rw [checkChildren, run_bind_ok (run_getRecord es w .hit id)]
    cases hrecord : w.records .hit id with
    | none =>
      have hnone : caseForBundle w id = none := by rw [caseForBundle, hrecord, Option.bind_none]
      exact ⟨r, hrun, by rw [hr, List.forall_mem_cons, and_iff_right hnone]⟩
    | some hit =>
      dsimp only [Option.map_some]
      rw [run_bind_ok (run_findCaseForBundle w id), List.forall_mem_cons]
      cases hcase : caseForBundle w id with
      | none => exact ⟨r, hrun, by rw [hr, and_iff_right rfl]⟩
      | some c => exact ⟨_, rfl, by simp⟩

/-- Reading the next id changes nothing that matters. -/
theorem Refines.draw (hw : Refines w L) : Refines (w.atUid (w.nextUid + 1)) L := by
  have hle (n : ℕ) (hn : (w.atUid (w.nextUid + 1)).nextUid ≤ n) : w.nextUid ≤ n :=
    (Nat.le_succ _).trans hn
  have hf := hw.fresh
  exact ⟨⟨hw.keyed.cases, hw.keyed.records⟩, hw.sound, hw.placed, hw.bundle, hw.one, hw.hits,
    ⟨hf.injective, fun n hn => hf.case n (hle n hn), fun n hn => hf.hit n (hle n hn),
      fun n hn => hf.item n (hle n hn), fun n hn => hf.related n (hle n hn), hf.nonempty, hf.name⟩,
    hw.nonempty⟩

variable (es) in
/-- The children of a new bundle are appended. -/
theorem run_appendChildren (names : Str → HitNames) {w₁ : World} {b k : Str} {c : Case}
    {f : CaseItem} {cs : List Str} (hw : Refines w L) (hb : w.records .hit b = none)
    (h : Building w b k c w₁) (hp : Placed c.items b cs) (hf : f ∈ c.items)
    (hfolder : f.type = .folder) (ids : List Str)
    (hname : hitsName ∈ ids → w.records .hit hitsName = none) :
    ∃ c' w', (appendChildren names c (some f.id) ids).run (handle es) w₁ = (.ok (), w') ∧
      Building w b k c' w' ∧ Placed c'.items b (addAll (isStored w) cs ids) := by
  induction ids generalizing w₁ c cs with
  | nil => exact ⟨c, w₁, rfl, h, hp⟩
  | cons id ids ih =>
    have hname' : hitsName ∈ ids → w.records .hit hitsName = none := fun hmem =>
      hname (List.mem_cons_of_mem _ hmem)
    rw [appendChildren, run_bind_ok (run_getRecord es w₁ .hit id), addAll]
    cases hrecord : w₁.records .hit id with
    | none =>
      have hstored : isStored w id = false := by
        unfold isStored
        cases hr : w.records .hit id with
        | none => rfl
        | some r =>
          obtain ⟨r', hr', -⟩ := h.kept id r hr
          rw [hrecord] at hr'
          cases hr'
      rw [if_neg (by simp [hstored])]
      exact ih h hp hf hname'
    | some r =>
      dsimp only [Option.map_some]
      have hs := h.frame.sound hw.sound
      have hk := h.frame.keyed hw.keyed
      have hid : id ≠ [] := by
        rintro rfl
        rcases h.known _ r hrecord with hsome | heq
        · exact hsome hw.nonempty
        · rcases h.bundle with hsome | ⟨n, -, -, hdrawn⟩
          · exact hsome hb
          · exact hw.fresh.nonempty n (heq.trans hdrawn).symm
      have hfid : optionalText (some f.id) = some f.id := by
        obtain ⟨n, -, -, hdrawn⟩ := h.ids f hf
        have hne := hw.fresh.nonempty n
        rw [← hdrawn] at hne
        cases hfid : f.id with
        | nil => exact absurd hfid hne
        | cons a l => rfl
      have hparent : Case.checkParent c (optionalText (some f.id)) = .ok () := by
        rw [hfid]
        exact checkParent_folder hp.nodup hf hfolder
      by_cases hlisted : Listed c id
      · -- the case lists the hit already, as the bundle or as a child
        obtain ⟨message, hrun⟩ := run_appendHitTo_listed (w := w₁) es hid hparent hlisted
          (some ((names id).analytic ++ " (".toList ++ id ++ ")".toList))
        have hskip : ¬ (isStored w id = true ∧ id ∉ cs) := by
          rintro ⟨hstored, hnot⟩
          obtain ⟨i, hi, htype, hvalue⟩ := hlisted
          rcases hp.mem_of_hit hi htype with heq | hmem
          · rw [← hvalue, heq, isStored, hb] at hstored
            cases hstored
          · exact hnot (hvalue ▸ hmem)
        have hcaught := run_tryCatch_error hrun fun e =>
          if tolerated e then (pure none : Service (Option Case)) else throw e
        rw [if_neg hskip, run_bind_ok (hcaught.trans rfl)]
        exact ih h.draw hp hf hname'
      · obtain ⟨c', w', hrun, ha⟩ := run_appendHitTo_ok (w := w₁) es hs hk hid hrecord hparent hlisted
          (some ((names id).analytic ++ " (".toList ++ id ++ ")".toList))
        have hne : id ≠ b := by
          rintro rfl
          obtain ⟨i, hi, htype, hvalue, -⟩ := hp.root
          exact hlisted ⟨i, hi, htype, hvalue⟩
        have hwas : w.records .hit id ≠ none := (h.known id r hrecord).resolve_right hne
        have hstored : isStored w id = true := by
          rw [isStored, Option.isSome_iff_ne_none]
          exact hwas
        have hnot : id ∉ cs := by
          intro hmem
          obtain ⟨i, hi, htype, hvalue, -⟩ := hp.mem_children.mp hmem
          exact hlisted ⟨i, hi, htype, hvalue⟩
        have hbuilding := h.append hrecord ha fun heq => by
          rw [heq] at hwas
          exact absurd (hname (heq ▸ List.mem_cons_self ..)) hwas
        obtain ⟨i, hitems, htype, hvalue, hiparent, hiid⟩ := ha.items
        have hplaced : Placed c'.items b (cs ++ [id]) := by
          rw [hitems, ← hvalue]
          refine hp.addChild (fun j hj => ?_) ⟨htype, hvalue ▸ hne, f, hf, hfolder, ?_⟩
            (hvalue ▸ hnot)
          · rw [hiid]
            exact h.newId hw.fresh.injective j hj
          · rw [hiparent, hfid]
        rw [if_pos ⟨hstored, hnot⟩, run_bind_ok (run_tryCatch_ok hrun _)]
        have hf' : f ∈ c'.items := by
          rw [hitems]
          exact List.mem_append_left _ hf
        exact ih hbuilding hplaced hf' hname'

end Checks

end Howler.Bundles
