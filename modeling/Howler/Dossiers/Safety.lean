import Howler.Dossiers.Service
import Howler.Systems.RelyGuarantee

namespace Howler.Dossiers

open Python Structures Systems Systems.Prog Relation

/-- A user may change a dossier. -/
def MayChange (user : User) (d : Dossier) : Prop :=
  d.owner = user.uname ∨ "admin".toList ∈ user.type

/-- What one command of a request may do to the documents: an update replaces the dossier as it is,
and its user may change that; a new dossier replaces whatever has its id; a dossier is deleted that
the user might change when it was read. -/
inductive Change (around : Surroundings) : Request → World → World → Prop where
  | same {request : Request} {w w' : World} (h : w'.docs = w.docs) : Change around request w w'
  | created {dossierData : Json} {username : Str} {w w' : World} {fields : Dict Str Json} {id : Str}
      {d : Dossier} (hdata : dossierData = .obj fields)
      (hbuild : around.build (withOwner fields username) id = .ok d)
      (h : w'.docs = w.docs.record d.dossierId (some { d with owner := username })) :
      Change around (.create dossierData username) w w'
  | updated {id : Str} {data : Dict Str Json} {user : User} {w w' : World} {d d' : Dossier}
      (hcurrent : w.docs.current id = some d) (hmay : MayChange user d)
      (hbuild : around.build (merged d data) d.dossierId = .ok d')
      (h : w'.docs = w.docs.record id (some d')) : Change around (.update id data user) w w'
  | deleted {id : Str} {user : User} {w w' : World} {d : Dossier} {v : ℕ}
      (hsaw : w.docs.Saw id v (some d)) (hmay : MayChange user d)
      (h : w'.docs = w.docs.record id none) : Change around (.delete id user) w w'

section Change

variable {around : Surroundings} {request : Request} {w w' : World}

theorem Change.grows (h : Change around request w w') : w.docs.Grows w'.docs := by
  cases h with
  | same h => exact h ▸ Versioned.Grows.refl _
  | created _ _ h =>
    rw [h]
    exact Versioned.grows_record _ _ _
  | updated _ _ _ h =>
    rw [h]
    exact Versioned.grows_record _ _ _
  | deleted _ _ h =>
    rw [h]
    exact Versioned.grows_record _ _ _

/-- What the others do is only added. -/
def Adds (w w' : World) : Prop := w.docs.Grows w'.docs

theorem adds_of_reachable (h : ReflTransGen Adds w w') : w.docs.Grows w'.docs := by
  induction h with
  | refl => exact Versioned.Grows.refl _
  | tail _ hstep ih => exact ih.trans hstep

end Change

section Requests

variable {around : Surroundings} {lost : DossierError} {request : Request} {α : Type}
  {P : World → Prop}

/-- What a part of a request guarantees, and what is known where it returns. -/
abbrev Ensures (around : Surroundings) (lost : DossierError) (request : Request) (p : Service α)
    (P : World → Prop) (Q : α → World → Prop) : Prop :=
  p.Guarantees ((server around).behind lost) (fun s s' => Adds s.1 s'.1)
    (fun s s' => Change around request s.1 s'.1) (fun a s => Q a s.1) (fun _ _ => True) fun s => P s.1

/-- A question to the datastore changes nothing. -/
theorem ensures_read {c : Command} {Q : c.Answer → World → Prop}
    (hread : ∀ w a w', server around c w = .ok (a, w') → w'.docs = w.docs)
    (hanswer : ∀ w a w' w'', P w → server around c w = .ok (a, w') → w.docs.Grows w''.docs →
      Q a w'') : Ensures around lost request (ask c) P Q := by
  refine guarantees_request (R := Adds) (G := Change around request) (E := fun _ _ => True)
    (fun w => .same rfl) (fun w a w' _ h => .same (hread w a w' h)) (fun w a w' w'' hw h hR => ?_)
    fun _ _ => trivial
  refine hanswer w a w' w'' hw h ?_
  rw [← hread w a w' h]
  exact adds_of_reachable hR

theorem ensures_search (query : Json) (hstable : ∀ w w', P w → w.docs.Grows w'.docs → P w') :
    Ensures around lost request (ask (.search query)) P fun _ => P := by
  refine ensures_read (fun w a w' h => ?_) fun w a w' w'' hw h hgrows => hstable w w'' hw hgrows
  rw [server] at h
  cases hsearch : around.search query with
  | error e =>
    rw [hsearch] at h
    cases h
  | ok u =>
    rw [hsearch] at h
    cases h
    rfl

/-- What is read is what stood there, whatever happens to it afterwards. -/
theorem ensures_get (id : Str) : Ensures around lost request (ask (.get id)) P fun r w =>
    ∀ d v, r = some (d, v) → w.docs.Saw id v (some d) := by
  refine ensures_read (fun w a w' h => by cases h; rfl) fun w a w' w'' hw h hgrows d v hr => ?_
  cases h
  obtain ⟨d', hd', hpair⟩ := Option.map_eq_some_iff.mp hr
  cases hpair
  rw [← hd']
  exact (w.docs.saw_current id).mono hgrows

theorem ensures_exists (id : Str) :
    Ensures around lost request (ask (.exists id)) P fun _ _ => True := by
  refine ensures_read (fun w a w' h => ?_) fun _ _ _ _ _ _ _ => trivial
  have hpair := Prod.mk.inj (Except.ok.inj h)
  rw [hpair.2]

end Requests

section Update

variable {around : Surroundings} {lost : DossierError} {id : Str} {data : Dict Str Json}
  {user : User} {d : Dossier} {v : ℕ}

/-- An updated dossier directly follows, among all that stood under its id, the one that it was made
of, and that one its user might change. -/
def Follows (around : Surroundings) (id : Str) (data : Dict Str Json) (user : User) (d' : Dossier)
    (w : World) : Prop :=
  ∃ v d, w.docs.Saw id v (some d) ∧ MayChange user d ∧
    around.build (merged d data) d.dossierId = .ok d' ∧ w.docs.Saw id (v + 1) (some d')

theorem ensures_searchQuery : Ensures around lost (.update id data user) (searchQuery data)
    (fun w => w.docs.Saw id v (some d)) fun _ w => w.docs.Saw id v (some d) := by
  unfold searchQuery
  cases Dict.get? data "query".toList with
  | none => exact guarantees_pure fun _ h => h
  | some query => exact ensures_search query fun w w' h hgrows => h.mono hgrows

/-- A save with the version that was read replaces what was read. -/
theorem ensures_saveOver {d' : Dossier} (hmay : MayChange user d)
    (hbuild : around.build (merged d data) d.dossierId = .ok d') :
    Ensures around lost (.update id data user) (saveOver id d' v)
      (fun w => w.docs.Saw id v (some d)) (Follows around id data user) := by
  have hsave {w w' : World} {a : Unit} (hsaw : w.docs.Saw id v (some d))
      (h : server around (.save id d' (some v)) w = .ok (a, w')) :
      v = w.docs.version id ∧ w'.docs = w.docs.record id (some d') := by
    rw [server] at h
    by_cases hspace : ' ' ∈ id
    · rw [if_pos hspace] at h
      cases h
    · rw [if_neg hspace] at h
      by_cases hversion : some v = none ∨ some v = some (w.docs.version id)
      · rw [if_pos hversion] at h
        cases h
        exact ⟨Option.some.inj (hversion.resolve_left (Option.some_ne_none v)), rfl⟩
      · rw [if_neg hversion] at h
        cases h
  refine Guarantees.bind (M := fun _ s => Follows around id data user d' s.1)
    (guarantees_request (R := Adds) (G := Change around (.update id data user))
      (Q := fun _ => Follows around id data user d') (E := fun _ _ => True)
      (P := fun w => w.docs.Saw id v (some d)) (fun w => .same rfl) (fun w a w' hsaw h => ?_)
      (fun w a w' w'' hsaw h hR => ?_) fun _ _ => trivial) fun _ => guarantees_pure fun _ h => h
  · obtain ⟨hversion, hdocs⟩ := hsave hsaw h
    exact .updated (hsaw.current_eq hversion) hmay hbuild hdocs
  · obtain ⟨hversion, hdocs⟩ := hsave hsaw h
    have hgrows := adds_of_reachable hR
    have hnew : w'.docs.Saw id (v + 1) (some d') := by
      have hsaw' := w'.docs.saw_current id
      rw [hdocs, Versioned.current_record, Versioned.version_record, ← hversion] at hsaw'
      rw [hdocs]
      exact hsaw'
    have hold : w'.docs.Saw id v (some d) := by
      rw [hdocs]
      exact hsaw.mono (Versioned.grows_record _ _ _)
    exact ⟨v, d, hold.mono hgrows, hmay, hbuild, hnew.mono hgrows⟩

theorem ensures_updateExisting : Ensures around lost (.update id data user)
    (updateExisting around id data user d v) (fun w => w.docs.Saw id v (some d))
    (Follows around id data user) := by
  refine Guarantees.bind (M := fun _ s => s.1.docs.Saw id v (some d) ∧ MayChange user d)
    (guarantees_fromExcept (fun u hu s hs => ⟨hs, ?_⟩) fun _ _ _ _ => trivial) fun _ => ?_
  · unfold checkAccess at hu
    by_cases howner : d.owner = user.uname
    · exact .inl howner
    by_cases hadmin : "admin".toList ∈ user.type
    · exact .inr hadmin
    cases htype : d.type with
    | personal => rw [if_pos ⟨htype, howner, hadmin⟩] at hu; cases hu
    | global =>
      rw [if_neg (by simp [htype]), if_pos ⟨htype, howner, hadmin⟩] at hu
      cases hu
  refine Guarantees.bind (M := fun _ s => s.1.docs.Saw id v (some d) ∧ MayChange user d)
    (guarantees_fromExcept (fun _ _ _ h => h) fun _ _ _ _ => trivial) fun _ => ?_
  refine guarantees_of_pre (B := MayChange user d) (fun _ h => h.2) fun hmay => ?_
  refine Guarantees.pre (P := fun s => s.1.docs.Saw id v (some d)) ?_ fun _ h => h.1
  refine Guarantees.catch (M := fun _ _ => True) ?_ fun e => ?_
  · refine ensures_searchQuery.bind fun _ => ?_
    refine Guarantees.bind (M := fun d' s => s.1.docs.Saw id v (some d) ∧
      around.build (merged d data) d.dossierId = .ok d')
      (guarantees_fromExcept (fun d' hd' s hs => ⟨hs, hd'⟩) fun _ _ _ _ => trivial) fun d' => ?_
    refine guarantees_of_pre (fun _ h => h.2) fun hbuild => ?_
    exact Guarantees.pre (ensures_saveOver hmay hbuild) fun _ h => h.1
  · cases e <;> exact guarantees_throw fun _ _ => trivial

theorem ensures_updateDossier : Ensures around lost (.update id data user)
    (updateDossier around id data user) (fun _ => True) (Follows around id data user) := by
  refine (ensures_exists (P := fun _ => True) id).bind fun found => ?_
  cases found with
  | false => exact guarantees_throw fun _ _ => trivial
  | true =>
    refine guarantees_ite (fun _ => guarantees_throw fun _ _ => trivial) fun _ => ?_
    refine guarantees_ite (fun _ => guarantees_throw fun _ _ => trivial) fun _ => ?_
    refine (ensures_get (P := fun _ => True) id).bind fun r => ?_
    cases r with
    | none => exact guarantees_throw fun _ _ => trivial
    | some r => exact ensures_updateExisting.pre fun s h => h r.1 r.2 rfl

end Update

section Create

variable {around : Surroundings} {lost : DossierError} {dossierData : Json} {fields : Dict Str Json}
  {username : Str}

theorem ensures_validateQuery : Ensures around lost (.create dossierData username)
    (validateQuery fields) (fun _ => True) fun _ _ => True := by
  unfold validateQuery
  cases Dict.get? fields "query".toList with
  | none => exact guarantees_pure fun _ h => h
  | some query =>
    exact guarantees_ite (fun _ => ensures_search (P := fun _ => True) query fun _ _ h _ => h)
      fun _ => guarantees_pure fun _ h => h

theorem ensures_randomId {request : Request} : Ensures around lost request (ask .randomId)
    (fun _ => True) fun _ _ => True := by
  refine ensures_read (fun w a w' h => ?_) fun _ _ _ _ _ _ _ => trivial
  have hpair := Prod.mk.inj (Except.ok.inj h)
  rw [← hpair.2]

/-- A save without a version replaces whatever has the id. -/
theorem ensures_saveNew {d : Dossier} {id : Str} (hdata : dossierData = .obj fields)
    (hbuild : around.build (withOwner fields username) id = .ok d) :
    Ensures around lost (.create dossierData username) (saveNew { d with owner := username })
      (fun _ => True) fun _ _ => True := by
  refine Guarantees.bind (M := fun _ _ => True)
    (guarantees_request (R := Adds) (G := Change around (.create dossierData username))
      (Q := fun _ _ => True) (E := fun _ _ => True) (P := fun _ => True) (fun w => .same rfl)
      (fun w a w' _ h => ?_) (fun _ _ _ _ _ _ _ => trivial) fun _ _ => trivial)
    fun _ => guarantees_pure fun _ h => h
  rw [server] at h
  by_cases hspace : ' ' ∈ d.dossierId
  · rw [if_pos hspace] at h
    cases h
  · rw [if_neg hspace, if_pos (.inl rfl)] at h
    cases h
    exact .created hdata hbuild rfl

theorem ensures_createFrom (hdata : dossierData = .obj fields) :
    Ensures around lost (.create dossierData username) (createFrom around fields username)
      (fun _ => True) fun _ _ => True := by
  refine ensures_validateQuery.bind fun _ => ?_
  refine ensures_randomId.bind fun id => ?_
  refine Guarantees.bind
    (M := fun d _ => around.build (withOwner fields username) id = .ok d)
    (guarantees_fromExcept (fun d hd _ _ => hd) fun _ _ _ _ => trivial) fun d => ?_
  refine guarantees_of_pre (fun _ h => h) fun hbuild => ?_
  exact guarantees_ite (fun _ => guarantees_throw fun _ _ => trivial)
    fun _ => (ensures_saveNew hdata hbuild).pre fun _ _ => trivial

theorem ensures_createDossier : Ensures around lost (.create dossierData username)
    (createDossier around dossierData username) (fun _ => True) fun _ _ => True := by
  cases hdata : dossierData with
  | obj fields =>
    unfold createDossier
    refine guarantees_ite (fun _ => guarantees_throw fun _ _ => trivial) fun _ => ?_
    refine guarantees_ite (fun _ => guarantees_throw fun _ _ => trivial) fun _ => ?_
    refine guarantees_ite (fun _ => guarantees_throw fun _ _ => trivial) fun _ => ?_
    refine Guarantees.catch (M := fun _ _ => True) (ensures_createFrom rfl) fun e => ?_
    cases e <;> exact guarantees_throw fun _ _ => trivial
  | _ => exact guarantees_throw fun _ _ => trivial

end Create

section Delete

variable {around : Surroundings} {lost : DossierError} {id : Str} {user : User} {d : Dossier} {v : ℕ}

/-- A dossier is deleted whatever has become of it since it was read. -/
theorem ensures_delete (hmay : MayChange user d) : Ensures around lost (.delete id user)
    (ask (.delete id)) (fun w => w.docs.Saw id v (some d)) fun _ _ => True := by
  refine guarantees_request (R := Adds) (G := Change around (.delete id user)) (Q := fun _ _ => True)
    (E := fun _ _ => True) (P := fun w => w.docs.Saw id v (some d)) (fun w => .same rfl)
    (fun w a w' hsaw h => ?_) (fun _ _ _ _ _ _ _ => trivial) fun _ _ => trivial
  rw [server] at h
  cases hcurrent : w.docs.current id with
  | none =>
    simp only [hcurrent] at h
    cases h
    exact .same rfl
  | some d' =>
    simp only [hcurrent] at h
    cases h
    exact .deleted hsaw hmay rfl

theorem ensures_deleteDossier : Ensures around lost (.delete id user) (deleteDossier id user)
    (fun _ => True) fun _ _ => True := by
  refine (ensures_get (P := fun _ => True) id).bind fun r => ?_
  cases r with
  | none => exact guarantees_throw fun _ _ => trivial
  | some r =>
    refine guarantees_ite (fun _ => guarantees_throw fun _ _ => trivial) fun hallowed => ?_
    have hmay : MayChange user r.1 := by
      by_cases howner : r.1.owner = user.uname
      · exact .inl howner
      · exact .inr (by_contra fun hadmin => hallowed ⟨howner, hadmin⟩)
    exact (ensures_delete hmay).pre fun s h => h r.1 r.2 rfl

end Delete

section Runs

variable {ι : Type} [DecidableEq ι] {around : Surroundings} {lost : DossierError}
  {requests : ι → Request}

/-- What is known where a request returns: an update directly follows what it was made of. -/
def Outcome (around : Surroundings) : Request → Option Dossier → World → Prop
  | .update id data user, r, w => ∃ d', r = some d' ∧ Follows around id data user d' w
  | .create _ _, _, _ => True
  | .delete _ _, _, _ => True

theorem ensures_program (request : Request) : Ensures around lost request (request.program around)
    (fun _ => True) (Outcome around request) := by
  cases request with
  | create dossierData username => exact Guarantees.map ensures_createDossier
  | update id data user =>
    have hupdate := @ensures_updateDossier around lost id data user
    exact (hupdate.mono (fun _ h => h) (fun d' _ h => ⟨d', rfl, h⟩) fun _ _ h => h).map
  | delete id user => exact Guarantees.map ensures_deleteDossier

/-- All requests at their start, over a store and the deliveries of a connection. -/
def begin (around : Surroundings) (requests : ι → Request) (s : World × List Delivery) :
    Pool ι (interface.fallible DossierError) DossierError (Option Dossier) (World × List Delivery) :=
  Pool.start (fun i => (requests i).program around) s

omit [DecidableEq ι] in
theorem guaranteed_begin (s : World × List Delivery) :
    (begin around requests s).Guaranteed ((server around).behind lost) (fun _ s s' => Adds s.1 s'.1)
      (fun i s s' => Change around (requests i) s.1 s'.1)
      (fun i r s => Outcome around (requests i) r s.1) fun _ _ _ => True :=
  guaranteed_start (P := fun _ _ => True) (fun _ => trivial) (fun _ _ _ _ _ => trivial)
    fun i => ensures_program (requests i)

/-- However requests are interleaved and whatever gets lost on the way, each step of a request only
does what the request may do to the dossiers as they are then. -/
theorem changes_along (around : Surroundings) (lost : DossierError) (requests : ι → Request)
    (s : World × List Delivery) (schedule : List ι) :
    Along (Pool.step ((server around).behind lost))
      (fun p i => Change around (requests i) p.state.1
        (p.step ((server around).behind lost) i).state.1)
      (begin around requests s) schedule :=
  guarantee_along (guaranteed_begin s) (fun _ _ => .same rfl) (fun _ _ _ _ _ h => h.grows) schedule

/-- No update that has returned has lost another change: it directly follows the dossier that it was
made of, however the requests were interleaved. -/
theorem update_follows {s : World × List Delivery} {schedule : List ι} {i : ι} {id : Str}
    {data : Dict Str Json} {user : User} {d' : Dossier}
    (hrequest : requests i = .update id data user)
    (hret : ((Systems.run (Pool.step ((server around).behind lost)) (begin around requests s)
      schedule).threads i).prog = .ret (some d')) :
    Follows around id data user d' (Systems.run (Pool.step ((server around).behind lost))
      (begin around requests s) schedule).state.1 := by
  have hrun := (@guaranteed_begin _ around lost requests s).run
    (fun _ _ => .same rfl) (fun _ _ _ _ _ h => h.grows) schedule
  have houtcome := hrun.of_ret hret
  rw [hrequest] at houtcome
  obtain ⟨d, hd, hfollows⟩ := houtcome
  cases hd
  exact hfollows

end Runs

section Title

/-- A dossier with a title. -/
def titled (title : Str) : Dossier := ⟨['i'], [], [], title, ['u'], none, .personal⟩

/-- Dossiers are built from their titles. -/
def titleSurroundings : Surroundings where
  build fields _ :=
    match Dict.get? fields "title".toList with
    | some (.str title) => .ok (titled title)
    | _ => .error .typeError
  search _ := .ok ()

def titleWorld : World := ⟨fun _ => [some (titled ['t'])], fun _ => [], 0⟩

/-- Three updates of the title. -/
def titleUpdates (i : Fin 3) : Request :=
  .update ['i'] [("title".toList, .str [['x', 'y', 'z'].get i])] ⟨['u'], []⟩

/-- The second update runs between the reads of the first one, and after the reads of the third. -/
def titleSchedule : List (Fin 3) := [0, 2, 2, 1, 1, 1, 0, 0, 2]

def titlePool : Pool (Fin 3) (interface.fallible DossierError) DossierError (Option Dossier)
    (World × List Delivery) :=
  Systems.run (Pool.step ((server titleSurroundings).behind .typeError))
    (begin titleSurroundings titleUpdates (titleWorld, [])) titleSchedule

theorem update_follows_between :
    (titlePool.state.1.docs ['i']).map (Option.map Dossier.title) =
      [some ['t'], some ['y'], some ['x']] ∧
    (∃ e, (titlePool.threads 2).prog = .raise e) ∧
    Follows titleSurroundings ['i'] [("title".toList, .str ['x'])] ⟨['u'], []⟩ (titled ['x'])
      titlePool.state.1 :=
  ⟨by rfl, ⟨_, rfl⟩,
    @update_follows _ _ titleSurroundings .typeError titleUpdates _ titleSchedule 0 _ _ _ _ rfl rfl⟩

end Title

end Howler.Dossiers
