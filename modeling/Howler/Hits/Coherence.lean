import Howler.Hits.Effects

namespace Howler.Hits

open Python Systems Systems.Prog Workflow

section Runs

variable (rt : Runtime)

/-- Every hit is stored under its own id. -/
def World.Keyed (w : World) : Prop := ∀ k h, w.hits k = some h → h.id = k

/-- The hit of a world is the one of another, or what a call of the workflow made of it. -/
inductive Written (rt : Runtime) (call : Call) (d : HitDict) (w : World) : World → Prop where
  | same : Written rt call d w w
  | update (h h' cur : Hit) (version : Option Nat) (ups : List OdmUpdateOperation)
      (hplan : call.plan rt d = .ok ups) (hh : w.hits d.id = some h)
      (hfold : (finalOperations ups cur call.uname version).foldlM (Statement.apply w.time) h =
        .ok h') : Written rt call d w (w.setHit d.id h')

variable {rt} {call : Call} {d : HitDict} {w w' : World}

theorem run_fetchCurrent (w : World) (id : Str) (version : Option (Option Nat)) :
    ((fetchCurrent id version).run handle w).2 = w := by
  cases version with
  | none =>
    rw [fetchCurrent, run_bind_ok (show (getVersion id).run handle w = (.ok _, w) from rfl)]
    split <;> rfl
  | some version =>
    rw [fetchCurrent, run_bind_ok (show (getHit id).run handle w = (.ok _, w) from rfl)]
    split <;> rfl

theorem run_updateDocument (w : World) (id : Str) (ss : List Statement) (version : Option Nat) :
    (updateDocument id ss version).run handle w = handle (.update id ss version) w := by
  have hperform : (perform (I := interface) (ε := HitError) (.update id ss version)).run handle w =
    (.ok (handle (.update id ss version) w).1, (handle (.update id ss version) w).2) := rfl
  exact (run_bind_ok hperform _).trans (run_fromExcept _ _ _)

/-- What follows the update reads only. -/
theorem run_finishTransition (w : World) (id : Str) (updated : Option (Hit × Nat)) :
    ((finishTransition rt call id updated).run handle w).2 = w := by
  rw [finishTransition]
  split
  · cases call.trigger rt <;> rfl
  · rfl

theorem handle_update (w : World) (id : Str) (ss : List Statement) (version : Option Nat) :
    (handle (.update id ss version) w).2 = w ∨ ∃ h h', w.hits id = some h ∧
      ss.foldlM (Statement.apply w.time) h = .ok h' ∧
      (handle (.update id ss version) w).2 = w.setHit id h' := by
  rw [handle]
  split
  · exact .inl rfl
  · next h' hfold =>
    split
    · exact .inl rfl
    · next hsome =>
      split
      · obtain ⟨h, hh⟩ := Option.ne_none_iff_exists'.mp hsome
        rw [hh] at hfold
        exact .inr ⟨h, h', hh, hfold, rfl⟩
      · exact .inl rfl

theorem ends_transitionFrom (rt : Runtime) (call : Call) (d : HitDict) (w : World) :
    Ends handle (transitionFrom rt call d) w (fun _ => Written rt call d w)
      (Written rt call d w) := by
  refine ends_bind_fromExcept (fun ups hplan => ?_) .same
  have happly : Ends handle (applyUpdates call d.id ups) w (fun _ => Written rt call d w)
      (Written rt call d w) := by
    rw [applyUpdates]
    split
    · exact ends_pure .same
    · have hfetch : Ends handle (fetchCurrent d.id call.version) w (fun _ => (· = w)) (· = w) :=
        ends_of_snd (run_fetchCurrent w d.id call.version)
      refine (hfetch.mono (fun _ _ h => h) fun _ h => h ▸ .same).bind fun cur w₁ hw₁ => ?_
      rw [hw₁]
      have hupdate : Ends handle (updateDocument d.id
          (finalOperations ups cur.1 call.uname cur.2) cur.2) w (fun _ => Written rt call d w)
          (Written rt call d w) := by
        refine ends_of_snd ?_
        rw [run_updateDocument]
        rcases handle_update w d.id (finalOperations ups cur.1 call.uname cur.2) cur.2 with
          hsame | ⟨h, h', hh, hfold, hset⟩
        · rw [hsame]
          exact .same
        · rw [hset]
          exact .update h h' cur.1 cur.2 ups hplan hh hfold
      exact hupdate.bind fun _ w₂ hw₂ => ends_of_snd hw₂
  refine happly.bind fun updated w₁ hw₁ => ends_of_snd ?_
  rwa [run_finishTransition]

/-- The hit that a call is about. -/
def Call.target (call : Call) : Str := (call.hit.map (·.id)).getD call.id

/-- The hit as the workflow of a call sees it. -/
def Call.dict (call : Call) (w : World) : Option HitDict :=
  match call.hit with
  | some d => some d
  | none => (w.hits call.id).map Hit.toDict

/-- What a call may do to a store. -/
def Call.Leads (rt : Runtime) (call : Call) (w w' : World) : Prop :=
  w' = w ∨ ∃ d, call.dict w = some d ∧ Written rt call d w w'

theorem ends_transitionHit (rt : Runtime) (call : Call) (w : World) :
    Ends handle (transitionHit rt call) w (fun _ => call.Leads rt w) (call.Leads rt w) := by
  have hfrom : ∀ d, call.dict w = some d → Ends handle (transitionFrom rt call d) w
      (fun _ => call.Leads rt w) (call.Leads rt w) := fun d hd =>
    (ends_transitionFrom rt call d w).mono (fun _ _ h => .inr ⟨d, hd, h⟩) fun _ h => .inr ⟨d, hd, h⟩
  rw [transitionHit]
  cases hd : call.hit with
  | some d => exact hfrom d (by rw [Call.dict, hd])
  | none =>
    have hread : (getHit call.id).run handle w = (.ok (w.hits call.id), w) := rfl
    cases hh : w.hits call.id with
    | none =>
      rw [hh] at hread
      exact ends_bind_ok hread (ends_throw (.inl rfl))
    | some h =>
      rw [hh] at hread
      exact ends_bind_ok hread (hfrom h.toDict (by rw [Call.dict, hd, hh]; rfl))

end Runs

/-- The assessment, the escalation and the status of a hit go together. -/
structure Coherent (h : Hit) : Prop where
  assessed : ∀ a, h.assessment = some a → h.status = .resolved ∧ h.escalation = a.escalation
  escalated : h.escalation = .miss ∨ h.escalation = .evidence → h.status = .resolved

theorem coherent_convertHit (h : Hit) : Coherent (convertHit h).1 := by
  have hescalated : ∀ a, (convertEscalation h).1.assessment = some a →
      (convertEscalation h).1.escalation = a.escalation := by
    intro a
    unfold convertEscalation
    cases ha : h.assessment with
    | none => simp [ha]
    | some b =>
      dsimp only
      split
      · next he =>
        intro hb
        obtain rfl := Option.some.inj (ha.symm.trans hb)
        exact he
      · intro hb
        obtain rfl := Option.some.inj hb
        rfl
  have hmap : ∀ a : Assessment, a.escalation = .miss ∨ a.escalation = .evidence := by
    intro a
    cases a <;> simp [Assessment.escalation]
  have hres : (convertEscalation h).1.escalation = .miss ∨
      (convertEscalation h).1.escalation = .evidence →
      (convertStatus (convertEscalation h).1).1.status = .resolved := by
    intro he
    unfold convertStatus
    by_cases hs : (convertEscalation h).1.status = .resolved
    · simp [hs]
    · simp [he, hs]
  have hkeep : (convertStatus (convertEscalation h).1).1.assessment =
      (convertEscalation h).1.assessment ∧
      (convertStatus (convertEscalation h).1).1.escalation =
        (convertEscalation h).1.escalation := by
    unfold convertStatus
    split <;> exact ⟨rfl, rfl⟩
  constructor
  · intro a ha
    have hesc := hescalated a (hkeep.1.symm.trans ha)
    exact ⟨hres (hesc ▸ hmap a), hkeep.2.trans hesc⟩
  · intro he
    exact hres (hkeep.2 ▸ he)

/-- A call that treats a hit as it is, and that gives it no escalation that does not go with its
status and its assessment. -/
structure Fits (k : Str) (w : World) (call : Call) : Prop where
  current : ∀ d h, call.hit = some d → d.id = k → w.hits k = some h → d.status = h.status.value
  escalation : call.target = k → ∀ value e, call.newEscalation = some value →
    checkEnum Escalation.list Escalation.value .hit value = some e → ∀ h, w.hits k = some h →
      (e = .miss ∨ e = .evidence → h.status = .resolved) ∧
      ∀ a, h.assessment = some a → e = a.escalation

/-- A call of `transition_hit`. One that fails changes nothing. -/
def transit (rt : Runtime) (w : World) (call : Call) : World :=
  match (transitionHit rt call).run handle w with
  | (.ok _, w') => w'
  | (.error _, _) => w

section Coherence

variable {rt : Runtime} {call : Call} {s : Status} {w w' : World} {h h' : Hit} {k : Str}

theorem leads_transit (rt : Runtime) (call : Call) (w : World) :
    call.Leads rt w (transit rt w call) := by
  obtain ⟨hok, -⟩ := ends_transitionHit rt call w
  rw [transit]
  cases hrun : (transitionHit rt call).run handle w with
  | mk r w' =>
    cases r with
    | ok r => exact hok r w' hrun
    | error e => exact .inl rfl

/-- An allowed transition from the status of the hit keeps it coherent. -/
theorem Outcome.coherent (ho : Outcome call h.status h h') (hc : Coherent h)
    (hfits : ∀ value e, call.newEscalation = some value →
      checkEnum Escalation.list Escalation.value .hit value = some e →
      (e = .miss ∨ e = .evidence → h.status = .resolved) ∧
      ∀ a, h.assessment = some a → e = a.escalation) : Coherent h' := by
  cases ho with
  | assessed a ha he hs =>
    refine ⟨fun b hb => ?_, fun _ => hs⟩
    obtain rfl := Option.some.inj (ha.symm.trans hb)
    exact ⟨hs, he⟩
  | reopened ha he hs =>
    constructor
    · simp [ha]
    · simp [he]
  | escalated value ht he ha hs =>
    obtain ⟨hmiss, hmap⟩ := hfits value _ ht he
    rw [← hs] at hmiss
    refine ⟨fun a hha => ?_, hmiss⟩
    rw [ha] at hha
    exact ⟨hs.trans (hc.assessed a hha).1, hmap a hha⟩
  | moved ha he hs =>
    constructor
    · intro a hha
      rw [ha] at hha
      obtain ⟨hres, hesc⟩ := hc.assessed a hha
      exact ⟨hs hres, he.trans hesc⟩
    · intro hesc
      rw [he] at hesc
      exact hs (hc.escalated hesc)

theorem World.setHit_hits (w : World) (id : Str) (h : Hit) :
    (w.setHit id h).hits = Function.update w.hits id (some h) := rfl

theorem Written.keyed {d : HitDict} (hw : Written rt call d w w') (hk : w.Keyed) : w'.Keyed := by
  cases hw with
  | same => exact hk
  | update h h' cur version ups hplan hh hfold =>
    intro k h₁ hh₁
    rw [World.setHit_hits] at hh₁
    by_cases hkd : k = d.id
    · subst hkd
      rw [Function.update_self] at hh₁
      obtain rfl := Option.some.inj hh₁
      exact (id_after hfold).trans (hk _ _ hh)
    · rw [Function.update_of_ne hkd] at hh₁
      exact hk k h₁ hh₁

/-- The hits of a store are kept under their ids, and one of them is coherent if it exists. -/
structure CoherentAt (k : Str) (w : World) : Prop where
  keyed : w.Keyed
  coherent : ∀ h, w.hits k = some h → Coherent h

theorem coherentAt_transit (hc : CoherentAt k w) (hf : Fits k w call) :
    CoherentAt k (transit rt w call) := by
  rcases leads_transit rt call w with hsame | ⟨d, hd, hw⟩
  · rwa [hsame]
  · refine ⟨hw.keyed hc.keyed, ?_⟩
    generalize transit rt w call = w' at hw
    cases hw with
    | same => exact hc.coherent
    | update h h' cur version ups hplan hh hfold =>
      intro h₁ hh₁
      rw [World.setHit_hits] at hh₁
      by_cases hkd : k = d.id
      · subst hkd
        rw [Function.update_self] at hh₁
        obtain rfl := Option.some.inj hh₁
        -- the workflow has seen the status that the hit has
        have hstatus : d.status = h.status.value ∧ call.target = d.id := by
          rw [Call.dict] at hd
          cases hhit : call.hit with
          | some d' =>
            rw [hhit] at hd
            obtain rfl := Option.some.inj hd
            exact ⟨hf.current _ h hhit rfl hh, by rw [Call.target, hhit]; rfl⟩
          | none =>
            rw [hhit] at hd
            obtain ⟨h₀, hh₀, rfl⟩ := Option.map_eq_some_iff.mp hd
            have hid : h₀.id = call.id := hc.keyed _ _ hh₀
            have hsame : w.hits call.id = some h := by rwa [Hit.toDict, hid] at hh
            obtain rfl := Option.some.inj (hh₀.symm.trans hsame)
            exact ⟨rfl, by rw [Call.target, hhit]; exact hid.symm⟩
        exact (outcome hplan hstatus.1 hfold).coherent (hc.coherent h hh)
          fun value e hv he => hf.escalation hstatus.2 value e hv he h hh
      · rw [Function.update_of_ne hkd] at hh₁
        exact hc.coherent h₁ hh₁

/-- In every state that is reached by calls that fit, a hit that `convert_hit` produced is
coherent. -/
theorem hits_stay_coherent (rt : Runtime) (w₀ : World) (hk : w₀.Keyed) (k : Str) (h₀ : Hit)
    (hstart : w₀.hits k = some (convertHit h₀).1) (calls : List Call)
    (hfits : Along (transit rt) (Fits k) w₀ calls) (h : Hit)
    (hh : (run (transit rt) w₀ calls).hits k = some h) : Coherent h := by
  have hinit : CoherentAt k w₀ := by
    refine ⟨hk, fun h₁ hh₁ => ?_⟩
    obtain rfl := Option.some.inj (hstart.symm.trans hh₁)
    exact coherent_convertHit h₀
  exact (inv_run (CoherentAt k) (fun w call hc hf => coherentAt_transit hc hf) hinit
    hfits).coherent h hh

end Coherence

/-- A store with one hit. -/
def oneHit (h : Hit) : World where
  hits := Function.update (fun _ => none) h.id (some h)
  time := ⟨0, some 0, Datetime.zero_nonneg, Datetime.zero_le_maxWall⟩

theorem keyed_oneHit (h : Hit) : (oneHit h).Keyed := by
  intro k h' hh'
  have hget : Function.update (fun _ => none) h.id (some h) k = some h' := hh'
  by_cases hk : k = h.id
  · rw [hk, Function.update_self, Option.some.injEq] at hget
    rw [hk, hget]
  · rw [Function.update_of_ne hk] at hget
    contradiction

/-- A new hit that is taken over by a user and promoted. -/
def takenCalls : List Call :=
  [{ id := ['h'], transition := .assignToMe, uname := ['u'] },
   { id := ['h'], transition := .promote, uname := ['u'] }]

theorem hits_stay_coherent_taken : ∃ h,
    (run (transit .ascii) (oneHit (convertHit { id := ['h'] }).1) takenCalls).hits ['h'] = some h ∧
      h.status = .inProgress ∧ h.escalation = .alert ∧ Coherent h := by
  refine ⟨_, rfl, rfl, rfl, hits_stay_coherent .ascii (oneHit (convertHit { id := ['h'] }).1)
    (keyed_oneHit _) ['h'] { id := ['h'] } rfl takenCalls ?_ _ rfl⟩
  refine ⟨⟨fun _ _ hd => (nomatch hd), fun _ _ _ hv => (nomatch hv)⟩,
    ⟨fun _ _ hd => (nomatch hd), fun _ value e hv he h hh => ?_⟩, trivial⟩
  obtain rfl := Option.some.inj hv
  obtain rfl := Option.some.inj he
  have hnone : ((transit .ascii (oneHit (convertHit { id := ['h'] }).1)
      { id := ['h'], transition := .assignToMe, uname := ['u'] }).hits ['h']).map (·.assessment) =
        some none := rfl
  rw [hh] at hnone
  have hnone : h.assessment = none := Option.some.inj hnone
  simp [hnone]

/-- A new hit, which is assessed and then promoted. -/
def promotedCalls : List Call :=
  [{ id := ['h'], transition := .assess, uname := ['u'],
     kwargs := { assessment := some (some Assessment.compromise.value) } },
   { id := ['h'], transition := .promote, uname := ['u'] }]

/-- The promotion sets the escalation to `alert`, whatever the assessment. -/
theorem promotion_splits : ((run (transit .ascii) (oneHit (convertHit { id := ['h'] }).1)
    promotedCalls).hits ['h']).map (fun h => (h.status, h.assessment, h.escalation)) =
      some (.resolved, some .compromise, .alert) := by
  rfl

end Howler.Hits
