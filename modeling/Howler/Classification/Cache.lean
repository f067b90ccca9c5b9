import Howler.Classification.Nesting
import Howler.Classification.Valid
import Howler.Systems.Runs

namespace Howler

open Python Clearance Systems

/-- One call of `normalize_classification`: its string and its flags. -/
abbrev Call := Str × Flags

namespace Engine

variable {rt : Runtime} {E : Engine}

/-- What a call answers in a state of the caches, and the state it leaves. -/
def answer (rt : Runtime) (E : Engine) (s : Caches) (q : Call) : Except PyError Str × Caches :=
  (E.normalizeClassification rt q.1 q.2).run s

def afterCall (rt : Runtime) (E : Engine) (s : Caches) (q : Call) : Caches := (answer rt E s q).2

/-- What a fresh engine with empty caches answers. -/
def fresh (rt : Runtime) (E : Engine) (q : Call) : Except PyError Str := (answer rt E {} q).1

/-- A call with an optional string that is there. -/
theorem run_normalize_some {s : Caches} {c n : Str} {f : Flags}
    (h : (answer rt E s (c, f)).1 = .ok n) :
    (Option.mapM (E.normalizeClassification rt · f) (some c) : Method (Option Str)).run s =
      (.ok (some n), afterCall rt E s (c, f)) := by
  have hr : (E.normalizeClassification rt c f).run s = (.ok n, afterCall rt E s (c, f)) :=
    Prod.ext h rfl
  show (E.normalizeClassification rt c f >>= fun n => pure (some n)).run s = _
  rw [run_exceptT_bind_ok hr]
  rfl

theorem run_normalize_some_eq_ok {s : Caches} {c : Str} {f : Flags} {o : Option Str}
    (h : ((Option.mapM (E.normalizeClassification rt · f) (some c) :
      Method (Option Str)).run s).1 = .ok o) : ∃ n, (answer rt E s (c, f)).1 = .ok n := by
  change ((E.normalizeClassification rt c f >>= fun n => pure (some n)).run s).1 = .ok o at h
  obtain ⟨n, hn, -⟩ := run_exceptT_bind_eq_ok.mp h
  exact ⟨n, hn⟩

theorem answer_eq (he : E.enforce = true) (hv : E.invalidMode = false) (s : Caches) (q : Call) :
    answer rt E s q =
      if s.hit q.1 q.2 then (.ok q.1, s)
      else match E.computeNormal rt q.1 q.2 with
        | .ok t => (.ok t, s.add t q.2.longFormat)
        | .error e => (.error e, s) := by
  obtain ⟨c, f⟩ := q
  unfold answer normalizeClassification
  rw [he, hv]
  show (if s.hit c f = true then (pure c : Method Str) else do
      let t ← (E.computeNormal rt c f : Method Str)
      modify fun s => s.add t f.longFormat
      return t).run s = _
  by_cases h : s.hit c f = true
  · rw [if_pos h, if_pos h]
    rfl
  · rw [if_neg h, if_neg h]
    cases E.computeNormal rt c f <;> rfl

theorem fresh_eq (he : E.enforce = true) (hv : E.invalidMode = false) (q : Call) :
    fresh rt E q = E.computeNormal rt q.1 q.2 := by
  have hmiss : Caches.hit {} q.1 q.2 = false := by simp [Caches.hit]
  rw [fresh, answer_eq he hv, hmiss]
  cases E.computeNormal rt q.1 q.2 <;> rfl

/-- A text that was computed in a format, from some string and under some flags. -/
def Computed (rt : Runtime) (E : Engine) (long : Bool) (t : Str) : Prop :=
  ∃ c f, f.longFormat = long ∧ E.computeNormal rt c f = .ok t

/-- The caches hold computed texts only. -/
structure CachesComputed (rt : Runtime) (E : Engine) (s : Caches) : Prop where
  long : ∀ t ∈ s.long, Computed rt E true t
  short : ∀ t ∈ s.short, Computed rt E false t

theorem CachesComputed.add {s : Caches} (h : CachesComputed rt E s) {t : Str} {long : Bool}
    (ht : Computed rt E long t) : CachesComputed rt E (s.add t long) := by
  cases long with
  | true =>
    refine ⟨fun x hx => ?_, h.short⟩
    cases List.mem_cons.mp hx with
    | inl hx => exact hx ▸ ht
    | inr hx => exact h.long x hx
  | false =>
    refine ⟨h.long, fun x hx => ?_⟩
    cases List.mem_cons.mp hx with
    | inl hx => exact hx ▸ ht
    | inr hx => exact h.short x hx

theorem CachesComputed.of_hit {s : Caches} (h : CachesComputed rt E s) {c : Str} {f : Flags}
    (hc : s.hit c f = true) : f.getDynamicGroups = true ∧ Computed rt E f.longFormat c := by
  unfold Caches.hit at hc
  cases hl : f.longFormat with
  | true =>
    simp only [hl, Bool.true_and, Bool.not_true, Bool.false_and, Bool.or_false,
      Bool.and_eq_true, decide_eq_true_eq] at hc
    exact ⟨hc.2, h.long c hc.1⟩
  | false =>
    simp only [hl, Bool.false_and, Bool.not_false, Bool.true_and, Bool.false_or,
      Bool.and_eq_true, decide_eq_true_eq] at hc
    exact ⟨hc.2, h.short c hc.1⟩

/-- What a call does to the caches, whatever it answers. -/
theorem answer_spec (he : E.enforce = true) (hv : E.invalidMode = false) {s : Caches}
    (h : CachesComputed rt E s) (q : Call) :
    CachesComputed rt E (afterCall rt E s q) ∧
      ∀ t, (answer rt E s q).1 = .ok t → Computed rt E q.2.longFormat t := by
  rw [afterCall, answer_eq he hv]
  by_cases hc : s.hit q.1 q.2 = true
  · rw [if_pos hc]
    refine ⟨h, fun t ht => ?_⟩
    obtain rfl := Except.ok.inj ht
    exact (h.of_hit hc).2
  · rw [if_neg hc]
    cases hn : E.computeNormal rt q.1 q.2 with
    | error e => exact ⟨h, fun t ht => nomatch ht⟩
    | ok t =>
      have ht : Computed rt E q.2.longFormat t := ⟨q.1, q.2, rfl, hn⟩
      refine ⟨h.add ht, fun t' ht' => ?_⟩
      obtain rfl := Except.ok.inj ht'
      exact ht

theorem keeps_normalizeClassification (hv : E.invalidMode = false) (c : Str) (f : Flags) :
    Keeps (CachesComputed rt E) (E.normalizeClassification rt c f) fun t =>
      E.enforce = true → Computed rt E f.longFormat t := by
  cases he : E.enforce with
  | true =>
    intro s hs
    have h := answer_spec he hv hs (c, f)
    exact ⟨h.1, fun t ht _ => h.2 t ht⟩
  | false =>
    have hoff : E.normalizeClassification rt c f = liftM E.getUnrestricted := by
      unfold normalizeClassification
      rw [he]
      rfl
    rw [hoff]
    exact keeps_liftExcept fun _ _ h => by simp at h

theorem keeps_normalizeAll (hv : E.invalidMode = false) (long : Bool) (cs : List Str) :
    Keeps (CachesComputed rt E) (E.normalizeAll rt long cs) fun ts =>
      E.enforce = true → ∀ t ∈ ts, Computed rt E long t := by
  induction cs with
  | nil => exact keeps_pure fun _ t ht => by simp at ht
  | cons c cs ih =>
    have hone : Keeps (CachesComputed rt E) (E.normalizeClassification rt c { longFormat := long })
        fun t => E.enforce = true → Computed rt E long t := keeps_normalizeClassification hv c _
    refine Keeps.bind (Q := fun o : Option Str =>
      E.enforce = true → ∀ t ∈ o, Computed rt E long t) ?_ fun o ho => ?_
    · apply Keeps.tryCatch
      · refine hone.bind fun t ht => keeps_pure fun he x hx => ?_
        obtain rfl := Option.some.inj hx
        exact ht he
      · intro e
        split
        · exact keeps_pure fun _ t ht => nomatch ht
        · exact keeps_throw _
    · refine ih.bind fun ts hts => keeps_pure fun he t ht => ?_
      cases List.mem_append.mp ht with
      | inl ht => exact ho he t (by simpa using ht)
      | inr ht => exact hts he t ht

theorem keeps_listAll (hv : E.invalidMode = false) (long : Bool) :
    Keeps (CachesComputed rt E) (E.listAllClassificationCombinations rt long) fun ts =>
      E.enforce = true → ∀ t ∈ ts, Computed rt E long t :=
  Keeps.bind (Q := fun _ => True) (keeps_liftExcept fun _ _ => trivial) fun _ _ =>
    keeps_normalizeAll hv long _

theorem keeps_isValid (hv : E.invalidMode = false) (c : Str) (skip : Bool) :
    Keeps (CachesComputed rt E) (E.isValid rt c skip) fun _ => True := by
  unfold isValid
  split_ifs
  · exact keeps_pure trivial
  · refine Keeps.bind (Q := fun _ => True) (Keeps.tryCatch ?_ fun e => ?_) fun p _ => ?_
    · refine (keeps_normalizeClassification hv c _).bind fun n _ => ?_
      refine Keeps.bind (Q := fun _ => True) (keeps_liftExcept fun _ _ => trivial) fun _ _ => ?_
      refine Keeps.bind (Q := fun _ => True) (keeps_liftExcept fun _ _ => trivial) fun _ _ => ?_
      exact keeps_pure trivial
    · split
      · exact keeps_pure trivial
      · exact keeps_throw _
    · split
      · exact keeps_pure trivial
      · exact keeps_pure trivial

end Engine

namespace Classification

open Engine

variable {rt : Runtime}

/-- The object under construction is not given up and its caches hold computed texts. -/
structure Filled (rt : Runtime) (o : Classification) : Prop where
  valid : o.engine.invalidMode = false
  caches : CachesComputed rt o.engine o.caches

/-- A call keeps the engine and, with the caches, what it says about their texts. -/
theorem keeps_filled_call {α : Type} {m : Engine → Method α} {E : Engine} {Q : α → Prop}
    (h : E.invalidMode = false → Keeps (CachesComputed rt E) (m E) Q) :
    Keeps (fun o => o.engine = E ∧ Filled rt o) (call m) Q := by
  intro o ho
  obtain ⟨rfl, ho⟩ := ho
  have hm := h ho.valid o.caches ho.caches
  exact ⟨⟨rfl, ho.valid, hm.1⟩, hm.2⟩

theorem Filled.set_long {o : Classification} (h : Filled rt o) {ts : List Str}
    (ht : ∀ t ∈ ts, Computed rt o.engine true t) :
    Filled rt { o with caches := { o.caches with long := ts } } :=
  ⟨h.valid, ht, h.caches.short⟩

theorem Filled.set_short {o : Classification} (h : Filled rt o) {ts : List Str}
    (ht : ∀ t ∈ ts, Computed rt o.engine false t) :
    Filled rt { o with caches := { o.caches with short := ts } } :=
  ⟨h.valid, h.caches.long, ht⟩

theorem keeps_filled_fillCaches (E : Engine) :
    Keeps (fun o => o.engine = E ∧ Filled rt o) (fillCaches rt) fun _ => True := by
  refine keeps_get.bind fun o ho => ?_
  split_ifs with he
  · rw [ho.1] at he
    refine (keeps_filled_call fun hv => keeps_listAll hv true).bind fun long hlong => ?_
    refine (keeps_modify fun o' ho' => ?_).bind fun _ _ => ?_
    · obtain ⟨rfl, ho'⟩ := ho'
      exact ⟨rfl, ho'.set_long (hlong he)⟩
    refine (keeps_filled_call fun hv => keeps_listAll hv false).bind fun short hshort => ?_
    refine keeps_modify fun o' ho' => ?_
    obtain ⟨rfl, ho'⟩ := ho'
    exact ⟨rfl, ho'.set_short (hshort he)⟩
  · exact keeps_pure trivial

theorem keeps_filled_needValid (E : Engine) (c12n : Option Str) (key msg : Str) :
    Keeps (fun o => o.engine = E ∧ Filled rt o) (needValid rt c12n key msg) fun _ => True := by
  refine (keeps_need _ _).bind fun c _ => ?_
  refine (keeps_filled_call fun hv => keeps_isValid hv c false).bind fun valid _ => ?_
  split_ifs
  · exact keeps_pure trivial
  · exact keeps_throw _

/-- The two markings that are set last do not matter to what the engine computes. -/
theorem computeNormal_restricted (E : Engine) (u r : Option Str) (c : Str) (f : Flags) :
    ({ E with unrestricted := u, restricted := r } : Engine).computeNormal rt c f =
      E.computeNormal rt c f := by
  have hlimits : ∀ g s, checkLimits rt { E with unrestricted := u, restricted := r } g s =
      checkLimits rt E g s := by
    intro g s
    induction s with
    | nil => rfl
    | cons a s ih =>
      rw [checkLimits, checkLimits, ih]
      rfl
  have hsets : ∀ ps dyn, groupSets rt { E with unrestricted := u, restricted := r } ps dyn =
      groupSets rt E ps dyn := by
    intro ps dyn
    unfold groupSets
    simp only [hlimits]
    rfl
  unfold computeNormal getClassificationParts getC12nGroups
  simp only [hsets]
  rfl

theorem Filled.set_restricted {o : Classification} (h : Filled rt o) (u r : Option Str) :
    Filled rt { o with engine := { o.engine with unrestricted := u, restricted := r } } := by
  refine ⟨h.valid, fun t ht => ?_, fun t ht => ?_⟩
  · obtain ⟨c, f, hf, hn⟩ := h.caches.long t ht
    exact ⟨c, f, hf, (computeNormal_restricted _ _ _ c f).trans hn⟩
  · obtain ⟨c, f, hf, hn⟩ := h.caches.short t ht
    exact ⟨c, f, hf, (computeNormal_restricted _ _ _ c f).trans hn⟩

theorem keeps_of_fixed {α : Type} {m : Init α} {Q : α → Prop}
    (h : ∀ E : Engine, Keeps (fun o => o.engine = E ∧ Filled rt o) m Q) :
    Keeps (Filled rt) m Q := by
  intro o ho
  have hm := h o.engine o ⟨rfl, ho⟩
  exact ⟨hm.1.2, hm.2⟩

theorem keeps_empty_modifyEngine {f : Engine → Engine}
    (h : ∀ E : Engine, E.invalidMode = false → (f E).invalidMode = false) :
    Keeps (fun o => o.engine.invalidMode = false ∧ o.caches = {}) (modifyEngine f) fun _ => True :=
  keeps_modify fun o ho => ⟨h o.engine ho.1, ho.2⟩

theorem invalidMode_foldl (f : Engine → Item → Engine)
    (hf : ∀ E x, (f E x).invalidMode = E.invalidMode) (E : Engine) (xs : List Item) :
    (xs.foldl f E).invalidMode = E.invalidMode := by
  induction xs generalizing E with
  | nil => rfl
  | cons x xs ih => rw [List.foldl_cons, ih, hf]

theorem keeps_empty_addLevels (xs : List LevelItem) :
    Keeps (fun o => o.engine.invalidMode = false ∧ o.caches = {}) (addLevels xs)
      fun _ => True := by
  induction xs with
  | nil => exact keeps_pure trivial
  | cons x xs ih =>
    refine keeps_get.bind fun o ho => ?_
    refine Keeps.bind (Q := fun E' => E'.invalidMode = false)
      (keeps_liftExcept fun E' hE' => ?_) fun E' hE' => ?_
    · unfold addLevel at hE'
      split_ifs at hE'
      obtain rfl := Except.ok.inj hE'
      exact ho.1
    · exact (keeps_empty_modifyEngine fun _ _ => hE').bind fun _ _ => ih

/-- Reading the tables leaves the caches empty. -/
theorem keeps_empty_readTables (d : Definition) :
    Keeps (fun o => o.engine.invalidMode = false ∧ o.caches = {}) (readTables rt d)
      fun _ => True := by
  refine (keeps_need _ _).bind fun enforce _ => ?_
  refine (keeps_empty_modifyEngine fun E h => ?_).bind fun _ _ => ?_
  · exact h
  refine (keeps_need _ _).bind fun dynamicGroups _ => ?_
  refine (keeps_empty_modifyEngine fun E h => ?_).bind fun _ _ => ?_
  · exact h
  refine (keeps_need _ _).bind fun levels _ => ?_
  refine (keeps_empty_addLevels levels).bind fun _ _ => ?_
  refine (keeps_empty_modifyEngine fun E h => ?_).bind fun _ _ => ?_
  · rwa [invalidMode_foldl Engine.addRequired fun _ _ => rfl]
  refine (keeps_empty_modifyEngine fun E h => ?_).bind fun _ _ => ?_
  · rwa [invalidMode_foldl (Engine.addGroup rt) fun _ _ => rfl]
  refine keeps_empty_modifyEngine fun E h => ?_
  rwa [invalidMode_foldl (Engine.addSubgroup rt) fun _ _ => rfl]

/-- The rest of the constructor keeps the caches to computed texts. -/
theorem filled_initBody (rt : Runtime) (d : Definition) :
    Filled rt ((initBody rt d).run ⟨Engine.empty d, {}⟩).2 := by
  refine ((keeps_empty_readTables d).bind_of_imp (R := fun _ => True)
    (fun o ho => ⟨ho.1, by simp [ho.2], by simp [ho.2]⟩) (fun _ _ => ?_) ⟨rfl, rfl⟩).1
  have hcall : ∀ c, Keeps (Filled rt) (call fun E => E.normalizeClassification rt c {})
      fun _ => True := fun c => keeps_of_fixed fun E => (keeps_filled_call fun hv =>
        keeps_normalizeClassification hv c {}).mono fun _ _ => trivial
  refine (keeps_of_fixed keeps_filled_fillCaches).bind fun _ _ => ?_
  refine (keeps_of_fixed fun E => keeps_filled_needValid E _ _ _).bind fun u _ => ?_
  refine (keeps_of_fixed fun E => keeps_filled_needValid E _ _ _).bind fun r _ => ?_
  refine (hcall u).bind fun u' _ => ?_
  refine (keeps_modify fun o ho => ho.set_restricted (some u') o.engine.restricted).bind
    fun _ _ => ?_
  refine (hcall r).bind fun r' _ => ?_
  exact keeps_modify fun o ho => ho.set_restricted o.engine.unrestricted (some r')

/-- A constructed engine starts with computed texts in its caches. -/
theorem init_cachesComputed {d : Definition} (h : (engineOf rt d).invalidMode = false) :
    CachesComputed rt (engineOf rt d) (init rt d).caches := by
  have hf := filled_initBody rt d
  unfold engineOf init at *
  generalize (initBody rt d).run ⟨Engine.empty d, {}⟩ = r at hf h ⊢
  rcases r with ⟨e | u, o⟩
  · contradiction
  · exact hf.caches

end Classification

namespace Engine

variable {rt : Runtime} {E : Engine}

/-- What is computed is the text of some label. -/
theorem render_of_computeNormal (hC : E.Coherent) {c t : Str} {f : Flags}
    (hL : Legible rt E f.longFormat) (h : E.computeNormal rt c f = .ok t) :
    ∃ M, Proper rt E M ∧ E.render rt f.longFormat f.skipAutoSelect M = .ok t := by
  obtain ⟨p, hp, h⟩ := bind_eq_ok.mp h
  obtain ⟨r, hr, -, rfl⟩ := getClassificationParts_ok_iff.mp hp
  obtain ⟨n, hn, -⟩ := bind_eq_ok.mp h
  change E.raisedLvl r.lvl _ = .ok n at hn
  cases hl : r.lvl with
  | text s =>
    rw [hl] at hn
    contradiction
  | idx k =>
    have hN := nameable_of_reading hC hL hr k
    obtain ⟨rest, hi, -⟩ := reading_ok_iff.mp hr
    have hparts : r.parts rt E f.longFormat = E.partsOf f.longFormat (r.label k) :=
      parts_reading hL hN hl
    refine ⟨r.label k, ⟨hN, level_mem (hl ▸ hi)⟩, ?_⟩
    rw [← h, Engine.render, ← hparts]
    rfl

theorem Computed.render (hC : E.Coherent) (hL : ∀ long, Legible rt E long) {long : Bool}
    {t : Str} (h : Computed rt E long t) :
    ∃ M skip, Proper rt E M ∧ E.render rt long skip M = .ok t := by
  obtain ⟨c, f, rfl, h⟩ := h
  obtain ⟨M, hM, ht⟩ := render_of_computeNormal hC (hL _) h
  exact ⟨M, f.skipAutoSelect, hM, ht⟩

/-- Where the cache answers a call: the string nests no `REL` marking, it already says its own
closure under the flags of the call, and in the short format its groups have no alias. -/
def Cacheable (rt : Runtime) (E : Engine) (s : Caches) (q : Call) : Prop :=
  s.hit q.1 q.2 = true → Flat q.1 ∧
    ∃ M, Says rt E q.1 M ∧ E.closure q.2.skipAutoSelect M = M ∧
      (q.2.longFormat = true ∨ ¬ E.AliasFor M.grp)

/-- A computed text that is its own closure is its own normal form. -/
theorem computeNormal_of_computed (hC : E.Coherent) (hL : ∀ long, Legible rt E long) {c : Str}
    {f : Flags} (hd : f.getDynamicGroups = true) (hc : Computed rt E f.longFormat c)
    (hflat : Flat c) {M : Label} (hs : Says rt E c M) (hcl : E.closure f.skipAutoSelect M = M)
    (ha : f.longFormat = true ∨ ¬ E.AliasFor M.grp) : E.computeNormal rt c f = .ok c := by
  obtain ⟨M₀, skip, hM₀, ht⟩ := hc.render hC hL
  have hT := tidy_of_flat hC (hL _) hM₀ ht hflat
  obtain ⟨r, hr, -⟩ := hs.clears
  have hw := (says_of_render_tidy hC (hL _) hM₀ hT ht).2 r hr
  have hs₀ := (says_of_render_tidy hC (hL _) hM₀ hT ht).1 hw
  obtain rfl : M = E.closure skip M₀ := hs.clears.unique hs₀.clears
  have halias : E.AliasSettled f.longFormat (skip || f.skipAutoSelect)
      (E.closure skip M₀).grp := ha.elim .inl fun h => .inr (.inr h)
  rw [hs₀.computeNormal hC (hL _) hd, ← ht]
  have hN : Nameable rt E (E.closure skip M₀) :=
    nameable_closure (hL f.longFormat) hM₀.toNameable
  exact (render_congr (hL _) (hL _) hM₀.toNameable hN hcl.symm hw halias rfl).symm

end Engine

/-- Whatever was called, the caches hold computed texts. -/
theorem run_cachesComputed {rt : Runtime} {d : Definition} (hv : Valid rt d) (qs : List Call) :
    Engine.CachesComputed rt (engineOf rt d)
      (run (Engine.afterCall rt (engineOf rt d)) (Classification.init rt d).caches qs) :=
  inv_run (Engine.CachesComputed rt (engineOf rt d))
    (fun _ q hs _ => (Engine.answer_spec hv.enforced hv.accepted hs q).1)
    (Classification.init_cachesComputed hv.accepted) (along_true _ qs)

/-- In a run of calls that are cacheable where the cache answers them, every call answers as a
fresh engine would. -/
theorem answers_fresh {rt : Runtime} {d : Definition} (hv : Valid rt d) {qs : List Call}
    (h : Along (Engine.afterCall rt (engineOf rt d)) (Engine.Cacheable rt (engineOf rt d))
      (Classification.init rt d).caches qs) :
    Along (Engine.afterCall rt (engineOf rt d))
      (fun s q => (Engine.answer rt (engineOf rt d) s q).1 = Engine.fresh rt (engineOf rt d) q)
      (Classification.init rt d).caches qs := by
  have hC := engineOf_coherent rt d
  refine along_of_inv (Engine.CachesComputed rt (engineOf rt d)) ?_ ?_
    (Classification.init_cachesComputed hv.accepted) h
  · intro s q hs _
    exact (Engine.answer_spec hv.enforced hv.accepted hs q).1
  · intro s q hs hq
    show (Engine.answer rt (engineOf rt d) s q).1 = _
    rw [Engine.fresh_eq hv.enforced hv.accepted, Engine.answer_eq hv.enforced hv.accepted]
    by_cases hhit : s.hit q.1 q.2 = true
    · obtain ⟨hd, hc⟩ := hs.of_hit hhit
      obtain ⟨hflat, M, hsaid, hcl, ha⟩ := hq hhit
      rw [if_pos hhit, Engine.computeNormal_of_computed hC hv.legible hd hc hflat hsaid hcl ha]
    · rw [if_neg hhit]
      cases (engineOf rt d).computeNormal rt q.1 q.2 <;> rfl

/-- One level, a group, and a group that is selected with any other. -/
def autoGroup : Definition where
  enforce := some true
  dynamicGroups := some false
  levels := some [{ name := "UNRESTRICTED".toList, shortName := "U".toList, lvl := 100 }]
  required := some []
  groups := some [{ name := "DEPARTMENT 1".toList, shortName := "D1".toList },
    { name := "ALLIED".toList, shortName := "AL".toList, autoSelect := true }]
  subgroups := some []
  unrestricted := some "U".toList
  restricted := some "U//REL TO AL, D1".toList

theorem autoGroup_valid : Valid Runtime.ascii autoGroup := by decide +kernel

/-- A miss, and then a hit on the text it left in the cache. -/
theorem answers_fresh_of_closed :
    Along (Engine.afterCall Runtime.ascii (engineOf Runtime.ascii autoGroup))
      (fun s q => (Engine.answer Runtime.ascii (engineOf Runtime.ascii autoGroup) s q).1 =
        Engine.fresh Runtime.ascii (engineOf Runtime.ascii autoGroup) q)
      (Classification.init Runtime.ascii autoGroup).caches
      [("U//REL TO D1".toList, {}), ("UNRESTRICTED//REL TO ALLIED, DEPARTMENT 1".toList, {})] := by
  refine answers_fresh autoGroup_valid ⟨fun h => ?_, fun _ => ⟨by decide +kernel, ?_⟩, trivial⟩
  · exact absurd h (by decide +kernel)
  · exact ⟨⟨100, ∅, {"AL".toList, "D1".toList}, ∅⟩,
      ⟨⟨.idx 100, [], ["AL".toList, "D1".toList], [], []⟩, by decide +kernel⟩, by decide +kernel⟩

/-- A text that was computed without auto-selection answers a call with it. -/
theorem answers_stale :
    Valid Runtime.ascii autoGroup ∧
      ¬ Along (Engine.afterCall Runtime.ascii (engineOf Runtime.ascii autoGroup))
        (fun s q => (Engine.answer Runtime.ascii (engineOf Runtime.ascii autoGroup) s q).1 =
          Engine.fresh Runtime.ascii (engineOf Runtime.ascii autoGroup) q)
        (Classification.init Runtime.ascii autoGroup).caches
        [("U//REL TO D1".toList, { skipAutoSelect := true }),
          ("UNRESTRICTED//REL TO DEPARTMENT 1".toList, {})] :=
  ⟨autoGroup_valid, by decide +kernel⟩

end Howler
