import Howler.Cases.Forest

namespace Howler.Cases

open Python Systems Systems.Prog

/-- The two stores have the same cases and the same random ids to come. -/
structure SameCases (w w' : World) : Prop where
  cases : w'.cases = w.cases
  uids : w'.uids = w.uids
  nextUid : w'.nextUid = w.nextUid

/-- A property of stores that only depends on these. -/
def Stable (P : World → Prop) : Prop := ∀ w w', SameCases w w' → P w → P w'

/-- A function of the services that leaves these alone. -/
def Quiet {α : Type} (es : Elastic) (p : Service α) : Prop :=
  ∀ w, SameCases w (p.run (handle es) w).2

section Quiet

variable {es : Elastic} {α β : Type}

theorem SameCases.refl (w : World) : SameCases w w := ⟨rfl, rfl, rfl⟩

theorem SameCases.trans {w w' w'' : World} (h : SameCases w w') (h' : SameCases w' w'') :
    SameCases w w'' :=
  ⟨h'.cases.trans h.cases, h'.uids.trans h.uids, h'.nextUid.trans h.nextUid⟩

theorem quiet_pure (a : α) : Quiet es (pure a : Service α) := fun w => .refl w

theorem quiet_throw (e : HowlerError) : Quiet es (throw e : Service α) := fun w => .refl w

theorem Quiet.bind {p : Service α} {f : α → Service β} (hp : Quiet es p)
    (hf : ∀ a, Quiet es (f a)) : Quiet es (p >>= f) := by
  intro w
  have h := hp w
  rw [run_bind]
  cases hr : p.run (handle es) w with
  | mk r w' =>
    rw [hr] at h
    cases r with
    | ok a => exact h.trans (hf a w')
    | error e => exact h

theorem quiet_getRecord (t : RuleIndexTypes) (id : Str) : Quiet es (getRecord t id) :=
  fun w => .refl w

theorem World.write_same {w : World} {f : World → World}
    (hf : ∀ w, SameCases w (f w)) : SameCases w (w.write f).2 := by
  unfold World.write
  split
  · exact ⟨rfl, rfl, rfl⟩
  · have h := hf { w with writes := w.writes + 1 }
    exact ⟨h.cases, h.uids, h.nextUid⟩

theorem quiet_saveRecord (t : RuleIndexTypes) (r : Record) (version : Nat) :
    Quiet es (saveRecord t r version) := by
  intro w
  rw [run_saveRecord]
  split
  · exact .refl w
  · exact World.write_same fun w => ⟨rfl, rfl, rfl⟩

theorem quiet_collectMetadata (items : List CaseItem) (m : Metadata) :
    Quiet es (collectMetadata items m) := by
  induction items generalizing m with
  | nil => exact quiet_pure m
  | cons item items ih =>
    rw [collectMetadata]
    cases metadataIndex item with
    | none => exact ih m
    | some t =>
      refine (quiet_getRecord t item.value).bind fun r => ?_
      cases r with
      | none => exact ih m
      | some r => exact ih _

theorem quiet_recomputeCaseMetadata (case : Case) : Quiet es (recomputeCaseMetadata case) :=
  (quiet_collectMetadata _ _).bind fun _ => quiet_pure _

theorem quiet_backingRecords (items : List CaseItem) : Quiet es (backingRecords items) := by
  induction items with
  | nil => exact quiet_pure _
  | cons item items ih =>
    rw [backingRecords]
    cases CaseItemTypes.index item.type with
    | none => exact ih
    | some t =>
      refine (quiet_getRecord t item.value).bind fun r => ih.bind fun others => ?_
      cases r with
      | none => exact quiet_pure _
      | some r => exact quiet_pure _

theorem quiet_removeBackreferences (caseId : Str)
    (backing : List (RuleIndexTypes × Record × Nat)) :
    Quiet es (removeBackreferences caseId backing) := by
  induction backing with
  | nil => exact quiet_pure _
  | cons entry backing ih => exact (quiet_saveRecord _ _ _).bind fun _ => ih

variable {P : World → Prop}

/-- What only depends on the cases holds after a function that leaves them alone. -/
theorem Quiet.triple (hP : Stable P) {p : Service α} (hq : Quiet es p) :
    Triple (handle es) P p (fun _ => P) P :=
  fun w hw => ends_of_snd (hP w _ (hq w) hw)

end Quiet

/-- The second store is the first one after some random ids were drawn. -/
def Drawn (w w' : World) : Prop := ∃ n, w.nextUid ≤ n ∧ w' = { w with nextUid := n }

/-- A function of the services that draws random ids and reads, but does not write. -/
def Draws {α : Type} (es : Elastic) (p : Service α) : Prop :=
  ∀ w, Drawn w (p.run (handle es) w).2

section Draws

variable {es : Elastic} {α β : Type}

theorem Drawn.refl (w : World) : Drawn w w := ⟨w.nextUid, le_rfl, rfl⟩

theorem drawn_next (w : World) : Drawn w { w with nextUid := w.nextUid + 1 } :=
  ⟨w.nextUid + 1, Nat.le_succ _, rfl⟩

theorem Drawn.trans {w w' w'' : World} (h : Drawn w w') (h' : Drawn w' w'') : Drawn w w'' := by
  obtain ⟨n, hn, rfl⟩ := h
  obtain ⟨m, hm, rfl⟩ := h'
  exact ⟨m, hn.trans hm, rfl⟩

theorem Drawn.cases {w w' : World} (h : Drawn w w') : w'.cases = w.cases := by
  obtain ⟨n, -, rfl⟩ := h
  rfl

theorem Drawn.records {w w' : World} (h : Drawn w w') : w'.records = w.records := by
  obtain ⟨n, -, rfl⟩ := h
  rfl

theorem draws_pure (a : α) : Draws es (pure a : Service α) := fun w => .refl w

theorem draws_throw (e : HowlerError) : Draws es (throw e : Service α) := fun w => .refl w

theorem Draws.bind {p : Service α} {f : α → Service β} (hp : Draws es p)
    (hf : ∀ a, Draws es (f a)) : Draws es (p >>= f) := by
  intro w
  have h := hp w
  rw [run_bind]
  cases hr : p.run (handle es) w with
  | mk r w' =>
    rw [hr] at h
    cases r with
    | ok a => exact h.trans (hf a w')
    | error e => exact h

theorem Draws.optional {p : Service α} (hp : Draws es p) : Draws es p.optional := by
  intro w
  rw [run_optional]
  exact hp w

theorem draws_itemId (id : Option Str) : Draws es (itemId id) := by
  cases id with
  | some id => exact draws_pure id
  | none => exact fun w => drawn_next w

theorem draws_newItem (es : Elastic) (data : ItemData) : Draws es (CaseItem.new data) := by
  rw [CaseItem.new]
  split
  · exact draws_throw _
  · refine (draws_itemId _).bind fun id => ?_
    split
    · exact draws_throw _
    · exact draws_throw _
    · exact draws_pure _

end Draws

/-- What the invariant is about: the cases that are watched, whether the names in them are to be
unique, and the item ids that are kept for a case. -/
structure Scope where
  watched : Str → Prop
  names : Prop
  kept : Str → List Str

/-- A watched case, in memory or stored: its items are tidy, and the ids to come and the kept ids
are new to it. -/
structure Held (s : Scope) (c : Case) (w : World) : Prop where
  tidy : Tidy s.names c.items
  fresh : ∀ n, w.nextUid ≤ n → w.uids n ∉ c.items.map (·.id)
  kept : ∀ id ∈ s.kept c.caseId, id ∉ c.items.map (·.id)

/-- The invariant of the store. The random ids are distinct; those to come are new to every watched
case and are none of the kept ids. -/
structure Inv (s : Scope) (w : World) : Prop where
  keyed : ∀ k c, w.cases k = some c → c.caseId = k
  held : ∀ k c, w.cases k = some c → s.watched k → Held s c w
  uids : Function.Injective w.uids
  nonempty : s.names → ∀ n, w.uids n ≠ []
  kept : ∀ k, ∀ id ∈ s.kept k, ∀ n, w.nextUid ≤ n → w.uids n ≠ id

/-- An id that may be given to an item of a case. -/
structure NewId (s : Scope) (c : Case) (id : Str) (w : World) : Prop where
  new : id ∉ c.items.map (·.id)
  fresh : ∀ n, w.nextUid ≤ n → w.uids n ≠ id
  kept : id ∉ s.kept c.caseId
  nonempty : s.names → id ≠ []

/-- The store and a case in memory satisfy the invariant. -/
structure Ready (s : Scope) (c : Case) (w : World) : Prop where
  inv : Inv s w
  held : s.watched c.caseId → Held s c w

section Inv

variable {s : Scope} {c : Case} {w : World} {es : Elastic}

theorem stable_held : Stable (Held s c) := by
  intro w w' hs h
  exact ⟨h.tidy, by rw [hs.uids, hs.nextUid]; exact h.fresh, h.kept⟩

theorem stable_inv : Stable (Inv s) := by
  intro w w' hs h
  refine ⟨?_, ?_, hs.uids ▸ h.uids, hs.uids ▸ h.nonempty, ?_⟩
  · rw [hs.cases]
    exact h.keyed
  · rw [hs.cases]
    exact fun k c hc hk => stable_held w w' hs (h.held k c hc hk)
  · rw [hs.uids, hs.nextUid]
    exact h.kept

theorem stable_newId {id : Str} : Stable (NewId s c id) := by
  intro w w' hs h
  exact ⟨h.new, by rw [hs.uids, hs.nextUid]; exact h.fresh, h.kept, h.nonempty⟩

theorem stable_ready : Stable (Ready s c) :=
  fun w w' hs h => ⟨stable_inv w w' hs h.inv, fun hk => stable_held w w' hs (h.held hk)⟩

theorem Held.congr {c' : Case} (h : Held s c w) (hi : c'.items = c.items)
    (hid : c'.caseId = c.caseId) : Held s c' w :=
  ⟨hi ▸ h.tidy, hi ▸ h.fresh, hi ▸ hid ▸ h.kept⟩

/-- The items may change as long as no id is new. -/
theorem Held.edit {items : List CaseItem} (h : Held s c w) (ht : Tidy s.names items)
    (hsub : items.map (·.id) ⊆ c.items.map (·.id)) : Held s { c with items := items } w :=
  ⟨ht, fun n hn hmem => h.fresh n hn (hsub hmem), fun id hid hmem => h.kept id hid (hsub hmem)⟩

theorem Ready.congr {c' : Case} (h : Ready s c w) (hi : c'.items = c.items)
    (hid : c'.caseId = c.caseId) : Ready s c' w :=
  ⟨h.inv, fun hk => (h.held (hid ▸ hk)).congr hi hid⟩

/-- A case that fits may be stored. -/
theorem Ready.setCase (h : Ready s c w) : Inv s (w.setCase c) := by
  refine ⟨fun k c' hc' => ?_, fun k c' hc' hw => ?_, h.inv.uids, h.inv.nonempty, h.inv.kept⟩
  · by_cases hk : k = c.caseId
    · subst hk
      obtain rfl : c = c' := by simpa [World.setCase] using hc'
      rfl
    · exact h.inv.keyed k c' (by simpa [World.setCase, Function.update_of_ne hk] using hc')
  · by_cases hk : k = c.caseId
    · subst hk
      obtain rfl : c = c' := by simpa [World.setCase] using hc'
      have hh := h.held hw
      exact ⟨hh.tidy, hh.fresh, hh.kept⟩
    · have hh := h.inv.held k c' (by simpa [World.setCase, Function.update_of_ne hk] using hc') hw
      exact ⟨hh.tidy, hh.fresh, hh.kept⟩

theorem Inv.write {f : World → World} (h : Inv s w)
    (hf : ∀ n, Inv s { w with writes := n } → Inv s (f { w with writes := n })) :
    Inv s (w.write f).2 := by
  have hw : Inv s { w with writes := w.writes + 1 } := stable_inv w _ ⟨rfl, rfl, rfl⟩ h
  unfold World.write
  split
  · exact hw
  · exact hf _ hw

theorem triple_saveCase :
    Triple (handle es) (Ready s c) (saveCase c) (fun _ => Ready s c) (Ready s c) := by
  intro w h
  have hinv : Inv s (w.write (·.setCase c)).2 :=
    h.inv.write fun n _ => (stable_ready w { w with writes := n } ⟨rfl, rfl, rfl⟩ h).setCase
  have hids : (w.write (·.setCase c)).2.uids = w.uids ∧
      (w.write (·.setCase c)).2.nextUid = w.nextUid := by
    unfold World.write
    split <;> exact ⟨rfl, rfl⟩
  refine ends_of_snd ?_
  rw [run_saveCase]
  refine ⟨hinv, fun hk => ⟨(h.held hk).tidy, ?_, (h.held hk).kept⟩⟩
  rw [hids.1, hids.2]
  exact (h.held hk).fresh

theorem Inv.ready (h : Inv s w) {k : Str} (hc : w.cases k = some c) : Ready s c w :=
  ⟨h, fun hk => h.held k c hc (h.keyed k c hc ▸ hk)⟩

theorem run_fetchCase (es : Elastic) (w : World) (caseId : Str) (e : HowlerError) :
    (fetchCase caseId e).run (handle es) w =
      (match w.cases caseId with
        | none => .error e
        | some c => .ok c, w) := by
  rw [fetchCase, run_bind_ok (run_getCase es w caseId)]
  cases w.cases caseId <;> rfl

/-- The case is fetched, or the function raises. -/
theorem ends_bind_fetchCase {β : Type} {caseId : Str} {e : HowlerError} {f : Case → Service β}
    {R : β → World → Prop} {E : World → Prop}
    (h : ∀ c, w.cases caseId = some c → Ends (handle es) (f c) w R E) (hE : E w) :
    Ends (handle es) (fetchCase caseId e >>= f) w R E := by
  have hrun := run_fetchCase es w caseId e
  cases hc : w.cases caseId with
  | none =>
    rw [hc] at hrun
    exact ends_bind_error hrun hE
  | some c =>
    rw [hc] at hrun
    exact ends_bind_ok hrun (h c hc)

/-- The next random id is new. -/
theorem newId_uid (h : Inv s w) (hc : Held s c w) :
    NewId s c (w.uids w.nextUid) { w with nextUid := w.nextUid + 1 } := by
  refine ⟨hc.fresh _ le_rfl, fun n hn heq => ?_, fun hmem => ?_, fun hn => h.nonempty hn _⟩
  · have hne := h.uids heq
    dsimp only at hn
    omega
  · exact h.kept _ _ hmem _ le_rfl rfl

theorem Held.drawn {w' : World} (h : Held s c w) (hd : Drawn w w') : Held s c w' := by
  obtain ⟨m, hm, rfl⟩ := hd
  exact ⟨h.tidy, fun n hn => h.fresh n (hm.trans hn), h.kept⟩

theorem Inv.drawn {w' : World} (h : Inv s w) (hd : Drawn w w') : Inv s w' := by
  obtain ⟨m, hm, rfl⟩ := hd
  exact ⟨h.keyed, fun k c hc hk => (h.held k c hc hk).drawn ⟨m, hm, rfl⟩, h.uids, h.nonempty,
    fun k id hid n hn => h.kept k id hid n (hm.trans hn)⟩

theorem Ready.drawn {w' : World} (h : Ready s c w) (hd : Drawn w w') : Ready s c w' :=
  ⟨h.inv.drawn hd, fun hk => (h.held hk).drawn hd⟩

/-- An item that fits may be added to a case in memory. -/
theorem Held.add (h : Held s c w) {i : CaseItem} (hi : Addable s.names c.items i)
    (hid : NewId s c i.id w) : Held s { c with items := c.items ++ [i] } w := by
  refine ⟨h.tidy.append hi, fun n hn => ?_, fun id hmem => ?_⟩
  · rw [List.map_append, List.mem_append, not_or]
    exact ⟨h.fresh n hn, by simpa using hid.fresh n hn⟩
  · rw [List.map_append, List.mem_append, not_or]
    refine ⟨h.kept id hmem, ?_⟩
    have hne : id ≠ i.id := fun heq => hid.kept (heq ▸ hmem)
    simpa using hne

/-- What the constructor makes of its argument. -/
structure Built (data : ItemData) (i : CaseItem) : Prop where
  type : i.type = data.type
  parent : i.parent = optionalText data.parent
  name : i.name = optionalText data.name
  value : some i.value = if data.type = .folder then data.name else data.value
  nonempty : i.value ≠ []
  caseRoot : i.type = .case → i.parent = none

/-- A new item has the id that was given, or else the next random one. -/
theorem newItem_run (data : ItemData) {i : CaseItem} {w' : World}
    (h : (CaseItem.new data).run (handle es) w = (.ok i, w')) :
    Built data i ∧ ((data.id = some i.id ∧ w' = w) ∨ (data.id = none ∧ i.id = w.uids w.nextUid ∧
      w' = { w with nextUid := w.nextUid + 1 })) := by
  rw [CaseItem.new] at h
  split at h
  · simp at h
  · next hroot =>
    have hcase : data.type = .case → optionalText data.parent = none := by
      intro ht
      have hp : data.parent = none := by
        by_contra hp
        exact hroot ⟨ht, hp⟩
      rw [hp]
      rfl
    obtain ⟨id, t, hid, h⟩ := run_bind_eq_ok.mp h
    split at h
    · simp at h
    · simp at h
    · next value hne hvalue =>
      rw [run_pure, Prod.mk.injEq, Except.ok.injEq] at h
      obtain ⟨rfl, rfl⟩ := h
      refine ⟨⟨rfl, rfl, rfl, hvalue.symm, hne, hcase⟩, ?_⟩
      cases hd : data.id with
      | some id' =>
        rw [hd, itemId, run_pure, Prod.mk.injEq, Except.ok.injEq] at hid
        obtain ⟨rfl, rfl⟩ := hid
        exact .inl ⟨rfl, rfl⟩
      | none =>
        rw [hd, itemId, run_randomId, Prod.mk.injEq, Except.ok.injEq] at hid
        obtain ⟨rfl, rfl⟩ := hid
        exact .inr ⟨rfl, rfl, rfl⟩

/-- What the store is after an item was built. -/
structure AfterNew (s : Scope) (data : ItemData) (i : CaseItem) (w w' : World) : Prop where
  drawn : Drawn w w'
  built : Built data i
  newId : ∀ c, Ready s c w → s.watched c.caseId →
    (∀ id, data.id = some id → NewId s c id w) → NewId s c i.id w'

theorem ends_newItem (data : ItemData) {E : World → Prop} (hw : Inv s w)
    (hE : ∀ w', Drawn w w' → E w') :
    Ends (handle es) (CaseItem.new data) w (fun i w' => AfterNew s data i w w') E := by
  have hdrawn := draws_newItem es data w
  cases hrun : (CaseItem.new data).run (handle es) w with
  | mk r w' =>
    rw [hrun] at hdrawn
    cases r with
    | error e => exact ends_of_error hrun (hE w' hdrawn)
    | ok i =>
      obtain ⟨hb, hid⟩ := newItem_run data hrun
      refine ends_of_ok hrun ⟨hdrawn, hb, fun c hr hk hnew => ?_⟩
      cases hid with
      | inl hid =>
        obtain ⟨hsome, rfl⟩ := hid
        exact hnew i.id hsome
      | inr hid =>
        obtain ⟨-, hi, rfl⟩ := hid
        exact hi ▸ newId_uid hw (hr.held hk)

end Inv

end Howler.Cases
