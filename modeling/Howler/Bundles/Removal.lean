import Howler.Bundles.Calls

namespace Howler.Bundles

open Python Structures Cases Systems.Prog

section Placed

variable {items items' : List CaseItem} {b : Str} {cs : List Str} {i j : CaseItem}

/-- A hit is in a case once. -/
theorem Placed.hit_ext (hp : Placed items b cs) (hi : i ∈ items) (hj : j ∈ items)
    (hitype : i.type = .hit) (hjtype : j.type = .hit) (hvalue : i.value = j.value) : i = j := by
  have hroot {x : CaseItem} (hx : x ∈ items) (htype : x.type = .hit) (hb : x.value = b) :
      IsRoot b x := by
    rcases hp.shape x hx with hroot | hfolder | hchild
    · exact hroot
    · rw [hfolder.1] at htype
      cases htype
    · exact absurd hb hchild.2.1
  by_cases hb : i.value = b
  · exact hp.single i hi j hj (hroot hi hitype hb) (hroot hj hjtype (hvalue ▸ hb))
  · have hnodup := hp.distinct
    rw [← hp.children, childValues] at hnodup
    refine List.inj_on_of_nodup_map hnodup (List.mem_filter.mpr ⟨hi, ?_⟩)
      (List.mem_filter.mpr ⟨hj, ?_⟩) hvalue
    · simp [hitype, hb]
    · simp [hjtype, ← hvalue, hb]

/-- Items that stay, with all that is above them, stand for what is left of a bundle. -/
theorem Placed.sub (hp : Placed items b cs) (hsub : items'.Sublist items)
    (hroot : ∀ i ∈ items, IsRoot b i → i ∈ items')
    (habove : ∀ i ∈ items', ∀ f ∈ items, i.parent = some f.id → f ∈ items') :
    Placed items' b (childValues items' b) := by
  have hmem {x : CaseItem} (hx : x ∈ items') : x ∈ items := hsub.subset hx
  refine ⟨hp.nodup.sublist (hsub.map _), fun i hi => ?_, ?_, rfl, ?_, fun i hi j hj =>
    hp.single i (hmem hi) j (hmem hj), fun h => ?_⟩
  · rcases hp.shape i (hmem hi) with h | h | ⟨htype, hne, f, hf, hfolder, hparent⟩
    · exact .inl h
    · exact .inr (.inl h)
    · exact .inr (.inr ⟨htype, hne, f, habove i hi f hf hparent, hfolder, hparent⟩)
  · obtain ⟨i, hi, hat⟩ := hp.root
    exact ⟨i, hroot i hi hat, hat⟩
  · refine List.Nodup.sublist ((hsub.filter _).map _) ?_
    have hchildren := hp.children
    rw [childValues] at hchildren
    rw [hchildren]
    exact hp.distinct
  · obtain ⟨f, hf, hfolder⟩ := h
    exact hp.folder ⟨f, hmem hf, hfolder⟩

/-- Nothing disturbs the removal of items of a bundle. -/
theorem Placed.undisturbed {w : World} (hp : Placed items b cs) (hs : w.Sound) (hk : w.Keyed)
    (hsub : items'.Sublist items) : Undisturbed w items' := by
  refine ⟨?_, fun j _ => hs _⟩
  have hnodup : items'.Nodup := (List.Nodup.of_map _ hp.nodup).sublist hsub
  rw [backingOf, List.map_filterMap, List.Nodup, List.pairwise_filterMap]
  refine hnodup.imp_of_mem fun {i j} hi hj hne => fun k hik k' hjk heq => hne ?_
  have hhit {x : CaseItem} {key : RuleIndexTypes × Str} (hx : x ∈ items')
      (hkey : (backingEntry w x).map backingKey = some key) :
      x.type = .hit ∧ key = (.hit, x.value) := by
    obtain ⟨e, he, rfl⟩ := Option.map_eq_some_iff.mp hkey
    have htype : x.type = .hit := by
      rcases hp.shape x (hsub.subset hx) with h | h | h
      · exact h.1
      · rw [backingEntry, h.1] at he
        cases he
      · exact h.1
    rw [backingEntry, htype] at he
    obtain ⟨r, hr, rfl⟩ := Option.map_eq_some_iff.mp he
    exact ⟨htype, by rw [backingKey, hk.records _ _ _ hr]⟩
  obtain ⟨hitype, rfl⟩ := hhit hi hik
  obtain ⟨hjtype, rfl⟩ := hhit hj hjk
  exact hp.hit_ext (hsub.subset hi) (hsub.subset hj) hitype hjtype (congrArg Prod.snd heq)

end Placed

section Refines

variable {w w' : World} {L : Legacy} {b k : Str} {c c' : Case} {cs cs' : List Str}
  {gone : Str → Prop}

/-- A hit loses the reference to the case, or it stays as it is. -/
theorem records_of_removes (hr : Removes c gone w w' c') (h : Str) :
    w'.records .hit h = w.records .hit h ∨
      w'.records .hit h = (w.records .hit h).map (·.removeBackreference c.caseId) := by
  by_cases hgone : ∃ i ∈ c.items, gone i.id ∧ i.type = .hit ∧ i.value = h
  · obtain ⟨i, hi, hid, htype, rfl⟩ := hgone
    exact .inr (hr.behind i hi hid .hit htype)
  · exact .inl (hr.others .hit h fun i hi hid hat => hgone ⟨i, hi, hid, hat⟩)

theorem kept_of_removes (hr : Removes c gone w w' c') {h : Str} {r : Record}
    (hrecord : w.records .hit h = some r) :
    ∃ r', w'.records .hit h = some r' ∧ ∀ x ∈ r.related, x ≠ c.caseId → x ∈ r'.related := by
  rcases records_of_removes hr h with heq | heq
  · exact ⟨r, heq.trans hrecord, fun x hx _ => hx⟩
  · rw [hrecord] at heq
    exact ⟨_, heq, fun x hx hne => (List.mem_erase_of_ne hne).mpr hx⟩

theorem known_of_removes (hr : Removes c gone w w' c') {h : Str} {r' : Record}
    (hrecord : w'.records .hit h = some r') :
    ∃ r, w.records .hit h = some r ∧ r'.related ⊆ r.related := by
  rcases records_of_removes hr h with heq | heq
  · exact ⟨r', heq.symm.trans hrecord, fun x hx => hx⟩
  · rw [hrecord] at heq
    obtain ⟨r, hr, rfl⟩ := Option.map_eq_some_iff.mp heq.symm
    exact ⟨r, hr, List.erase_subset⟩

/-- What is left of a bundle after a removal. -/
theorem Refines.remove (hw : Refines w L) (hL : L b = some cs) (hc : w.cases c.caseId = some c)
    (hp : Placed c.items b cs) (hr : Removes c gone w w' c') (hframe : Frame w w')
    (hroot : ∀ i ∈ c.items, IsRoot b i → ¬ gone i.id) (hp' : Placed c'.items b cs') :
    Refines w' (Function.update L b (some cs')) := by
  have hget : w'.cases c.caseId = some c' := by rw [hr.cases, Function.update_self]
  have hcases {k' : Str} {x : Case} (hx : w'.cases k' = some x) :
      k' = c.caseId ∧ x = c' ∨ k' ≠ c.caseId ∧ w.cases k' = some x := by
    by_cases hk : k' = c.caseId
    · rw [hk, hget] at hx
      exact .inl ⟨hk, (Option.some.inj hx).symm⟩
    · rw [hr.cases, Function.update_of_ne hk] at hx
      exact .inr ⟨hk, hx⟩
  have huids (n : ℕ) : w'.uids n = w.uids n := congrFun hframe.uids n
  have hle := hframe.nextUid
  have hmissing {h : Str} (hnone : w.records .hit h = none) : w'.records .hit h = none := by
    rcases records_of_removes hr h with heq | heq
    · exact heq.trans hnone
    · rw [heq, hnone, Option.map_none]
  refine ⟨hframe.keyed hw.keyed, hframe.sound hw.sound, fun k' x hx => ?_, fun b' cs'' hL' => ?_,
    fun k₁ k₂ c₁ c₂ b' cs₁ cs₂ hc₁ hc₂ hp₁ hp₂ => ?_, fun r k' x b' cs'' hrecord hk' hx hpx => ?_,
    ⟨?_, fun n hn => ?_, fun n hn => ?_, fun n hn k' x hx i hi => ?_, fun n hn r hrecord => ?_,
      fun n => huids n ▸ hw.fresh.nonempty n, fun n => huids n ▸ hw.fresh.name n⟩,
    hmissing hw.nonempty⟩
  · rcases hcases hx with ⟨rfl, rfl⟩ | ⟨hk, hx⟩
    · -- the bundle itself is not among the hits that lose the reference
      obtain ⟨b', cs'', r, hpb, -, hrecord, hrelated⟩ := hw.placed _ _ hc
      obtain ⟨rfl, -⟩ := hp.unique hpb
      refine ⟨b, cs', r, hp', Function.update_self .., ?_, hrelated⟩
      refine (hr.others .hit b fun i hi hgone hat => ?_).trans hrecord
      obtain ⟨j, hj, hjroot⟩ := hp.root
      obtain rfl := hp.hit_ext hi hj hat.1 hjroot.1 (hat.2.trans hjroot.2.1.symm)
      exact hroot i hi hjroot hgone
    · obtain ⟨b', cs'', r, hpb, hLb, hrecord, hrelated⟩ := hw.placed k' x hx
      have hne : b' ≠ b := by
        rintro rfl
        exact hk (hw.one _ _ _ _ _ _ _ hx hc hpb hp)
      obtain ⟨r', hr', hkept⟩ := kept_of_removes hr hrecord
      exact ⟨b', cs'', r', hpb, by rw [Function.update_of_ne hne, hLb], hr', hkept k' hrelated hk⟩
  · by_cases hb : b' = b
    · subst hb
      rw [Function.update_self] at hL'
      cases hL'
      exact ⟨c.caseId, c', hget, hp'⟩
    · rw [Function.update_of_ne hb] at hL'
      obtain ⟨k', x, hx, hpx⟩ := hw.bundle b' cs'' hL'
      have hk : k' ≠ c.caseId := by
        rintro rfl
        obtain rfl := Option.some.inj (hx.symm.trans hc)
        exact hb (hpx.unique hp).1
      exact ⟨k', x, by rw [hr.cases, Function.update_of_ne hk, hx], hpx⟩
  · rcases hcases hc₁ with ⟨rfl, rfl⟩ | ⟨hk₁, hc₁⟩
    · obtain ⟨rfl, -⟩ := hp₁.unique hp'
      rcases hcases hc₂ with ⟨rfl, rfl⟩ | ⟨-, hc₂⟩
      · rfl
      · exact hw.one _ _ _ _ _ _ _ hc hc₂ hp hp₂
    · rcases hcases hc₂ with ⟨rfl, rfl⟩ | ⟨-, hc₂⟩
      · obtain ⟨rfl, -⟩ := hp₂.unique hp'
        exact hw.one _ _ _ _ _ _ _ hc₁ hc hp₁ hp
      · exact hw.one _ _ _ _ _ _ _ hc₁ hc₂ hp₁ hp₂
  · obtain ⟨r₀, hr₀, hsub⟩ := known_of_removes hr hrecord
    rcases hcases hx with ⟨rfl, rfl⟩ | ⟨-, hx⟩
    · obtain ⟨rfl, -⟩ := hpx.unique hp'
      exact hw.hits r₀ _ _ _ _ hr₀ (hsub hk') hc hp
    · exact hw.hits r₀ _ _ _ _ hr₀ (hsub hk') hx hpx
  · rw [hframe.uids]
    exact hw.fresh.injective
  · have hnone := hw.fresh.case n (hle.trans hn)
    rw [huids, hr.cases, Function.update_of_ne, hnone]
    intro heq
    rw [heq, hc] at hnone
    cases hnone
  · rw [huids]
    exact hmissing (hw.fresh.hit n (hle.trans hn))
  · rw [huids]
    rcases hcases hx with ⟨rfl, rfl⟩ | ⟨-, hx⟩
    · exact hw.fresh.item n (hle.trans hn) _ _ hc i (hr.items.1.subset hi)
    · exact hw.fresh.item n (hle.trans hn) _ _ hx i hi
  · rw [huids]
    obtain ⟨r₀, hr₀, hsub⟩ := known_of_removes hr hrecord
    exact fun hmem => hw.fresh.related n (hle.trans hn) r₀ hr₀ (hsub hmem)

end Refines

section Remove

variable {es : Elastic} {w : World} {L : Legacy} {b : Str} {c : Case} {cs : List Str}

theorem run_removeItemsOf {k : Str} (hc : w.cases k = some c) (itemIds : List Str) (force : Bool) :
    (removeItemsOf c itemIds force).run (handle es) w =
      (removeCaseItems k itemIds force).run (handle es) w :=
  (run_bind_ok (run_fetchCase_some es _ hc) fun c => removeItemsOf c itemIds force).symm

/-- Items of a bundle are removed, or the request is refused. -/
theorem removeItemsOf_cases (hw : Refines w L) (hc : w.cases c.caseId = some c)
    (hp : Placed c.items b cs) {itemIds : List Str} (hknown : ∀ a ∈ itemIds, a ∈ c.items.map (·.id))
    (force : Bool) :
    (¬ Refused c.items force itemIds ∧ ∃ c' w',
      (removeItemsOf c itemIds force).run (handle es) w = (.ok c', w') ∧
        Removes c (Gone c.items force itemIds) w w' c') ∨
    (Refused c.items force itemIds ∧
      ∃ e, (removeItemsOf c itemIds force).run (handle es) w = (.error e, w)) := by
  rw [run_removeItemsOf hc, run_removeCaseItems_known hc hknown]
  rcases idsToRemove_cases hp.forest force hknown with ⟨hnot, ids, hok, hids⟩ | ⟨hrefused, e, he⟩
  · rw [hok]
    rcases @removeFrom_cases es _ _ _ _ _ hw.keyed hp.forest hids with ⟨-, hdone⟩ | ⟨hdisturbed, -⟩
    · exact .inl ⟨hnot, hdone⟩
    · classical
      exact absurd (hp.undisturbed hw.sound hw.keyed List.filter_sublist) hdisturbed
  · rw [he]
    exact .inr ⟨hrefused, e, rfl⟩

/-- What is gone takes along what is below it, if the request is not refused. -/
theorem gone_of_parent {items : List CaseItem} {force : Bool} {itemIds : List Str}
    (hnot : ¬ Refused items force itemIds) {i : CaseItem} (hi : i ∈ items) {p : Str}
    (hparent : i.parent = some p) (hgone : Gone items force itemIds p) :
    Gone items force itemIds i.id := by
  cases force with
  | false =>
    have hmem : p ∈ itemIds := hgone
    exact absurd (.inr ⟨rfl, p, hmem, i, hi, hparent⟩) hnot
  | true =>
    obtain ⟨a, ha, hbelow⟩ : ∃ a ∈ itemIds, Below items a p := hgone
    exact ⟨a, ha, .step hi hparent hbelow⟩

/-- What stands at the root goes only if it is named. -/
theorem mem_of_gone {items : List CaseItem} (hnodup : (items.map (·.id)).Nodup) {force : Bool}
    {itemIds : List Str} {i : CaseItem} (hi : i ∈ items) (hparent : i.parent = none)
    (hgone : Gone items force itemIds i.id) : i.id ∈ itemIds := by
  cases force with
  | false => exact hgone
  | true =>
    obtain ⟨a, ha, hbelow⟩ : ∃ a ∈ itemIds, Below items a i.id := hgone
    generalize hid : i.id = x at hbelow
    cases hbelow with
    | refl => exact ha
    | step hj hjparent _ =>
      obtain rfl := List.inj_on_of_nodup_map hnodup hi hj hid
      rw [hparent] at hjparent
      cases hjparent

theorem gone_of_mem {items : List CaseItem} {force : Bool} {itemIds : List Str} {a : Str}
    (ha : a ∈ itemIds) : Gone items force itemIds a := by
  cases force with
  | false => exact ha
  | true => exact ⟨a, ha, .refl⟩

/-- The ids of the items that have a value that goes. -/
def idsOf (c : Case) (values : List Str) : List Str :=
  (c.items.filter (·.value ∈ values)).map (·.id)

theorem id_mem_idsOf {values : List Str} (hnodup : (c.items.map (·.id)).Nodup) {i : CaseItem}
    (hi : i ∈ c.items) : i.id ∈ idsOf c values ↔ i.value ∈ values := by
  simp only [idsOf, List.mem_map, List.mem_filter, decide_eq_true_eq]
  constructor
  · intro h
    obtain ⟨j, ⟨hj, hvalue⟩, hid⟩ := h
    obtain rfl := List.inj_on_of_nodup_map hnodup hj hi hid
    exact hvalue
  · intro hvalue
    exact ⟨i, ⟨hi, hvalue⟩, rfl⟩

/-- The bundle itself is never among the values. -/
theorem mem_valuesToRemove {hitIds : List Str} {v : Str} : v ∈ valuesToRemove c b hitIds ↔
    v ≠ b ∧ v ∈ c.items.map (·.value) ∧ (hitIds = ["*".toList] ∨ v ∈ hitIds) := by
  rw [valuesToRemove]
  split
  · next h =>
    simp [h]
    tauto
  · simp
    tauto

/-- The children after a removal. -/
def childrenWithout (cs hitIds : List Str) : List Str :=
  if hitIds = ["*".toList] then [] else cs.filter (· ∉ hitIds)

/-- Where the items with the values that go are taken away, the children that are named are gone. -/
theorem childValues_of_removed (hp : Placed c.items b cs) {items' : List CaseItem}
    {hitIds : List Str} (hsub : items'.Sublist c.items)
    (hkept : ∀ i ∈ c.items, i.type = .hit → (i ∈ items' ↔ i.value ∉ valuesToRemove c b hitIds)) :
    childValues items' b = childrenWithout cs hitIds := by
  have hchild {i : CaseItem} (hi : i ∈ c.items) (htype : i.type = .hit) (hne : i.value ≠ b) :
      i.value ∈ valuesToRemove c b hitIds ↔ hitIds = ["*".toList] ∨ i.value ∈ hitIds := by
    rw [mem_valuesToRemove]
    simp [hne, List.mem_map_of_mem hi]
  have hnodup : items'.Nodup := (List.Nodup.of_map _ hp.nodup).sublist hsub
  -- the children are the same list, since both are parts of the items in their order
  have hitems : items'.filter (fun i => decide (i.type = .hit ∧ i.value ≠ b)) =
      (c.items.filter fun i => decide (i.type = .hit ∧ i.value ≠ b)).filter
        fun i => decide (¬ (hitIds = ["*".toList] ∨ i.value ∈ hitIds)) := by
    have hmem : ∀ i ∈ items'.filter (fun i => decide (i.type = .hit ∧ i.value ≠ b)),
        decide (¬ (hitIds = ["*".toList] ∨ i.value ∈ hitIds)) = true := by
      intro i hi
      obtain ⟨hi, hat⟩ := List.mem_filter.mp hi
      obtain ⟨htype, hne⟩ := of_decide_eq_true hat
      have hi' := hsub.subset hi
      rw [decide_eq_true_eq, ← hchild hi' htype hne]
      exact (hkept i hi' htype).mp hi
    rw [← List.filter_eq_self.mpr hmem]
    refine ((hsub.filter _).filter _).eq_of_length (List.Perm.length_eq ?_)
    refine (List.perm_ext_iff_of_nodup ?_ ?_).mpr fun i => ?_
    · exact (hnodup.filter _).filter _
    · exact ((List.Nodup.of_map _ hp.nodup).filter _).filter _
    · simp only [List.mem_filter, decide_eq_true_eq]
      constructor
      · intro h
        exact ⟨⟨hsub.subset h.1.1, h.1.2⟩, h.2⟩
      · intro h
        refine ⟨⟨(hkept i h.1.1 h.1.2.1).mpr ?_, h.1.2⟩, h.2⟩
        rw [hchild h.1.1 h.1.2.1 h.1.2.2]
        exact h.2
  rw [childValues, hitems, childrenWithout, ← hp.children, childValues]
  split
  · next h => simp [h]
  · next h =>
    rw [List.filter_map]
    simp only [h, false_or]
    rfl

/-- The part of `remove_from_bundle` after the case is known. -/
def removeFromCase (es : Elastic) (b : Str) (hitIds : List Str) (c : Case) : BundleM Response := do
  let values := valuesToRemove c b hitIds
  if values ≠ [] then
    let _ ← call es (removeItemsOf c (idsOf c values) (hitIds = ["*".toList]))
  let updated ← call es (fetchCase c.caseId (caseNotFound c.caseId))
  return synthesizeBundleResponse updated b []

theorem run_removeFromBundle {r : Record} (hb : w.records .hit b = some r)
    (hfound : caseForBundle w b = some c) (hc : w.cases c.caseId = some c) (hitIds : List Str) :
    (removeFromBundle es b hitIds).run w = (removeFromCase es b hitIds c).run w := by
  rw [removeFromBundle, run_bind_call (run_getRecord es w .hit b), hb, Option.map_some]
  dsimp only
  rw [run_bind_call (run_findCaseForBundle w b), hfound]
  dsimp only
  rw [run_bind_call (run_fetchCase_some es _ hc)]
  rfl

/-- What goes with the values that are named is what has one of them. -/
theorem gone_iff (hp : Placed c.items b cs) (hitIds : List Str) {i : CaseItem} (hi : i ∈ c.items)
    (htype : i.type = .hit) :
    Gone c.items (hitIds = ["*".toList]) (idsOf c (valuesToRemove c b hitIds)) i.id ↔
      i.value ∈ valuesToRemove c b hitIds := by
  constructor
  · intro hgone
    by_cases hparent : i.parent = none
    · exact (id_mem_idsOf hp.nodup hi).mp (mem_of_gone hp.nodup hi hparent hgone)
    · by_cases hall : hitIds = ["*".toList]
      · have hne : i.value ≠ b := by
          intro heq
          obtain ⟨j, hj, hroot⟩ := hp.root
          obtain rfl := hp.hit_ext hi hj htype hroot.1 (heq.trans hroot.2.1.symm)
          exact hparent hroot.2.2
        exact mem_valuesToRemove.mpr ⟨hne, List.mem_map_of_mem hi, .inl hall⟩
      · rw [decide_eq_false hall] at hgone
        exact (id_mem_idsOf hp.nodup hi).mp hgone
  · intro hvalue
    exact gone_of_mem ((id_mem_idsOf hp.nodup hi).mpr hvalue)

/-- A removal is refused only where the folder of the children is named. -/
theorem mem_of_refused (hp : Placed c.items b cs) {hitIds : List Str}
    (hrefused : Refused c.items (hitIds = ["*".toList]) (idsOf c (valuesToRemove c b hitIds))) :
    hitsName ∈ hitIds := by
  rcases hrefused with ⟨a, ha, hmissing⟩ | ⟨hforce, a, ha, x, hx, hparent⟩
  · obtain ⟨i, hi, rfl⟩ := List.mem_map.mp ha
    exact absurd (List.mem_map_of_mem (List.mem_filter.mp hi).1) hmissing
  · obtain ⟨i, hi, rfl⟩ := List.mem_map.mp ha
    obtain ⟨hi, hvalue⟩ := List.mem_filter.mp hi
    obtain ⟨hne, -, hnamed⟩ := mem_valuesToRemove.mp (of_decide_eq_true hvalue)
    have hnamed := hnamed.resolve_left (of_decide_eq_false hforce)
    -- only a folder has items below it
    have htype : i.type = .folder := by
      rcases hp.shape x hx with hroot | hfolder | ⟨-, -, f, hf, htype, hparent'⟩
      · rw [hroot.2.2] at hparent
        cases hparent
      · rw [hfolder.2.2] at hparent
        cases hparent
      · rw [hparent, Option.some.injEq] at hparent'
        rw [List.inj_on_of_nodup_map hp.nodup hi hf hparent']
        exact htype
    rcases hp.shape i hi with hroot | hfolder | hchild
    · exact absurd hroot.2.1 hne
    · exact hfolder.2.1 ▸ hnamed
    · rw [hchild.1] at htype
      cases htype

/-- The items of a bundle are removed: the children that are named are gone, or nothing is changed. -/
theorem removeFromCase_cases (es : Elastic) (hw : Refines w L) (hL : L b = some cs)
    (hc : w.cases c.caseId = some c) (hp : Placed c.items b cs) (hitIds : List Str) :
    (∃ c' w', (removeFromCase es b hitIds c).run w = (.ok (synthesizeBundleResponse c' b []), w') ∧
      childValues c'.items b = childrenWithout cs hitIds ∧
      Refines w' (Function.update L b (some (childrenWithout cs hitIds)))) ∨
    (hitsName ∈ hitIds ∧ ∃ e, (removeFromCase es b hitIds c).run w = (.error e, w)) := by
  have hlast {w' : World} {c' : Case} (hc' : w'.cases c.caseId = some c') :
      (call es (fetchCase c.caseId (caseNotFound c.caseId)) >>= fun updated =>
        (pure (synthesizeBundleResponse updated b []) : BundleM Response)).run w' =
        (.ok (synthesizeBundleResponse c' b []), w') := by
    rw [run_bind_call (run_fetchCase_some es _ hc')]
    rfl
  rw [removeFromCase]
  by_cases hvalues : valuesToRemove c b hitIds = []
  · have hsame : childValues c.items b = childrenWithout cs hitIds := by
      refine childValues_of_removed hp (List.Sublist.refl _) fun i hi _ => ?_
      rw [hvalues]
      exact iff_of_true hi List.not_mem_nil
    refine .inl ⟨c, w, ?_, hsame, ?_⟩
    · rw [if_neg (not_not.mpr hvalues)]
      exact hlast hc
    · rw [← hsame, hp.children, ← hL, Function.update_eq_self]
      exact hw
  · have hknown : ∀ a ∈ idsOf c (valuesToRemove c b hitIds), a ∈ c.items.map (·.id) := by
      intro a ha
      obtain ⟨i, hi, rfl⟩ := List.mem_map.mp ha
      exact List.mem_map_of_mem (List.mem_filter.mp hi).1
    dsimp only
    rw [if_pos hvalues]
    rcases @removeItemsOf_cases es _ _ _ _ _ hw hc hp _ hknown (hitIds = ["*".toList]) with
      ⟨hnot, c', w', hrun, hr⟩ | ⟨hrefused, e, hrun⟩
    · refine .inl ⟨c', w', ?_, ?_⟩
      · rw [run_bind_call hrun]
        refine hlast ?_
        rw [hr.cases, Function.update_self]
      · have hroot : ∀ i ∈ c.items, IsRoot b i →
            ¬ Gone c.items (hitIds = ["*".toList]) (idsOf c (valuesToRemove c b hitIds)) i.id :=
          fun i hi hat hgone =>
            (mem_valuesToRemove.mp ((gone_iff hp hitIds hi hat.1).mp hgone)).1 hat.2.1
        have habove : ∀ i ∈ c'.items, ∀ f ∈ c.items, i.parent = some f.id → f ∈ c'.items := by
          intro i hi f hf hparent
          have hi' := hr.items.1.subset hi
          refine (hr.items.2 f hf).mpr fun hgone => ?_
          exact (hr.items.2 i hi').mp hi (gone_of_parent hnot hi' hparent hgone)
        have hplaced := hp.sub hr.items.1
          (fun i hi hat => (hr.items.2 i hi).mpr (hroot i hi hat)) habove
        have hchildren : childValues c'.items b = childrenWithout cs hitIds :=
          childValues_of_removed hp hr.items.1 fun i hi htype => by
            rw [hr.items.2 i hi, gone_iff hp hitIds hi htype]
        rw [hchildren] at hplaced
        exact ⟨hchildren, hw.remove hL hc hp hr (frame_of_run hrun) hroot hplaced⟩
    · exact .inr ⟨mem_of_refused hp hrefused, .howler e, run_bind_raise (run_call_error hrun) _⟩

/-- A removal from a bundle does what the legacy model does. -/
theorem removeFromBundle_agrees (es : Elastic) (hw : Refines w L) (b : Str) (hitIds : List Str) :
    Agrees w L (.remove b hitIds) ((removeFromBundle es b hitIds).run w) := by
  cases hrecord : w.records .hit b with
  | none =>
    have hrun : (removeFromBundle es b hitIds).run w =
        (.error (.howler (bundleNotFound b)), w) := by
      rw [removeFromBundle, run_bind_call (run_getRecord es w .hit b), hrecord]
      rfl
    have hnot : ¬ Accepts w L (.remove b hitIds) := by
      intro h
      obtain ⟨cs, hL⟩ := Option.ne_none_iff_exists'.mp h.1
      obtain ⟨-, -, -, -, r, hr⟩ := hw.caseForBundle_some hL
      rw [hrecord] at hr
      cases hr
    rw [hrun]
    exact agrees_of_raise _ hnot rfl rfl hw
  | some r =>
    cases hL : L b with
    | none =>
      have hrun : (removeFromBundle es b hitIds).run w =
          (.error (.howler (.invalidData "The specified hit must be a bundle.".toList)), w) := by
        rw [removeFromBundle, run_bind_call (run_getRecord es w .hit b), hrecord, Option.map_some]
        dsimp only
        rw [run_bind_call (run_findCaseForBundle w b), hw.caseForBundle_none hL]
        rfl
      rw [hrun]
      exact agrees_of_raise _ (fun h => h.1 hL) rfl rfl hw
    | some cs =>
      obtain ⟨c, hfound, hc, hp, -⟩ := hw.caseForBundle_some hL
      rw [@run_removeFromBundle es _ _ _ _ hrecord hfound hc hitIds]
      have hafter : childrenAfter w L (.remove b hitIds) = childrenWithout cs hitIds := by
        rw [childrenAfter, hL]
        rfl
      rcases removeFromCase_cases es hw hL hc hp hitIds with
        ⟨c', w', hok, hchildren, hw'⟩ | ⟨hnamed, e, he⟩
      · rw [hok]
        have hhits : (synthesizeBundleResponse c' b []).hits = childrenWithout cs hitIds := hchildren
        refine agrees_of_answer rfl (hhits.trans hafter.symm) ?_
        rw [hhits]
        exact hw'
      · rw [he]
        exact agrees_of_raise _ (fun h => h.2 hnamed) rfl rfl hw

end Remove

end Howler.Bundles
