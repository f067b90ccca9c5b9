import Howler.Bundles.Effects

namespace Howler.Bundles

open Python Structures Cases Systems.Prog

/-- The legacy model: the bundles with their distinct children. -/
abbrev Legacy := Str → Option (List Str)

/-- Hits that exist are added to the children, each of them once. -/
def addAll (isStored : Str → Bool) (children : List Str) : List Str → List Str
  | [] => children
  | id :: ids =>
    addAll isStored (if isStored id ∧ id ∉ children then children ++ [id] else children) ids

theorem addAll_of_missing {isStored : Str → Bool} {ids : List Str}
    (h : ∀ id ∈ ids, isStored id = false) (children : List Str) :
    addAll isStored children ids = children := by
  induction ids with
  | nil => rfl
  | cons id ids ih =>
    rw [addAll, if_neg (by simp [h id (List.mem_cons_self ..)])]
    exact ih fun id hid => h id (List.mem_cons_of_mem _ hid)

/-- The folder of the children. -/
def hitsName : Str := "hits".toList

section Placed

/-- The item of the bundle itself. -/
def IsRoot (b : Str) (i : CaseItem) : Prop := i.type = .hit ∧ i.value = b ∧ i.parent = none

def IsFolder (i : CaseItem) : Prop := i.type = .folder ∧ i.value = hitsName ∧ i.parent = none

/-- An item of the bundle's case in its folder. -/
def IsChild (items : List CaseItem) (b : Str) (i : CaseItem) : Prop :=
  i.type = .hit ∧ i.value ≠ b ∧ ∃ f ∈ items, f.type = .folder ∧ i.parent = some f.id

def childValues (items : List CaseItem) (b : Str) : List Str :=
  (items.filter fun item => item.type = .hit ∧ item.value ≠ b).map (·.value)

/-- The items of a case stand for a bundle and its children. -/
structure Placed (items : List CaseItem) (b : Str) (cs : List Str) : Prop where
  nodup : (items.map (·.id)).Nodup
  shape : ∀ i ∈ items, IsRoot b i ∨ IsFolder i ∨ IsChild items b i
  root : ∃ i ∈ items, IsRoot b i
  children : childValues items b = cs
  distinct : cs.Nodup
  single : ∀ i ∈ items, ∀ j ∈ items, IsRoot b i → IsRoot b j → i = j
  folder : (∃ i ∈ items, i.type = .folder) → b ≠ hitsName

variable {items : List CaseItem} {b h : Str} {cs : List Str} {i : CaseItem}

theorem mem_childValues : h ∈ childValues items b ↔
    ∃ i ∈ items, i.type = .hit ∧ i.value = h ∧ h ≠ b := by
  simp only [childValues, List.mem_map, List.mem_filter, decide_eq_true_eq]
  constructor
  · rintro ⟨i, ⟨hi, htype, hne⟩, rfl⟩
    exact ⟨i, hi, htype, rfl, hne⟩
  · rintro ⟨i, hi, htype, rfl, hne⟩
    exact ⟨i, ⟨hi, htype, hne⟩, rfl⟩

theorem Placed.mem_children (hp : Placed items b cs) : h ∈ cs ↔
    ∃ i ∈ items, i.type = .hit ∧ i.value = h ∧ h ≠ b := by
  rw [← hp.children, mem_childValues]

/-- A hit of the case is the bundle or one of its children. -/
theorem Placed.mem_of_hit (hp : Placed items b cs) (hi : i ∈ items) (htype : i.type = .hit) :
    i.value = b ∨ i.value ∈ cs := by
  by_cases hb : i.value = b
  · exact .inl hb
  · exact .inr (hp.mem_children.mpr ⟨i, hi, htype, rfl, hb⟩)

/-- What stands at the root is the bundle or the folder. -/
theorem Placed.atRoot (hp : Placed items b cs) (hi : i ∈ items) (hparent : i.parent = none) :
    i.value = b ∨ i.value = hitsName ∧ i.type = .folder := by
  rcases hp.shape i hi with hroot | hfolder | ⟨-, -, f, -, -, hf⟩
  · exact .inl hroot.2.1
  · exact .inr ⟨hfolder.2.1, hfolder.1⟩
  · rw [hparent] at hf
    cases hf

theorem Placed.unique {b' : Str} {cs' : List Str} (hp : Placed items b cs)
    (hp' : Placed items b' cs') : b = b' ∧ cs = cs' := by
  obtain ⟨i, hi, htype, rfl, hparent⟩ := hp.root
  rcases hp'.atRoot hi hparent with heq | ⟨-, hfolder⟩
  · subst heq
    exact ⟨rfl, hp.children.symm.trans hp'.children⟩
  · rw [htype] at hfolder
    cases hfolder

theorem placed_singleton (hi : IsRoot b i) : Placed [i] b [] := by
  refine ⟨List.nodup_singleton _, fun j hj => ?_, ⟨i, List.mem_singleton.mpr rfl, hi⟩, ?_,
    List.nodup_nil, fun j hj j' hj' _ _ => ?_, ?_⟩
  · rw [List.mem_singleton.mp hj]
    exact .inl hi
  · simp [childValues, hi.2.1]
  · rw [List.mem_singleton.mp hj, List.mem_singleton.mp hj']
  · rintro ⟨j, hj, htype⟩
    rw [List.mem_singleton.mp hj, hi.1] at htype
    cases htype

theorem IsChild.mono {items' : List CaseItem} (hi : IsChild items b i) (hsub : items ⊆ items') :
    IsChild items' b i := by
  obtain ⟨htype, hne, f, hf, hfolder, hparent⟩ := hi
  exact ⟨htype, hne, f, hsub hf, hfolder, hparent⟩

theorem nodup_ids_append (hnodup : (items.map (·.id)).Nodup) (hnew : ∀ j ∈ items, j.id ≠ i.id) :
    ((items ++ [i]).map (·.id)).Nodup := by
  rw [List.map_append, List.map_singleton]
  refine hnodup.append (List.nodup_singleton _) fun x hx hx' => ?_
  obtain ⟨j, hj, rfl⟩ := List.mem_map.mp hx
  exact hnew j hj (List.mem_singleton.mp hx')

/-- The folder is created. -/
theorem Placed.addFolder (hp : Placed items b cs) (hnew : ∀ j ∈ items, j.id ≠ i.id)
    (hi : IsFolder i) (hb : b ≠ hitsName) : Placed (items ++ [i]) b cs := by
  refine ⟨nodup_ids_append hp.nodup hnew, fun j hj => ?_, ?_, ?_, hp.distinct, ?_, fun _ => hb⟩
  · rcases List.mem_append.mp hj with hj | hj
    · exact (hp.shape j hj).imp_right fun h => h.imp_right fun h =>
        h.mono (List.subset_append_left _ _)
    · rw [List.mem_singleton.mp hj]
      exact .inr (.inl hi)
  · obtain ⟨j, hj, hroot⟩ := hp.root
    exact ⟨j, List.mem_append_left _ hj, hroot⟩
  · rw [← hp.children]
    simp [childValues, hi.1]
  · intro j hj j' hj' hroot hroot'
    have hin : ∀ x ∈ items ++ [i], IsRoot b x → x ∈ items := by
      intro x hx hx'
      rcases List.mem_append.mp hx with hx | hx
      · exact hx
      · rw [List.mem_singleton.mp hx, IsRoot, hi.1] at hx'
        cases hx'.1
    exact hp.single j (hin j hj hroot) j' (hin j' hj' hroot') hroot hroot'

/-- A child is appended. -/
theorem Placed.addChild (hp : Placed items b cs) (hnew : ∀ j ∈ items, j.id ≠ i.id)
    (hi : IsChild items b i) (hvalue : i.value ∉ cs) : Placed (items ++ [i]) b (cs ++ [i.value]) := by
  refine ⟨nodup_ids_append hp.nodup hnew, fun j hj => ?_, ?_, ?_, ?_, ?_, ?_⟩
  · rcases List.mem_append.mp hj with hj | hj
    · exact (hp.shape j hj).imp_right fun h => h.imp_right fun h =>
        h.mono (List.subset_append_left _ _)
    · rw [List.mem_singleton.mp hj]
      exact .inr (.inr (hi.mono (List.subset_append_left _ _)))
  · obtain ⟨j, hj, hroot⟩ := hp.root
    exact ⟨j, List.mem_append_left _ hj, hroot⟩
  · rw [← hp.children]
    simp [childValues, hi.1, hi.2.1]
  · refine hp.distinct.append (List.nodup_singleton _) fun x hx hx' => ?_
    rw [List.mem_singleton.mp hx'] at hx
    exact hvalue hx
  · intro j hj j' hj' hroot hroot'
    have hin : ∀ x ∈ items ++ [i], IsRoot b x → x ∈ items := by
      intro x hx hx'
      rcases List.mem_append.mp hx with hx | hx
      · exact hx
      · rw [List.mem_singleton.mp hx] at hx'
        exact absurd hx'.2.1 hi.2.1
    exact hp.single j (hin j hj hroot) j' (hin j' hj' hroot') hroot hroot'
  · rintro ⟨j, hj, hfolder⟩
    rcases List.mem_append.mp hj with hj | hj
    · exact hp.folder ⟨j, hj, hfolder⟩
    · rw [List.mem_singleton.mp hj, hi.1] at hfolder
      cases hfolder

/-- What is in the folder of a case can be added to it. -/
theorem checkParent_folder {c : Case} {f : CaseItem} (hnodup : (c.items.map (·.id)).Nodup)
    (hf : f ∈ c.items) (htype : f.type = .folder) : Case.checkParent c (some f.id) = .ok () := by
  have hfind : c.items.find? (fun j => decide (j.id = f.id)) = some f := by
    cases hfound : c.items.find? fun j => decide (j.id = f.id) with
    | none => exact absurd (decide_eq_true rfl) (List.find?_eq_none.mp hfound f hf)
    | some j =>
      have hid : j.id = f.id := by simpa using List.find?_some hfound
      rw [List.inj_on_of_nodup_map hnodup (List.mem_of_find?_eq_some hfound) hf hid]
  rw [Case.checkParent, Case.ensureParentExists, hfind]
  exact if_pos htype

/-- The items of a bundle are two levels of a forest. -/
theorem Placed.forest (hp : Placed items b cs) : ItemForest items := by
  refine ⟨hp.nodup, fun i hi p hparent => ?_, ?_⟩
  · rcases hp.shape i hi with hroot | hfolder | ⟨-, -, f, hf, htype, hf'⟩
    · rw [hroot.2.2] at hparent
      cases hparent
    · rw [hfolder.2.2] at hparent
      cases hparent
    · rw [hf', Option.some.injEq] at hparent
      exact ⟨f, hf, hparent, htype⟩
  · classical
    refine ⟨fun k => if ∃ f ∈ items, f.type = .folder ∧ f.id = k then 0 else 1, fun i hi p hparent => ?_⟩
    rcases hp.shape i hi with hroot | hfolder | ⟨htype, -, f, hf, hftype, hf'⟩
    · rw [hroot.2.2] at hparent
      cases hparent
    · rw [hfolder.2.2] at hparent
      cases hparent
    · rw [hf', Option.some.injEq] at hparent
      have hlow : ∃ f ∈ items, f.type = .folder ∧ f.id = p := ⟨f, hf, hftype, hparent⟩
      have hhigh : ¬ ∃ f ∈ items, f.type = .folder ∧ f.id = i.id := by
        rintro ⟨g, hg, hgtype, hid⟩
        rw [List.inj_on_of_nodup_map hp.nodup hg hi hid, htype] at hgtype
        cases hgtype
      dsimp only
      rw [if_pos hlow, if_neg hhigh]
      exact Nat.one_pos

end Placed

section Find

/-- The first related case with the hit at its root. -/
def relatedCase (w : World) (h : Str) : List Str → Option Case
  | [] => none
  | k :: ks =>
    match w.cases k with
    | none => relatedCase w h ks
    | some c =>
      if c.items.any (fun item => item.value = h ∧ item.parent = none) then some c
      else relatedCase w h ks

def caseForBundle (w : World) (h : Str) : Option Case :=
  (w.records .hit h).bind fun r => relatedCase w h r.related

variable {w : World} {h : Str} {es : Elastic}

theorem run_findRelated (w : World) (h : Str) (ks : List Str) :
    (findRelated h ks).run (handle es) w = (.ok (relatedCase w h ks), w) := by
  induction ks with
  | nil => rfl
  | cons k ks ih =>
    rw [findRelated, relatedCase, run_bind_ok (run_getCase es w k)]
    cases w.cases k with
    | none => exact ih
    | some c =>
      dsimp only
      split
      · rfl
      · exact ih

theorem run_findCaseForBundle (w : World) (h : Str) :
    (findCaseForBundle h).run (handle es) w = (.ok (caseForBundle w h), w) := by
  rw [findCaseForBundle, caseForBundle, run_bind_ok (run_getRecord es w .hit h)]
  cases w.records .hit h with
  | none => rfl
  | some r => exact run_findRelated w h r.related

theorem relatedCase_eq_some {ks : List Str} {c : Case} (hfound : relatedCase w h ks = some c) :
    ∃ k ∈ ks, w.cases k = some c ∧ ∃ i ∈ c.items, i.value = h ∧ i.parent = none := by
  induction ks with
  | nil => cases hfound
  | cons k ks ih =>
    rw [relatedCase] at hfound
    cases hcase : w.cases k with
    | none =>
      rw [hcase] at hfound
      obtain ⟨k', hk', hrest⟩ := ih hfound
      exact ⟨k', List.mem_cons_of_mem _ hk', hrest⟩
    | some c' =>
      rw [hcase] at hfound
      dsimp only at hfound
      split at hfound
      · next hany =>
        obtain rfl := Option.some.inj hfound
        obtain ⟨i, hi, hat⟩ := List.any_eq_true.mp hany
        exact ⟨k, List.mem_cons_self .., hcase, i, hi, by simpa using hat⟩
      · obtain ⟨k', hk', hrest⟩ := ih hfound
        exact ⟨k', List.mem_cons_of_mem _ hk', hrest⟩

theorem isSome_relatedCase {ks : List Str} {k : Str} {c : Case} (hk : k ∈ ks)
    (hc : w.cases k = some c) (hat : ∃ i ∈ c.items, i.value = h ∧ i.parent = none) :
    ∃ c', relatedCase w h ks = some c' := by
  induction ks with
  | nil => cases hk
  | cons k' ks ih =>
    rw [relatedCase]
    rcases List.mem_cons.mp hk with rfl | hk
    · rw [hc]
      dsimp only
      obtain ⟨i, hi, hvalue, hparent⟩ := hat
      rw [if_pos (List.any_eq_true.mpr ⟨i, hi, by simp [hvalue, hparent]⟩)]
      exact ⟨c, rfl⟩
    · cases w.cases k' with
      | none => exact ih hk
      | some c' =>
        dsimp only
        split
        · exact ⟨c', rfl⟩
        · exact ih hk

end Find

section Refines

/-- New ids are new, and they are texts of their own. -/
structure FreshIds (w : World) : Prop where
  injective : Function.Injective w.uids
  case : ∀ n, w.nextUid ≤ n → w.cases (w.uids n) = none
  hit : ∀ n, w.nextUid ≤ n → w.records .hit (w.uids n) = none
  item : ∀ n, w.nextUid ≤ n → ∀ k c, w.cases k = some c → ∀ i ∈ c.items, i.id ≠ w.uids n
  related : ∀ n, w.nextUid ≤ n → ∀ r, w.records .hit hitsName = some r → w.uids n ∉ r.related
  nonempty : ∀ n, w.uids n ≠ []
  name : ∀ n, w.uids n ≠ hitsName

/-- The cases stand for the bundles: each bundle has one case with its children, to which its hit
refers. -/
structure Refines (w : World) (L : Legacy) : Prop where
  keyed : w.Keyed
  sound : w.Sound
  placed : ∀ k c, w.cases k = some c → ∃ b cs r, Placed c.items b cs ∧ L b = some cs ∧
    w.records .hit b = some r ∧ k ∈ r.related
  bundle : ∀ b cs, L b = some cs → ∃ k c, w.cases k = some c ∧ Placed c.items b cs
  one : ∀ k k' c c' b cs cs', w.cases k = some c → w.cases k' = some c' → Placed c.items b cs →
    Placed c'.items b cs' → k = k'
  hits : ∀ r k c b cs, w.records .hit hitsName = some r → k ∈ r.related → w.cases k = some c →
    Placed c.items b cs → b = hitsName
  fresh : FreshIds w
  nonempty : w.records .hit [] = none

variable {w : World} {L : Legacy} {h : Str}

/-- A related case with a hit at its root is the case of this bundle. -/
theorem Refines.root_of_related (hw : Refines w L) {r : Record} {k : Str} {c : Case}
    (hr : w.records .hit h = some r) (hk : k ∈ r.related) (hc : w.cases k = some c)
    (hat : ∃ i ∈ c.items, i.value = h ∧ i.parent = none) :
    ∃ cs, Placed c.items h cs ∧ L h = some cs := by
  obtain ⟨b, cs, -, hplaced, hL, -, -⟩ := hw.placed k c hc
  obtain ⟨i, hi, rfl, hparent⟩ := hat
  rcases hplaced.atRoot hi hparent with rfl | ⟨hname, hfolder⟩
  · exact ⟨cs, hplaced, hL⟩
  · rw [hname] at hr
    exact absurd (hw.hits r k c b cs hr hk hc hplaced) (hplaced.folder ⟨i, hi, hfolder⟩)

theorem Refines.caseForBundle_none (hw : Refines w L) (hL : L h = none) :
    caseForBundle w h = none := by
  cases hfound : caseForBundle w h with
  | none => rfl
  | some c =>
    obtain ⟨r, hr, hrelated⟩ := Option.bind_eq_some_iff.mp hfound
    obtain ⟨k, hk, hc, hat⟩ := relatedCase_eq_some hrelated
    obtain ⟨cs, -, hsome⟩ := hw.root_of_related hr hk hc hat
    rw [hL] at hsome
    cases hsome

theorem Refines.caseForBundle_some (hw : Refines w L) {cs : List Str} (hL : L h = some cs) :
    ∃ c, caseForBundle w h = some c ∧ w.cases c.caseId = some c ∧ Placed c.items h cs ∧
      ∃ r, w.records .hit h = some r := by
  obtain ⟨k, c, hc, hplaced⟩ := hw.bundle h cs hL
  obtain ⟨b, cs', r, hplaced', -, hr, hk⟩ := hw.placed k c hc
  obtain ⟨rfl, rfl⟩ := hplaced.unique hplaced'
  obtain ⟨i, hi, -, hvalue, hparent⟩ := hplaced.root
  obtain ⟨c', hc'⟩ := isSome_relatedCase hk hc ⟨i, hi, hvalue, hparent⟩
  obtain ⟨k', hk', hcase, hat⟩ := relatedCase_eq_some hc'
  obtain ⟨cs'', hplaced'', -⟩ := hw.root_of_related hr hk' hcase hat
  obtain rfl := hw.one k k' c c' h cs cs'' hc hcase hplaced hplaced''
  obtain rfl := Option.some.inj (hc.symm.trans hcase)
  refine ⟨c, by rw [caseForBundle, hr, Option.bind_some, hc'], ?_, hplaced, r, hr⟩
  rw [hw.keyed.cases k c hc]
  exact hc

/-- A store without cases, whose ids to come are new. -/
structure Pristine (w : World) : Prop where
  keyed : w.Keyed
  sound : w.Sound
  cases : ∀ k, w.cases k = none
  fresh : FreshIds w
  nonempty : w.records .hit [] = none

/-- Without cases there are no bundles. -/
theorem refines_pristine (hw : Pristine w) : Refines w (fun _ => none) := by
  have hnot {k : Str} {c : Case} (hc : w.cases k = some c) : False := by
    rw [hw.cases] at hc
    cases hc
  exact ⟨hw.keyed, hw.sound, fun k c hc => (hnot hc).elim, fun b cs hL => (nomatch hL),
    fun k _ c _ b cs _ hc => (hnot hc).elim, fun r k c b cs _ _ hc => (hnot hc).elim, hw.fresh,
    hw.nonempty⟩

/-- A store with two hits. -/
def twoHits : World :=
  .ofDocuments [] [(.hit, { id := ['a'], classification := [] }),
    (.hit, { id := ['b'], classification := [] })]
    (fun n => List.replicate (n + 1) 'u') ⟨0, some 0, Datetime.zero_nonneg, Datetime.zero_le_maxWall⟩

def noNames : Str → HitNames := fun _ => ⟨[], none⟩

def emptyHit : NewHit := ⟨⟨[], none⟩, { id := [], classification := [] }, []⟩

def noSearches : Elastic where
  withRules _ := []
  withItemValue _ _ := []
  search _ _ _ _ := .ok []

theorem pristine_twoHits : Pristine twoHits := by
  have hinj : Function.Injective twoHits.uids := by
    intro m n h
    have hlength := congrArg List.length h
    simpa [twoHits, World.ofDocuments] using hlength
  have hnone (n : ℕ) : twoHits.records .hit (twoHits.uids n) = none := by
    simp [twoHits, World.ofDocuments, List.replicate_succ]
  refine ⟨World.keyed_ofDocuments _ _ _ _, fun _ => rfl, fun _ => rfl, ⟨hinj, fun _ _ => rfl,
    fun n _ => hnone n, fun n _ k c hc => (by cases hc), fun n _ r hr => ?_, fun n => ?_, fun n => ?_⟩, rfl⟩
  · cases hr
  · simp [twoHits, World.ofDocuments, List.replicate_succ]
  · simp [twoHits, World.ofDocuments, hitsName, List.replicate_succ]

end Refines

end Howler.Bundles
