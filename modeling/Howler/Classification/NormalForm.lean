import Howler.Classification.Nesting
import Howler.Classification.Order
import Howler.Classification.Valid

namespace Howler

open Python Clearance

namespace Engine

variable {rt : Runtime} {E : Engine}

theorem texts_inj {f : Str → Str} {S T : Finset Str} (hf : ∀ a ∈ S ∪ T, ∀ b ∈ S ∪ T, f a = f b → a = b)
    (h : texts f S = texts f T) : S = T := by
  have hmem : ∀ x, (∃ a ∈ S, f a = x) ↔ ∃ a ∈ T, f a = x := fun x => by
    rw [← mem_texts, h, mem_texts]
  ext a
  constructor
  · intro ha
    obtain ⟨b, hb, he⟩ := (hmem (f a)).mp ⟨a, ha, rfl⟩
    exact hf b (Finset.mem_union_right _ hb) a (Finset.mem_union_left _ ha) he ▸ hb
  · intro ha
    obtain ⟨b, hb, he⟩ := (hmem (f a)).mpr ⟨a, ha, rfl⟩
    exact hf b (Finset.mem_union_left _ hb) a (Finset.mem_union_right _ ha) he ▸ hb

/-- The parts of a text determine what it says. -/
theorem says_of_parts {long : Bool} (hC : E.Coherent) (hL : Legible rt E long) {c : Str}
    {M : Label} (hN : Nameable rt E M)
    (h : E.getClassificationParts rt c { longFormat := long } = .ok (E.partsOf long M)) :
    Says rt E c M := by
  obtain ⟨r, hr, ho, hp⟩ := getClassificationParts_ok_iff.mp h
  change r.parts rt E long = E.partsOf long M at hp
  have hl : r.lvl = .idx M.lvl := congrArg Parts.lvl hp
  have hNr := nameable_of_reading hC hL hr M.lvl
  rw [parts_reading hL hNr hl] at hp
  refine ⟨r, hr, by simpa using ho, hl, ?_⟩
  have hreq : (r.label M.lvl).req = M.req := by
    refine texts_inj (f := E.reqText long) ?_ (congrArg Parts.req hp)
    intro a ha b hb
    exact hL.reqText_inj ((Finset.mem_union.mp ha).elim (hNr.req a) (hN.req a))
      ((Finset.mem_union.mp hb).elim (hNr.req b) (hN.req b))
  have hgrp : (r.label M.lvl).grp = M.grp := by
    refine texts_inj (f := E.groupText long) ?_ (congrArg Parts.groups hp)
    intro a ha b hb
    exact hL.groupText_inj ((Finset.mem_union.mp ha).elim (hNr.grp a) (hN.grp a))
      ((Finset.mem_union.mp hb).elim (hNr.grp b) (hN.grp b))
  have hsub : (r.label M.lvl).sub = M.sub := by
    refine texts_inj (f := E.subgroupText long) ?_ (congrArg Parts.subgroups hp)
    intro a ha b hb
    exact hL.subgroupText_inj ((Finset.mem_union.mp ha).elim (hNr.sub a) (hN.sub a))
      ((Finset.mem_union.mp hb).elim (hNr.sub b) (hN.sub b))
  ext1
  · rfl
  · exact hreq
  · exact hgrp
  · exact hsub

/-- A normal form has the parts of the closure, is its own normal form, and is the text of all
texts with these parts, whatever order sets iterate in. -/
structure IsNormalForm (rt : Runtime) (E : Engine) (f : Flags) (c t : Str) : Prop where
  closed : ∀ M, Says rt E c M → Says rt E t (E.closure f.skipAutoSelect M)
  again : E.computeNormal rt t f = .ok t
  unique : ∀ rt' : Runtime, rt'.upperChar = rt.upperChar → ∀ c',
    E.getClassificationParts rt' c' { longFormat := f.longFormat } =
      E.getClassificationParts rt c { longFormat := f.longFormat } →
    E.computeNormal rt' c' f = .ok t

/-- A label whose text is its normal form: its raised level has a name, closing it breaks no
limit, its unknown groups open no `REL` marking, and no order decides about its text. -/
structure Normalizable (E : Engine) (long skip : Bool) (M : Label) : Prop where
  level : ∃ l, E.getC12nLevelText (E.raised M) long = .ok l
  limits : E.WithinLimits (E.closure skip M)
  tidy : E.Tidy M
  plain : E.PlainOnce M
  alias_ : E.AliasSettled long skip (E.closure skip M).grp

section

variable {f : Flags} {c : Str} {M : Label}

theorem isNormalForm_of_normalizable (hC : E.Coherent) (hL : Legible rt E f.longFormat)
    (hd : f.getDynamicGroups = true) (hs : Says rt E c M)
    (h : E.Normalizable f.longFormat f.skipAutoSelect M) :
    ∃ t, E.computeNormal rt c f = .ok t ∧ IsNormalForm rt E f c t := by
  have hM := hs.proper hC hL
  have hN := hM.toNameable
  obtain ⟨t, ht⟩ := (render_ok_iff rt f.skipAutoSelect hL hN).mpr h.level
  have hsaid := (says_of_render_tidy hC hL hM h.tidy ht).1 h.limits
  refine ⟨t, (hs.computeNormal hC hL hd).trans ht, ?_, ?_, ?_⟩
  · intro M' hs'
    rwa [hs'.clears.unique hs.clears]
  · rw [hsaid.computeNormal hC hL hd, ← ht]
    refine render_congr hL hL (nameable_closure hL hN) hN closure_closure ?_ ?_ rfl
    · rw [closure_closure]
      exact h.limits
    · rw [closure_closure, Bool.or_self]
      exact h.alias_
  · intro rt' hup c' hp
    have hL' := Legible.congr hup hL
    have hN' := Nameable.congr hup hN
    have hs' : Says rt' E c' M := says_of_parts hC hL' hN' (hp.trans (hs.parts hC hL false))
    have halias : E.AliasSettled f.longFormat (f.skipAutoSelect || f.skipAutoSelect)
        (E.closure f.skipAutoSelect M).grp := by
      rw [Bool.or_self]
      exact h.alias_
    rw [hs'.computeNormal hC hL' hd, ← ht]
    exact (render_congr hL hL' hN hN' rfl h.limits halias (plainReq_congr hL hN h.plain rt')).symm

/-- Two orders that give the same text show the same tokens and the same mark. -/
theorem shown_eq_of_render_eq {rt' : Runtime} {long skip : Bool} (hC : E.Coherent)
    (hL : Legible rt E long) (hL' : Legible rt' E long) (hN : Nameable rt E M)
    (hN' : Nameable rt' E M) (hw : E.WithinLimits (E.closure skip M)) {t : Str}
    (ht : E.render rt long skip M = .ok t)
    (ht' : E.render rt' long skip M = .ok t) :
    E.plainReq rt (E.partsOf long M).req = E.plainReq rt' (E.partsOf long M).req ∧
      shownMark rt E (E.partsOf long M).groups (E.partsOf long M).subgroups long skip =
        shownMark rt' E (E.partsOf long M).groups (E.partsOf long M).subgroups long skip := by
  have hs := shows_partsOf E long M
  rw [render_eq hL hN, bind_eq_ok] at ht
  rw [render_eq hL' hN', bind_eq_ok] at ht'
  obtain ⟨l, hl, ht⟩ := ht
  obtain ⟨l', hl', ht'⟩ := ht'
  obtain rfl := Except.ok.inj (hl.symm.trans hl')
  have hslash := List.append_cancel_left ((Except.ok.inj ht).trans (Except.ok.inj ht').symm)
  have hpieces := slashed_inj (fun p hp => (shownPieces_bare hC hL hN hs p hp).slash)
    (fun p hp => (shownPieces_bare hC hL' hN' hs p hp).slash) hslash
  have hsub : sorted (E.shownSubgroups rt (E.partsOf long M).subgroups long skip) =
      sorted (E.shownSubgroups rt' (E.partsOf long M).subgroups long skip) :=
    sorted_shownSubgroups_congr hL hL' rfl
  have hnd : ∀ rt : Runtime, (E.plainReq rt (E.partsOf long M).req).Nodup := fun rt =>
    rt.listSet_nodup _
  have hlen : (E.plainReq rt (E.partsOf long M).req).length =
      (E.plainReq rt' (E.partsOf long M).req).length := by
    apply List.Perm.length_eq
    rw [List.perm_ext_iff_of_nodup (hnd rt) (hnd rt')]
    intro x
    rw [mem_plainReq hL hN, mem_plainReq hL hN]
  have hsome : (shownMark rt E (E.partsOf long M).groups (E.partsOf long M).subgroups long
      skip).isSome = (shownMark rt' E (E.partsOf long M).groups (E.partsOf long M).subgroups long
        skip).isSome := by
    have hperm := groupList_perm hL hL' hN hN' rfl hw
    rw [shownMark_eq, shownMark_eq]
    by_cases hx : groupList rt E long skip M = []
    · rw [hx] at hperm
      rw [if_pos hx, if_pos (List.nil_perm.mp hperm)]
    · have hy : groupList rt' E long skip M ≠ [] := fun h => hx (List.perm_nil.mp (h ▸ hperm))
      rw [if_neg hx, if_neg hy]
      rfl
  rw [shownPieces, shownPieces, hsub] at hpieces
  exact pieces_inj hlen hsome hpieces

/-- Where both orders show the same group mark, no alias depends on the order. -/
theorem aliasSettled_of_eq {long skip : Bool} (hL : Legible rt.ordered E long)
    (hL' : Legible rt.reversed E long) (hN : Nameable rt.ordered E M)
    (hN' : Nameable rt.reversed E M) (hw : E.WithinLimits (E.closure skip M))
    (h : shownMark rt.ordered E (E.partsOf long M).groups (E.partsOf long M).subgroups long skip =
      shownMark rt.reversed E (E.partsOf long M).groups (E.partsOf long M).subgroups long skip) :
    E.AliasSettled long skip (E.closure skip M).grp := by
  by_contra hn
  simp only [AliasSettled, not_or, not_not] at hn
  obtain ⟨hlong, hauto, ha⟩ := hn
  obtain rfl : long = false := by simpa using hlong
  obtain ⟨hsorted, hrev⟩ := groupList_reversed hL hL' hN hN' hw hauto
  have hset : (groupList rt.ordered E false skip M).toFinset = (E.closure skip M).grp := by
    ext x
    rw [List.mem_toFinset, mem_groupList hL hN hw]
    simp [groupText]
  have hne : groupList rt.ordered E false skip M ≠ [] := by
    obtain ⟨e, -, hl, hend, hes⟩ := ha
    intro hnil
    rw [hnil] at hset
    have := List.toFinset_card_of_nodup hend
    rw [hes, ← hset] at this
    simp at this
    omega
  rw [shownMark_eq, shownMark_eq, hrev, if_neg hne, if_neg (by simpa using hne)] at h
  exact groupMark_order hL hsorted (shownGroups_nodup _ _) (hset ▸ ha) (Option.some.inj h)

theorem normalizable_of_isNormalForm (hC : E.Coherent) (hL : Legible rt E f.longFormat)
    (hd : f.getDynamicGroups = true) (hs : Says rt E c M) {t : Str}
    (ht : E.computeNormal rt c f = .ok t) (hnf : IsNormalForm rt E f c t) :
    E.Normalizable f.longFormat f.skipAutoSelect M := by
  have hM := hs.proper hC hL
  have hN := hM.toNameable
  rw [hs.computeNormal hC hL hd] at ht
  have hclosed := hnf.closed M hs
  obtain ⟨r, hr, -⟩ := hclosed.clears
  have hw := (says_of_render hC hL hM ht).2 r hr
  have hsaid := ((says_of_render hC hL hM ht).1 hw).clears.unique hclosed.clears
  rw [hsaid] at hw
  have hT : E.Tidy M := tidy_of_heard hC hL hN (congrArg Marking.grp hsaid)
  have horder : ∀ rt' : Runtime, rt'.upperChar = rt.upperChar →
      E.render rt' f.longFormat f.skipAutoSelect M = .ok t := by
    intro rt' hup
    have hL' := Legible.congr hup hL
    have hs' := Says.congr hup hs
    rw [← hs'.computeNormal hC hL' hd]
    apply hnf.unique rt' hup
    rw [hs'.parts hC hL', hs.parts hC hL]
  have hup1 : rt.ordered.upperChar = rt.upperChar := rfl
  have hup2 : rt.reversed.upperChar = rt.upperChar := rfl
  have hL1 := Legible.congr hup1 hL
  have hL2 := Legible.congr hup2 hL
  have hN1 := Nameable.congr hup1 hN
  have hN2 := Nameable.congr hup2 hN
  obtain ⟨hplain, hmark⟩ := shown_eq_of_render_eq hC hL1 hL2 hN1 hN2 hw (horder rt.ordered rfl)
    (horder rt.reversed rfl)
  exact ⟨(render_ok_iff rt f.skipAutoSelect hL hN).mp ⟨t, ht⟩, hw, hT, plainOnce_of_eq hL1 hN1 hplain,
    aliasSettled_of_eq hL1 hL2 hN1 hN2 hw hmark⟩

/-- A text that parses and has a normal form at all names its level. -/
theorem says_of_computeNormal (hd : f.getDynamicGroups = true)
    {p : Parts} (hp : E.getClassificationParts rt c { longFormat := f.longFormat } = .ok p)
    {t : Str} (ht : E.computeNormal rt c f = .ok t) : ∃ M, Says rt E c M := by
  obtain ⟨r, hr, ho, -⟩ := getClassificationParts_ok_iff.mp hp
  have ho : r.others = [] := by simpa using ho
  obtain ⟨p', hp', ht⟩ := bind_eq_ok.mp ht
  obtain ⟨r', hr', -, rfl⟩ := getClassificationParts_ok_iff.mp hp'
  have hdyn : f.parts.getDynamicGroups = true := hd
  rw [hdyn] at hr'
  obtain rfl := Except.ok.inj (hr.symm.trans hr')
  obtain ⟨n, hn, -⟩ := bind_eq_ok.mp ht
  change E.raisedLvl r.lvl _ = .ok n at hn
  cases hl : r.lvl with
  | idx k => exact ⟨r.label k, r, hr, ho, hl, rfl⟩
  | text s =>
    rw [hl] at hn
    contradiction

end

end Engine

/-- For a valid definition, a text that parses has a normal form exactly where its label is
normalizable. -/
theorem normal_form_iff {rt : Runtime} {d : Definition} (hv : Valid rt d) {f : Flags} {c : Str}
    {p : Parts} (hd : f.getDynamicGroups = true)
    (hp : (engineOf rt d).getClassificationParts rt c { longFormat := f.longFormat } = .ok p) :
    (∃ t, (engineOf rt d).computeNormal rt c f = .ok t ∧
        Engine.IsNormalForm rt (engineOf rt d) f c t) ↔
      ∃ M, Engine.Says rt (engineOf rt d) c M ∧
        (engineOf rt d).Normalizable f.longFormat f.skipAutoSelect M := by
  have hC := engineOf_coherent rt d
  have hL := hv.legible f.longFormat
  constructor
  · intro h
    obtain ⟨t, ht, hnf⟩ := h
    obtain ⟨M, hs⟩ := Engine.says_of_computeNormal hd hp ht
    exact ⟨M, hs, Engine.normalizable_of_isNormalForm hC hL hd hs ht hnf⟩
  · intro h
    obtain ⟨M, hs, h⟩ := h
    exact Engine.isNormalForm_of_normalizable hC hL hd hs h

/-- One level and two required tokens. -/
def twoTokens : Definition where
  enforce := some true
  dynamicGroups := some false
  levels := some [{ name := "UNRESTRICTED".toList, shortName := "U".toList, lvl := 100 }]
  required := some [{ name := "ADMIN".toList, shortName := "ADM".toList },
    { name := "SUPER USER".toList, shortName := "SU".toList }]
  groups := some []
  subgroups := some []
  unrestricted := some "U".toList
  restricted := some "U//ADM".toList

theorem twoTokens_valid : Valid Runtime.ascii twoTokens := by decide +kernel

/-- One token is fine. -/
theorem normal_form_iff_admin :
    (∃ t, (engineOf Runtime.ascii twoTokens).computeNormal Runtime.ascii "U//ADM".toList {} =
        .ok t ∧ Engine.IsNormalForm Runtime.ascii (engineOf Runtime.ascii twoTokens) {}
          "U//ADM".toList t) ↔
      ∃ M, Engine.Says Runtime.ascii (engineOf Runtime.ascii twoTokens) "U//ADM".toList M ∧
        (engineOf Runtime.ascii twoTokens).Normalizable true false M :=
  normal_form_iff (p := ⟨.idx 100, ["ADMIN".toList], [], []⟩) twoTokens_valid rfl
    (by decide +kernel)

/-- Two tokens are joined in the order of a set. -/
theorem two_tokens_not_normal :
    Valid Runtime.ascii twoTokens ∧
      (engineOf Runtime.ascii twoTokens).getClassificationParts Runtime.ascii
        "U//ADM/SU".toList {} =
          .ok ⟨.idx 100, ["ADMIN".toList, "SUPER USER".toList], [], []⟩ ∧
      ¬ ∃ t, (engineOf Runtime.ascii twoTokens).computeNormal Runtime.ascii "U//ADM/SU".toList {} =
        .ok t ∧ Engine.IsNormalForm Runtime.ascii (engineOf Runtime.ascii twoTokens) {}
          "U//ADM/SU".toList t := by
  refine ⟨twoTokens_valid, by decide +kernel, ?_⟩
  intro h
  obtain ⟨t, -, hnf⟩ := h
  have h1 := hnf.unique Runtime.ascii.ordered rfl "U//ADM/SU".toList (by decide +kernel)
  have h2 := hnf.unique Runtime.ascii.reversed rfl "U//ADM/SU".toList (by decide +kernel)
  have hne : (engineOf Runtime.ascii twoTokens).computeNormal Runtime.ascii.ordered
      "U//ADM/SU".toList {} ≠ (engineOf Runtime.ascii twoTokens).computeNormal
        Runtime.ascii.reversed "U//ADM/SU".toList {} := by decide +kernel
  exact hne (h1.trans h2.symm)

end Howler
