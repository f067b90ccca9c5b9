import Howler.Classification.Engine
import Howler.Classification.Legible

namespace Howler

open Python Clearance

namespace Engine

variable {rt : Runtime} {E : Engine}

/-- The text parses, completely, and stands for this label. -/
def Clears (rt : Runtime) (E : Engine) (c : Str) (M : Label) : Prop :=
  ∃ r, E.reading rt c true = .ok r ∧ r.others = [] ∧ r.lvl.toInt = .ok M.lvl ∧ r.label M.lvl = M

/-- The text parses, its level by a name and not by its number, and stands for this label. -/
def Says (rt : Runtime) (E : Engine) (c : Str) (M : Label) : Prop :=
  ∃ r, E.reading rt c true = .ok r ∧ r.others = [] ∧ r.lvl = .idx M.lvl ∧ r.label M.lvl = M

theorem Says.clears {c : Str} {M : Label} (h : Says rt E c M) : Clears rt E c M := by
  obtain ⟨r, hr, ho, hl, hm⟩ := h
  exact ⟨r, hr, ho, by rw [hl]; rfl, hm⟩

theorem Clears.unique {c : Str} {M M' : Label} (h : Clears rt E c M) (h' : Clears rt E c M') :
    M = M' := by
  obtain ⟨r, hr, -, hl, hm⟩ := h
  obtain ⟨r', hr', -, hl', hm'⟩ := h'
  obtain rfl := Except.ok.inj (hr.symm.trans hr')
  have hlvl : M.lvl = M'.lvl := Except.ok.inj (hl.symm.trans hl')
  rw [← hm, ← hm', hlvl]

theorem canSeeRequired_texts (rt : Runtime) (f : Str → Str) (us ds : List Str)
    (hf : ∀ a ∈ us, ∀ b ∈ ds, f a = f b → a = b) :
    canSeeRequired (sorted ((rt.listSet us).map f)) (sorted ((rt.listSet ds).map f)) = true ↔
      ds.toFinset ⊆ us.toFinset := by
  simp only [canSeeRequired, List.all_eq_true, decide_eq_true_eq, rt.mem_sorted_map_listSet,
    Finset.subset_iff, List.mem_toFinset]
  constructor
  · intro h d hd
    obtain ⟨u, hu, he⟩ := h (f d) ⟨d, hd, rfl⟩
    exact hf u hu d hd he ▸ hu
  · rintro h _ ⟨d, hd, rfl⟩
    exact ⟨d, h hd, rfl⟩

theorem canSeeGroups_texts (rt : Runtime) (f : Str → Str) (us ds : List Str)
    (hf : ∀ a ∈ us, ∀ b ∈ ds, f a = f b → a = b) :
    canSeeGroups (sorted ((rt.listSet us).map f)) (sorted ((rt.listSet ds).map f)) = true ↔
      Admits us.toFinset ds.toFinset := by
  have hnil : (sorted ((rt.listSet ds).map f)).length = 0 ↔ ds.toFinset = ∅ := by
    rw [List.length_eq_zero_iff, List.toFinset_eq_empty_iff, ← not_iff_not, ← Ne, sorted_ne_nil,
      Ne, List.map_eq_nil_iff, rt.listSet_eq_nil]
  unfold canSeeGroups Admits
  by_cases hd : ds.toFinset = ∅
  · simp [hd, hnil.mpr hd]
  · rw [if_neg (hnil.not.mpr hd), or_iff_right hd]
    simp only [List.any_eq_true, decide_eq_true_eq, rt.mem_sorted_map_listSet]
    constructor
    · rintro ⟨_, ⟨u, hu, rfl⟩, d, hd, he⟩
      exact ⟨d, by simpa using ⟨hf u hu d hd he.symm ▸ hu, hd⟩⟩
    · rintro ⟨d, hm⟩
      have hm : d ∈ us ∧ d ∈ ds := by simpa using hm
      exact ⟨f d, ⟨d, hm.1, rfl⟩, d, hm.2, rfl⟩

/-- The answer of `is_accessible` on two texts that were read. -/
theorem partsAccessible_iff (hL : Legible rt E true) {u d : Reading} {n : Int}
    (hu : Nameable rt E (u.label n)) (hd : Nameable rt E (d.label n)) :
    partsAccessible (u.parts rt E true) (d.parts rt E true) = .ok true ↔
      ∃ lu ld, u.lvl.toInt = .ok lu ∧ d.lvl.toInt = .ok ld ∧ CanSee (u.label lu) (d.label ld) := by
  have hreq := canSeeRequired_texts rt (E.reqText true) u.req d.req fun a ha b hb => hL.reqText_inj (hu.req a (List.mem_toFinset.mpr ha))
      (hd.req b (List.mem_toFinset.mpr hb))
  have hgrp := canSeeGroups_texts rt (E.groupText true) u.grp d.grp fun a ha b hb => hL.groupText_inj (hu.grp a (List.mem_toFinset.mpr ha))
      (hd.grp b (List.mem_toFinset.mpr hb))
  have hsub := canSeeGroups_texts rt (E.subgroupText true) u.sub d.sub fun a ha b hb => hL.subgroupText_inj (hu.sub a (List.mem_toFinset.mpr ha))
      (hd.sub b (List.mem_toFinset.mpr hb))
  rw [partsAccessible, bind_eq_ok]
  apply exists_congr
  intro lu
  rw [bind_eq_ok]
  constructor
  · rintro ⟨hlu, ld, hld, h⟩
    split_ifs at h with hle
    · have h := Except.ok.inj h
      rw [Bool.and_eq_true, Bool.and_eq_true] at h
      exact ⟨ld, hlu, hld, hle, hreq.mp h.1.1, hgrp.mp h.1.2, hsub.mp h.2⟩
    · exact absurd (Except.ok.inj h) (by decide)
  · rintro ⟨ld, hlu, hld, h⟩
    refine ⟨hlu, ld, hld, ?_⟩
    have hb : (canSeeRequired (u.parts rt E true).req (d.parts rt E true).req &&
        canSeeGroups (u.parts rt E true).groups (d.parts rt E true).groups &&
        canSeeGroups (u.parts rt E true).subgroups (d.parts rt E true).subgroups) = true := by
      rw [Bool.and_eq_true, Bool.and_eq_true]
      exact ⟨⟨hreq.mpr h.req, hgrp.mpr h.grp⟩, hsub.mpr h.sub⟩
    have hle : lu ≥ ld := h.lvl
    rw [if_pos hle, hb]
    rfl

theorem parse_default_ok_iff {c : Str} {p : Parts} :
    E.getClassificationParts rt c {} = .ok p ↔
      ∃ r, E.reading rt c true = .ok r ∧ r.others = [] ∧ r.parts rt E true = p := by
  rw [getClassificationParts_ok_iff]
  simp [Reading.autoSelected]

/-- `is_accessible` answers yes exactly when both texts parse and the user's label sees the
document's. -/
theorem isAccessible_iff (hC : E.Coherent) (hL : Legible rt E true) (hv : E.invalidMode = false)
    (he : E.enforce = true) {u c : Str} {ignoreInvalid : Bool} :
    E.isAccessible rt u (some c) ignoreInvalid = .ok true ↔
      ∃ U M, Clears rt E u U ∧ Clears rt E c M ∧ CanSee U M := by
  have hans : E.isAccessible rt u (some c) ignoreInvalid = .ok true ↔
      (do let user ← E.getClassificationParts rt u {}
          let doc ← E.getClassificationParts rt c {}
          partsAccessible user doc) = .ok true := by
    simp only [isAccessible, hv, he, Bool.false_eq_true, if_false, Bool.not_true]
    split
    case h_1 msg hm =>
      rw [hm]
      cases ignoreInvalid <;> simp
    case h_2 => rfl
  rw [hans, bind_eq_ok]
  constructor
  · rintro ⟨pu, hpu, h⟩
    obtain ⟨pd, hpd, h⟩ := bind_eq_ok.mp h
    obtain ⟨ru, hru, hou, rfl⟩ := parse_default_ok_iff.mp hpu
    obtain ⟨rd, hrd, hod, rfl⟩ := parse_default_ok_iff.mp hpd
    obtain ⟨lu, ld, hlu, hld, hsee⟩ := (partsAccessible_iff hL (nameable_of_reading hC hL hru 0)
      (nameable_of_reading hC hL hrd 0)).mp h
    exact ⟨_, _, ⟨ru, hru, hou, hlu, rfl⟩, ⟨rd, hrd, hod, hld, rfl⟩, hsee⟩
  · rintro ⟨U, M, ⟨ru, hru, hou, hlu, hU⟩, ⟨rd, hrd, hod, hld, hM⟩, hsee⟩
    refine ⟨_, parse_default_ok_iff.mpr ⟨ru, hru, hou, rfl⟩, bind_eq_ok.mpr
      ⟨_, parse_default_ok_iff.mpr ⟨rd, hrd, hod, rfl⟩, ?_⟩⟩
    rw [partsAccessible_iff hL (nameable_of_reading hC hL hru 0) (nameable_of_reading hC hL hrd 0)]
    exact ⟨U.lvl, M.lvl, hlu, hld, by rwa [hU, hM]⟩

end Engine

end Howler
