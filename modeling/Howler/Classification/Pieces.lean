import Howler.Classification.Legible

namespace Howler

open Python Clearance

/-- Pieces of a text, each behind a slash. -/
def slashed (ps : List Str) : Str := ps.flatMap ('/' :: ·)

@[simp] theorem slashed_nil : slashed [] = [] := rfl

@[simp] theorem slashed_cons (p : Str) (ps : List Str) :
    slashed (p :: ps) = '/' :: p ++ slashed ps := rfl

@[simp] theorem slashed_append (ps qs : List Str) :
    slashed (ps ++ qs) = slashed ps ++ slashed qs := List.flatMap_append

theorem slashed_eq_join {ps : List Str} (h : ps ≠ []) :
    slashed ps = '/' :: join "/".toList ps := by
  induction ps with
  | nil => contradiction
  | cons p ps ih =>
    cases ps with
    | nil => simp [join_singleton]
    | cons q ps =>
      rw [slashed_cons, ih (by simp), join_cons_cons]
      simp

theorem splitOn_append_slashed {t : Str} {ps : List Str} (ht : '/' ∉ t) (hp : ∀ p ∈ ps, '/' ∉ p) :
    (t ++ slashed ps).splitOn '/' = t :: ps := by
  have hjoin : t ++ slashed ps = join "/".toList (t :: ps) := by
    cases ps with
    | nil => simp [join_singleton]
    | cons p ps =>
      rw [slashed_eq_join (by simp), join_cons_cons]
      simp
  rw [hjoin]
  apply splitOn_join _ (by simp)
  intro x hx
  cases List.mem_cons.mp hx with
  | inl hx => exact hx ▸ ht
  | inr hx => exact hp x hx

theorem slashed_inj {ps qs : List Str} (hp : ∀ p ∈ ps, '/' ∉ p) (hq : ∀ q ∈ qs, '/' ∉ q)
    (h : slashed ps = slashed qs) : ps = qs := by
  have hps := splitOn_append_slashed (t := []) (by simp) hp
  have hqs := splitOn_append_slashed (t := []) (by simp) hq
  rw [h, hqs] at hps
  exact (List.cons.inj hps).2.symm

/-- The pieces between the slashes of a rendered marking, with an empty one where a section
starts. -/
def pieces (req reqGrp : List Str) (mark : Option Str) (subgroups : List Str) : List Str :=
  (if req = [] then [] else [] :: req) ++
    (if reqGrp = [] then [] else [] :: reqGrp) ++
    (match mark with
      | none => []
      | some m => if reqGrp = [] then [[], m] else [m]) ++
    (if subgroups = [] then []
      else if mark = none ∧ reqGrp = [] then [] :: subgroups else subgroups)

theorem mem_pieces {req reqGrp subgroups : List Str} {mark : Option Str} {p : Str} (hp : p ≠ []) :
    p ∈ pieces req reqGrp mark subgroups ↔
      p ∈ req ∨ p ∈ reqGrp ∨ mark = some p ∨ p ∈ subgroups := by
  have hsec : ∀ xs : List Str, p ∈ (if xs = [] then [] else [] :: xs) ↔ p ∈ xs := by
    intro xs
    split_ifs with h
    · simp [h]
    · simp [hp]
  have hmark : p ∈ (match mark with
      | none => []
      | some m => if reqGrp = [] then [[], m] else [m]) ↔ mark = some p := by
    cases mark with
    | none => simp
    | some m =>
      simp only
      split_ifs <;> simp [hp, eq_comm]
  have hsub : p ∈ (if subgroups = [] then []
      else if mark = none ∧ reqGrp = [] then [] :: subgroups else subgroups) ↔
        p ∈ subgroups := by
    split_ifs with h h'
    · simp [h]
    · simp [hp]
    · rfl
  simp only [pieces, List.mem_append, hsec, hmark, hsub, or_assoc]

/-- A rendered marking is its level, or its level and two slashes in front of the rest. -/
theorem pieces_head (req reqGrp subgroups : List Str) (mark : Option Str) :
    pieces req reqGrp mark subgroups = [] ∨
      ∃ q, q ≠ [] ∧ pieces req reqGrp mark subgroups = [] :: q := by
  unfold pieces
  by_cases h1 : req = []
  · by_cases h2 : reqGrp = []
    · cases mark with
      | none =>
        by_cases h3 : subgroups = []
        · simp [h1, h2, h3]
        · simp [h1, h2, h3]
      | some m => simp [h1, h2]
    · simp [h1, h2]
  · simp [h1]

/-- Equal pieces have the same tokens in the same order, and the same group mark. -/
theorem pieces_inj {req req' reqGrp subgroups : List Str} {mark mark' : Option Str}
    (hlen : req.length = req'.length) (hmark : mark.isSome = mark'.isSome)
    (h : pieces req reqGrp mark subgroups = pieces req' reqGrp mark' subgroups) :
    req = req' ∧ mark = mark' := by
  unfold pieces at h
  have hnil : req = [] ↔ req' = [] := by
    rw [← List.length_eq_zero_iff, hlen, List.length_eq_zero_iff]
  have hsec : (if req = [] then [] else [] :: req).length =
      (if req' = [] then [] else [] :: req').length := by
    by_cases hr : req = []
    · simp [hr, hnil.mp hr]
    · simp [hr, hnil.not.mp hr, hlen]
  rw [List.append_assoc, List.append_assoc, List.append_assoc, List.append_assoc] at h
  obtain ⟨hreq, h⟩ := List.append_inj h hsec
  have hmarks : mark = mark' := by
    have h := List.append_cancel_left h
    cases mark with
    | none =>
      cases mark' with
      | none => rfl
      | some m => simp at hmark
    | some m =>
      cases mark' with
      | none => simp at hmark
      | some m' =>
        by_cases hr : reqGrp = [] <;> simpa [hr] using (List.append_inj h (by simp [hr])).1
  refine ⟨?_, hmarks⟩
  by_cases hr : req = []
  · rw [hr, hnil.mp hr]
  · rw [if_neg hr, if_neg (hnil.not.mp hr)] at hreq
    exact (List.cons.inj hreq).2

namespace Engine

variable {rt : Runtime} {E : Engine}

/-- The group mark that is shown, if any group is. -/
def shownMark (rt : Runtime) (E : Engine) (groups subgroups : List Str)
    (long skipAutoSelect : Bool) : Option Str :=
  let groups := E.shownGroups rt groups (E.shownSubgroups rt subgroups long skipAutoSelect) long
    skipAutoSelect
  if groups = [] then none else some (E.groupMark groups long)

/-- The pieces behind the level. -/
def shownPieces (rt : Runtime) (E : Engine) (req groups subgroups : List Str)
    (long skipAutoSelect : Bool) : List Str :=
  pieces (E.plainReq rt req) (sorted (req.filter fun r => (E.params r).isRequiredGroup))
    (shownMark rt E groups subgroups long skipAutoSelect)
    (sorted (E.shownSubgroups rt subgroups long skipAutoSelect))

theorem sorted_eq_nil {xs : List Str} : sorted xs = [] ↔ xs = [] := by
  rw [← not_iff_not, ← Ne, sorted_ne_nil]

theorem getNormalizedClassificationText_eq (lvl : LvlEntry) (req groups subgroups : List Str)
    (long skipAutoSelect : Bool) :
    E.getNormalizedClassificationText rt lvl req groups subgroups long skipAutoSelect = (do
      let n ← E.raisedLvl lvl req
      let t ← E.getC12nLevelText n long
      return t ++ slashed (shownPieces rt E req groups subgroups long skipAutoSelect)) := by
  unfold getNormalizedClassificationText
  cases E.raisedLvl lvl req with
  | error e => rfl
  | ok n =>
    simp only [bind, Except.bind]
    cases E.getC12nLevelText n long with
    | error e => rfl
    | ok t =>
      simp only [shownPieces, shownMark, pieces, sorted_eq_nil, pure, Except.pure, Except.ok.injEq]
      generalize E.plainReq rt req = plain
      generalize req.filter (fun r => (E.params r).isRequiredGroup) = reqGrp
      generalize E.shownSubgroups rt subgroups long skipAutoSelect = subs
      generalize E.shownGroups rt groups subs long skipAutoSelect = grps
      generalize E.groupMark grps long = mark
      have hjoin : ∀ xs : List Str, xs ≠ [] → '/' :: join ['/'] xs = slashed xs :=
        fun xs h => (slashed_eq_join h).symm
      have hs : ∀ xs : List Str, xs ≠ [] → sorted xs ≠ [] := fun xs => sorted_ne_nil.mpr
      by_cases h1 : plain = [] <;> by_cases h2 : reqGrp = [] <;> by_cases h3 : grps = [] <;>
        by_cases h4 : subs = [] <;>
        simp [h1, h2, h3, h4, hjoin, hs]

/-- The text between the slashes is what the parser cuts out again. -/
theorem levelIndex_slashed {t : Str} {ps : List Str} (ht : Bare rt t) (hps : ∀ p ∈ ps, Bare rt p)
    (hhead : ps = [] ∨ ∃ q, q ≠ [] ∧ ps = [] :: q) :
    ∃ rest, E.getC12nLevelIndex rt (t ++ slashed ps) = (E.levelKey t).map (·, rest) ∧
      ∀ p ≠ [], p ∈ (rt.upper rest).splitOn '/' ↔ p ∈ ps := by
  rcases hhead with rfl | ⟨q, hq, rfl⟩
  · refine ⟨[], ?_, fun p hp => by simp [hp]⟩
    rw [slashed_nil, List.append_nil, getC12nLevelIndex, ht.upper, partition_of_not_mem ht.slash]
  · have hbq : ∀ p ∈ q, Bare rt p := fun p hp => hps p (List.mem_cons_of_mem _ hp)
    have hup : rt.upper (join "/".toList q) = join "/".toList q := by
      rw [rt.upper_join, rt.upper_ascii (s := "/".toList) rfl]
      congr 1
      exact (List.map_congr_left fun p hp => (hbq p hp).upper).trans (List.map_id q)
    have htext : t ++ slashed ([] :: q) = t ++ '/' :: '/' :: join "/".toList q := by
      rw [slashed_cons, slashed_eq_join hq]
      rfl
    have huptext : rt.upper (t ++ '/' :: '/' :: join "/".toList q) =
        t ++ '/' :: '/' :: join "/".toList q := by
      rw [rt.upper_append, ht.upper, show '/' :: '/' :: join "/".toList q =
        "//".toList ++ join "/".toList q from rfl, rt.upper_append, hup,
        rt.upper_ascii (s := "//".toList) rfl]
    refine ⟨join "/".toList q, ?_, fun p hp => ?_⟩
    · rw [htext, getC12nLevelIndex, huptext, partition_of_sep ht.slash rfl]
    · have hsplit : (join "/".toList q).splitOn '/' = q :=
        splitOn_join (fun p hp => (hbq p hp).slash) hq
      rw [hup, hsplit]
      simp [hp]

/-- Reading a text that is put together from pieces. -/
theorem reading_slashed {t : Str} {ps : List Str} {lvl : LvlEntry} (ht : Bare rt t)
    (hlvl : E.levelKey t = .ok lvl) (hps : ∀ p ∈ ps, Bare rt p)
    (hhead : ps = [] ∨ ∃ q, q ≠ [] ∧ ps = [] :: q) (getDyn : Bool) :
    ∃ req us, (∀ x, x ∈ req ↔ ∃ p ∈ ps, p ≠ [] ∧ ∃ ks, E.requiredKeys p = some ks ∧ x ∈ ks) ∧
      (∀ p, p ∈ us ↔ p ∈ ps ∧ p ≠ [] ∧ E.requiredKeys p = none) ∧
      E.reading rt (t ++ slashed ps) getDyn = (do
        let g ← E.groupSets rt us getDyn
        return ⟨lvl, req, g.1, g.2.1, g.2.2⟩) := by
  obtain ⟨rest, hidx, hmem⟩ := levelIndex_slashed (E := E) ht hps hhead
  refine ⟨(E.requiredSets rt rest).1, (E.requiredSets rt rest).2, fun x => ?_, fun p => ?_, ?_⟩
  · rw [mem_requiredSets_fst]
    constructor
    · rintro ⟨p, hp, hne, h⟩
      exact ⟨p, (hmem p hne).mp hp, hne, h⟩
    · rintro ⟨p, hp, hne, h⟩
      exact ⟨p, (hmem p hne).mpr hp, hne, h⟩
  · rw [mem_requiredSets_snd]
    constructor
    · rintro ⟨hp, hne, h⟩
      exact ⟨(hmem p hne).mp hp, hne, h⟩
    · rintro ⟨hp, hne, h⟩
      exact ⟨(hmem p hne).mpr hp, hne, h⟩
  · rw [reading, hidx, hlvl]
    rfl

end Engine

end Howler
