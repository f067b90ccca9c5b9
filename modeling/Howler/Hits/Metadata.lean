import Howler.Python.Text
import Howler.Structures.Sorting

namespace Howler.Hits

open Python Structures

inductive MetadataType where
  | personal
  | readonly
  | global
  deriving DecidableEq

/-- A template or an overview. -/
structure Candidate where
  type : Option MetadataType
  analytic : Str
  detection : Option Str
  deriving DecidableEq

/-- What candidates are matched with. -/
structure HitMetadata where
  analytic : Str
  detection : Option Str

namespace Candidate

/-- `TYPE_PRIORITY`. -/
def typePriority : Option MetadataType → ℤ
  | some .personal => 2
  | some .readonly => 1
  | some .global => 0
  | none => 0

/-- A text that is there and not empty. -/
def given (text : Option Str) : Bool := text.getD [] ≠ []

/-- `__compare_metadata`. -/
def compareMetadata (a b : Candidate) : ℤ :=
  if a.type ≠ b.type then typePriority b.type - typePriority a.type
  else if given a.detection ∧ ¬ given b.detection then -1
  else if ¬ given a.detection ∧ given b.detection then 1
  else 0

section Matching

variable (sorting : Sorting) (lower : Str → Str)

/-- The tests of the loop over the candidates. -/
def isMatch (hit : HitMetadata) (c : Candidate) : Bool :=
  if lower c.analytic ≠ lower hit.analytic then false
  else if ¬ given c.detection then true
  else if ¬ given hit.detection then false
  else lower (hit.detection.getD []) = lower (c.detection.getD [])

/-- `__match_metadata`. -/
def matchMetadata (candidates : List Candidate) (hit : HitMetadata) : Option Candidate :=
  (sorting.sort compareMetadata (candidates.filter (isMatch lower hit))).head?

end Matching

/-- The first candidate is of a higher type, or has a detection where the second one of an equally
high type has none. -/
def Above (a b : Candidate) : Prop :=
  typePriority b.type < typePriority a.type ∨
    typePriority b.type = typePriority a.type ∧ given a.detection ∧ ¬ given b.detection

/-- A candidate that matches and that no matching one is above, or none where none matches. -/
def Best (lower : Str → Str) (candidates : List Candidate) (hit : HitMetadata) :
    Option Candidate → Prop
  | none => ∀ c ∈ candidates, ¬ isMatch lower hit c
  | some w => w ∈ candidates ∧ isMatch lower hit w ∧
    ∀ c ∈ candidates, isMatch lower hit c → ¬ Above c w

/-- The comparator is a total preorder on the candidates. -/
structure Ordered (candidates : List Candidate) : Prop where
  total : ∀ a ∈ candidates, ∀ b ∈ candidates,
    compareMetadata a b ≤ 0 ∨ compareMetadata b a ≤ 0
  trans : ∀ a ∈ candidates, ∀ b ∈ candidates, ∀ c ∈ candidates,
    compareMetadata a b ≤ 0 → compareMetadata b c ≤ 0 → compareMetadata a c ≤ 0

/-- The candidates are ordered, and the best one is taken in whatever order they come. -/
def TakesBest (sorting : Sorting) (lower : Str → Str) (candidates : List Candidate)
    (hit : HitMetadata) : Prop :=
  (∀ candidates' : List Candidate, candidates'.Perm candidates →
    Best lower candidates hit (matchMetadata sorting lower candidates' hit)) ∧ Ordered candidates

/-- Two candidates of different types of which none is above the other by its type. -/
def Tied (a b : Candidate) : Prop :=
  a.type ≠ b.type ∧ typePriority a.type = typePriority b.type

/-- Where candidates of tied types come together, those of each type agree in having a detection. -/
def Uniform (candidates : List Candidate) : Prop :=
  ∀ a ∈ candidates, ∀ b ∈ candidates, ∀ c ∈ candidates, a.type = b.type → Tied a c →
    given a.detection = given b.detection

/-- Candidates of tied types that match agree in having a detection, unless one of a higher type
matches. -/
def Settled (lower : Str → Str) (candidates : List Candidate) (hit : HitMetadata) : Prop :=
  ∀ a ∈ candidates, ∀ b ∈ candidates, isMatch lower hit a → isMatch lower hit b → Tied a b →
    given a.detection = given b.detection ∨
      ∃ c ∈ candidates, isMatch lower hit c ∧ typePriority a.type < typePriority c.type

section Comparator

variable {a b c : Candidate}

theorem compareMetadata_swap (a b : Candidate) : compareMetadata b a = -compareMetadata a b := by
  unfold compareMetadata
  by_cases htype : a.type = b.type
  · cases ha : given a.detection <;> cases hb : given b.detection <;> simp [htype]
  · rw [if_pos htype, if_pos (Ne.symm htype)]
    omega

theorem compare_of_tied (h : Tied a b) : compareMetadata a b = 0 := by
  rw [compareMetadata, if_pos h.1, h.2]
  omega

/-- What does not come after what. -/
theorem compare_nonpos_iff : compareMetadata a b ≤ 0 ↔
    typePriority b.type < typePriority a.type ∨ Tied a b ∨
      a.type = b.type ∧ (given b.detection → given a.detection) := by
  by_cases htype : a.type = b.type
  · cases ha : given a.detection <;> cases hb : given b.detection <;>
      simp [compareMetadata, Tied, htype, ha, hb]
  · rw [compareMetadata, if_pos htype]
    simp only [Tied, htype, false_and, or_false, ne_eq, not_false_eq_true, true_and]
    omega

/-- Candidates of equally high types are tied or of one type. -/
theorem tied_or_eq (h : typePriority a.type = typePriority b.type) :
    Tied a b ∨ a.type = b.type := by
  by_cases htype : a.type = b.type
  · exact .inr htype
  · exact .inl ⟨htype, h⟩

theorem compare_trans {candidates : List Candidate} (h : Uniform candidates)
    (ha : a ∈ candidates) (hb : b ∈ candidates) (hc : c ∈ candidates)
    (hab : compareMetadata a b ≤ 0) (hbc : compareMetadata b c ≤ 0) : compareMetadata a c ≤ 0 := by
  rw [compare_nonpos_iff] at hab hbc ⊢
  rcases hab with hlt | htied | ⟨htype, hgiven⟩
  · have hle : typePriority c.type ≤ typePriority b.type := by
      rcases hbc with hlt' | htied' | ⟨htype', -⟩
      · omega
      · exact htied'.2.ge
      · rw [htype']
    left
    omega
  · rcases hbc with hlt' | htied' | ⟨htype', -⟩
    · left
      rw [htied.2]
      exact hlt'
    · rcases tied_or_eq (htied.2.trans htied'.2) with htied'' | htype
      · exact .inr (.inl htied'')
      · refine .inr (.inr ⟨htype, fun hgiven => ?_⟩)
        rw [h a ha c hc b hb htype htied]
        exact hgiven
    · right
      left
      rw [Tied, ← htype']
      exact htied
  · rcases hbc with hlt' | htied' | ⟨htype', hgiven'⟩
    · left
      rw [htype]
      exact hlt'
    · right
      left
      rw [Tied, htype]
      exact htied'
    · exact .inr (.inr ⟨htype.trans htype', fun hc => hgiven (hgiven' hc)⟩)

/-- The comparator is a total preorder where candidates of tied types are uniform. -/
theorem ordered_iff {candidates : List Candidate} : Ordered candidates ↔ Uniform candidates := by
  constructor
  · intro h a ha b hb c hc htype htied
    have hstep : ∀ a ∈ candidates, ∀ b ∈ candidates, a.type = b.type → Tied a c →
        given b.detection → given a.detection := by
      intro a ha b hb htype htied hgiven
      have hbc : Tied c b := by
        rw [Tied, ← htype]
        exact ⟨htied.1.symm, htied.2.symm⟩
      have hle := h.trans a ha c hc b hb (compare_nonpos_iff.mpr (.inr (.inl htied)))
        (compare_nonpos_iff.mpr (.inr (.inl hbc)))
      rcases compare_nonpos_iff.mp hle with hlt | htied' | ⟨-, himp⟩
      · rw [htype] at hlt
        omega
      · exact absurd htype htied'.1
      · exact himp hgiven
    have htied' : Tied b c := by
      rw [Tied, ← htype]
      exact htied
    have hab := hstep a ha b hb htype htied
    have hba := hstep b hb a ha htype.symm htied'
    cases hga : given a.detection <;> cases hgb : given b.detection <;> simp_all
  · intro h
    refine ⟨fun a _ b _ => ?_, fun a ha b hb c hc => compare_trans h ha hb hc⟩
    rw [compareMetadata_swap a b]
    omega

end Comparator

section Best

variable {lower : Str → Str} {candidates : List Candidate} {hit : HitMetadata}

/-- Whatever the order of the candidates, the first of the sorted ones is the best. -/
theorem best_of_settled (sorting : Sorting) (hordered : Uniform candidates)
    (hsettled : Settled lower candidates hit) {candidates' : List Candidate}
    (hperm : candidates'.Perm candidates) :
    Best lower candidates hit (matchMetadata sorting lower candidates' hit) := by
  have hmatching : ∀ c, c ∈ candidates'.filter (isMatch lower hit) ↔
      c ∈ candidates ∧ isMatch lower hit c := by
    intro c
    rw [List.mem_filter, hperm.mem_iff]
  have hsorted := sorting.perm compareMetadata (candidates'.filter (isMatch lower hit))
  have hpairwise := sorting.ordered compareMetadata (candidates'.filter (isMatch lower hit))
    (fun a ha b hb => by
      rw [compareMetadata_swap a b]
      omega)
    (fun a ha b hb c hc hab hbc => by
      rw [compareMetadata_swap] at hab hbc ⊢
      have hle := compare_trans hordered ((hmatching a).mp ha).1 ((hmatching b).mp hb).1
        ((hmatching c).mp hc).1 (by omega) (by omega)
      omega)
  rw [matchMetadata]
  cases hresult : sorting.sort compareMetadata (candidates'.filter (isMatch lower hit)) with
  | nil =>
    rw [hresult] at hsorted
    intro c hc hmatch
    have hmem := hsorted.mem_iff.mpr ((hmatching c).mpr ⟨hc, hmatch⟩)
    cases hmem
  | cons w rest =>
    rw [hresult] at hsorted hpairwise
    have hfirst : ∀ c ∈ candidates, isMatch lower hit c → compareMetadata w c ≤ 0 := by
      intro c hc hmatch
      have hmem := hsorted.mem_iff.mpr ((hmatching c).mpr ⟨hc, hmatch⟩)
      rcases List.mem_cons.mp hmem with rfl | hrest
      · have hself := compareMetadata_swap c c
        omega
      · have hle := (List.pairwise_cons.mp hpairwise).1 c hrest
        rw [compareMetadata_swap] at hle
        omega
    obtain ⟨hw, hmatch⟩ := (hmatching w).mp (hsorted.mem_iff.mp (List.mem_cons_self ..))
    refine ⟨hw, hmatch, fun c hc hcmatch habove => ?_⟩
    have hle := compare_nonpos_iff.mp (hfirst c hc hcmatch)
    rcases habove with hlt | ⟨hpriority, hgiven, hnot⟩
    · rcases hle with hlt' | htied | ⟨htype, -⟩
      · omega
      · rw [htied.2] at hlt
        omega
      · rw [htype] at hlt
        omega
    · rcases hle with hlt' | htied | ⟨htype, himp⟩
      · omega
      · -- a matching candidate of a higher type comes before both
        rcases hsettled w hw c hc hmatch hcmatch htied with hsame | ⟨d, hd, hdmatch, hhigher⟩
        · rw [hsame] at hnot
          exact hnot hgiven
        · rcases compare_nonpos_iff.mp (hfirst d hd hdmatch) with hlt | htied' | ⟨htype, -⟩
          · omega
          · rw [htied'.2] at hhigher
            omega
          · rw [htype] at hhigher
            omega
      · exact hnot (himp hgiven)

theorem priority_nonneg (type : Option MetadataType) : 0 ≤ typePriority type := by
  cases type with
  | none => decide
  | some type => cases type <;> decide

/-- No type is below tied ones. -/
theorem Tied.priority_eq_zero {a b : Candidate} (h : Tied a b) : typePriority a.type = 0 := by
  obtain ⟨htype, hpriority⟩ := h
  revert htype hpriority
  generalize a.type = s
  generalize b.type = t
  cases s with
  | none => exact fun _ _ => rfl
  | some s => cases s <;> cases t with
    | none => decide
    | some t => cases t <;> decide

/-- Among matching candidates that no type sets apart, one without a detection can come first. -/
theorem exists_higher (sorting : Sorting) (huniform : Uniform candidates)
    (h : ∀ candidates' : List Candidate, candidates'.Perm candidates →
      Best lower candidates hit (matchMetadata sorting lower candidates' hit))
    {a b : Candidate} (ha : a ∈ candidates) (hb : b ∈ candidates) (hamatch : isMatch lower hit a)
    (hbmatch : isMatch lower hit b) (htied : Tied a b) (hga : given a.detection)
    (hgb : ¬ given b.detection) :
    ∃ c ∈ candidates, isMatch lower hit c ∧ typePriority a.type < typePriority c.type := by
  by_contra hno
  have hlow : ∀ c ∈ candidates, isMatch lower hit c →
      typePriority c.type = typePriority a.type := by
    intro c hc hmatch
    have hnonneg := priority_nonneg c.type
    have hzero := htied.priority_eq_zero
    by_contra hne
    exact hno ⟨c, hc, hmatch, by omega⟩
  have hequal : ∀ x ∈ candidates, ∀ y ∈ candidates, isMatch lower hit x → isMatch lower hit y →
      0 ≤ compareMetadata y x := by
    intro x hx y hy hxmatch hymatch
    rcases tied_or_eq ((hlow y hy hymatch).trans (hlow x hx hxmatch).symm) with hyx | htype
    · exact (compare_of_tied hyx).ge
    · have hgiven : given y.detection = given x.detection := by
        rcases tied_or_eq (hlow y hy hymatch) with hya | hya
        · exact huniform y hy x hx a ha htype hya
        · have hyb : Tied y b := by
            rw [Tied, hya]
            exact htied
          exact huniform y hy x hx b hb htype hyb
      rw [compareMetadata]
      simp [htype, hgiven]
  -- those without a detection first
  let order := candidates.filter (fun c => !given c.detection) ++
    candidates.filter (fun c => !!given c.detection)
  have hperm : order.Perm candidates := List.filter_append_perm _ _
  have hmem : ∀ c ∈ order.filter (isMatch lower hit), c ∈ candidates ∧ isMatch lower hit c := by
    intro c hc
    obtain ⟨hc, hmatch⟩ := List.mem_filter.mp hc
    exact ⟨hperm.mem_iff.mp hc, hmatch⟩
  have hchain : (order.filter (isMatch lower hit)).IsChain fun x y => ¬ compareMetadata y x < 0 := by
    apply List.Pairwise.isChain
    apply List.pairwise_of_forall_mem_list
    intro x hx y hy
    have hle := hequal x (hmem x hx).1 y (hmem y hy).1 (hmem x hx).2 (hmem y hy).2
    omega
  have hbest := h order hperm
  rw [matchMetadata, sorting.unchanged _ _ hchain, List.filter_append] at hbest
  cases hfirst : (candidates.filter (fun c => !given c.detection)).filter (isMatch lower hit) with
  | nil =>
    have hbmem : b ∈ (candidates.filter (fun c => !given c.detection)).filter (isMatch lower hit) :=
      List.mem_filter.mpr ⟨List.mem_filter.mpr ⟨hb, by simpa using hgb⟩, hbmatch⟩
    rw [hfirst] at hbmem
    cases hbmem
  | cons w rest =>
    rw [hfirst] at hbest
    obtain ⟨hw, hwmatch, habove⟩ := hbest
    have hwmem : w ∈ (candidates.filter (fun c => !given c.detection)).filter (isMatch lower hit) := by
      rw [hfirst]
      exact List.mem_cons_self ..
    have hgw : ¬ given w.detection := by
      have hnot := (List.mem_filter.mp (List.mem_filter.mp hwmem).1).2
      simpa using hnot
    exact habove a ha hamatch (.inr ⟨hlow w hw hwmatch, hga, hgw⟩)

/-- The best candidate is taken from ordered candidates where those that match are settled. -/
theorem settled_of_best (sorting : Sorting) (huniform : Uniform candidates)
    (h : ∀ candidates' : List Candidate, candidates'.Perm candidates →
      Best lower candidates hit (matchMetadata sorting lower candidates' hit)) :
    Settled lower candidates hit := by
  intro a ha b hb hamatch hbmatch htied
  cases hga : given a.detection with
  | true =>
    cases hgb : given b.detection with
    | true => exact .inl rfl
    | false => exact .inr (exists_higher sorting huniform h ha hb hamatch hbmatch htied hga
        (by simp [hgb]))
  | false =>
    cases hgb : given b.detection with
    | false => exact .inl rfl
    | true =>
      obtain ⟨c, hc, hmatch, hlt⟩ := exists_higher sorting huniform h hb ha hbmatch hamatch
        ⟨htied.1.symm, htied.2.symm⟩ hgb (by simp [hga])
      exact .inr ⟨c, hc, hmatch, by rw [htied.2]; exact hlt⟩

end Best

/-- The candidates are ordered and the best one of those that match is taken, in whatever order they
come, where candidates of tied types agree in having a detection. -/
theorem takes_best_iff (sorting : Sorting) (lower : Str → Str) (candidates : List Candidate)
    (hit : HitMetadata) :
    TakesBest sorting lower candidates hit ↔
      Uniform candidates ∧ Settled lower candidates hit := by
  constructor
  · rintro ⟨hbest, hordered⟩
    have huniform := ordered_iff.mp hordered
    exact ⟨huniform, settled_of_best sorting huniform hbest⟩
  · rintro ⟨huniform, hsettled⟩
    exact ⟨fun candidates' hperm => best_of_settled sorting huniform hsettled hperm,
      ordered_iff.mpr huniform⟩

section Mixed

/-- A candidate without a type, and global ones with and without a detection. -/
def mixed : List Candidate :=
  [⟨none, ['a'], none⟩, ⟨some .global, ['a'], some ['d']⟩, ⟨some .global, ['a'], none⟩]

theorem mixed_misordered :
    ¬ ∀ (sorting : Sorting) (lower : Str → Str) (candidates : List Candidate) (hit : HitMetadata),
      candidates ≠ [] → TakesBest sorting lower candidates hit := by
  intro h
  obtain ⟨-, hordered⟩ := h Sorting.insertion id mixed ⟨['a'], some ['d']⟩ (by simp [mixed])
  have hle := hordered.trans ⟨some .global, ['a'], none⟩ (by simp [mixed]) ⟨none, ['a'], none⟩
    (by simp [mixed]) ⟨some .global, ['a'], some ['d']⟩ (by simp [mixed]) (by decide) (by decide)
  exact absurd hle (by decide)

end Mixed

end Candidate

end Howler.Hits
