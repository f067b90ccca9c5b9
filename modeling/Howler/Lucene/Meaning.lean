import Howler.Lucene.Visitor

namespace Howler.Lucene

open Python

/-- Clauses without a `Plus`, of which some are plain and some are `Prohibit`. -/
def Operands.Mixed (qs : Operands) : Prop :=
  (∀ q ∈ qs.toList, q.occur ≠ .must) ∧ (∃ q ∈ qs.toList, q.occur = .should) ∧
    ∃ q ∈ qs.toList, q.occur = .mustNot

/-- The query is a `BoolOperation` with such clauses. -/
def IsMixed (p : Field × Query) : Prop := ∃ qs, p.2 = .boolOperation qs ∧ qs.Mixed

/-- If the query is a mixed `BoolOperation`, a plain clause of it is true or a prohibited query
is. -/
def Settled (truth : Field → Leaf → Bool) (p : Field × Query) : Prop :=
  ∀ qs, p.2 = .boolOperation qs → qs.Mixed →
    ∃ q ∈ qs.toList, (q.occur = .should ∧ q.meaning truth p.1 = true) ∨
      (q.occur = .mustNot ∧ q.meaning truth p.1 = false)

/-- What is to be known of a clause on a record: whether it holds, and whether it is misread. -/
structure Reading where
  occur : Occur
  holds : Bool
  misread : Bool

/-- The value that the clause is taken for. -/
abbrev Reading.value (r : Reading) : Bool := r.holds ^^ r.misread

/-- Misread operands change the value of a conjunction (`unit` is `true`) or a disjunction (it is
`false`): one is enough if all operands have the value `unit`, otherwise these must be just the
others. -/
def overturned (unit : Bool) (rs : List Reading) : Bool :=
  if rs.all (·.holds == unit) then rs.any (·.misread)
  else rs.all fun r => r.misread == (r.holds != unit)

/-- There is no `Plus` but a plain clause, and no plain clause holds. -/
def unmatched (rs : List Reading) : Bool :=
  rs.all (·.occur ≠ .must) && rs.any (·.occur = .should) &&
    !rs.any fun r => r.occur = .should && r.holds

/-- The clauses of a `BoolOperation` are put together wrongly. The `Plus` and `Prohibit` clauses alone
decide if there are any, so that nobody sees that no plain clause holds. -/
def overturnedBool (rs : List Reading) : Bool :=
  let required := rs.filter (·.occur ≠ .should)
  if required.isEmpty then overturned false rs
  else if unmatched rs && required.all (·.holds) then !required.any (·.misread)
  else overturned true required

section Misread

variable (truth : Field → Leaf → Bool)

mutual

/-- The errors at the mixed parts of the query come through to its value. -/
def Query.misread (field : Field) : Query → Bool
  | .leaf _ => false
  | .searchField name expr => expr.misread (some name)
  | .group expr => expr.misread field
  | .plus a => a.misread field
  | .prohibit a => a.misread field
  | .andOperation qs => overturned true (qs.readings field)
  | .orOperation qs => overturned false (qs.readings field)
  | .boolOperation qs => overturnedBool (qs.readings field)

def Operands.readings (field : Field) : Operands → List Reading
  | .one q => [⟨q.occur, q.meaning truth field, q.misread field⟩]
  | .cons q qs => ⟨q.occur, q.meaning truth field, q.misread field⟩ :: qs.readings field

end

theorem Operands.readings_eq (field : Field) (qs : Operands) :
    qs.readings truth field =
      qs.toList.map fun q => ⟨q.occur, q.meaning truth field, q.misread truth field⟩ := by
  induction qs using Operands.induct with
  | one q => simp [Operands.readings, Operands.toList]
  | cons q qs ih => simp [Operands.readings, Operands.toList, ih]

end Misread

section Rules

variable {cs : List (Occur × Bool)}

theorem luceneRule_iff : luceneRule cs = true ↔ (∀ c ∈ cs, c.1 = .should ∨ c.2 = true) ∧
    ((∃ c ∈ cs, c.1 = .must) ∨ (∀ c ∈ cs, c.1 ≠ .should) ∨ ∃ c ∈ cs, c.1 = .should ∧ c.2 = true) := by
  simp [luceneRule, or_assoc]

theorem visitorRule_iff : visitorRule cs = true ↔
    (∀ c ∈ cs, c.1 = .should ∨ c.2 = true) ∧ ∃ c ∈ cs, c.2 = true := by
  simp [visitorRule]

/-- Clauses that all have one value. -/
theorem rules_of_const {b : Bool} (hne : cs ≠ []) (h : ∀ c ∈ cs, c.2 = b) :
    visitorRule cs = b ∧ luceneRule cs = b := by
  obtain ⟨c₀, hc₀⟩ := List.exists_mem_of_ne_nil cs hne
  cases b with
  | true =>
    refine ⟨visitorRule_iff.mpr ⟨fun c hc => .inr (h c hc), c₀, hc₀, h c₀ hc₀⟩,
      luceneRule_iff.mpr ⟨fun c hc => .inr (h c hc), ?_⟩⟩
    by_cases hs : ∃ c ∈ cs, c.1 = .should
    · exact .inr (.inr (hs.imp fun c hc => ⟨hc.1, hc.2, h c hc.1⟩))
    · exact .inr (.inl fun c hc ho => hs ⟨c, hc, ho⟩)
  | false =>
    have hv : ¬ visitorRule cs = true := by
      rw [visitorRule_iff]
      intro hv
      obtain ⟨c, hc, ht⟩ := hv.2
      simp [h c hc] at ht
    have hl : ¬ luceneRule cs = true := by
      rw [luceneRule_iff]
      intro hl
      have hs : ∀ c ∈ cs, c.1 = .should := fun c hc => by simpa [h c hc] using hl.1 c hc
      cases hl.2 with
      | inl hm => exact hm.elim fun c hc => by simp [hs c hc.1] at hc
      | inr hl =>
        cases hl with
        | inl hn => exact hn c₀ hc₀ (hs c₀ hc₀)
        | inr ht => exact ht.elim fun c hc => by simp [h c hc.1] at hc
    exact ⟨by simpa using hv, by simpa using hl⟩

theorem rules_of_should (hne : cs ≠ []) (h : ∀ c ∈ cs, c.1 = .should) :
    visitorRule cs = cs.any (·.2) ∧ luceneRule cs = cs.any (·.2) := by
  obtain ⟨c₀, hc₀⟩ := List.exists_mem_of_ne_nil cs hne
  have hall : ∀ c ∈ cs, c.1 = .should ∨ c.2 = true := fun c hc => .inl (h c hc)
  constructor
  · rw [Bool.eq_iff_iff, visitorRule_iff, List.any_eq_true, and_iff_right hall]
  · have hmust : ¬ ∃ c ∈ cs, c.1 = .must := by
      intro hm
      obtain ⟨c, hc, hm⟩ := hm
      simp [h c hc] at hm
    have hsome : ¬ ∀ c ∈ cs, c.1 ≠ .should := fun hn => hn c₀ hc₀ (h c₀ hc₀)
    rw [Bool.eq_iff_iff, luceneRule_iff, List.any_eq_true, and_iff_right hall,
      or_iff_right hmust, or_iff_right hsome]
    exact exists_congr fun c => and_congr_right fun hc => and_iff_right (h c hc)

end Rules

section Overturned

variable {rs : List Reading}

theorem value_eq_iff {unit : Bool} :
    (∀ r ∈ rs, r.value = unit) ↔ ∀ r ∈ rs, r.misread = (r.holds != unit) := by
  refine forall₂_congr fun r _ => ?_
  obtain ⟨o, h, m⟩ := r
  cases h <;> cases m <;> cases unit <;> simp

theorem overturned_iff {unit : Bool} :
    overturned unit rs = false ↔ ((∀ r ∈ rs, r.value = unit) ↔ ∀ r ∈ rs, r.holds = unit) := by
  by_cases h : ∀ r ∈ rs, r.holds = unit
  · have hall : (rs.all (·.holds == unit)) = true := by simpa using h
    have hvalue : (∀ r ∈ rs, r.value = unit) ↔ ∀ r ∈ rs, r.misread = false := by
      rw [value_eq_iff]
      exact forall₂_congr fun r hr => by simp [h r hr]
    rw [overturned, if_pos hall, hvalue, iff_true_right h, List.any_eq_false]
    simp
  · have hall : ¬ (rs.all (·.holds == unit)) = true := by simpa using h
    rw [overturned, if_neg hall, iff_false_right h, value_eq_iff]
    simp [← Bool.not_eq_true]

theorem overturned_all :
    overturned true rs = false ↔ rs.all (·.value) = rs.all (·.holds) := by
  rw [overturned_iff, Bool.eq_iff_iff, List.all_eq_true, List.all_eq_true]

theorem overturned_any :
    overturned false rs = false ↔ rs.any (·.value) = rs.any (·.holds) := by
  rw [overturned_iff, ← Bool.not_inj_iff, Bool.eq_iff_iff, Bool.not_eq_true', Bool.not_eq_true',
    List.any_eq_false, List.any_eq_false]
  simp

theorem mem_required {r : Reading} :
    r ∈ rs.filter (·.occur ≠ .should) ↔ r ∈ rs ∧ r.occur ≠ .should := by
  simp

/-- The `Plus` and `Prohibit` clauses alone decide the answer, if there are any. -/
theorem visitorRule_required (h : ¬ ∀ r ∈ rs, r.occur = .should) :
    visitorRule (rs.map fun r => (r.occur, r.value)) = true ↔
      ∀ r ∈ rs.filter (·.occur ≠ .should), r.value = true := by
  push Not at h
  obtain ⟨r₀, hr₀, ho⟩ := h
  simp only [visitorRule_iff, List.forall_mem_map, mem_required]
  constructor
  · intro hv r hr
    exact (hv.1 r hr.1).resolve_left hr.2
  · intro hv
    refine ⟨fun r hr => ?_, (r₀.occur, r₀.value), List.mem_map_of_mem hr₀, hv r₀ ⟨hr₀, ho⟩⟩
    by_cases hs : r.occur = .should
    · exact .inl hs
    · exact .inr (hv r ⟨hr, hs⟩)

theorem luceneRule_required :
    luceneRule (rs.map fun r => (r.occur, r.holds)) = true ↔
      (∀ r ∈ rs.filter (·.occur ≠ .should), r.holds = true) ∧ unmatched rs = false := by
  have hplain : unmatched rs = false ↔ (∃ r ∈ rs, r.occur = .must) ∨
      (∀ r ∈ rs, r.occur ≠ .should) ∨ ∃ r ∈ rs, r.occur = .should ∧ r.holds = true := by
    rw [← Bool.not_eq_true, unmatched, Bool.and_eq_true, Bool.and_eq_true, not_and_or, not_and_or,
      or_assoc]
    simp
  rw [hplain, luceneRule_iff]
  simp [or_iff_not_imp_left]

/-- The clauses are put together wrongly where the two rules differ. -/
theorem overturnedBool_iff (hne : rs ≠ []) :
    overturnedBool rs = false ↔
      visitorRule (rs.map fun r => (r.occur, r.value)) =
        luceneRule (rs.map fun r => (r.occur, r.holds)) := by
  by_cases hs : ∀ r ∈ rs, r.occur = .should
  · have hnil : (rs.filter (·.occur ≠ .should)).isEmpty = true := by simpa using hs
    have hv := (@rules_of_should (rs.map fun r => (r.occur, r.value)) (by simpa using hne)
      (by simpa using hs)).1
    have hl := (@rules_of_should (rs.map fun r => (r.occur, r.holds)) (by simpa using hne)
      (by simpa using hs)).2
    rw [overturnedBool, if_pos hnil, overturned_any, hv, hl, List.any_map, List.any_map]
    rfl
  · have hnil : ¬ (rs.filter (·.occur ≠ .should)).isEmpty = true := by simpa using hs
    rw [overturnedBool, if_neg hnil, Bool.eq_iff_iff (a := visitorRule _), visitorRule_required hs,
      luceneRule_required]
    by_cases hu : unmatched rs = true ∧ ∀ r ∈ rs.filter (·.occur ≠ .should), r.holds = true
    · -- every clause that decides holds, so a true answer would be wrong
      have hvalue : (∀ r ∈ rs.filter (·.occur ≠ .should), r.value = true) ↔
          ∀ r ∈ rs.filter (·.occur ≠ .should), r.misread = false :=
        forall₂_congr fun r hr => by simp [hu.2 r hr]
      have hcond : (unmatched rs && (rs.filter (·.occur ≠ .should)).all (·.holds)) = true := by
        rw [Bool.and_eq_true, List.all_eq_true]
        exact hu
      rw [if_pos hcond, hvalue]
      simp [hu.1]
    · have hright : ((∀ r ∈ rs.filter (·.occur ≠ .should), r.holds = true) ∧
          unmatched rs = false) ↔ ∀ r ∈ rs.filter (·.occur ≠ .should), r.holds = true :=
        and_iff_left_of_imp fun h => by
          rw [← Bool.not_eq_true]
          exact fun hm => hu ⟨hm, h⟩
      have hcond : ¬ (unmatched rs && (rs.filter (·.occur ≠ .should)).all (·.holds)) = true := by
        rw [Bool.and_eq_true, List.all_eq_true]
        exact hu
      rw [if_neg hcond, overturned_iff, hright]

end Overturned

section Agree

variable {truth : Field → Leaf → Bool} {field : Field}

theorem mem_evals {combine : List (Occur × Bool) → Bool} {qs : Operands} {c : Occur × Bool} :
    c ∈ qs.evals combine truth field ↔
      ∃ q ∈ qs.toList, (q.occur, q.eval combine truth field) = c := by
  rw [Operands.evals_eq, List.mem_map]

theorem evals_ne_nil (combine : List (Occur × Bool) → Bool) (qs : Operands) :
    qs.evals combine truth field ≠ [] := by
  rw [Operands.evals_eq]
  simpa using qs.toList_ne_nil

theorem evals_readings {qs : Operands} (h : ∀ q ∈ qs.toList,
    q.answer truth field = (q.meaning truth field ^^ q.misread truth field)) :
    qs.evals visitorRule truth field =
      (qs.readings truth field).map fun r => (r.occur, r.value) := by
  rw [Operands.evals_eq, Operands.readings_eq, List.map_map]
  exact List.map_congr_left fun q hq => Prod.ext rfl (h q hq)

theorem evals_meaning (qs : Operands) : qs.evals luceneRule truth field =
    (qs.readings truth field).map fun r => (r.occur, r.holds) := by
  rw [Operands.evals_eq, Operands.readings_eq, List.map_map]
  rfl

theorem eq_xor {a b c : Bool} (h : c = false ↔ a = b) : a = (b ^^ c) := by
  cases a <;> cases b <;> cases c <;> simp at h ⊢

/-- The answer is the meaning but for the errors that come through. -/
theorem answer_eq_xor (q : Query) (field : Field) :
    q.answer truth field = (q.meaning truth field ^^ q.misread truth field) := by
  induction q using Query.induct_operands generalizing field with
  | leaf l => simp [Query.meaning, Query.eval, Query.misread]
  | searchField name q ih => exact ih (some name)
  | group q ih => exact ih field
  | plus q ih => exact ih field
  | prohibit q ih =>
    have hq := congrArg not (ih field)
    rwa [← Bool.not_xor] at hq
  | andOperation qs ih =>
    have hqs := evals_readings fun q hq => ih q hq field
    refine eq_xor ?_
    rw [Query.misread, Query.answer, Query.meaning, Query.eval, Query.eval, hqs, evals_meaning,
      List.all_map, List.all_map]
    exact overturned_all
  | orOperation qs ih =>
    have hqs := evals_readings fun q hq => ih q hq field
    refine eq_xor ?_
    rw [Query.misread, Query.answer, Query.meaning, Query.eval, Query.eval, hqs, evals_meaning,
      List.any_map, List.any_map]
    exact overturned_any
  | boolOperation qs ih =>
    have hqs := evals_readings fun q hq => ih q hq field
    have hne : qs.readings truth field ≠ [] := by
      rw [Operands.readings_eq]
      simpa using qs.toList_ne_nil
    refine eq_xor ?_
    rw [Query.misread, Query.answer, Query.meaning, Query.eval, Query.eval, hqs, evals_meaning]
    exact overturnedBool_iff hne

theorem answer_iff (q : Query) (field : Field) :
    q.answer truth field = q.meaning truth field ↔ q.misread truth field = false := by
  rw [answer_eq_xor]
  cases q.meaning truth field <;> simp

theorem Reaches.reached {p r s : Field × Query} (h : Reaches truth p r) (h' : Reached truth r s) :
    Reached truth p s :=
  Relation.ReflTransGen.head h h'

theorem Reached.part {p r : Field × Query} (h : Reached truth p r) : Part p r := by
  have hle : Reaches truth ≤ Below := fun _ _ h => h.1
  exact Relation.ReflTransGen.mono hle p r h

theorem reaches_of_below {p r : Field × Query} (h : Below p r) (hp : ∀ qs, p.2 ≠ .boolOperation qs) :
    Reaches truth p r :=
  ⟨h, fun qs hqs => absurd hqs (hp qs)⟩

theorem overturned_of_right {unit : Bool} {rs : List Reading} (h : ∀ r ∈ rs, r.misread = false) :
    overturned unit rs = false := by
  refine overturned_iff.mpr (forall₂_congr fun r hr => ?_)
  rw [Reading.value, h r hr, Bool.xor_false]

theorem overturnedBool_of_required {rs : List Reading} (hs : ¬ ∀ r ∈ rs, r.occur = .should)
    (hu : unmatched rs = false ∨ ∃ r ∈ rs.filter (·.occur ≠ .should), r.holds = false)
    (h : overturned true (rs.filter (·.occur ≠ .should)) = false) : overturnedBool rs = false := by
  have hnil : ¬ (rs.filter (·.occur ≠ .should)).isEmpty = true := by simpa using hs
  have hcond : ¬ (unmatched rs && (rs.filter (·.occur ≠ .should)).all (·.holds)) = true := by
    rw [Bool.and_eq_true, List.all_eq_true]
    intro hc
    cases hu with
    | inl hu => simp [hu] at hc
    | inr hu =>
      obtain ⟨r, hr, hf⟩ := hu
      simp [hc.2 r hr] at hf
  rw [overturnedBool, if_neg hnil, if_neg hcond, h]

theorem mem_readings {qs : Operands} {r : Reading} : r ∈ qs.readings truth field ↔
    ∃ q ∈ qs.toList, ⟨q.occur, q.meaning truth field, q.misread truth field⟩ = r := by
  rw [Operands.readings_eq, List.mem_map]

theorem reaches_clause {qs : Operands} {before after : List Query} {q : Query}
    (hqs : qs.toList = before ++ q :: after)
    (hr : q.occur ≠ .should ∨ ∀ p ∈ qs.toList, p.occur = .should)
    (h : ∀ c ∈ before, c.occur ≠ .should → c.meaning truth field = true) :
    Reaches truth (field, .boolOperation qs) (field, q) := by
  refine ⟨.bool (by simp [hqs]) hr, fun qs' hqs' => ?_⟩
  obtain rfl : qs = qs' := by simpa using hqs'
  exact ⟨before, after, hqs, h⟩

theorem bool_of_settled {qs : Operands}
    (ih : ∀ q ∈ qs.toList, Reaches truth (field, .boolOperation qs) (field, q) →
      q.misread truth field = false)
    (h : Settled truth (field, .boolOperation qs)) :
    overturnedBool (qs.readings truth field) = false := by
  by_cases hs : ∀ q ∈ qs.toList, q.occur = .should
  · -- the loop comes to every clause
    have hright : ∀ r ∈ qs.readings truth field, r.misread = false := by
      intro r hr
      obtain ⟨q, hq, rfl⟩ := mem_readings.mp hr
      obtain ⟨before, after, hqs⟩ := List.append_of_mem hq
      refine ih q hq (reaches_clause hqs (.inr hs) fun c hc hn => absurd (hs c ?_) hn)
      simp [hqs, hc]
    have hnil : ((qs.readings truth field).filter (·.occur ≠ .should)).isEmpty = true := by
      simpa [mem_readings] using hs
    rw [overturnedBool, if_pos hnil, overturned_of_right hright]
  have hs' : ¬ ∀ r ∈ qs.readings truth field, r.occur = .should := by
    simpa [mem_readings] using hs
  by_cases hall : ∀ q ∈ qs.toList, q.occur ≠ .should → q.meaning truth field = true
  · have hright : ∀ r ∈ (qs.readings truth field).filter (·.occur ≠ .should), r.misread = false := by
      intro r hr
      obtain ⟨hr, ho⟩ := mem_required.mp hr
      obtain ⟨q, hq, rfl⟩ := mem_readings.mp hr
      obtain ⟨before, after, hqs⟩ := List.append_of_mem hq
      refine ih q hq (reaches_clause hqs (.inl ho) fun c hc => hall c ?_)
      simp [hqs, hc]
    refine overturnedBool_of_required hs' (.inl ?_) (overturned_of_right hright)
    by_contra hu
    -- an unmatched operation is mixed, and settles nothing
    rw [Bool.not_eq_false, unmatched] at hu
    simp only [Bool.and_eq_true, List.all_eq_true, List.any_eq_true, Bool.not_eq_true',
      List.any_eq_false, decide_eq_true_eq, mem_readings, forall_exists_index, and_imp,
      forall_apply_eq_imp_iff₂, exists_exists_and_eq_and] at hu
    obtain ⟨⟨hmust, hplain⟩, hnone⟩ := hu
    have hmix : qs.Mixed := by
      refine ⟨hmust, hplain, ?_⟩
      push Not at hs
      obtain ⟨n, hn, hno⟩ := hs
      cases ho : n.occur with
      | must => exact absurd ho (hmust n hn)
      | mustNot => exact ⟨n, hn, ho⟩
      | should => exact absurd ho hno
    obtain ⟨q, hq, hq'⟩ := h qs rfl hmix
    cases hq' with
    | inl hq' => exact hnone q hq hq'
    | inr hq' =>
      have hholds := hall q hq (by simp [hq'.1])
      rw [hq'.2] at hholds
      contradiction
  · -- the first clause that fails ends the loop
    obtain ⟨before, q, after, hqs, hq, hbefore⟩ : ∃ before q after,
        qs.toList = before ++ q :: after ∧ (q.occur ≠ .should ∧ q.meaning truth field = false) ∧
          ∀ c ∈ before, c.occur ≠ .should → c.meaning truth field = true := by
      have hfind : (qs.toList.find? fun q =>
          q.occur ≠ .should ∧ q.meaning truth field = false).isSome := by
        simpa using hall
      obtain ⟨q, hq⟩ := Option.isSome_iff_exists.mp hfind
      obtain ⟨hq, before, after, hqs, hbefore⟩ := List.find?_eq_some_iff_append.mp hq
      exact ⟨before, q, after, hqs, by simpa using hq, by simpa [or_iff_not_imp_left] using hbefore⟩
    have hmem : q ∈ qs.toList := by simp [hqs]
    have hright := ih q hmem (reaches_clause hqs (.inl hq.1) hbefore)
    have hreading : (⟨q.occur, q.meaning truth field, q.misread truth field⟩ : Reading) ∈
        (qs.readings truth field).filter (·.occur ≠ .should) :=
      mem_required.mpr ⟨mem_readings.mpr ⟨q, hmem, rfl⟩, hq.1⟩
    refine overturnedBool_of_required hs' (.inr ⟨_, hreading, hq.2⟩) (overturned_iff.mpr ?_)
    refine iff_of_false (fun hv => ?_) fun hv => ?_
    · have hvalue := hv _ hreading
      simp [hq.2, hright] at hvalue
    · have hvalue := hv _ hreading
      simp [hq.2] at hvalue

/-- Settled parts that the visit comes to leave no error. -/
theorem misread_of_settled (q : Query) (field : Field)
    (h : ∀ p, Reached truth (field, q) p → Settled truth p) : q.misread truth field = false := by
  induction q using Query.induct_operands generalizing field with
  | leaf l => rfl
  | searchField name q ih =>
    have hq : Reaches truth (field, .searchField name q) (some name, q) :=
      reaches_of_below .searchField (by simp)
    exact ih (some name) fun p hp => h p (hq.reached hp)
  | group q ih =>
    have hq : Reaches truth (field, .group q) (field, q) := reaches_of_below .group (by simp)
    exact ih field fun p hp => h p (hq.reached hp)
  | plus q ih =>
    have hq : Reaches truth (field, .plus q) (field, q) := reaches_of_below .plus (by simp)
    exact ih field fun p hp => h p (hq.reached hp)
  | prohibit q ih =>
    have hq : Reaches truth (field, .prohibit q) (field, q) := reaches_of_below .prohibit (by simp)
    exact ih field fun p hp => h p (hq.reached hp)
  | andOperation qs ih =>
    have hqs : ∀ q ∈ qs.toList, q.misread truth field = false := by
      intro q hq
      have hr : Reaches truth (field, .andOperation qs) (field, q) :=
        reaches_of_below (.and hq) (by simp)
      exact ih q hq field fun p hp => h p (hr.reached hp)
    exact overturned_of_right (by simpa [Operands.readings_eq] using hqs)
  | orOperation qs ih =>
    have hqs : ∀ q ∈ qs.toList, q.misread truth field = false := by
      intro q hq
      have hr : Reaches truth (field, .orOperation qs) (field, q) :=
        reaches_of_below (.or hq) (by simp)
      exact ih q hq field fun p hp => h p (hr.reached hp)
    exact overturned_of_right (by simpa [Operands.readings_eq] using hqs)
  | boolOperation qs ih =>
    exact bool_of_settled (fun q hq hr => ih q hq field fun p hp => h p (hr.reached hp)) (h _ .refl)

end Agree

section Leaves

mutual

/-- The leaves of a query with the fields they stand under. -/
def Query.leaves (field : Field) : Query → List (Field × Leaf)
  | .leaf l => [(field, l)]
  | .searchField name expr => expr.leaves (some name)
  | .group expr => expr.leaves field
  | .plus a => a.leaves field
  | .prohibit a => a.leaves field
  | .andOperation qs => qs.leaves field
  | .orOperation qs => qs.leaves field
  | .boolOperation qs => qs.leaves field

def Operands.leaves (field : Field) : Operands → List (Field × Leaf)
  | .one q => q.leaves field
  | .cons q qs => q.leaves field ++ qs.leaves field

end

theorem Operands.leaves_eq (qs : Operands) (field : Field) :
    qs.leaves field = qs.toList.flatMap (Query.leaves field) := by
  induction qs using Operands.induct with
  | one q => simp [Operands.leaves, Operands.toList]
  | cons q qs ih => simp [Operands.leaves, Operands.toList, ih]

variable {combine : List (Occur × Bool) → Bool} {truth truth' : Field → Leaf → Bool}

theorem evals_of_leaves {qs : Operands} {field : Field}
    (h : ∀ l ∈ qs.leaves field, truth l.1 l.2 = truth' l.1 l.2)
    (ih : ∀ q ∈ qs.toList, ∀ field, (∀ l ∈ q.leaves field, truth l.1 l.2 = truth' l.1 l.2) →
      q.eval combine truth field = q.eval combine truth' field) :
    qs.evals combine truth field = qs.evals combine truth' field := by
  rw [Operands.evals_eq, Operands.evals_eq]
  refine List.map_congr_left fun q hq => Prod.ext rfl (ih q hq field fun l hl => h l ?_)
  rw [Operands.leaves_eq]
  exact List.mem_flatMap.mpr ⟨q, hq, hl⟩

/-- The value of a query depends on its leaves only. -/
theorem eval_of_leaves (q : Query) (field : Field)
    (h : ∀ l ∈ q.leaves field, truth l.1 l.2 = truth' l.1 l.2) :
    q.eval combine truth field = q.eval combine truth' field := by
  induction q using Query.induct_operands generalizing field with
  | leaf l => exact h (field, l) (by simp [Query.leaves])
  | searchField name q ih => exact ih (some name) h
  | group q ih => exact ih field h
  | plus q ih => exact ih field h
  | prohibit q ih => exact congrArg not (ih field h)
  | andOperation qs ih => rw [Query.eval, Query.eval, evals_of_leaves h ih]
  | orOperation qs ih => rw [Query.eval, Query.eval, evals_of_leaves h ih]
  | boolOperation qs ih => rw [Query.eval, Query.eval, evals_of_leaves h ih]

/-- Operands without a common leaf can be given their values independently. -/
theorem exists_truth {R : Query → Bool → Bool → Prop} {field : Field} (qs : List Query)
    (hnd : (qs.flatMap (Query.leaves field)).Nodup)
    (h : ∀ q ∈ qs, ∃ truth, R q (q.answer truth field) (q.meaning truth field)) :
    ∃ truth, ∀ q ∈ qs, R q (q.answer truth field) (q.meaning truth field) := by
  induction qs with
  | nil => exact ⟨fun _ _ => true, by simp⟩
  | cons q qs ih =>
    rw [List.flatMap_cons, List.nodup_append] at hnd
    obtain ⟨-, hnd, hdisj⟩ := hnd
    obtain ⟨τ, hτ⟩ := h q List.mem_cons_self
    obtain ⟨τ', hτ'⟩ := ih hnd fun p hp => h p (List.mem_cons_of_mem q hp)
    let σ : Field → Leaf → Bool := fun f l => if (f, l) ∈ q.leaves field then τ f l else τ' f l
    refine ⟨σ, fun p hp => ?_⟩
    cases List.mem_cons.mp hp with
    | inl hpq =>
      have hσ : ∀ l ∈ p.leaves field, σ l.1 l.2 = τ l.1 l.2 := fun l hl => if_pos (hpq ▸ hl)
      rw [Query.answer, Query.meaning, eval_of_leaves p field hσ, eval_of_leaves p field hσ, hpq]
      exact hτ
    | inr hpq =>
      have hσ : ∀ l ∈ p.leaves field, σ l.1 l.2 = τ' l.1 l.2 := fun l hl =>
        if_neg fun hlq => hdisj l hlq l (List.mem_flatMap.mpr ⟨p, hpq, hl⟩) rfl
      rw [Query.answer, Query.meaning, eval_of_leaves p field hσ, eval_of_leaves p field hσ]
      exact hτ' p hpq

theorem nodup_operand {qs : Operands} {field : Field} (hnd : (qs.leaves field).Nodup) {q : Query}
    (hq : q ∈ qs.toList) : (q.leaves field).Nodup := by
  rw [Operands.leaves_eq, List.nodup_flatMap] at hnd
  exact hnd.1 q hq

theorem exists_operands {R : Query → Bool → Bool → Prop} {field : Field} {qs : Operands}
    (hnd : (qs.leaves field).Nodup)
    (h : ∀ q ∈ qs.toList, (q.leaves field).Nodup →
      ∃ truth, R q (q.answer truth field) (q.meaning truth field)) :
    ∃ truth, ∀ q ∈ qs.toList, R q (q.answer truth field) (q.meaning truth field) := by
  refine exists_truth qs.toList ?_ fun q hq => h q hq (nodup_operand hnd hq)
  rwa [← Operands.leaves_eq]

/-- Operands that all have one value. -/
theorem evals_of_const {qs : Operands} {field : Field} {b : Bool}
    (h : ∀ q ∈ qs.toList, q.eval combine truth field = b) :
    ∀ c ∈ qs.evals combine truth field, c.2 = b := by
  intro c hc
  obtain ⟨q, hq, rfl⟩ := mem_evals.mp hc
  exact h q hq

theorem all_of_const {cs : List (Occur × Bool)} {b : Bool} (hne : cs ≠ [])
    (h : ∀ c ∈ cs, c.2 = b) : cs.all (·.2) = b ∧ cs.any (·.2) = b := by
  obtain ⟨c, hc⟩ := List.exists_mem_of_ne_nil cs hne
  cases b with
  | true => exact ⟨List.all_eq_true.mpr h, List.any_eq_true.mpr ⟨c, hc, h c hc⟩⟩
  | false =>
    have hany : ¬ ∃ d ∈ cs, d.2 = true := fun ⟨d, hd, ht⟩ => by simp [h d hd] at ht
    refine ⟨List.all_eq_false.mpr ⟨c, hc, by simp [h c hc]⟩, ?_⟩
    rwa [← List.any_eq_true, Bool.not_eq_true] at hany

/-- A query with distinct leaves can be made true and false, and be understood so. -/
theorem exists_value (q : Query) (field : Field) (hnd : (q.leaves field).Nodup) (b : Bool) :
    ∃ truth, q.answer truth field = b ∧ q.meaning truth field = b := by
  induction q using Query.induct_operands generalizing field b with
  | leaf l => exact ⟨fun _ _ => b, rfl, rfl⟩
  | searchField name q ih => exact ih (some name) hnd b
  | group q ih => exact ih field hnd b
  | plus q ih => exact ih field hnd b
  | prohibit q ih =>
    obtain ⟨truth, ha, hm⟩ := ih field hnd !b
    refine ⟨truth, ?_, ?_⟩
    · simpa [Query.eval] using congrArg not ha
    · simpa [Query.meaning, Query.eval] using congrArg not hm
  | andOperation qs ih =>
    obtain ⟨truth, ht⟩ := exists_operands (R := fun _ x y => x = b ∧ y = b) hnd fun q hq hq' =>
      ih q hq field hq' b
    exact ⟨truth, (all_of_const (evals_ne_nil _ qs) (evals_of_const fun q hq => (ht q hq).1)).1,
      (all_of_const (evals_ne_nil _ qs) (evals_of_const fun q hq => (ht q hq).2)).1⟩
  | orOperation qs ih =>
    obtain ⟨truth, ht⟩ := exists_operands (R := fun _ x y => x = b ∧ y = b) hnd fun q hq hq' =>
      ih q hq field hq' b
    exact ⟨truth, (all_of_const (evals_ne_nil _ qs) (evals_of_const fun q hq => (ht q hq).1)).2,
      (all_of_const (evals_ne_nil _ qs) (evals_of_const fun q hq => (ht q hq).2)).2⟩
  | boolOperation qs ih =>
    obtain ⟨truth, ht⟩ := exists_operands (R := fun _ x y => x = b ∧ y = b) hnd fun q hq hq' =>
      ih q hq field hq' b
    exact ⟨truth, (rules_of_const (evals_ne_nil _ qs) (evals_of_const fun q hq => (ht q hq).1)).1,
      (rules_of_const (evals_ne_nil _ qs) (evals_of_const fun q hq => (ht q hq).2)).2⟩

/-- The truth values that show a mixed `BoolOperation` to be misunderstood. -/
theorem exists_wrong_of_mixed {qs : Operands} {field : Field} (hnd : (qs.leaves field).Nodup)
    (hmix : qs.Mixed) : ∃ truth, (Query.boolOperation qs).answer truth field ≠
      (Query.boolOperation qs).meaning truth field := by
  obtain ⟨truth, ht⟩ := exists_operands
    (R := fun q x y => x = (q.occur ≠ .should : Bool) ∧ y = (q.occur ≠ .should : Bool)) hnd
    fun q _ hq' => exists_value q field hq' _
  obtain ⟨hmust, ⟨s, hs, hso⟩, n, hn, hno⟩ := hmix
  refine ⟨truth, fun h => ?_⟩
  have ha : (Query.boolOperation qs).answer truth field = true := by
    refine visitorRule_iff.mpr ⟨fun c hc => ?_, _, mem_evals.mpr ⟨n, hn, rfl⟩, ?_⟩
    · obtain ⟨q, hq, rfl⟩ := mem_evals.mp hc
      simp [(ht q hq).1, em]
    · simp [(ht n hn).1, hno]
  -- a plain clause there is, a true one there is not
  cases (luceneRule_iff.mp (h ▸ ha)).2 with
  | inl hm =>
    obtain ⟨c, hc, hcm⟩ := hm
    obtain ⟨q, hq, rfl⟩ := mem_evals.mp hc
    exact hmust q hq hcm
  | inr hm =>
    cases hm with
    | inl hm => exact hm _ (mem_evals.mpr ⟨s, hs, rfl⟩) hso
    | inr hm =>
      obtain ⟨c, hc, hco, hct⟩ := hm
      obtain ⟨q, hq, rfl⟩ := mem_evals.mp hc
      have hv := (ht q hq).2
      rw [show q.meaning truth field = true from hct, show q.occur = .should from hco] at hv
      simp at hv

/-- One operand that is misunderstood, the others having one value. -/
theorem exists_wrong_operand {qs : Operands} {field : Field} (hnd : (qs.leaves field).Nodup)
    {q : Query} (hwrong : ∃ truth, q.answer truth field ≠ q.meaning truth field) (b : Bool) :
    ∃ truth, ∀ p ∈ qs.toList, (p = q → p.answer truth field ≠ p.meaning truth field) ∧
      (p ≠ q → p.answer truth field = b ∧ p.meaning truth field = b) := by
  refine exists_operands (R := fun p x y => (p = q → x ≠ y) ∧ (p ≠ q → x = b ∧ y = b)) hnd
    fun p hp hp' => ?_
  by_cases hpq : p = q
  · obtain ⟨truth, ht⟩ := hwrong
    exact ⟨truth, fun _ => hpq ▸ ht, fun h => absurd hpq h⟩
  · obtain ⟨truth, ht⟩ := exists_value p field hp' b
    exact ⟨truth, fun h => absurd h hpq, fun _ => ht⟩

/-- The clauses where all operands but one have the value `b`. -/
theorem evals_of_rest {qs : Operands} {field : Field} {q : Query} {b : Bool} (hq : q ∈ qs.toList)
    (h : ∀ p ∈ qs.toList, p ≠ q → p.eval combine truth field = b) :
    (q.occur, q.eval combine truth field) ∈ qs.evals combine truth field ∧
      ∀ c ∈ qs.evals combine truth field, c.2 = q.eval combine truth field ∨ c.2 = b := by
  refine ⟨mem_evals.mpr ⟨q, hq, rfl⟩, fun c hc => ?_⟩
  obtain ⟨p, hp, rfl⟩ := mem_evals.mp hc
  by_cases hpq : p = q
  · exact .inl (hpq ▸ rfl)
  · exact .inr (h p hp hpq)

section Rest

variable {cs : List (Occur × Bool)} {o : Occur} {v : Bool}

theorem all_of_rest (hc : (o, v) ∈ cs) (h : ∀ c ∈ cs, c.2 = v ∨ c.2 = true) :
    cs.all (·.2) = v := by
  cases v with
  | true => exact List.all_eq_true.mpr fun c hc => by simpa using h c hc
  | false => exact List.all_eq_false.mpr ⟨_, hc, by simp⟩

theorem any_of_rest (hc : (o, v) ∈ cs) (h : ∀ c ∈ cs, c.2 = v ∨ c.2 = false) :
    cs.any (·.2) = v := by
  cases v with
  | true => exact List.any_eq_true.mpr ⟨_, hc, rfl⟩
  | false => exact List.any_eq_false.mpr fun c hc => by simpa using h c hc

theorem rules_of_rest (hc : (o, v) ∈ cs) (ho : o ≠ .should)
    (h : ∀ c ∈ cs, c.2 = v ∨ c.2 = true) : visitorRule cs = v ∧ luceneRule cs = v := by
  cases v with
  | true => exact rules_of_const (List.ne_nil_of_mem hc) fun c hc => by simpa using h c hc
  | false =>
    have hfail : ¬ ∀ c ∈ cs, c.1 = .should ∨ c.2 = true := fun h => by simpa [ho] using h _ hc
    have hv : ¬ visitorRule cs = true := fun h => hfail (visitorRule_iff.mp h).1
    have hl : ¬ luceneRule cs = true := fun h => hfail (luceneRule_iff.mp h).1
    exact ⟨by simpa using hv, by simpa using hl⟩

end Rest

/-- A mixed part shows at some truth values of the leaves. -/
theorem exists_wrong {p r : Field × Query} (hp : Part p r) (hr : IsMixed r)
    (hnd : (p.2.leaves p.1).Nodup) :
    ∃ truth, p.2.answer truth p.1 ≠ p.2.meaning truth p.1 := by
  induction hp using Relation.ReflTransGen.head_induction_on with
  | refl =>
    obtain ⟨f, q⟩ := r
    obtain ⟨qs, rfl, hmix⟩ := hr
    exact exists_wrong_of_mixed hnd hmix
  | head hb _ ih =>
    cases hb with
    | searchField => exact ih hnd
    | group => exact ih hnd
    | plus => exact ih hnd
    | prohibit =>
      obtain ⟨truth, ht⟩ := ih hnd
      exact ⟨truth, fun h => ht (Bool.not_inj h)⟩
    | @and f qs q hq =>
      obtain ⟨truth, ht⟩ := exists_wrong_operand hnd (ih (nodup_operand hnd hq)) true
      have ha := evals_of_rest hq fun p hp hpq => ((ht p hp).2 hpq).1
      have hm := evals_of_rest hq fun p hp hpq => ((ht p hp).2 hpq).2
      refine ⟨truth, fun h => (ht q hq).1 rfl ?_⟩
      calc q.answer truth f = (Query.andOperation qs).answer truth f :=
            (all_of_rest ha.1 ha.2).symm
        _ = (Query.andOperation qs).meaning truth f := h
        _ = q.meaning truth f := all_of_rest hm.1 hm.2
    | @or f qs q hq =>
      obtain ⟨truth, ht⟩ := exists_wrong_operand hnd (ih (nodup_operand hnd hq)) false
      have ha := evals_of_rest hq fun p hp hpq => ((ht p hp).2 hpq).1
      have hm := evals_of_rest hq fun p hp hpq => ((ht p hp).2 hpq).2
      refine ⟨truth, fun h => (ht q hq).1 rfl ?_⟩
      calc q.answer truth f = (Query.orOperation qs).answer truth f :=
            (any_of_rest ha.1 ha.2).symm
        _ = (Query.orOperation qs).meaning truth f := h
        _ = q.meaning truth f := any_of_rest hm.1 hm.2
    | @bool f qs q hq hrel =>
      by_cases ho : q.occur = .should
      · have hshould := hrel.resolve_left (not_not_intro ho)
        have hplain : ∀ combine : List (Occur × Bool) → Bool, ∀ truth,
            ∀ c ∈ qs.evals combine truth f, c.1 = .should := by
          intro combine truth c hc
          obtain ⟨p, hp, rfl⟩ := mem_evals.mp hc
          exact hshould p hp
        obtain ⟨truth, ht⟩ := exists_wrong_operand hnd (ih (nodup_operand hnd hq)) false
        have ha := evals_of_rest hq fun p hp hpq => ((ht p hp).2 hpq).1
        have hm := evals_of_rest hq fun p hp hpq => ((ht p hp).2 hpq).2
        refine ⟨truth, fun h => (ht q hq).1 rfl ?_⟩
        calc q.answer truth f = (qs.evals visitorRule truth f).any (·.2) :=
              (any_of_rest ha.1 ha.2).symm
          _ = (Query.boolOperation qs).answer truth f :=
              (rules_of_should (evals_ne_nil _ qs) (hplain _ truth)).1.symm
          _ = (Query.boolOperation qs).meaning truth f := h
          _ = (qs.evals luceneRule truth f).any (·.2) :=
              (rules_of_should (evals_ne_nil _ qs) (hplain _ truth)).2
          _ = q.meaning truth f := any_of_rest hm.1 hm.2
      · obtain ⟨truth, ht⟩ := exists_wrong_operand hnd (ih (nodup_operand hnd hq)) true
        have ha := evals_of_rest hq fun p hp hpq => ((ht p hp).2 hpq).1
        have hm := evals_of_rest hq fun p hp hpq => ((ht p hp).2 hpq).2
        refine ⟨truth, fun h => (ht q hq).1 rfl ?_⟩
        calc q.answer truth f = (Query.boolOperation qs).answer truth f :=
              (rules_of_rest ha.1 ho ha.2).1.symm
          _ = (Query.boolOperation qs).meaning truth f := h
          _ = q.meaning truth f := (rules_of_rest hm.1 ho hm.2).2

end Leaves

/-- The visitor gives a query its meaning on a record just if no error comes through. None does where
every part that the visit comes to is settled, and none does on any record, the leaves being
distinct, just if there is no mixed part. -/
theorem visit_meaning_iff (ε : Type) (q : Query) (field : Field) :
    (∀ truth : Field → Leaf → Bool,
      (q.visit (total ε truth) field = .ok (some (q.meaning truth field)) ↔
        q.misread truth field = false) ∧
      ((∀ p, Reached truth (field, q) p → Settled truth p) → q.misread truth field = false)) ∧
    ((q.leaves field).Nodup →
      ((∀ truth : Field → Leaf → Bool,
        q.visit (total ε truth) field = .ok (some (q.meaning truth field))) ↔
      ∀ p, Part (field, q) p → ¬ IsMixed p)) := by
  simp only [visit_total, Except.ok.injEq, Option.some.injEq]
  refine ⟨fun truth => ⟨answer_iff q field, misread_of_settled q field⟩, fun hnd => ?_⟩
  constructor
  · intro h p hp hmix
    obtain ⟨truth, ht⟩ := exists_wrong hp hmix hnd
    exact ht (h truth)
  · intro h truth
    refine (answer_iff q field).mpr (misread_of_settled q field fun p hp qs hqs hmix => ?_)
    exact absurd ⟨qs, hqs, hmix⟩ (h p hp.part)

/-- The query `a -b`. -/
def plainAndProhibit : Query :=
  .boolOperation (.cons (.leaf (.word ['a'])) (.one (.prohibit (.leaf (.word ['b'])))))

/-- The query `+a +(b -c)`. -/
def plusBeforeMixed : Query :=
  .boolOperation (.cons (.plus (.leaf (.word ['a']))) (.one (.plus (.group (.boolOperation
    (.cons (.leaf (.word ['b'])) (.one (.prohibit (.leaf (.word ['c']))))))))))

/-- On a record with none of the words the loop stops at `+a`, before the mixed part. -/
theorem visit_meaning_iff_plusBeforeMixed :
    plusBeforeMixed.visit (total Str fun _ _ => false) none =
        .ok (some (plusBeforeMixed.meaning (fun _ _ => false) none)) ∧
      (plainAndProhibit.leaves none).Nodup ∧
      ((∀ truth : Field → Leaf → Bool, plainAndProhibit.visit (total Str truth) none =
        .ok (some (plainAndProhibit.meaning truth none))) ↔
      ∀ p, Part (none, plainAndProhibit) p → ¬ IsMixed p) :=
  ⟨((visit_meaning_iff Str plusBeforeMixed none).1 fun _ _ => false).1.mpr (by decide), by decide,
    (visit_meaning_iff Str plainAndProhibit none).2 (by decide)⟩

/-- A record with neither `a` nor `b` matches `a -b`. -/
theorem plain_and_prohibit_wrong :
    plainAndProhibit.visit (total Str fun _ _ => false) none = .ok (some true) ∧
      plainAndProhibit.meaning (fun _ _ => false) none = false := by
  decide

end Howler.Lucene
