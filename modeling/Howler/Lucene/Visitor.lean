import Howler.Lucene.Query

namespace Howler.Lucene

open Python

section Visit

variable {ε : Type} (visitLeaf : Field → Leaf → Except ε Bool)

mutual

/-- The results of visiting a query with the methods of `LuceneProcessor`. -/
def Query.visitIter (field : Field) : Query → Except ε (List Bool)
  | .leaf l => do
    let result ← visitLeaf field l
    return [result]
  | .searchField name expr => expr.visitIter (some name)
  | .group expr => expr.visitIter field
  | .plus a => a.visitIter field
  | .prohibit a => do
    let results ← a.visitIter field
    return results.map (!·)
  | .andOperation qs => do
    let results ← qs.genericVisit field
    return [results.all id]
  | .orOperation qs => do
    let results ← qs.genericVisit field
    return [results.any id]
  | .boolOperation qs => qs.visitBoolOperation field []

def Operands.genericVisit (field : Field) : Operands → Except ε (List Bool)
  | .one q => q.visitIter field
  | .cons q qs => do
    let first ← q.visitIter field
    let rest ← qs.genericVisit field
    return first ++ rest

/-- The loop over the clauses, `results` being those of the clauses before. A `Plus` or `Prohibit`
that fails ends it. -/
def Operands.visitBoolOperation (field : Field) : Operands → List Bool → Except ε (List Bool)
  | .one q, results => do
    let new ← q.visitIter field
    if q.occur ≠ .should ∧ false ∈ new then return [false]
    return [(results ++ new).any id]
  | .cons q qs, results => do
    let new ← q.visitIter field
    if q.occur ≠ .should ∧ false ∈ new then return [false]
    qs.visitBoolOperation field (results ++ new)

end

/-- `LuceneProcessor.visit`: the first result. -/
def Query.visit (field : Field) (q : Query) : Except ε (Option Bool) := do
  let results ← q.visitIter visitLeaf field
  return results.head?

end Visit

/-- What the loop of `visit_bool_operation` makes of its clauses: satisfied `Prohibit` clauses are
results like any others. -/
def visitorRule (cs : List (Occur × Bool)) : Bool :=
  (cs.all fun c => c.1 = .should || c.2) && cs.any (·.2)

section Answer

variable {ε : Type} (truth : Field → Leaf → Bool) (field : Field)

/-- The answer of the visitor, where every leaf has a truth value. -/
abbrev Query.answer : Query → Bool := Query.eval visitorRule truth field

variable {truth field}

/-- Leaves that do not raise. -/
abbrev total (ε : Type) (truth : Field → Leaf → Bool) : Field → Leaf → Except ε Bool :=
  fun field l => .ok (truth field l)

theorem genericVisit_total (qs : Operands)
    (h : ∀ q ∈ qs.toList, q.visitIter (total ε truth) field = .ok [q.answer truth field]) :
    qs.genericVisit (total ε truth) field =
      .ok ((qs.evals visitorRule truth field).map (·.2)) := by
  induction qs using Operands.induct with
  | one q =>
    have hq := h q (by simp [Operands.toList])
    simp [Operands.genericVisit, Operands.evals, hq]
  | cons q qs ih =>
    have hq := h q (by simp [Operands.toList])
    have hqs := ih fun p hp => h p (by simp [Operands.toList, hp])
    simp [Operands.genericVisit, Operands.evals, hq, hqs, bind, Except.bind, pure, Except.pure]

theorem visitBoolOperation_total (qs : Operands)
    (h : ∀ q ∈ qs.toList, q.visitIter (total ε truth) field = .ok [q.answer truth field])
    (results : List Bool) :
    qs.visitBoolOperation (total ε truth) field results =
      .ok [((qs.evals visitorRule truth field).all fun c => c.1 = .should || c.2) &&
        (results ++ (qs.evals visitorRule truth field).map (·.2)).any id] := by
  induction qs using Operands.induct generalizing results with
  | one q =>
    have hq := h q (by simp [Operands.toList])
    simp only [Operands.visitBoolOperation, Operands.evals, hq, bind, Except.bind, pure,
      Except.pure, List.mem_singleton]
    by_cases ho : q.occur = .should
    · simp [ho]
    · cases ha : q.eval visitorRule truth field <;> simp [ho, ha]
  | cons q qs ih =>
    have hq := h q (by simp [Operands.toList])
    have hqs := ih fun p hp => h p (by simp [Operands.toList, hp])
    simp only [Operands.visitBoolOperation, Operands.evals, hq, bind, Except.bind, pure,
      Except.pure, List.mem_singleton, hqs]
    by_cases ho : q.occur = .should
    · simp [ho]
    · cases ha : q.eval visitorRule truth field <;> simp [ho, ha]

/-- Every query has exactly one result. -/
theorem visitIter_total (q : Query) (field : Field) :
    q.visitIter (total ε truth) field = .ok [q.answer truth field] := by
  induction q using Query.induct_operands generalizing field with
  | leaf l => simp [Query.visitIter, Query.eval, bind, Except.bind, pure, Except.pure]
  | searchField name q ih => simp [Query.visitIter, Query.eval, ih]
  | group q ih => simp [Query.visitIter, Query.eval, ih]
  | plus q ih => simp [Query.visitIter, Query.eval, ih]
  | prohibit q ih =>
    simp [Query.visitIter, Query.eval, ih, bind, Except.bind, pure, Except.pure]
  | andOperation qs ih =>
    have h := genericVisit_total qs fun q hq => ih q hq field
    simp [Query.visitIter, Query.eval, h, bind, Except.bind, pure, Except.pure]
  | orOperation qs ih =>
    have h := genericVisit_total qs fun q hq => ih q hq field
    simp [Query.visitIter, Query.eval, h, bind, Except.bind, pure, Except.pure]
  | boolOperation qs ih =>
    rw [Query.visitIter, visitBoolOperation_total qs fun q hq => ih q hq field]
    simp [Query.eval, visitorRule]

theorem visit_total (q : Query) (field : Field) :
    q.visit (total ε truth) field = .ok (some (q.answer truth field)) := by
  simp [Query.visit, visitIter_total, bind, Except.bind, pure, Except.pure]

end Answer

end Howler.Lucene
