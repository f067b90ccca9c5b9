import Mathlib.Data.List.Basic
import Mathlib.Data.List.Nodup
import Mathlib.Logic.Relation
import Howler.Python.Text

namespace Howler.Lucene

open Python

/-- The terms of a query: what is compared with the values of a record. -/
inductive Leaf where
  | word (value : Str)
  | phrase (value : Str)
  | range (low high : Str) (includeLow includeHigh : Bool)
  deriving DecidableEq, Repr

mutual

/-- A query as the parser builds it. Both kinds of groups are `group`. -/
inductive Query where
  | leaf (l : Leaf)
  | searchField (name : Str) (expr : Query)
  | group (expr : Query)
  | plus (a : Query)
  | prohibit (a : Query)
  | andOperation (operands : Operands)
  | orOperation (operands : Operands)
  | boolOperation (operands : Operands)

/-- The operands of an operation, of which there is at least one. -/
inductive Operands where
  | one (q : Query)
  | cons (q : Query) (qs : Operands)

end

namespace Operands

def toList : Operands → List Query
  | .one q => [q]
  | .cons q qs => q :: qs.toList

theorem toList_ne_nil (qs : Operands) : qs.toList ≠ [] := by
  cases qs <;> simp [toList]

end Operands

/-- What a clause of a `BoolOperation` asks for. -/
inductive Occur where
  | must
  | mustNot
  | should
  deriving DecidableEq, Repr

def Query.occur : Query → Occur
  | .plus _ => .must
  | .prohibit _ => .mustNot
  | _ => .should

/-- Operands one after the other. -/
theorem Operands.induct {P : Operands → Prop} (one : ∀ q, P (.one q))
    (cons : ∀ q qs, P qs → P (.cons q qs)) : ∀ qs, P qs
  | .one q => one q
  | .cons q qs => cons q qs (Operands.induct one cons qs)

/-- A property of queries that passes from the operands to the operation. -/
theorem Query.induct_operands {P : Query → Prop} (leaf : ∀ l, P (.leaf l))
    (searchField : ∀ name q, P q → P (.searchField name q)) (group : ∀ q, P q → P (.group q))
    (plus : ∀ q, P q → P (.plus q)) (prohibit : ∀ q, P q → P (.prohibit q))
    (andOperation : ∀ qs : Operands, (∀ q ∈ qs.toList, P q) → P (.andOperation qs))
    (orOperation : ∀ qs : Operands, (∀ q ∈ qs.toList, P q) → P (.orOperation qs))
    (boolOperation : ∀ qs : Operands, (∀ q ∈ qs.toList, P q) → P (.boolOperation qs))
    (q : Query) : P q := by
  refine @Query.rec P (fun qs => ∀ q ∈ qs.toList, P q) leaf searchField group plus prohibit
    andOperation orOperation boolOperation ?_ ?_ q
  · intro q hq
    simpa [Operands.toList] using hq
  · intro q qs hq hqs
    simpa [Operands.toList] using ⟨hq, hqs⟩

section Eval

/-- The field that a term is looked up in, if it stands under one. -/
abbrev Field := Option Str

variable (combine : List (Occur × Bool) → Bool) (truth : Field → Leaf → Bool)

mutual

/-- The value of a query from the truth of its leaves, with a rule for `BoolOperation`. -/
def Query.eval (field : Field) : Query → Bool
  | .leaf l => truth field l
  | .searchField name expr => expr.eval (some name)
  | .group expr => expr.eval field
  | .plus a => a.eval field
  | .prohibit a => !a.eval field
  | .andOperation qs => (qs.evals field).all (·.2)
  | .orOperation qs => (qs.evals field).any (·.2)
  | .boolOperation qs => combine (qs.evals field)

/-- The clauses with their values. A `Prohibit` is true where its inner query is not. -/
def Operands.evals (field : Field) : Operands → List (Occur × Bool)
  | .one q => [(q.occur, q.eval field)]
  | .cons q qs => (q.occur, q.eval field) :: qs.evals field

end

end Eval

/-- Lucene's reading of the clauses of a `BoolOperation`: the `Plus` clauses are true, so are the
`Prohibit` clauses, and plain clauses count only where there is no `Plus`. -/
def luceneRule (cs : List (Occur × Bool)) : Bool :=
  (cs.all fun c => c.1 = .should || c.2) &&
    ((cs.any fun c => c.1 = .must) || !(cs.any fun c => c.1 = .should) ||
      cs.any fun c => c.1 = .should && c.2)

/-- The Lucene meaning of a query. -/
def Query.meaning (truth : Field → Leaf → Bool) : Field → Query → Bool :=
  Query.eval luceneRule truth

section Eval

variable {combine : List (Occur × Bool) → Bool} {truth : Field → Leaf → Bool} {field : Field}

theorem Operands.evals_eq (qs : Operands) : qs.evals combine truth field =
    qs.toList.map fun q => (q.occur, q.eval combine truth field) := by
  induction qs using Operands.induct with
  | one q => simp [Operands.evals, Operands.toList]
  | cons q qs ih => simp [Operands.evals, Operands.toList, ih]

end Eval

/-- The parts of a query that the visitor's answer depends on: plain clauses only where there are no
others. -/
inductive Below : Field × Query → Field × Query → Prop
  | searchField {f : Field} {name : Str} {q : Query} :
      Below (f, .searchField name q) (some name, q)
  | group {f : Field} {q : Query} : Below (f, .group q) (f, q)
  | plus {f : Field} {q : Query} : Below (f, .plus q) (f, q)
  | prohibit {f : Field} {q : Query} : Below (f, .prohibit q) (f, q)
  | and {f : Field} {qs : Operands} {q : Query} (h : q ∈ qs.toList) :
      Below (f, .andOperation qs) (f, q)
  | or {f : Field} {qs : Operands} {q : Query} (h : q ∈ qs.toList) :
      Below (f, .orOperation qs) (f, q)
  | bool {f : Field} {qs : Operands} {q : Query} (h : q ∈ qs.toList)
      (hr : q.occur ≠ .should ∨ ∀ p ∈ qs.toList, p.occur = .should) :
      Below (f, .boolOperation qs) (f, q)

/-- A part of a query, however deep, with the field it stands under. -/
def Part : Field × Query → Field × Query → Prop := Relation.ReflTransGen Below

/-- The visit comes from a query to a part of it: a `Plus` or `Prohibit` that fails ends the loop over
the clauses of its `BoolOperation`. -/
def Reaches (truth : Field → Leaf → Bool) (p r : Field × Query) : Prop :=
  Below p r ∧ ∀ qs, p.2 = .boolOperation qs → ∃ before after,
    qs.toList = before ++ r.2 :: after ∧
      ∀ c ∈ before, c.occur ≠ .should → c.meaning truth p.1 = true

/-- A part that the visit comes to, however deep. -/
def Reached (truth : Field → Leaf → Bool) : Field × Query → Field × Query → Prop :=
  Relation.ReflTransGen (Reaches truth)

end Howler.Lucene
