import Howler.Python.Text

namespace Search

open Python

/-- A value in a query string, as it stands or in double quotes. -/
inductive Term (V : Type) where
  | bare (v : V)
  | quoted (v : V)
  deriving DecidableEq, Repr

def Term.value {V : Type} : Term V → V
  | .bare v => v
  | .quoted v => v

/-- The clauses of a conjunction: terms of one field of which one is enough, terms of one field
that are all forbidden, and a range of a numeric field that starts at zero. -/
inductive Clause (F V B : Type) where
  | anyOf (field : F) (terms : List (Term V))
  | noneOf (field : F) (terms : List (Term V))
  | upTo (field : F) (bound : B)
  deriving DecidableEq, Repr

/-- How documents are looked at: keyword fields with several values, numbers, and bounds. -/
structure Index (F V B D : Type) where
  keywords : D → F → List V
  number : D → F → Option Int
  bound : B → Option Int

section Matches

variable {F V B D : Type} [DecidableEq V] (I : Index F V B D) (d : D)

def Clause.matches : Clause F V B → Bool
  | .anyOf f ts => ts.any fun t => t.value ∈ I.keywords d f
  | .noneOf f ts => !ts.any fun t => t.value ∈ I.keywords d f
  | .upTo f b =>
    match I.bound b, I.number d f with
    | some hi, some n => 0 ≤ n && n ≤ hi
    | _, _ => false

/-- A conjunction with at least one clause that is not forbidding matches where all clauses do. -/
def matchesAll (q : List (Clause F V B)) : Bool := q.all (·.matches I d)

variable {I d}

theorem matches_anyOf {f : F} {ts : List (Term V)} :
    (Clause.anyOf f ts : Clause F V B).matches I d = true ↔
      ∃ t ∈ ts, t.value ∈ I.keywords d f := by
  simp [Clause.matches]

theorem matches_noneOf {f : F} {ts : List (Term V)} :
    (Clause.noneOf f ts : Clause F V B).matches I d = true ↔
      ∀ t ∈ ts, t.value ∉ I.keywords d f := by
  simp [Clause.matches]

theorem matches_upTo {f : F} {b : B} :
    (Clause.upTo f b : Clause F V B).matches I d = true ↔
      ∃ hi n, I.bound b = some hi ∧ I.number d f = some n ∧ 0 ≤ n ∧ n ≤ hi := by
  unfold Clause.matches
  cases hb : I.bound b with
  | none => simp [hb]
  | some hi =>
    cases hn : I.number d f with
    | none => simp [hb, hn]
    | some n => simp [hb, hn]

theorem matchesAll_append {q q' : List (Clause F V B)} :
    matchesAll I d (q ++ q') = true ↔ matchesAll I d q = true ∧ matchesAll I d q' = true := by
  simp [matchesAll]

end Matches

section Text

variable {F B : Type} (fieldName : F → Str) (boundText : B → Str)

def termText (f : F) : Term Str → Str
  | .bare v => fieldName f ++ ":".toList ++ v
  | .quoted v => fieldName f ++ ":\"".toList ++ v ++ "\"".toList

/-- The text of a clause in a query string. -/
def clauseText : Clause F Str B → Str
  | .anyOf f ts => "(".toList ++ join " OR ".toList (ts.map (termText fieldName f)) ++ ")".toList
  | .noneOf f ts => "-(".toList ++ join " OR ".toList (ts.map (termText fieldName f)) ++ ")".toList
  | .upTo f b => fieldName f ++ ":[0 TO ".toList ++ boundText b ++ "]".toList

def queryText (q : List (Clause F Str B)) : Str :=
  join " AND ".toList (q.map (clauseText fieldName boundText))

end Text

end Search
