import Howler.Python.Text

namespace Python

/-- A part of a shell-style pattern. -/
inductive Glob where
  | star
  | any
  | char (c : Char)
  | set (negated : Bool) (ranges : List (Char × Char))
  deriving DecidableEq

namespace Glob

/-- The place of the bracket that closes a set, after its opening one. A bracket that comes first is
a character of the set. -/
def closing (cs : Str) : Option ℕ :=
  let start := if cs.head? = some '!' then 1 else 0
  let start := if (cs.drop start).head? = some ']' then start + 1 else start
  ((cs.drop start).findIdx? (· = ']')).map (start + ·)

/-- The characters and ranges of a set. -/
def ranges : Str → List (Char × Char)
  | a :: '-' :: b :: cs => (a, b) :: ranges cs
  | a :: cs => (a, a) :: ranges cs
  | [] => []

def ofSet (stuff : Str) : Glob :=
  if stuff.head? = some '!' then .set true (ranges stuff.tail) else .set false (ranges stuff)

/-- The parts of a pattern; `skip` counts the characters of a set still to be passed over. -/
def parseFrom : ℕ → Str → List Glob
  | _, [] => []
  | skip + 1, _ :: cs => parseFrom skip cs
  | 0, c :: cs =>
    if c = '*' then .star :: parseFrom 0 cs
    else if c = '?' then .any :: parseFrom 0 cs
    else if c = '[' then
      match closing cs with
      | some n => ofSet (cs.take n) :: parseFrom (n + 1) cs
      | none => .char '[' :: parseFrom 0 cs
    else .char c :: parseFrom 0 cs

/-- A part that stands for one character. -/
def accepts : Glob → Char → Bool
  | .star, _ => true
  | .any, _ => true
  | .char d, c => c = d
  | .set negated rs, c => (rs.any fun r => r.1 ≤ c && c ≤ r.2) != negated

/-- The rest of a pattern somewhere in a text. -/
def afterStar (rest : Str → Bool) : Str → Bool
  | [] => rest []
  | c :: s => rest (c :: s) || afterStar rest s

def matchAll : List Glob → Str → Bool
  | [], s => s = []
  | .star :: gs, s => afterStar (matchAll gs) s
  | g :: gs, s =>
    match s with
    | [] => false
    | c :: s => g.accepts c && matchAll gs s

end Glob

/-- `fnmatch`, where names are case sensitive. -/
def fnmatch (name pattern : Str) : Bool := Glob.matchAll (Glob.parseFrom 0 pattern) name

example : fnmatch "None".toList "[!a-m]?n*".toList = true := by decide

end Python
