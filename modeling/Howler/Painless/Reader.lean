import Howler.Structures.Json

namespace Painless

open Python Structures

/-- What the scripting language does with values. -/
structure Values where
  equals : Json → Json → Bool
  plus : Json → Json → Option Json
  minus : Json → Json → Option Json
  compareTo : Json → Json → Option ℤ

section Tokens

inductive Class where
  | word
  | operator
  | space
  | single
  deriving DecidableEq

/-- How a character goes with its neighbours in a token. -/
def classOf (c : Char) : Class :=
  if c.isAlphanum || c = '_' || c = '\'' then .word
  else if c ∈ ['=', '!', '<', '>', '|', '&', '+', '-', '*', '/'] then .operator
  else if c = ' ' || c = '\n' then .space
  else .single

/-- The character goes with the first one of the text. -/
def sticks (c : Char) (cs : Str) : Bool :=
  match cs with
  | [] => false
  | c' :: _ => classOf c = classOf c' && (classOf c = .word || classOf c = .operator)

def lex : Str → List Str
  | [] => []
  | c :: cs =>
    if classOf c = .space then lex cs
    else if sticks c cs then
      match lex cs with
      | [] => [[c]]
      | t :: ts => (c :: t) :: ts
    else [c] :: lex cs

/-- A name after a dot: an identifier, or an index of a list. -/
def isName (s : Str) : Bool :=
  match s with
  | [] => false
  | c :: cs =>
    if c.isAlpha || c = '_' then cs.all fun c => c.isAlphanum || c = '_'
    else c.isDigit && cs.all Char.isDigit && (c ≠ '0' || cs = [])

/-- A name in quotes. -/
def quoted : Str → Option Str
  | '\'' :: cs => if cs.getLast? = some '\'' && isName cs.dropLast then some cs.dropLast else none
  | _ => none

end Tokens

/-- A place in the document, or a parameter. -/
inductive Ref where
  | source (path : List Str)
  | param (name : Str)
  deriving DecidableEq

inductive Cond where
  | isNull (r : Ref)
  | found (r value : Ref) (expected : Bool)
  | compares (r value : Ref) (less : Bool)
  deriving DecidableEq

inductive Statement where
  | assign (path : List Str) (value : Ref)
  | assignBoth (path path' : List Str) (value : Ref)
  | augment (path : List Str) (minus : Bool) (value : Ref)
  | add (path : List Str) (value : Ref)
  | remove (path : List Str) (value : Ref)
  | removeFound (path : List Str) (r value : Ref)
  deriving DecidableEq

inductive Line where
  | simple (s : Statement)
  | when (conds : List Cond) (body : Statement)
  deriving DecidableEq

section Parser

/-- The names that follow, up to a call. -/
def parseNames : List Str → List Str × List Str
  | ['.'] :: n :: ['('] :: ts => ([], ['.'] :: n :: ['('] :: ts)
  | ['.'] :: n :: ts =>
    if isName n then (n :: (parseNames ts).1, (parseNames ts).2) else ([], ['.'] :: n :: ts)
  | ['['] :: q :: [']'] :: ts =>
    match quoted q with
    | some n => (n :: (parseNames ts).1, (parseNames ts).2)
    | none => ([], ['['] :: q :: [']'] :: ts)
  | ts => ([], ts)

def parseRef : List Str → Option (Ref × List Str)
  | ['c', 't', 'x'] :: ts =>
    match parseNames ts with
    | (['_', 's', 'o', 'u', 'r', 'c', 'e'] :: path, rest) => some (.source path, rest)
    | _ => none
  | ['p', 'a', 'r', 'a', 'm', 's'] :: ts =>
    match parseNames ts with
    | ([name], rest) => some (.param name, rest)
    | _ => none
  | _ => none

/-- What is done with a place of the document. -/
def parseAction (path : List Str) (ts : List Str) : Option (Statement × List Str) :=
  match ts with
  | ['='] :: ts => do
    let (value, rest) ← parseRef ts
    match value, rest with
    | .source path', ['='] :: rest => do
      let (value, rest) ← parseRef rest
      some (.assignBoth path path' value, rest)
    | value, rest => some (.assign path value, rest)
  | ['+', '='] :: ts => do
    let (value, rest) ← parseRef ts
    some (.augment path false value, rest)
  | ['-', '='] :: ts => do
    let (value, rest) ← parseRef ts
    some (.augment path true value, rest)
  | ['.'] :: ['a', 'd', 'd'] :: ['('] :: ts => do
    match ← parseRef ts with
    | (value, [')'] :: rest) => some (.add path value, rest)
    | _ => none
  | ['.'] :: ['r', 'e', 'm', 'o', 'v', 'e'] :: ['('] :: ts => do
    match ← parseRef ts with
    | (value, [')'] :: rest) => some (.remove path value, rest)
    | (r, ['.'] :: ['i', 'n', 'd', 'e', 'x', 'O', 'f'] :: ['('] :: rest) => do
      match ← parseRef rest with
      | (value, [')'] :: [')'] :: rest) => some (.removeFound path r value, rest)
      | _ => none
    | _ => none
  | _ => none

def parseSimple (ts : List Str) : Option (Statement × List Str) := do
  match ← parseRef ts with
  | (.source path, rest) => parseAction path rest
  | _ => none

def parseTest (r : Ref) (ts : List Str) : Option (Cond × List Str) :=
  match ts with
  | ['=', '='] :: ['n', 'u', 'l', 'l'] :: rest => some (.isNull r, rest)
  | ['.'] :: ['i', 'n', 'd', 'e', 'x', 'O', 'f'] :: ['('] :: ts => do
    match ← parseRef ts with
    | (value, [')'] :: ['=', '='] :: ['-'] :: ['1'] :: rest) => some (.found r value false, rest)
    | (value, [')'] :: ['!', '='] :: ['-'] :: ['1'] :: rest) => some (.found r value true, rest)
    | _ => none
  | ['.'] :: ['c', 'o', 'm', 'p', 'a', 'r', 'e', 'T', 'o'] :: ['('] :: ts => do
    match ← parseRef ts with
    | (value, [')'] :: ['<'] :: ['0'] :: rest) => some (.compares r value true, rest)
    | (value, [')'] :: ['>'] :: ['0'] :: rest) => some (.compares r value false, rest)
    | _ => none
  | _ => none

def parseCond (ts : List Str) : Option (Cond × List Str) := do
  let (r, rest) ← parseRef ts
  parseTest r rest

/-- One condition, or two of which one has to hold. -/
def parseConds (ts : List Str) : Option (List Cond × List Str) := do
  match ← parseCond ts with
  | (first, ['|', '|'] :: rest) => do
    let (second, rest) ← parseCond rest
    some ([first, second], rest)
  | (first, rest) => some ([first], rest)

def parseLine (ts : List Str) : Option (Line × List Str) :=
  match ts with
  | ['i', 'f'] :: ['('] :: ts => do
    match ← parseConds ts with
    | (conds, [')'] :: ['{'] :: rest) => do
      match ← parseSimple rest with
      | (body, ['}'] :: rest) => some (.when conds body, rest)
      | _ => none
    | _ => none
  | ts => do
    let (s, rest) ← parseSimple ts
    some (.simple s, rest)

/-- A simple statement ends with a semicolon unless it is the last; a block has none. -/
def parseLines : ℕ → List Str → Option (List Line)
  | _, [] => some []
  | 0, _ => none
  | n + 1, ts => do
    match ← parseLine ts with
    | (line, []) => some [line]
    | (.simple s, [';'] :: rest) => do
      let lines ← parseLines n rest
      some (.simple s :: lines)
    | (.when conds body, rest) => do
      let lines ← parseLines n rest
      some (.when conds body :: lines)
    | _ => none

/-- The places of the document that are read. What is assigned to is not. -/
def Ref.reads : Ref → List (List Str)
  | source path => [path]
  | param _ => []

def Cond.reads : Cond → List (List Str)
  | isNull r => r.reads
  | found r value _ | compares r value _ => r.reads ++ value.reads

def Statement.reads : Statement → List (List Str)
  | assign path value => path.dropLast :: value.reads
  | assignBoth path path' value => path.dropLast :: path'.dropLast :: value.reads
  | augment path _ value | add path value | remove path value => path :: value.reads
  | removeFound path r value => path :: (r.reads ++ value.reads)

def Line.reads : Line → List (List Str)
  | simple s => s.reads
  | when conds body => conds.flatMap Cond.reads ++ body.reads

/-- No part of a path is the property that maps, lists and texts have. -/
def isPlain (path : List Str) : Bool := path.all (· ≠ "empty".toList)

def Line.plain (line : Line) : Bool := line.reads.all isPlain

/-- The program that a text is, if it is one of these. -/
def parse (source : Str) : Option (List Line) :=
  (parseLines (lex source).length (lex source)).filter fun lines => lines.all Line.plain

-- The equations of the parser are derived here once, and not by each proof that rewrites with them.
section

attribute [local simp] lex parseNames parseRef parseAction parseTest parseConds parseLine parseLines

end

end Parser

section Semantics

variable (V : Values) (params : Dict Str Json)

def Ref.eval (doc : Json) : Ref → Option Json
  | source path => Json.getAt path doc
  | param name => some (Json.entry params name)

/-- `value.indexOf(x)`: the index of an element or of a part of a text, if there is one. -/
def indexOf (x : Json) : Json → Option (Option ℕ)
  | .list xs => some (xs.findIdx? fun y => V.equals x y)
  | .str s => match x with
    | .str t => some ((List.range (s.length + 1)).find? fun i => t.isPrefixOf (s.drop i))
    | _ => none
  | _ => none

def append (x : Json) : Json → Option Json
  | .list xs => some (.list (xs ++ [x]))
  | _ => none

/-- `value.remove(x)`: the entry of a map, or the element of a list at an index. -/
def removeKey (x : Json) : Json → Option Json
  | .obj fields => match x with
    | .str k => some (.obj (Dict.erase fields k))
    | _ => none
  | .list xs => match x with
    | .num i => if i.den = 1 ∧ 0 ≤ i ∧ i.num.toNat < xs.length then
        some (.list (xs.eraseIdx i.num.toNat)) else none
    | _ => none
  | _ => none

def removeIndex (i : Option ℕ) : Json → Option Json
  | .list xs => i.map fun i => .list (xs.eraseIdx i)
  | _ => none

def isNull : Json → Bool
  | .null => true
  | _ => false

def Cond.eval (doc : Json) : Cond → Option Bool
  | isNull r => (r.eval params doc).map Painless.isNull
  | found r value expected => do
    let x ← value.eval params doc
    let i ← indexOf V x (← r.eval params doc)
    some (i.isSome = expected)
  | compares r value less => do
    let x ← value.eval params doc
    let c ← V.compareTo (← r.eval params doc) x
    some (if less then c < 0 else 0 < c)

/-- The conditions from the left, up to the first that holds. -/
def anyHolds (doc : Json) : List Cond → Option Bool
  | [] => some false
  | c :: cs => do
    if ← c.eval V params doc then some true else anyHolds doc cs

def Statement.exec (doc : Json) : Statement → Option Json
  | assign path value => do
    let x ← value.eval params doc
    Json.modifyAt (fun _ => some x) path doc
  | assignBoth path path' value => do
    let x ← value.eval params doc
    let doc ← Json.modifyAt (fun _ => some x) path' doc
    Json.modifyAt (fun _ => some x) path doc
  | augment path minus value => do
    let x ← value.eval params doc
    Json.modifyAt (fun y => if minus then V.minus y x else V.plus y x) path doc
  | add path value => do
    let x ← value.eval params doc
    Json.modifyAt (append x) path doc
  | remove path value => do
    let x ← value.eval params doc
    Json.modifyAt (removeKey x) path doc
  | removeFound path r value => do
    let x ← value.eval params doc
    let i ← indexOf V x (← r.eval params doc)
    Json.modifyAt (removeIndex i) path doc

def Line.exec (doc : Json) : Line → Option Json
  | simple s => s.exec V params doc
  | when conds body => do
    if ← anyHolds V params doc conds then body.exec V params doc else some doc

/-- The lines in their order. -/
def exec (doc : Json) : List Line → Option Json
  | [] => some doc
  | line :: lines => do
    exec (← line.exec V params doc) lines

/-- The other properties that lists have, and numbers. -/
def listProperties : List Str := ["length".toList]

def numberProperties : List Str := ["infinite".toList, "naN".toList]

/-- No part of the path is read as a property of a list or of a number. -/
def isDirect : List Str → Json → Bool
  | [], _ => true
  | k :: ks, .obj fields => isDirect ks (Json.entry fields k)
  | k :: ks, .list xs => k ∉ listProperties &&
      (Json.position k xs.length).all fun i => isDirect ks (xs.getD i .null)
  | k :: _, .num _ => k ∉ numberProperties
  | _ :: _, _ => true

/-- The lines read no such property in the document as they find it. -/
def direct (doc : Json) : List Line → Bool
  | [] => true
  | line :: lines =>
    line.reads.all (fun path => isDirect path doc) &&
      (line.exec V params doc).all fun doc => direct doc lines

end Semantics

/-- An engine for scripts that does what a text says that is one of the programs above. -/
structure Engine (V : Values) where
  run : Str → Dict Str Json → Json → Option Json
  reads : ∀ source params doc lines, parse source = some lines →
    direct V params doc lines = true → run source params doc = exec V params doc lines

/-- The engine that reads nothing else. -/
def reader (V : Values) : Engine V where
  run source params doc := (parse source).bind (exec V params doc)
  reads source params doc lines h _ := by simp [h]

end Painless
