import Howler.Datastore.Scripts
import Howler.Painless.Lexing

namespace Howler.Datastore

open Python Structures Painless

/-- The tokens of an operation's statement. -/
def opTokens (op : UpdateOperation) (src val : List Str) : List Str :=
  match op with
  | .set => src ++ ["=".toList] ++ val
  | .delete => src ++ [".".toList, "remove".toList, "(".toList] ++ val ++ [")".toList]
  | .append => src ++ [".".toList, "add".toList, "(".toList] ++ val ++ [")".toList]
  | .appendIfMissing =>
    ["if".toList, "(".toList] ++ src ++ [".".toList, "indexOf".toList, "(".toList] ++ val ++
      [")".toList, "==".toList, "-".toList, "1".toList, ")".toList, "\x7b".toList] ++ src ++
      [".".toList, "add".toList, "(".toList] ++ val ++ [")".toList, "\x7d".toList]
  | .remove =>
    ["if".toList, "(".toList] ++ src ++ [".".toList, "indexOf".toList, "(".toList] ++ val ++
      [")".toList, "!=".toList, "-".toList, "1".toList, ")".toList, "\x7b".toList] ++ src ++
      [".".toList, "remove".toList, "(".toList] ++ src ++
      [".".toList, "indexOf".toList, "(".toList] ++ val ++ [")".toList, ")".toList, "\x7d".toList]
  | .inc => src ++ ["+=".toList] ++ val
  | .dec => src ++ ["-=".toList] ++ val
  | .max =>
    ["if".toList, "(".toList] ++ src ++ ["==".toList, "null".toList, "||".toList] ++ src ++
      [".".toList, "compareTo".toList, "(".toList] ++ val ++
      [")".toList, "<".toList, "0".toList, ")".toList, "\x7b".toList] ++ src ++ ["=".toList] ++ val ++
      ["\x7d".toList]
  | .min =>
    ["if".toList, "(".toList] ++ src ++ ["==".toList, "null".toList, "||".toList] ++ src ++
      [".".toList, "compareTo".toList, "(".toList] ++ val ++
      [")".toList, ">".toList, "0".toList, ")".toList, "\x7b".toList] ++ src ++ ["=".toList] ++ val ++
      ["\x7d".toList]

theorem dot_key (key : Str) : '.' :: key = (pathOf key).flatMap fun n => '.' :: n := by
  have hkey : ['.'].intercalate (key.splitOn '.') = key := List.intercalate_splitOn '.'
  have hjoin : ∀ parts : List Str, parts ≠ [] →
      '.' :: ['.'].intercalate parts = parts.flatMap fun n => '.' :: n := by
    intro parts hne
    induction parts with
    | nil => exact absurd rfl hne
    | cons n parts ih =>
      cases parts with
      | nil => simp
      | cons m parts =>
        have htail := ih (by simp)
        rw [List.intercalate_cons_cons, List.flatMap_cons, ← htail]
        simp
  calc '.' :: key = '.' :: ['.'].intercalate (key.splitOn '.') := by rw [hkey]
    _ = _ := hjoin _ (splitOn_ne_nil '.' key)

theorem lex_source {key : Str} (hkey : ∀ n ∈ pathOf key, isName n = true) :
    lex ("ctx._source.".toList ++ key) = sourceTokens (pathOf key) := by
  have hnames : ∀ n ∈ "_source".toList :: pathOf key, isName n = true := by
    intro n hn
    cases List.mem_cons.mp hn with
    | inl heq => rw [heq]; decide +kernel
    | inr hmem => exact hkey n hmem
  have hsplit : "ctx._source.".toList ++ key =
      "ctx".toList ++ ("_source".toList :: pathOf key).flatMap fun n => '.' :: n := by
    rw [List.flatMap_cons, ← dot_key]
    rfl
  rw [hsplit, lex_append, lex_dotted hnames]
  · rfl
  · right
    rfl

theorem isName_valueName (n : ℕ) : isName (valueName n) = true := by
  have hdigits : ∀ c ∈ Nat.toDigits 10 n, (c.isAlphanum || decide (c = '_')) = true := by
    intro c hc
    have hdigit : c.isDigit = true := Nat.isDigit_of_mem_toDigits (by omega) (by omega) hc
    simp [Char.isAlphanum, hdigit]
  have hcons : valueName n = 'v' :: ("alue".toList ++ Nat.toDigits 10 n) := rfl
  have hv : ('v'.isAlpha || decide ('v' = '_')) = true := by decide
  rw [hcons, isName, if_pos hv, List.all_append, Bool.and_eq_true, List.all_eq_true,
    List.all_eq_true]
  exact ⟨by simp, hdigits⟩

theorem lex_param (n : ℕ) : lex ("params.".toList ++ valueName n) = paramTokens (valueName n) := by
  have hsplit : "params.".toList ++ valueName n =
      "params".toList ++ [valueName n].flatMap fun n => '.' :: n := by
    simp
  rw [hsplit, lex_append, lex_dotted]
  · rfl
  · simpa using isName_valueName n
  · right
    rfl

theorem meets_opParts (op : UpdateOperation) (src val : Str) :
    (opParts op src val).IsChain Meets := by
  cases op with
  | _ => simp [opParts, Meets, isLoose, classOf]

theorem flatMap_opParts (op : UpdateOperation) (src val : Str) :
    (opParts op src val).flatMap lex = opTokens op (lex src) (lex val) := by
  have hset : lex " = ".toList = ["=".toList] := by decide +kernel
  have hinc : lex " += ".toList = ["+=".toList] := by decide +kernel
  have hdec : lex " -= ".toList = ["-=".toList] := by decide +kernel
  have hadd : lex ".add(".toList = [".".toList, "add".toList, "(".toList] := by decide +kernel
  have hremove : lex ".remove(".toList = [".".toList, "remove".toList, "(".toList] := by
    decide +kernel
  have hindex : lex ".indexOf(".toList = [".".toList, "indexOf".toList, "(".toList] := by
    decide +kernel
  have hcompare : lex ".compareTo(".toList = [".".toList, "compareTo".toList, "(".toList] := by
    decide +kernel
  have hif : lex "if (".toList = ["if".toList, "(".toList] := by decide +kernel
  have hmissing : lex ") == -1) ".toList =
      [")".toList, "==".toList, "-".toList, "1".toList, ")".toList] := by decide +kernel
  have hfound : lex ") != -1) ".toList =
      [")".toList, "!=".toList, "-".toList, "1".toList, ")".toList] := by decide +kernel
  have hless : lex ") < 0) ".toList = [")".toList, "<".toList, "0".toList, ")".toList] := by
    decide +kernel
  have hgreater : lex ") > 0) ".toList = [")".toList, ">".toList, "0".toList, ")".toList] := by
    decide +kernel
  have hnull : lex " == null || ".toList = ["==".toList, "null".toList, "||".toList] := by
    decide +kernel
  have hopen : lex "\x7b".toList = ["\x7b".toList] := by decide +kernel
  have hclose : lex "\x7d".toList = ["\x7d".toList] := by decide +kernel
  have hend : lex ")".toList = [")".toList] := by decide +kernel
  have hendBlock : lex ")\x7d".toList = [")".toList, "\x7d".toList] := by decide +kernel
  have hendBoth : lex "))\x7d".toList = [")".toList, ")".toList, "\x7d".toList] := by decide +kernel
  cases op with
  | _ => simp only [opParts, opTokens, List.flatMap_cons, List.flatMap_nil, List.append_nil,
      List.append_assoc, List.cons_append, List.nil_append, hset, hinc, hdec, hadd, hremove, hindex,
      hcompare, hif, hmissing, hfound, hless, hgreater, hnull, hopen, hclose, hend, hendBlock,
      hendBoth]

/-- The tokens of a statement, of which the key gives those of a path. -/
theorem lex_opSource {op : UpdateOperation} {key : Str} (n : ℕ)
    (hkey : ∀ n ∈ pathOf key, isName n = true) :
    lex (opSource op key n) =
      opTokens op (sourceTokens (pathOf key)) (paramTokens (valueName n)) := by
  rw [opSource, lex_flatten (meets_opParts _ _ _), flatMap_opParts, lex_source hkey, lex_param]

/-- The line that an operation's statement is. -/
def opLine (path : List Str) (name : Str) : UpdateOperation → Line
  | .set => .simple (.assign path (.param name))
  | .delete => .simple (.remove path (.param name))
  | .append => .simple (.add path (.param name))
  | .appendIfMissing =>
    .when [.found (.source path) (.param name) false] (.add path (.param name))
  | .remove =>
    .when [.found (.source path) (.param name) true]
      (.removeFound path (.source path) (.param name))
  | .inc => .simple (.augment path false (.param name))
  | .dec => .simple (.augment path true (.param name))
  | .max =>
    .when [.isNull (.source path), .compares (.source path) (.param name) true]
      (.assign path (.param name))
  | .min =>
    .when [.isNull (.source path), .compares (.source path) (.param name) false]
      (.assign path (.param name))

section Parsing

variable {path : List Str} {name : Str} (hpath : ∀ n ∈ path, isName n = true)
  (hname : isName name = true)

include hpath

theorem parseSimple_source {rest : List Str} (hrest : Stops rest) :
    parseSimple (sourceTokens path ++ rest) = parseAction path rest := by
  rw [parseSimple, parseRef_source hpath hrest]
  rfl

theorem parseCond_source {rest : List Str} (hrest : Stops rest) :
    parseCond (sourceTokens path ++ rest) = parseTest (.source path) rest := by
  rw [parseCond, parseRef_source hpath hrest]
  rfl

theorem parseLine_simple {s : Statement} {tokens rest : List Str}
    (hs : parseAction path tokens = some (s, rest)) (hstops : Stops tokens) :
    parseLine (sourceTokens path ++ tokens) = some (.simple s, rest) := by
  have hcons : sourceTokens path ++ tokens =
      ['c', 't', 'x'] :: (dotTokens ("_source".toList :: path) ++ tokens) := rfl
  have hsimple := parseSimple_source hpath hstops
  rw [hs, hcons] at hsimple
  rw [hcons, parseLine, hsimple]
  · rfl
  · intro ts h
    exact absurd (List.cons.inj h).1 (by decide)

/-- A block with one condition. -/
theorem parseLine_block {cond : Cond} {s : Statement} {tokens tokens' rest : List Str}
    (hcond : parseTest (.source path) tokens =
      some (cond, [')'] :: ['{'] :: (sourceTokens path ++ tokens')))
    (hstops : Stops tokens) (hs : parseAction path tokens' = some (s, ['}'] :: rest))
    (hstops' : Stops tokens') :
    parseLine (['i', 'f'] :: ['('] :: (sourceTokens path ++ tokens)) =
      some (.when [cond] s, rest) := by
  have hbody := parseSimple_source hpath hstops'
  rw [hs] at hbody
  rw [parseLine, parseConds, parseCond_source hpath hstops, hcond]
  simp [hbody]

/-- A block for a value that is null or meets a condition. -/
theorem parseLine_nullBlock {cond : Cond} {s : Statement} {tokens tokens' rest : List Str}
    (hcond : parseTest (.source path) tokens =
      some (cond, [')'] :: ['{'] :: (sourceTokens path ++ tokens')))
    (hstops : Stops tokens) (hs : parseAction path tokens' = some (s, ['}'] :: rest))
    (hstops' : Stops tokens') :
    parseLine (['i', 'f'] :: ['('] :: (sourceTokens path ++
      ['=', '='] :: ['n', 'u', 'l', 'l'] :: ['|', '|'] :: (sourceTokens path ++ tokens))) =
      some (.when [.isNull (.source path), cond] s, rest) := by
  have hbody := parseSimple_source hpath hstops'
  have hsecond := parseCond_source hpath hstops
  rw [hs] at hbody
  rw [hcond] at hsecond
  rw [parseLine, parseConds, parseCond_source hpath (stops_cons _ (by decide)), parseTest]
  simp [hsecond, hbody]

omit hpath
include hname

theorem parseAction_assign {rest : List Str} (hrest : Stops rest) :
    parseAction path (['='] :: (paramTokens name ++ rest)) =
      some (.assign path (.param name), rest) := by
  rw [parseAction, parseRef_param hname hrest]
  rfl

theorem parseAction_augment {rest : List Str} (hrest : Stops rest) :
    parseAction path (['+', '='] :: (paramTokens name ++ rest)) =
      some (.augment path false (.param name), rest) ∧
    parseAction path (['-', '='] :: (paramTokens name ++ rest)) =
      some (.augment path true (.param name), rest) := by
  constructor
  · rw [parseAction, parseRef_param hname hrest]
    rfl
  · rw [parseAction, parseRef_param hname hrest]
    rfl

theorem parseAction_call (rest : List Str) :
    parseAction path (['.'] :: ['a', 'd', 'd'] :: ['('] :: (paramTokens name ++ [')'] :: rest)) =
      some (.add path (.param name), rest) ∧
    parseAction path
        (['.'] :: ['r', 'e', 'm', 'o', 'v', 'e'] :: ['('] :: (paramTokens name ++ [')'] :: rest)) =
      some (.remove path (.param name), rest) := by
  have hclose : Stops ([')'] :: rest) := stops_cons rest (by decide)
  constructor
  · rw [parseAction, parseRef_param hname hclose]
    rfl
  · rw [parseAction, parseRef_param hname hclose]
    rfl

theorem parseTest_found (r : Ref) (rest : List Str) :
    parseTest r (['.'] :: ['i', 'n', 'd', 'e', 'x', 'O', 'f'] :: ['('] ::
        (paramTokens name ++ [')'] :: ['=', '='] :: ['-'] :: ['1'] :: rest)) =
      some (.found r (.param name) false, rest) ∧
    parseTest r (['.'] :: ['i', 'n', 'd', 'e', 'x', 'O', 'f'] :: ['('] ::
        (paramTokens name ++ [')'] :: ['!', '='] :: ['-'] :: ['1'] :: rest)) =
      some (.found r (.param name) true, rest) := by
  constructor
  · rw [parseTest, parseRef_param hname (stops_cons _ (by decide))]
    rfl
  · rw [parseTest, parseRef_param hname (stops_cons _ (by decide))]
    rfl

theorem parseTest_compares (r : Ref) (rest : List Str) :
    parseTest r (['.'] :: ['c', 'o', 'm', 'p', 'a', 'r', 'e', 'T', 'o'] :: ['('] ::
        (paramTokens name ++ [')'] :: ['<'] :: ['0'] :: rest)) =
      some (.compares r (.param name) true, rest) ∧
    parseTest r (['.'] :: ['c', 'o', 'm', 'p', 'a', 'r', 'e', 'T', 'o'] :: ['('] ::
        (paramTokens name ++ [')'] :: ['>'] :: ['0'] :: rest)) =
      some (.compares r (.param name) false, rest) := by
  constructor
  · rw [parseTest, parseRef_param hname (stops_cons _ (by decide))]
    rfl
  · rw [parseTest, parseRef_param hname (stops_cons _ (by decide))]
    rfl

include hpath

theorem parseAction_removeFound (rest : List Str) :
    parseAction path (['.'] :: ['r', 'e', 'm', 'o', 'v', 'e'] :: ['('] ::
        (sourceTokens path ++ ['.'] :: ['i', 'n', 'd', 'e', 'x', 'O', 'f'] :: ['('] ::
          (paramTokens name ++ [')'] :: [')'] :: rest))) =
      some (.removeFound path (.source path) (.param name), rest) := by
  have hvalue := parseRef_param hname (stops_cons (t := [')']) ([')'] :: rest) (by decide))
  rw [parseAction, parseRef_source hpath (stops_call _ _)]
  simp [hvalue]

/-- A statement that is written for a path and a parameter is read as its line. -/
theorem parseLine_opTokens (op : UpdateOperation) {rest : List Str} (hrest : Stops rest) :
    parseLine (opTokens op (sourceTokens path) (paramTokens name) ++ rest) =
      some (opLine path name op, rest) := by
  have hcall := @parseAction_call path name hname
  have hfound := parseTest_found hname (.source path)
  have hcompares := parseTest_compares hname (.source path)
  have haugment := @parseAction_augment path name hname rest hrest
  have hassign := @parseAction_assign path name hname rest hrest
  have hassignBlock :=
    @parseAction_assign path name hname _ (stops_cons (t := ['}']) rest (by decide))
  cases op with
  | set =>
    have hline := parseLine_simple hpath hassign (stops_cons _ (by decide))
    simpa [opTokens, opLine] using hline
  | delete =>
    have hline := parseLine_simple hpath (hcall rest).2 (stops_call _ _)
    simpa [opTokens, opLine] using hline
  | append =>
    have hline := parseLine_simple hpath (hcall rest).1 (stops_call _ _)
    simpa [opTokens, opLine] using hline
  | appendIfMissing =>
    have hline := parseLine_block hpath (hfound _).1 (stops_call _ _) (hcall (['}'] :: rest)).1
      (stops_call _ _)
    simpa [opTokens, opLine] using hline
  | remove =>
    have hline := parseLine_block hpath (hfound _).2 (stops_call _ _)
      (parseAction_removeFound hpath hname (['}'] :: rest)) (stops_call _ _)
    simpa [opTokens, opLine] using hline
  | inc =>
    have hline := parseLine_simple hpath haugment.1 (stops_cons _ (by decide))
    simpa [opTokens, opLine] using hline
  | dec =>
    have hline := parseLine_simple hpath haugment.2 (stops_cons _ (by decide))
    simpa [opTokens, opLine] using hline
  | max =>
    have hline := parseLine_nullBlock hpath (hcompares _).1 (stops_call _ _) hassignBlock
      (stops_cons _ (by decide))
    simpa [opTokens, opLine] using hline
  | min =>
    have hline := parseLine_nullBlock hpath (hcompares _).2 (stops_call _ _) hassignBlock
      (stops_cons _ (by decide))
    simpa [opTokens, opLine] using hline

end Parsing

end Howler.Datastore
