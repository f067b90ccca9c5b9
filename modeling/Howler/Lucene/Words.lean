import Howler.Python.Dict
import Howler.Python.Fnmatch

namespace Howler.Lucene

open Python

/-- A value of a flat record. Values of other types (floats, dates) have the text they are given. -/
inductive Scalar where
  | none
  | bool (b : Bool)
  | int (n : ℤ)
  | str (s : Str)
  | other (text : Str)
  deriving DecidableEq

/-- `str(value)`. -/
def Scalar.text : Scalar → Str
  | .none => "None".toList
  | .bool true => "True".toList
  | .bool false => "False".toList
  | .int n => (toString n).toList
  | .str s => s
  | .other text => text

inductive Value where
  | scalar (v : Scalar)
  | list (vs : List Scalar)
  deriving DecidableEq

inductive TermType where
  | word
  | phrase
  deriving DecidableEq

/-- The lower-case mapping of the interpreter. -/
structure Lowering where
  lower : Str → Str
  lower_ascii : ∀ s : Str, (∀ c ∈ s, c.toNat < 128) → lower s = s.map Char.toLower

section Normalize

def isAsciiAlnum (c : Char) : Bool := c.toNat < 128 && c.isAlphanum

/-- `re.match(r"^[a-zA-Z0-9]+$", value)`: the end may come before a last line feed. -/
def isIdentifier (value : Str) : Bool :=
  let core := if value.getLast? = some '\n' then value.dropLast else value
  core ≠ [] && core.all isAsciiAlnum

/-- The punctuation that is kept. -/
def isKept (c : Char) : Bool := c ∈ ".,@_:/;()-".toList

/-- `[a-z0-9.,@_:/;()\-]`. -/
def isLowerKept (c : Char) : Bool := isAsciiAlnum c && !c.isUpper || isKept c

/-- `[A-Za-z0-9.,@_:/;()\-]`. -/
def isAnyKept (c : Char) : Bool := isAsciiAlnum c || isKept c

/-- The letters that `[a-z]` matches besides the ASCII ones if the case is ignored. -/
def isCaseVariant (c : Char) : Bool := c ∈ ['\u0130', '\u0131', '\u017f', '\u212a']

variable (low : Lowering)

def normalizePhrase (value : Str) (type : TermType) : List Str :=
  if isIdentifier value then [value, low.lower value]
  else match type with
    | .word =>
      [(low.lower value).filter isLowerKept, value.filter isAnyKept] ++
        if ' ' ∈ value then
          [(low.lower value).filter fun c => isLowerKept c || c = ' ',
            value.filter fun c => isAnyKept c || c = ' ']
        else []
    | .phrase => [value.filter fun c => isAnyKept c || isCaseVariant c || c = ' ']

end Normalize

section Sanitize

/-- `re.sub(r"^F$", ...)` for a letter. -/
def expandLetter (letter : Char) (word value : Str) : Str :=
  if value = [letter] then word else if value = [letter, '\n'] then word ++ ['\n'] else value

/-- `re.sub(r'"(.+)"', r"\1", line)`: the first and the last quotation mark of a line go, if there is
something between them. -/
def unquoteLine (line : Str) : Str :=
  match line.dropWhile (· ≠ '"') with
  | [] => line
  | _ :: rest =>
    match rest.reverse.dropWhile (· ≠ '"') with
    | [] | [_] => line
    | _ :: inner =>
      line.takeWhile (· ≠ '"') ++ inner.reverse ++ (rest.reverse.takeWhile (· ≠ '"')).reverse

def unquote (value : Str) : Str := join ['\n'] ((value.splitOn '\n').map unquoteLine)

/-- `__sanitize_value`. -/
def sanitizeValue (value : Str) : Str :=
  let value := expandLetter 'T' "True".toList (expandLetter 'F' "False".toList value)
  replace "\\ ".toList " ".toList (replace "\\:".toList ":".toList (unquote value))

end Sanitize

section Visit

variable (low : Lowering)

/-- `__build_candidates`. -/
def buildCandidates (value : Value) (type : TermType) : List Str :=
  match value with
  | .list vs => vs.flatMap fun entry => normalizePhrase low entry.text type
  | .scalar v => normalizePhrase low v.text type

/-- `context["hit"].get(field)`. -/
def Dict.getValue (hit : Dict Str Value) (field : Str) : Value := (hit.get? field).getD (.scalar .none)

/-- The field name that asks for a field to be there. -/
def existsField : Str := "_exists_".toList

/-- `__handle_word_or_phrase`. -/
def handleWordOrPhrase (hit : Dict Str Value) (field : Option Str) (word : Str) (type : TermType) :
    Bool :=
  match field with
  | none => hit.any fun e => e.2 = .scalar (.str (sanitizeValue word))
  | some field =>
    if field = existsField then Dict.getValue hit word ≠ .scalar .none
    else (buildCandidates low (Dict.getValue hit field) type).any fun candidate =>
      fnmatch candidate (sanitizeValue word)

end Visit

section Meaning

variable {low : Lowering} {hit : Dict Str Value} {field word : Str} {type : TermType}

/-- The values that a record has for a field. -/
def valuesOf (hit : Dict Str Value) (field : Str) : List Scalar :=
  match hit.get? field with
  | some (.scalar v) => [v]
  | some (.list vs) => vs
  | none => []

/-- Some normalized form of a value matches the pattern of a word. -/
def Fits (low : Lowering) (word : Str) (type : TermType) (v : Scalar) : Prop :=
  ∃ candidate ∈ normalizePhrase low v.text type, fnmatch candidate (sanitizeValue word) = true

/-- What a word or phrase asks of a record: the field `_exists_` asks for a value of the field that
the word names. -/
def Asked (low : Lowering) (hit : Dict Str Value) (field word : Str) (type : TermType) : Prop :=
  if field = existsField then ∃ v, hit.get? word = some v ∧ v ≠ .scalar .none
  else ∃ v ∈ valuesOf hit field, v ≠ .none ∧ Fits low word type v

/-- The record has no value for the field, or a null. -/
def Lacks (hit : Dict Str Value) (field : Str) : Prop :=
  hit.get? field = none ∨ .none ∈ valuesOf hit field

theorem lower_none (low : Lowering) : low.lower "None".toList = "none".toList :=
  low.lower_ascii _ fun c hc => by
    have hall : ("None".toList.all fun c => decide (c.toNat < 128)) = true := by decide
    exact of_decide_eq_true (List.all_eq_true.mp hall c hc)

/-- A null has the forms of its text. -/
theorem fits_none : Fits low word type .none ↔
    fnmatch "None".toList (sanitizeValue word) = true ∨
      fnmatch "none".toList (sanitizeValue word) = true := by
  have hforms : normalizePhrase low Scalar.none.text type = ["None".toList, "none".toList] := by
    have hid : isIdentifier Scalar.none.text = true := by decide
    rw [normalizePhrase.eq_def, if_pos hid]
    exact congrArg (["None".toList, ·]) (lower_none low)
  rw [Fits, hforms]
  simp

theorem mem_buildCandidates {candidate : Str} :
    candidate ∈ buildCandidates low (Dict.getValue hit field) type ↔
      (hit.get? field = none ∧ candidate ∈ normalizePhrase low Scalar.none.text type) ∨
      ∃ v ∈ valuesOf hit field, candidate ∈ normalizePhrase low v.text type := by
  rw [Dict.getValue, valuesOf]
  cases hit.get? field with
  | none => simp [buildCandidates]
  | some v => cases v <;> simp [buildCandidates]

/-- The visitor takes a value that is not there for its text. -/
theorem handleWordOrPhrase_iff (hfield : field ≠ existsField) :
    handleWordOrPhrase low hit (some field) word type = true ↔
      (hit.get? field = none ∧ Fits low word type .none) ∨
      ∃ v ∈ valuesOf hit field, Fits low word type v := by
  have hany : handleWordOrPhrase low hit (some field) word type = true ↔
      ∃ candidate ∈ buildCandidates low (Dict.getValue hit field) type,
        fnmatch candidate (sanitizeValue word) = true := by
    rw [handleWordOrPhrase, if_neg hfield, List.any_eq_true]
  rw [hany]
  constructor
  · intro h
    obtain ⟨candidate, hmem, hmatch⟩ := h
    cases mem_buildCandidates.mp hmem with
    | inl hnone => exact .inl ⟨hnone.1, candidate, hnone.2, hmatch⟩
    | inr hvalue =>
      obtain ⟨v, hv, hcandidate⟩ := hvalue
      exact .inr ⟨v, hv, candidate, hcandidate, hmatch⟩
  · intro h
    cases h with
    | inl hnone =>
      obtain ⟨hget, candidate, hcandidate, hmatch⟩ := hnone
      exact ⟨candidate, mem_buildCandidates.mpr (.inl ⟨hget, hcandidate⟩), hmatch⟩
    | inr hvalue =>
      obtain ⟨v, hv, candidate, hcandidate, hmatch⟩ := hvalue
      exact ⟨candidate, mem_buildCandidates.mpr (.inr ⟨v, hv, hcandidate⟩), hmatch⟩

/-- A field that is not there matches the patterns that match the text of a null. -/
theorem handleWordOrPhrase_absent (hfield : field ≠ existsField) (h : hit.get? field = none) :
    handleWordOrPhrase low hit (some field) word type = true ↔
      fnmatch "None".toList (sanitizeValue word) = true ∨
        fnmatch "none".toList (sanitizeValue word) = true := by
  rw [handleWordOrPhrase_iff hfield, ← @fits_none low _ type]
  simp [h, valuesOf]

/-- The visitor answers yes only where it is asked for what the record has, if and only if the
pattern does not match the text of a null that is taken for a value. -/
theorem word_or_phrase_iff (low : Lowering) (hit : Dict Str Value) (field word : Str)
    (type : TermType) :
    (handleWordOrPhrase low hit (some field) word type = true → Asked low hit field word type) ↔
      (field ≠ existsField → Lacks hit field →
        fnmatch "None".toList (sanitizeValue word) = true ∨
          fnmatch "none".toList (sanitizeValue word) = true →
        ∃ v ∈ valuesOf hit field, v ≠ .none ∧ Fits low word type v) := by
  by_cases hfield : field = existsField
  · have hasked : handleWordOrPhrase low hit (some field) word type = true →
        Asked low hit field word type := by
      intro h
      rw [handleWordOrPhrase, if_pos hfield, Dict.getValue] at h
      rw [Asked, if_pos hfield]
      cases hget : hit.get? word with
      | none => simp [hget] at h
      | some v => exact ⟨v, rfl, by simpa [hget] using h⟩
    exact ⟨fun _ hne => absurd hfield hne, fun _ => hasked⟩
  · rw [Asked, if_neg hfield, handleWordOrPhrase_iff hfield, ← @fits_none low _ type]
    constructor
    · intro h _ hlacks hfits
      refine h ?_
      cases hlacks with
      | inl hnone => exact .inl ⟨hnone, hfits⟩
      | inr hnull => exact .inr ⟨.none, hnull, hfits⟩
    · intro h htrue
      cases htrue with
      | inl hnone => exact h hfield (.inl hnone.1) hnone.2
      | inr hvalue =>
        obtain ⟨v, hv, hfits⟩ := hvalue
        by_cases hnull : v = .none
        · subst hnull
          exact h hfield (.inr hv) hfits
        · exact ⟨v, hv, hnull, hfits⟩

/-- The lower-case mapping of ASCII text. -/
def asciiLowering : Lowering := ⟨fun s => s.map Char.toLower, fun _ _ => rfl⟩

/-- A record without the field matches a star, and the word None. -/
theorem absent_field_matches :
    ["*".toList, "None".toList, "n*".toList].Forall fun word =>
      handleWordOrPhrase asciiLowering [] (some "status".toList) word .word = true ∧
        ¬ Asked asciiLowering [] "status".toList word .word := by
  have hasked : ∀ word, ¬ Asked asciiLowering [] "status".toList word .word := by
    intro word h
    rw [Asked, if_neg (by decide)] at h
    obtain ⟨v, hv, -⟩ := h
    contradiction
  have hhandle : ∀ word ∈ ["*".toList, "None".toList, "n*".toList],
      handleWordOrPhrase asciiLowering [] (some "status".toList) word .word = true := by decide
  exact List.forall_iff_forall_mem.mpr fun word hword => ⟨hhandle word hword, hasked word⟩

end Meaning

end Howler.Lucene
