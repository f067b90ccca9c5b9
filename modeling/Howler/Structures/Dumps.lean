import Howler.Structures.Json

namespace Structures.Json

open Python

section Escape

/-- A hexadecimal digit. -/
def hexDigit (n : ℕ) : Char := Nat.digitChar (n % 16)

/-- `'\\u{0:04x}'.format(n)`. -/
def unicodeEscape (n : ℕ) : Str :=
  ['\\', 'u', hexDigit (n / 4096), hexDigit (n / 256), hexDigit (n / 16), hexDigit n]

/-- A character in a JSON text that is ASCII. -/
def escapeChar (c : Char) : Str :=
  if c = '"' then ['\\', '"']
  else if c = '\\' then ['\\', '\\']
  else if c = '\n' then ['\\', 'n']
  else if c = '\r' then ['\\', 'r']
  else if c = '\t' then ['\\', 't']
  else if c.toNat = 0xc then ['\\', 'f']
  else if c.toNat = 0x8 then ['\\', 'b']
  else if ' ' ≤ c ∧ c ≤ '~' then [c]
  else if c.toNat < 0x10000 then unicodeEscape c.toNat
  else
    let n := c.toNat - 0x10000
    unicodeEscape (0xd800 + n / 1024 % 1024) ++ unicodeEscape (0xdc00 + n % 1024)

def quote (s : Str) : Str := ['"'] ++ s.flatMap escapeChar ++ ['"']

theorem hexDigit_ne (n : ℕ) : hexDigit n ≠ '\n' := by
  have hdigits : ∀ k < 16, Nat.digitChar k ≠ '\n' := by decide
  exact hdigits _ (Nat.mod_lt _ (by decide))

theorem not_mem_unicodeEscape (n : ℕ) : '\n' ∉ unicodeEscape n := by
  simp [unicodeEscape, (hexDigit_ne _).symm]

theorem not_mem_escapeChar (c : Char) : '\n' ∉ escapeChar c := by
  unfold escapeChar
  split_ifs with hquote hslash hline
  all_goals simp [not_mem_unicodeEscape]
  exact fun heq => hline heq.symm

theorem not_mem_quote (s : Str) : '\n' ∉ quote s := by
  simp [quote, not_mem_escapeChar]

end Escape

section Dumps

variable (number : ℚ → Str)

mutual

/-- `json.dumps`, with the text of numbers. -/
def dumps : Json → Str
  | null => "null".toList
  | bool b => if b then "true".toList else "false".toList
  | num n => number n
  | str s => quote s
  | list xs => ['['] ++ join ", ".toList (dumpsItems xs) ++ [']']
  | obj fields => ['\x7b'] ++ join ", ".toList (dumpsFields fields) ++ ['\x7d']

def dumpsItems : List Json → List Str
  | [] => []
  | j :: xs => dumps j :: dumpsItems xs

def dumpsFields : List (Str × Json) → List Str
  | [] => []
  | (k, j) :: fields => (quote k ++ ": ".toList ++ dumps j) :: dumpsFields fields

end

theorem not_mem_join {c : Char} {sep : Str} {xs : List Str} (hsep : c ∉ sep)
    (h : ∀ x ∈ xs, c ∉ x) : c ∉ join sep xs := by
  induction xs with
  | nil => simp [join]
  | cons x xs ih =>
    have htail := ih fun y hy => h y (List.mem_cons_of_mem _ hy)
    have hhead := h x (List.mem_cons_self ..)
    cases xs with
    | nil => simpa [join] using hhead
    | cons y ys =>
      have hjoin : join sep (x :: y :: ys) = x ++ sep ++ join sep (y :: ys) := by
        simp [join]
      rw [hjoin]
      simp only [List.mem_append, not_or]
      exact ⟨⟨hhead, hsep⟩, htail⟩

theorem mem_dumpsItems {s : Str} {xs : List Json} :
    s ∈ dumpsItems number xs ↔ ∃ x ∈ xs, s = dumps number x := by
  induction xs with
  | nil => simp [dumpsItems]
  | cons x xs ih => simp [dumpsItems, ih]

theorem mem_dumpsFields {s : Str} {fields : List (Str × Json)} :
    s ∈ dumpsFields number fields ↔
      ∃ e ∈ fields, s = quote e.1 ++ ": ".toList ++ dumps number e.2 := by
  induction fields with
  | nil => simp [dumpsFields]
  | cons e fields ih =>
    obtain ⟨k, v⟩ := e
    simp [dumpsFields, ih]

/-- A dumped value is one line. -/
theorem not_mem_dumps (hnumber : ∀ q, '\n' ∉ number q) (j : Json) : '\n' ∉ dumps number j := by
  induction j using treeInduction with
  | leaf j hlist hobj =>
    cases j with
    | null => simp [dumps]
    | bool b => cases b <;> simp [dumps]
    | num n => exact hnumber n
    | str s => exact not_mem_quote s
    | list xs => exact absurd rfl (hlist xs)
    | obj fields => exact absurd rfl (hobj fields)
  | list xs ih =>
    have hjoin : '\n' ∉ join [',', ' '] (dumpsItems number xs) := by
      refine not_mem_join (by decide) fun s hs => ?_
      obtain ⟨x, hx, rfl⟩ := (mem_dumpsItems number).mp hs
      exact ih x hx
    simp [dumps, hjoin]
  | obj fields ih =>
    have hjoin : '\n' ∉ join [',', ' '] (dumpsFields number fields) := by
      refine not_mem_join (by decide) fun s hs => ?_
      obtain ⟨e, he, rfl⟩ := (mem_dumpsFields number).mp hs
      simp [not_mem_quote, ih e he]
    simp [dumps, hjoin]

end Dumps

end Structures.Json
