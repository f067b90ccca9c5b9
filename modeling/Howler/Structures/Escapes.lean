import Mathlib.Data.List.Basic

namespace Structures

/-- A character of a text that is read from left to right, where a backslash escapes the next. -/
inductive Glyph where
  | plain (c : Char)
  | escaped (c : Char)
  deriving DecidableEq, Repr

namespace Glyph

def char : Glyph → Char
  | plain c | escaped c => c

def text : Glyph → List Char
  | plain c => [c]
  | escaped c => ['\\', c]

/-- The text of some glyphs. -/
def texts (gs : List Glyph) : List Char := gs.flatMap text

/-- The glyphs of a text. A backslash at its end escapes nothing. -/
def read : List Char → List Glyph
  | [] => []
  | [c] => [plain c]
  | c :: d :: cs => if c = '\\' then escaped d :: read cs else plain c :: read (d :: cs)

/-- A text without its escapes. -/
def unescape (s : List Char) : List Char := (read s).map char

@[simp] theorem texts_cons (g : Glyph) (gs : List Glyph) : texts (g :: gs) = g.text ++ texts gs :=
  List.flatMap_cons

theorem read_cons {c : Char} (hc : c ≠ '\\') (cs : List Char) :
    read (c :: cs) = plain c :: read cs := by
  cases cs with
  | nil => rfl
  | cons d cs => rw [read, if_neg hc]

theorem read_escape (c : Char) (cs : List Char) : read ('\\' :: c :: cs) = escaped c :: read cs := by
  rw [read, if_pos rfl]

/-- Glyphs are read from their text, unless one of them is an open escape. -/
theorem read_texts {gs : List Glyph} (h : plain '\\' ∉ gs) (rest : List Char) :
    read (texts gs ++ rest) = gs ++ read rest := by
  induction gs with
  | nil => rfl
  | cons g gs ih =>
    have htail := ih fun hmem => h (List.mem_cons_of_mem _ hmem)
    cases g with
    | plain c =>
      have hc : c ≠ '\\' := by
        intro heq
        exact h (by simp [heq])
      rw [texts_cons, text, List.append_assoc, List.singleton_append, read_cons hc, htail]
      rfl
    | escaped c =>
      have hcons : texts (escaped c :: gs) ++ rest = '\\' :: c :: (texts gs ++ rest) := rfl
      rw [hcons, read_escape, htail]
      rfl

/-- A text that does not end in an open escape is read before what follows it. -/
theorem read_append (s rest : List Char) (h : (read s).getLast? ≠ some (plain '\\')) :
    read (s ++ rest) = read s ++ read rest := by
  induction s using read.induct with
  | case1 => rfl
  | case2 c =>
    have hc : c ≠ '\\' := by
      intro heq
      exact h (by simp [read, heq])
    exact read_cons hc rest
  | case3 d cs ih =>
    have htail : (read cs).getLast? ≠ some (plain '\\') := by
      intro hlast
      apply h
      rw [read_escape, List.getLast?_cons, hlast]
      rfl
    rw [List.cons_append, List.cons_append, read_escape, read_escape, ih htail]
    rfl
  | case4 c d cs hc ih =>
    have htail : (read (d :: cs)).getLast? ≠ some (plain '\\') := by
      intro hlast
      apply h
      rw [read_cons hc, List.getLast?_cons, hlast]
      rfl
    rw [List.cons_append, read_cons hc, ih htail, read_cons hc]
    rfl

end Glyph

end Structures
