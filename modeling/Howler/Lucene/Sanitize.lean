import Howler.Python.Text
import Howler.Structures.Escapes

namespace Howler.Lucene

open Python Structures Glyph

/-- The characters that the regular expression of `sanitize_lucene_query` escapes. -/
def operatorChars : List Char :=
  ['^', '"', '~', '*', '?', ':', '\\', '/', '(', ')', '[', ']', '{', '}', '-', '!', '+']

/-- `re.sub` with one character of the class. -/
def escapeOperators (query : Str) : Str :=
  query.flatMap fun c => if c ∈ operatorChars then ['\\', c] else [c]

def sanitizeLuceneQuery (query : Str) : Str :=
  replace ['|', '|'] ['\\', '|', '|'] (replace ['&', '&'] ['\\', '&', '&'] (escapeOperators query))

/-- The glyphs of a query after the first pass. -/
def glyphs (query : Str) : List Glyph :=
  query.map fun c => if c ∈ operatorChars then escaped c else plain c

/-- The second pass, for one character: of two that follow each other the first is escaped. -/
def pairUp (c : Char) : List Glyph → List Glyph
  | g :: g' :: gs =>
    if g = plain c ∧ g' = plain c then escaped c :: plain c :: pairUp c gs
    else g :: pairUp c (g' :: gs)
  | gs => gs

/-- The glyphs of a sanitized query. -/
def marks (query : Str) : List Glyph := pairUp '|' (pairUp '&' (glyphs query))

section Text

variable {c : Char} {gs : List Glyph} {query : Str}

theorem texts_glyphs (query : Str) : Glyph.texts (glyphs query) = escapeOperators query := by
  rw [Glyph.texts, glyphs, escapeOperators, List.flatMap_map]
  apply List.flatMap_congr
  intro c _
  split <;> rfl

theorem map_char_glyphs (query : Str) : (glyphs query).map char = query := by
  rw [glyphs, List.map_map]
  conv_rhs => rw [← List.map_id query]
  apply List.map_congr_left
  intro c _
  rw [Function.comp_apply]
  split <;> rfl

theorem pairUp_pair (c : Char) (gs : List Glyph) :
    pairUp c (plain c :: plain c :: gs) = escaped c :: plain c :: pairUp c gs := by
  rw [pairUp, if_pos ⟨rfl, rfl⟩]

theorem pairUp_cons {g : Glyph} (h : ¬ (g = plain c ∧ gs.head? = some (plain c))) :
    pairUp c (g :: gs) = g :: pairUp c gs := by
  cases gs with
  | nil => rfl
  | cons g' gs =>
    have hne : ¬ (g = plain c ∧ g' = plain c) := fun hg => h ⟨hg.1, congrArg some hg.2⟩
    rw [pairUp, if_neg hne]

/-- Glyphs are taken in pairs of the character and otherwise one by one. -/
@[elab_as_elim]
theorem pairUp_induction {motive : List Glyph → Prop} (c : Char) (nil : motive [])
    (pair : ∀ gs, motive gs → motive (plain c :: plain c :: gs))
    (cons : ∀ g gs, ¬ (g = plain c ∧ gs.head? = some (plain c)) → motive gs → motive (g :: gs))
    (gs : List Glyph) : motive gs := by
  induction hn : gs.length using Nat.strong_induction_on generalizing gs with
  | _ n ih =>
    cases gs with
    | nil => exact nil
    | cons g gs =>
      rw [List.length_cons] at hn
      by_cases h : g = plain c ∧ gs.head? = some (plain c)
      · obtain ⟨gs', rfl⟩ := List.head?_eq_some_iff.mp h.2
        rw [List.length_cons] at hn
        rw [h.1]
        exact pair gs' (ih gs'.length (by omega) gs' rfl)
      · exact cons g gs h (ih gs.length (by omega) gs rfl)

theorem map_char_pairUp (c : Char) (gs : List Glyph) : (pairUp c gs).map char = gs.map char := by
  induction gs using pairUp_induction c with
  | nil => rfl
  | pair gs ih => simp [pairUp_pair, ih, char]
  | cons g gs h ih => rw [pairUp_cons h, List.map_cons, ih, List.map_cons]

/-- Where a glyph of the second pass comes from. -/
theorem mem_pairUp {g : Glyph} (h : g ∈ pairUp c gs) : g = escaped c ∨ g ∈ gs := by
  induction gs using pairUp_induction c with
  | nil => exact .inr h
  | pair gs ih =>
    rw [pairUp_pair, List.mem_cons, List.mem_cons] at h
    rcases h with h | h | h
    · exact .inl h
    · exact .inr (by simp [h])
    · exact (ih h).imp_right fun h => by simp [h]
  | cons g' gs hne ih =>
    rw [pairUp_cons hne, List.mem_cons] at h
    cases h with
    | inl h => exact .inr (by simp [h])
    | inr h => exact (ih h).imp_right fun h => List.mem_cons_of_mem _ h

/-- The first character of the text of some glyphs. -/
theorem head_texts (hc : c ≠ '\\') (gs : List Glyph) :
    (Glyph.texts gs).head? = some c ↔ gs.head? = some (plain c) := by
  cases gs with
  | nil => simp [Glyph.texts]
  | cons g gs =>
    cases g with
    | plain d => simp [text]
    | escaped d => simp [text, Ne.symm hc]

/-- The replacement of two equal characters is the second pass. -/
theorem replace_texts (hc : c ≠ '\\') (h : escaped c ∉ gs) :
    replace [c, c] ['\\', c, c] (Glyph.texts gs) = Glyph.texts (pairUp c gs) := by
  induction gs using pairUp_induction c with
  | nil => rfl
  | pair gs ih =>
    have htail := ih fun hmem => h (by simp [hmem])
    have hprefix := replace_at_start c [c] ['\\', c, c] (Glyph.texts gs)
    have htext : Glyph.texts (plain c :: plain c :: gs) = [c, c] ++ Glyph.texts gs := rfl
    rw [pairUp_pair, htext, hprefix, htail]
    rfl
  | cons g gs hne ih =>
    have htail := ih fun hmem => h (by simp [hmem])
    rw [pairUp_cons hne, texts_cons, texts_cons]
    have hskip : ∀ (d : Char) (rest : List Char), ¬ (d = c ∧ rest.head? = some c) →
        replace [c, c] ['\\', c, c] (d :: rest) = d :: replace [c, c] ['\\', c, c] rest := by
      intro d rest hno
      apply replace_cons
      rw [Bool.eq_false_iff]
      intro hp
      obtain ⟨t, ht⟩ := List.isPrefixOf_iff_prefix.mp hp
      obtain ⟨hd, hrest⟩ := List.cons.inj ht
      exact hno ⟨hd.symm, by rw [← hrest]; rfl⟩
    cases g with
    | plain d =>
      have hno : ¬ (d = c ∧ (Glyph.texts gs).head? = some c) := by
        intro hd
        exact hne ⟨congrArg plain hd.1, (head_texts hc gs).mp hd.2⟩
      rw [text, List.singleton_append, hskip d (Glyph.texts gs) hno, htail]
      rfl
    | escaped d =>
      have hd : d ≠ c := by
        intro heq
        exact h (by simp [heq])
      have hcons : text (escaped d) ++ Glyph.texts gs = '\\' :: d :: Glyph.texts gs := rfl
      rw [hcons, hskip _ _ fun hb => hc hb.1.symm, hskip _ _ fun hd' => hd hd'.1, htail]
      rfl

theorem mem_glyphs {g : Glyph} (h : g ∈ glyphs query) :
    (∃ c ∈ operatorChars, g = escaped c) ∨ ∃ c ∉ operatorChars, g = plain c := by
  obtain ⟨c, -, rfl⟩ := List.mem_map.mp h
  by_cases hc : c ∈ operatorChars
  · exact .inl ⟨c, hc, if_pos hc⟩
  · exact .inr ⟨c, hc, if_neg hc⟩

/-- An escaped glyph of a sanitized query is of an operator, and a plain one is not. -/
theorem mem_marks {g : Glyph} (h : g ∈ marks query) :
    (∃ c ∈ '&' :: '|' :: operatorChars, g = escaped c) ∨ ∃ c ∉ operatorChars, g = plain c := by
  rcases mem_pairUp h with rfl | h
  · exact .inl ⟨'|', by simp, rfl⟩
  · rcases mem_pairUp h with rfl | h
    · exact .inl ⟨'&', by simp, rfl⟩
    · exact (mem_glyphs h).imp_left fun ⟨c, hc, hg⟩ => ⟨c, by simp [hc], hg⟩

theorem map_char_marks (query : Str) : (marks query).map char = query := by
  rw [marks, map_char_pairUp, map_char_pairUp, map_char_glyphs]

/-- The first pass escapes no other character. -/
theorem escaped_not_mem_glyphs (hc : c ∉ operatorChars) : escaped c ∉ glyphs query := by
  intro h
  cases mem_glyphs h with
  | inl h =>
    obtain ⟨d, hd, heq⟩ := h
    exact hc (Glyph.escaped.inj heq ▸ hd)
  | inr h =>
    obtain ⟨d, -, heq⟩ := h
    cases heq

theorem escaped_and_not_mem : escaped '&' ∉ glyphs query := escaped_not_mem_glyphs (by decide)

theorem escaped_or_not_mem : escaped '|' ∉ pairUp '&' (glyphs query) := by
  intro h
  cases mem_pairUp h with
  | inl heq => simp at heq
  | inr h => exact escaped_not_mem_glyphs (by decide) h

theorem sanitizeLuceneQuery_eq (query : Str) : sanitizeLuceneQuery query = Glyph.texts (marks query) := by
  rw [sanitizeLuceneQuery, ← texts_glyphs, replace_texts (by decide) escaped_and_not_mem,
    replace_texts (by decide) escaped_or_not_mem, marks]

/-- What is read of a sanitized query, and of a query in which it stands. -/
theorem read_sanitizeLuceneQuery (query rest : Str) :
    read (sanitizeLuceneQuery query ++ rest) = marks query ++ read rest := by
  rw [sanitizeLuceneQuery_eq]
  apply read_texts
  intro h
  cases mem_marks h with
  | inl h =>
    obtain ⟨c, -, heq⟩ := h
    cases heq
  | inr h =>
    obtain ⟨c, hc, heq⟩ := h
    obtain rfl := Glyph.plain.inj heq
    exact hc (by simp [operatorChars])

/-- Without its escapes a sanitized query is the query. -/
theorem unescape_sanitizeLuceneQuery (query : Str) : unescape (sanitizeLuceneQuery query) = query := by
  have hread := read_sanitizeLuceneQuery query []
  have hnil : read [] = [] := rfl
  rw [List.append_nil, hnil, List.append_nil] at hread
  rw [unescape, hread, map_char_marks]

end Text

section Runs

variable {c : Char} {query : Str} {gs : List Glyph}

/-- A run of a character, from end to end, of an odd length from three on. -/
def OddRun (c : Char) (s : Str) : Prop :=
  ∃ before n after, s = before ++ List.replicate (2 * n + 3) c ++ after ∧
    before.getLast? ≠ some c ∧ after.head? ≠ some c

/-- Two plain glyphs of the character, one after the other. -/
def HasPair (c : Char) (gs : List Glyph) : Prop := [plain c, plain c] <:+: gs

theorem oddRun_pair {s : Str} : OddRun c (c :: c :: s) ↔
    (∃ t, s = c :: t ∧ t.head? ≠ some c) ∨ OddRun c s := by
  constructor
  · intro h
    obtain ⟨before, n, after, hs, hbefore, hafter⟩ := h
    cases before with
    | nil =>
      have hs : s = List.replicate (2 * n + 1) c ++ after := by
        have hrun : List.replicate (2 * n + 3) c = c :: c :: List.replicate (2 * n + 1) c := rfl
        rw [List.nil_append, hrun] at hs
        exact (List.cons.inj (List.cons.inj hs).2).2
      cases n with
      | zero => exact .inl ⟨after, hs, hafter⟩
      | succ n => exact .inr ⟨[], n, after, hs, by simp, hafter⟩
    | cons d before =>
      obtain ⟨hd, hs⟩ := List.cons.inj hs
      cases before with
      | nil => exact absurd (congrArg some hd.symm) hbefore
      | cons e before =>
        obtain ⟨-, hs⟩ := List.cons.inj hs
        refine .inr ⟨before, n, after, hs, fun hlast => hbefore ?_, hafter⟩
        rw [List.getLast?_cons, List.getLast?_cons, hlast]
        rfl
  · intro h
    cases h with
    | inl h =>
      obtain ⟨t, rfl, ht⟩ := h
      exact ⟨[], 0, t, rfl, by simp, ht⟩
    | inr h =>
      obtain ⟨before, n, after, rfl, hbefore, hafter⟩ := h
      cases before with
      | nil => exact ⟨[], n + 1, after, rfl, by simp, hafter⟩
      | cons d before =>
        refine ⟨c :: c :: d :: before, n, after, rfl, fun hlast => hbefore ?_, hafter⟩
        rwa [List.getLast?_cons, List.getLast?_cons] at hlast

theorem oddRun_cons {d : Char} {s : Str} (h : ¬ (d = c ∧ s.head? = some c)) :
    OddRun c (d :: s) ↔ OddRun c s := by
  constructor
  · intro hrun
    obtain ⟨before, n, after, hs, hbefore, hafter⟩ := hrun
    cases before with
    | nil =>
      exfalso
      obtain ⟨hd, hs⟩ := List.cons.inj hs
      exact h ⟨hd, by rw [hs]; rfl⟩
    | cons e before =>
      obtain ⟨-, hs⟩ := List.cons.inj hs
      cases before with
      | nil => exact ⟨[], n, after, hs, by simp, hafter⟩
      | cons e before =>
        refine ⟨e :: before, n, after, hs, fun hlast => hbefore ?_, hafter⟩
        rw [List.getLast?_cons, hlast]
        rfl
  · intro hrun
    obtain ⟨before, n, after, rfl, hbefore, hafter⟩ := hrun
    cases before with
    | nil =>
      refine ⟨[d], n, after, rfl, fun hlast => h ⟨?_, rfl⟩, hafter⟩
      exact Option.some.inj hlast
    | cons e before =>
      refine ⟨d :: e :: before, n, after, rfl, fun hlast => hbefore ?_, hafter⟩
      rwa [List.getLast?_cons] at hlast

theorem hasPair_cons {g : Glyph} : HasPair c (g :: gs) ↔
    (g = plain c ∧ gs.head? = some (plain c)) ∨ HasPair c gs := by
  rw [HasPair, List.infix_cons_iff]
  apply or_congr_left
  constructor
  · intro h
    obtain ⟨t, ht⟩ := h
    obtain ⟨hg, hgs⟩ := List.cons.inj ht
    exact ⟨hg.symm, by rw [← hgs]; rfl⟩
  · intro h
    obtain ⟨gs', hgs'⟩ := List.head?_eq_some_iff.mp h.2
    exact ⟨gs', by rw [h.1, hgs']; rfl⟩

theorem not_hasPair_nil : ¬ HasPair c [] := by
  intro h
  have hnil := List.eq_nil_of_infix_nil h
  contradiction

theorem head_pairUp {d : Char} : (pairUp c gs).head? = some (plain d) ↔
    gs.head? = some (plain d) ∧ ¬ (d = c ∧ gs.tail.head? = some (plain c)) := by
  induction gs using pairUp_induction c with
  | nil => simp [pairUp]
  | pair gs ih =>
    rw [pairUp_pair]
    simp only [List.head?_cons, List.tail_cons, Option.some.injEq, reduceCtorEq, plain.injEq,
      and_true, false_iff, not_and, not_not]
    exact Eq.symm
  | cons g gs hne ih =>
    rw [pairUp_cons hne, List.head?_cons, List.head?_cons, List.tail_cons]
    constructor
    · intro hg
      refine ⟨hg, fun hd => hne ⟨?_, hd.2⟩⟩
      rw [Option.some.inj hg, hd.1]
    · exact fun hg => hg.1

/-- After the second pass two plain glyphs meet at the end of an odd run. -/
theorem hasPair_pairUp (h : escaped c ∉ gs) :
    HasPair c (pairUp c gs) ↔ OddRun c (gs.map char) := by
  have hhead : ∀ gs : List Glyph, escaped c ∉ gs →
      (gs.head? = some (plain c) ↔ (gs.map char).head? = some c) := by
    intro gs h
    cases gs with
    | nil => simp
    | cons g gs =>
      cases g with
      | plain d => simp [char]
      | escaped d =>
        have hd : d ≠ c := by
          intro heq
          exact h (by simp [heq])
        simp [char, hd]
  induction gs using pairUp_induction c with
  | nil =>
    refine iff_of_false not_hasPair_nil fun hrun => ?_
    obtain ⟨before, n, after, hs, -⟩ := hrun
    have hlength := congrArg List.length hs
    simp at hlength
    omega
  | pair gs ih =>
    have htail : escaped c ∉ gs := fun hmem => h (by simp [hmem])
    have hrest : HasPair c (pairUp c gs) ↔ OddRun c (gs.map char) := ih htail
    have hmap : (plain c :: plain c :: gs).map char = c :: c :: gs.map char := rfl
    rw [pairUp_pair, hasPair_cons, hasPair_cons, hrest, hmap, oddRun_pair]
    simp only [reduceCtorEq, false_and, false_or, true_and]
    apply or_congr_left
    rw [head_pairUp]
    constructor
    · intro hfirst
      obtain ⟨gs', rfl⟩ := List.head?_eq_some_iff.mp hfirst.1
      have hgs' : escaped c ∉ gs' := fun hmem => htail (by simp [hmem])
      refine ⟨gs'.map char, rfl, fun hlast => hfirst.2 ⟨rfl, ?_⟩⟩
      exact (hhead gs' hgs').mpr hlast
    · intro hfirst
      obtain ⟨t, ht, hlast⟩ := hfirst
      cases gs with
      | nil => cases ht
      | cons g gs' =>
        have hgs' : escaped c ∉ gs' := fun hmem => htail (by simp [hmem])
        obtain ⟨hg, rfl⟩ := List.cons.inj ht
        have hg : (g :: gs').head? = some (plain c) := by
          rw [hhead _ htail, List.map_cons, hg]
          rfl
        refine ⟨hg, fun hnext => hlast ?_⟩
        exact (hhead gs' hgs').mp hnext.2
  | cons g gs hne ih =>
    have htail : escaped c ∉ gs := fun hmem => h (by simp [hmem])
    have hg : g = plain c ↔ g.char = c := by
      cases g with
      | plain d => simp [char]
      | escaped d =>
        have hd : d ≠ c := by
          intro heq
          exact h (by simp [heq])
        simp [char, hd]
    have hno : ¬ (g.char = c ∧ (gs.map char).head? = some c) := by
      rw [← hg, ← hhead gs htail]
      exact hne
    have hstart : ¬ (g = plain c ∧ (pairUp c gs).head? = some (plain c)) := by
      rw [head_pairUp]
      exact fun hfirst => hne ⟨hfirst.1, hfirst.2.1⟩
    have hrest : HasPair c (pairUp c gs) ↔ OddRun c (gs.map char) := ih htail
    rw [pairUp_cons hne, hasPair_cons, or_iff_right hstart, hrest, List.map_cons,
      oddRun_cons hno]

/-- The pass for one character leaves the pairs of another. -/
theorem hasPair_pairUp_of_ne {d : Char} (hd : d ≠ c) :
    HasPair d (pairUp c gs) ↔ HasPair d gs := by
  induction gs using pairUp_induction c with
  | nil => rfl
  | pair gs ih =>
    have hne : ¬ plain c = plain d := fun heq => hd (Glyph.plain.inj heq).symm
    rw [pairUp_pair, hasPair_cons, hasPair_cons, hasPair_cons, hasPair_cons, ih]
    simp [hne]
  | cons g gs hne ih =>
    rw [pairUp_cons hne, hasPair_cons, hasPair_cons, ih, head_pairUp]
    simp [hd]

theorem hasPair_marks (query : Str) :
    (HasPair '&' (marks query) ↔ OddRun '&' query) ∧
      (HasPair '|' (marks query) ↔ OddRun '|' query) := by
  constructor
  · rw [marks, hasPair_pairUp_of_ne (by decide), hasPair_pairUp escaped_and_not_mem,
      map_char_glyphs]
  · rw [marks, hasPair_pairUp escaped_or_not_mem, map_char_pairUp, map_char_glyphs]

end Runs

/-- What a query says apart from its terms. -/
inductive Operator where
  | char (c : Char)
  | pair (c : Char)
  | word (w : Str)
  deriving DecidableEq

def operatorWords : List Str := ["AND".toList, "OR".toList, "NOT".toList]

def isSpace (c : Char) : Bool := c ∈ [' ', '\t', '\n', '\r', '\u3000']

def operatorOf : Glyph → Option Operator
  | plain c => if c ∈ operatorChars then some (.char c) else none
  | escaped _ => none

def pairs (c : Char) : List Glyph → List Operator
  | [] => []
  | g :: gs => if g = plain c ∧ gs.head? = some (plain c) then .pair c :: pairs c gs else pairs c gs

/-- Words end at white space and at the characters of operators. -/
def delimits : Glyph → Bool
  | plain c => isSpace c || c ∈ operatorChars
  | escaped _ => false

def wordOf (gs : List Glyph) : Option Operator :=
  (operatorWords.find? fun w => w.map plain = gs).map .word

def operators (gs : List Glyph) : List Operator :=
  gs.filterMap operatorOf ++ pairs '&' gs ++ pairs '|' gs ++
    (gs.splitOnP delimits).filterMap wordOf

section Operators

variable {c : Char} {query : Str} {gs as bs : List Glyph}

/-- Glyphs that are next to each other at a delimiter. -/
def Meets (as bs : List Glyph) : Prop :=
  as = [] ∨ bs = [] ∨ (∃ as' g, as = as' ++ [g] ∧ delimits g = true) ∨
    ∃ g bs', bs = g :: bs' ∧ delimits g = true

theorem pairs_append (hc : delimits (plain c) = false) (h : Meets as bs) :
    pairs c (as ++ bs) = pairs c as ++ pairs c bs := by
  induction as with
  | nil => rfl
  | cons g as ih =>
    have htail : Meets as bs := by
      rcases h with h | h | ⟨as', d, h, hd⟩ | h
      · cases h
      · exact .inr (.inl h)
      · cases as' with
        | nil => exact .inl (List.cons.inj h).2
        | cons g' as' => exact .inr (.inr (.inl ⟨as', d, (List.cons.inj h).2, hd⟩))
      · exact .inr (.inr (.inr h))
    have hnext : (g = plain c ∧ (as ++ bs).head? = some (plain c)) ↔
        (g = plain c ∧ as.head? = some (plain c)) := by
      cases as with
      | cons g' as => rfl
      | nil =>
        refine and_congr_right fun hg => ⟨fun hb => ?_, by simp⟩
        exfalso
        rcases h with h | h | ⟨as', d, h, hd⟩ | ⟨d, bs', h, hd⟩
        · cases h
        · rw [h] at hb
          cases hb
        · have hlast : g = d := by simpa using congrArg List.getLast? h
          rw [← hlast, hg, hc] at hd
          contradiction
        · rw [h] at hb
          rw [Option.some.inj hb, hc] at hd
          contradiction
    rw [List.cons_append, pairs, pairs, ih htail]
    by_cases hg : g = plain c ∧ as.head? = some (plain c)
    · rw [if_pos (hnext.mpr hg), if_pos hg, List.cons_append]
    · rw [if_neg fun h => hg (hnext.mp h), if_neg hg]

theorem words_append (h : Meets as bs) : ((as ++ bs).splitOnP delimits).filterMap wordOf =
    (as.splitOnP delimits).filterMap wordOf ++ (bs.splitOnP delimits).filterMap wordOf := by
  have hnil : ([[]] : List (List Glyph)).filterMap wordOf = [] := by decide
  rcases h with rfl | rfl | ⟨as', d, rfl, hd⟩ | ⟨d, bs', rfl, hd⟩
  · rw [List.splitOnP_nil, hnil, List.nil_append, List.nil_append]
  · rw [List.splitOnP_nil, hnil, List.append_nil, List.append_nil]
  · rw [List.append_assoc, List.singleton_append, List.splitOnP_append_cons _ _ hd,
      List.splitOnP_append_cons _ _ hd, List.splitOnP_nil, List.filterMap_append,
      List.filterMap_append, hnil, List.append_nil]
  · have hfirst : ((d :: bs').splitOnP delimits).filterMap wordOf =
        (bs'.splitOnP delimits).filterMap wordOf := by
      have hsplit := List.splitOnP_append_cons [] bs' hd
      rw [List.nil_append, List.splitOnP_nil] at hsplit
      rw [hsplit, List.filterMap_append, hnil, List.nil_append]
    rw [List.splitOnP_append_cons _ _ hd, List.filterMap_append, hfirst]

/-- The operators on the two sides of a delimiter. -/
theorem operators_append (h : Meets as bs) :
    (operators (as ++ bs)).Perm (operators as ++ operators bs) := by
  rw [operators, List.filterMap_append, pairs_append (by decide) h, pairs_append (by decide) h,
    words_append h, List.perm_iff_count]
  intro op
  simp only [operators, List.count_append]
  omega

theorem pairs_eq_nil : pairs c gs = [] ↔ ¬ HasPair c gs := by
  induction gs with
  | nil => exact iff_of_true rfl not_hasPair_nil
  | cons g gs ih =>
    rw [pairs, hasPair_cons, not_or]
    split
    · next h => simp [h]
    · next h => simp [h, ih]

/-- No operator word stands between white space. -/
def Wordless (query : Str) : Prop := ∀ w ∈ operatorWords, w ∉ query.splitOnP isSpace

theorem splitOnP_map {α β : Type} {p : α → Bool} {q : β → Bool} {f : α → β} {xs : List α}
    (h : ∀ x ∈ xs, p x = q (f x)) :
    (xs.splitOnP p).map (List.map f) = (xs.map f).splitOnP q := by
  induction xs with
  | nil => rfl
  | cons x xs ih =>
    have htail := ih fun y hy => h y (List.mem_cons_of_mem _ hy)
    have hx := h x (by simp)
    rw [List.map_cons, List.splitOnP_cons_eq_if_modifyHead, List.splitOnP_cons_eq_if_modifyHead,
      ← hx, ← htail]
    split
    · rfl
    · cases xs.splitOnP p <;> rfl

theorem mem_of_mem_splitOnP {α : Type} {p : α → Bool} {xs piece : List α} {x : α}
    (hpiece : piece ∈ xs.splitOnP p) (hx : x ∈ piece) : x ∈ xs := by
  induction xs generalizing piece with
  | nil =>
    rw [List.splitOnP_nil, List.mem_singleton] at hpiece
    rw [hpiece] at hx
    contradiction
  | cons y xs ih =>
    rw [List.splitOnP_cons_eq_if_modifyHead] at hpiece
    split at hpiece
    · cases List.mem_cons.mp hpiece with
      | inl hnil =>
        rw [hnil] at hx
        contradiction
      | inr hrest => exact List.mem_cons_of_mem _ (ih hrest hx)
    · cases hsplit : xs.splitOnP p with
      | nil => exact absurd hsplit (List.splitOnP_ne_nil p xs)
      | cons first rest =>
        rw [hsplit, List.modifyHead_cons, List.mem_cons] at hpiece
        rw [hsplit] at ih
        cases hpiece with
        | inl hfirst =>
          rw [hfirst] at hx
          cases List.mem_cons.mp hx with
          | inl heq => exact heq ▸ List.mem_cons_self
          | inr hx => exact List.mem_cons_of_mem _ (ih (by simp) hx)
        | inr hrest => exact List.mem_cons_of_mem _ (ih (by simp [hrest]) hx)

theorem delimits_marks {g : Glyph} (h : g ∈ marks query) : delimits g = isSpace g.char := by
  cases mem_marks h with
  | inl h =>
    obtain ⟨c, hc, rfl⟩ := h
    have hspace : (('&' :: '|' :: operatorChars).all fun c => isSpace c = false) = true := by decide
    exact (of_decide_eq_true (List.all_eq_true.mp hspace c hc)).symm
  | inr h =>
    obtain ⟨c, hc, rfl⟩ := h
    simp [delimits, char, hc]

/-- The words of a sanitized query are those of the query. -/
theorem words_marks_eq_nil :
    ((marks query).splitOnP delimits).filterMap wordOf = [] ↔ Wordless query := by
  have hsplit := splitOnP_map fun g hg => @delimits_marks query g hg
  rw [map_char_marks] at hsplit
  have hletters : (operatorWords.all fun w =>
      w.all fun c => c ∉ '&' :: '|' :: operatorChars) = true := by decide
  have hword : ∀ w ∈ operatorWords, ∀ c ∈ w, c ∉ '&' :: '|' :: operatorChars := fun w hw c hc =>
    of_decide_eq_true (List.all_eq_true.mp (List.all_eq_true.mp hletters w hw) c hc)
  rw [List.filterMap_eq_nil_iff]
  constructor
  · intro hnone w hw hin
    rw [← hsplit] at hin
    obtain ⟨piece, hpiece, rfl⟩ := List.mem_map.mp hin
    -- the letters of an operator word are not escaped
    have hplain : (piece.map char).map plain = piece := by
      rw [List.map_map]
      conv_rhs => rw [← List.map_id piece]
      apply List.map_congr_left
      intro g hg
      have hletter := hword _ hw g.char (List.mem_map_of_mem hg)
      cases mem_marks (mem_of_mem_splitOnP hpiece hg) with
      | inl h =>
        obtain ⟨c, hc, rfl⟩ := h
        exact absurd hc hletter
      | inr h =>
        obtain ⟨c, -, rfl⟩ := h
        rfl
    have hfound := hnone piece hpiece
    rw [wordOf, Option.map_eq_none_iff, List.find?_eq_none] at hfound
    exact hfound _ hw (by simpa using hplain)
  · intro hwordless piece hpiece
    rw [wordOf, Option.map_eq_none_iff, List.find?_eq_none]
    intro w hw heq
    have heq : w.map plain = piece := by simpa using heq
    have hback : piece.map char = w := by
      rw [← heq, List.map_map]
      exact List.map_id w
    apply hwordless w hw
    rw [← hsplit, ← hback]
    exact List.mem_map_of_mem hpiece

theorem operators_marks_eq_nil : operators (marks query) = [] ↔
    (¬ OddRun '&' query ∧ ¬ OddRun '|' query) ∧ Wordless query := by
  have hchars : (marks query).filterMap operatorOf = [] := by
    rw [List.filterMap_eq_nil_iff]
    intro g hg
    cases mem_marks hg with
    | inl h =>
      obtain ⟨c, -, rfl⟩ := h
      rfl
    | inr h =>
      obtain ⟨c, hc, rfl⟩ := h
      rw [operatorOf, if_neg hc]
  rw [operators, hchars, List.nil_append, List.append_eq_nil_iff, List.append_eq_nil_iff,
    pairs_eq_nil, pairs_eq_nil, (hasPair_marks query).1, (hasPair_marks query).2,
    words_marks_eq_nil]

end Operators

/-- What comes of sanitizing: no plain operator, no pair of plain ones, and the query itself without
the escapes. -/
structure Sanitized (query sanitized : Str) : Prop where
  chars : ∀ c ∈ operatorChars, plain c ∉ read sanitized
  pairs : ¬ HasPair '&' (read sanitized) ∧ ¬ HasPair '|' (read sanitized)
  back : unescape sanitized = query

/-- The text before and after a place for a value ends and begins with a delimiter. -/
structure Framed (before after : Str) : Prop where
  left : before = [] ∨ ∃ gs g, read before = gs ++ [g] ∧ delimits g = true ∧ g ≠ plain '\\'
  right : after = [] ∨ ∃ c rest, after = c :: rest ∧ c ≠ '\\' ∧ delimits (plain c) = true

/-- A value adds no operator to a query into which it is inserted. -/
def AddsNone (value : Str) : Prop := ∀ before after, Framed before after →
  (operators (read (before ++ value ++ after))).Perm
    (operators (read before) ++ operators (read after))

theorem sanitized_iff (query : Str) : Sanitized query (sanitizeLuceneQuery query) ↔
    ¬ OddRun '&' query ∧ ¬ OddRun '|' query := by
  have hread := read_sanitizeLuceneQuery query []
  have hnil : read [] = [] := rfl
  rw [List.append_nil, hnil, List.append_nil] at hread
  constructor
  · intro h
    have hpairs := h.pairs
    rw [hread, (hasPair_marks query).1, (hasPair_marks query).2] at hpairs
    exact hpairs
  · intro h
    refine ⟨fun c hc hmem => ?_, ?_, unescape_sanitizeLuceneQuery query⟩
    · rw [hread] at hmem
      cases mem_marks hmem with
      | inl hmark =>
        obtain ⟨d, -, heq⟩ := hmark
        cases heq
      | inr hmark =>
        obtain ⟨d, hd, heq⟩ := hmark
        exact hd (Glyph.plain.inj heq ▸ hc)
    · rw [hread, (hasPair_marks query).1, (hasPair_marks query).2]
      exact h

theorem addsNone_iff (query : Str) : AddsNone (sanitizeLuceneQuery query) ↔
    (¬ OddRun '&' query ∧ ¬ OddRun '|' query) ∧ Wordless query := by
  rw [← operators_marks_eq_nil]
  have hempty : operators (read []) = [] := by decide
  constructor
  · intro h
    have hperm := h [] [] ⟨.inl rfl, .inl rfl⟩
    have hnil : read [] = [] := rfl
    rw [List.nil_append, read_sanitizeLuceneQuery, hempty, hnil, List.append_nil] at hperm
    exact List.perm_nil.mp hperm
  · intro h before after hframed
    have hopen : (read before).getLast? ≠ some (plain '\\') := by
      cases hframed.left with
      | inl hnil =>
        intro hlast
        rw [hnil] at hlast
        cases hlast
      | inr hlast =>
        obtain ⟨gs, g, hread, -, hg⟩ := hlast
        rw [hread]
        simpa using hg
    have hleft : Meets (read before) (marks query ++ read after) := by
      cases hframed.left with
      | inl hnil => exact .inl (by rw [hnil]; rfl)
      | inr hlast =>
        obtain ⟨gs, g, hread, hd, -⟩ := hlast
        exact .inr (.inr (.inl ⟨gs, g, hread, hd⟩))
    have hright : Meets (marks query) (read after) := by
      cases hframed.right with
      | inl hnil => exact .inr (.inl (by rw [hnil]; rfl))
      | inr hfirst =>
        obtain ⟨c, rest, rfl, hc, hd⟩ := hfirst
        exact .inr (.inr (.inr ⟨plain c, read rest, read_cons hc rest, hd⟩))
    have hinner := operators_append hright
    rw [h, List.nil_append] at hinner
    rw [List.append_assoc, read_append _ _ hopen, read_sanitizeLuceneQuery]
    exact (operators_append hleft).trans (hinner.append_left _)

/-- A query is sanitized exactly where it has no odd run of `&` or of `|` from three on. It adds no
operator exactly where it moreover has no word that is one. -/
theorem sanitize_lucene_query_iff (query : Str) :
    (Sanitized query (sanitizeLuceneQuery query) ↔ ¬ OddRun '&' query ∧ ¬ OddRun '|' query) ∧
    (AddsNone (sanitizeLuceneQuery query) ↔
      (¬ OddRun '&' query ∧ ¬ OddRun '|' query) ∧ Wordless query) :=
  ⟨sanitized_iff query, addsNone_iff query⟩

/-- Of three characters the last two are left as a pair. -/
theorem three_ands_not_sanitized :
    sanitizeLuceneQuery ['&', '&', '&'] = ['\\', '&', '&', '&'] ∧
      ¬ Sanitized ['&', '&', '&'] (sanitizeLuceneQuery ['&', '&', '&']) := by
  refine ⟨by decide, fun h => h.pairs.1 ?_⟩
  exact ⟨[escaped '&'], [], by decide⟩

end Howler.Lucene
