import Howler.Painless.Reader

namespace Painless

open Python Structures

/-- The character is a token of its own, or none. -/
def isLoose (c : Char) : Bool := classOf c = .single || classOf c = .space

theorem sticks_of_loose {c : Char} {rest : Str}
    (h : isLoose c = true ∨ rest.head?.all isLoose = true) : sticks c rest = false := by
  cases rest with
  | nil => rfl
  | cons c' rest =>
    rw [sticks, Bool.and_eq_false_iff]
    by_cases heq : classOf c = classOf c'
    · right
      cases h with
      | inl h =>
        simp only [isLoose, Bool.or_eq_true, decide_eq_true_eq] at h
        cases h with
        | inl h => simp [h]
        | inr h => simp [h]
      | inr h =>
        simp only [List.head?_cons, Option.all_some, isLoose, Bool.or_eq_true, decide_eq_true_eq] at h
        cases h with
        | inl h => simp [heq, h]
        | inr h => simp [heq, h]
    · left
      simpa using heq

theorem lex_cons_ne_nil {c : Char} (hc : classOf c ≠ .space) (cs : Str) : lex (c :: cs) ≠ [] := by
  rw [lex, if_neg hc]
  split
  · split
    · simp
    · simp
  · simp

/-- Texts that meet at a loose character have the tokens of the one and of the other. -/
theorem lex_append {w rest : Str}
    (h : w.getLast?.all isLoose = true ∨ rest.head?.all isLoose = true) :
    lex (w ++ rest) = lex w ++ lex rest := by
  induction w with
  | nil => rfl
  | cons c w ih =>
    rw [List.cons_append, lex, lex]
    by_cases hspace : classOf c = .space
    · rw [if_pos hspace, if_pos hspace]
      cases w with
      | nil => rfl
      | cons c' w => exact ih h
    · rw [if_neg hspace, if_neg hspace]
      cases w with
      | nil =>
        have hsticks : sticks c ([] ++ rest) = false :=
          sticks_of_loose (h.imp (by intro hc; simpa using hc) id)
        rw [hsticks]
        rfl
      | cons c' w =>
        have htail := ih h
        have hsame : sticks c (c' :: w ++ rest) = sticks c (c' :: w) := rfl
        rw [hsame, htail]
        by_cases hsticks : sticks c (c' :: w) = true
        · have hclass : classOf c' ≠ .space := by
            simp only [sticks, Bool.and_eq_true, decide_eq_true_eq] at hsticks
            rw [← hsticks.1]
            exact hspace
          rw [if_pos hsticks, if_pos hsticks]
          cases hlex : lex (c' :: w) with
          | nil => exact absurd hlex (lex_cons_ne_nil hclass w)
          | cons t ts => rfl
        · rw [if_neg hsticks, if_neg hsticks]
          rfl

/-- Texts that do not run into each other. -/
def Meets (v w : Str) : Prop := v.getLast?.any isLoose = true ∨ w.head?.any isLoose = true

theorem lex_flatten {parts : List Str} (h : parts.IsChain Meets) :
    lex parts.flatten = parts.flatMap lex := by
  induction parts with
  | nil => rfl
  | cons v parts ih =>
    cases parts with
    | nil => simp
    | cons w parts =>
      obtain ⟨hmeet, htail⟩ := List.isChain_cons_cons.mp h
      have hloose : v.getLast?.all isLoose = true ∨
          (w :: parts).flatten.head?.all isLoose = true := by
        cases hmeet with
        | inl hv =>
          left
          cases hlast : v.getLast? with
          | none => rfl
          | some c => simpa [hlast] using hv
        | inr hw =>
          right
          cases w with
          | nil => cases hw
          | cons c w => simpa using hw
      rw [List.flatten_cons, lex_append hloose, ih htail]
      rfl

/-- A run of word characters is a token. -/
theorem lex_word {w : Str} (hne : w ≠ []) (hw : ∀ c ∈ w, classOf c = .word) : lex w = [w] := by
  induction w with
  | nil => exact absurd rfl hne
  | cons c w ih =>
    have hc : classOf c = .word := hw c (by simp)
    have hspace : classOf c ≠ .space := by simp [hc]
    cases w with
    | nil => rw [lex, if_neg hspace]; rfl
    | cons c' w =>
      have hc' : classOf c' = .word := hw c' (by simp)
      have hsticks : sticks c (c' :: w) = true := by simp [sticks, hc, hc']
      rw [lex, if_neg hspace, if_pos hsticks, ih (by simp) fun c hc => hw c (by simp [hc])]

theorem classOf_of_isName {s : Str} (h : isName s = true) : s ≠ [] ∧ ∀ c ∈ s, classOf c = .word := by
  cases s with
  | nil => cases h
  | cons c cs =>
    have hword : ∀ d : Char, (d.isAlphanum || decide (d = '_')) = true → classOf d = .word := by
      intro d hd
      simp only [Bool.or_eq_true, decide_eq_true_eq] at hd
      simp [classOf, hd]
    rw [isName] at h
    split at h
    · next hc =>
      constructor
      · simp
      · intro d hd
        cases List.mem_cons.mp hd with
        | inl heq =>
          subst heq
          apply hword
          simp only [Char.isAlphanum, Bool.or_eq_true, decide_eq_true_eq] at hc ⊢
          exact hc.imp_left .inl
        | inr hmem => exact hword d (List.all_eq_true.mp h d hmem)
    · simp only [Bool.and_eq_true, List.all_eq_true] at h
      have hdigit : ∀ d : Char, d.isDigit = true → classOf d = .word := by
        intro d hd
        exact hword d (by simp [Char.isAlphanum, hd])
      constructor
      · simp
      · intro d hd
        cases List.mem_cons.mp hd with
        | inl heq => exact hdigit d (heq ▸ h.1.1)
        | inr hmem => exact hdigit d (h.1.2 d hmem)

theorem lex_name {s : Str} (hs : isName s = true) : lex s = [s] :=
  lex_word (classOf_of_isName hs).1 (classOf_of_isName hs).2

/-- The tokens of a dotted path after its first name. -/
def dotTokens (names : List Str) : List Str := names.flatMap fun n => [['.'], n]

theorem lex_dotted {names : List Str} (hnames : ∀ n ∈ names, isName n = true) :
    lex (names.flatMap fun n => '.' :: n) = dotTokens names := by
  induction names with
  | nil => rfl
  | cons n names ih =>
    have hhead : (names.flatMap fun n => '.' :: n).head?.all isLoose = true := by
      cases names with
      | nil => rfl
      | cons m names =>
        have hdot : isLoose '.' = true := by decide
        simpa using hdot
    have hdot : lex ('.' :: n) = ['.'] :: lex n := by
      have hlex : lex (['.'] ++ n) = lex ['.'] ++ lex n := lex_append (.inl (by decide))
      simpa [lex, sticks, classOf] using hlex
    rw [List.flatMap_cons, lex_append (.inr hhead), hdot, lex_name (hnames n (by simp)),
      ih fun m hm => hnames m (by simp [hm])]
    rfl

/-- The names of a path are read up to something that is not a name. -/
theorem parseNames_dotTokens {names rest : List Str} (hnames : ∀ n ∈ names, isName n = true)
    (hrest : parseNames rest = ([], rest)) (hcall : rest.head? ≠ some ['(']) :
    parseNames (dotTokens names ++ rest) = (names, rest) := by
  induction names with
  | nil => exact hrest
  | cons n names ih =>
    have hn := hnames n (by simp)
    have htail := ih fun m hm => hnames m (by simp [hm])
    have hne : (dotTokens names ++ rest).head? ≠ some ['('] := by
      cases names with
      | nil => exact hcall
      | cons m names =>
        intro h
        have hdot : some ['.'] = some ['('] := h
        exact absurd hdot (by decide)
    have hcons : dotTokens (n :: names) ++ rest = ['.'] :: n :: (dotTokens names ++ rest) := rfl
    rw [hcons, parseNames]
    · rw [if_pos hn, htail]
    · intro ts hts
      exact hne (by rw [hts]; rfl)

/-- Tokens that a path does not go on with. -/
def Stops (rest : List Str) : Prop := parseNames rest = ([], rest) ∧ rest.head? ≠ some ['(']

theorem stops_cons {t : Str} (ts : List Str) (ht : t ≠ ['.'] ∧ t ≠ ['['] ∧ t ≠ ['(']) :
    Stops (t :: ts) := by
  have hnames : parseNames (t :: ts) = ([], t :: ts) := by
    rw [parseNames]
    · intro n ts' h
      exact ht.1 (List.cons.inj h).1
    · intro n ts' h
      exact ht.1 (List.cons.inj h).1
    · intro q ts' h
      exact ht.2.1 (List.cons.inj h).1
  exact ⟨hnames, by simpa using ht.2.2⟩

theorem stops_call (n : Str) (ts : List Str) : Stops (['.'] :: n :: ['('] :: ts) := by
  have hnames : parseNames (['.'] :: n :: ['('] :: ts) = ([], ['.'] :: n :: ['('] :: ts) := by
    rw [parseNames]
  exact ⟨hnames, by simp⟩

/-- The tokens of a place in the document. -/
def sourceTokens (path : List Str) : List Str := "ctx".toList :: dotTokens ("_source".toList :: path)

/-- The tokens of a parameter. -/
def paramTokens (name : Str) : List Str := "params".toList :: dotTokens [name]

theorem parseRef_source {path rest : List Str} (hpath : ∀ n ∈ path, isName n = true)
    (hrest : Stops rest) : parseRef (sourceTokens path ++ rest) = some (.source path, rest) := by
  have hnames : ∀ n ∈ "_source".toList :: path, isName n = true := by
    intro n hn
    cases List.mem_cons.mp hn with
    | inl heq => rw [heq]; decide +kernel
    | inr hmem => exact hpath n hmem
  have hcons : sourceTokens path ++ rest =
      ['c', 't', 'x'] :: (dotTokens ("_source".toList :: path) ++ rest) := rfl
  rw [hcons, parseRef, parseNames_dotTokens hnames hrest.1 hrest.2]
  rfl

theorem parseRef_param {name : Str} {rest : List Str} (hname : isName name = true)
    (hrest : Stops rest) : parseRef (paramTokens name ++ rest) = some (.param name, rest) := by
  have hnames : ∀ n ∈ [name], isName n = true := by simpa using hname
  have hcons : paramTokens name ++ rest =
      ['p', 'a', 'r', 'a', 'm', 's'] :: (dotTokens [name] ++ rest) := rfl
  rw [hcons, parseRef, parseNames_dotTokens hnames hrest.1 hrest.2]

theorem parseLines_last {line : Line} {ts : List Str} {n : ℕ} (h : parseLine ts = some (line, []))
    (hne : ts ≠ []) : parseLines (n + 1) ts = some [line] := by
  rw [parseLines, h]
  · rfl
  · exact hne

theorem parseLines_simple {s : Statement} {ts rest : List Str} {n : ℕ} {lines : List Line}
    (h : parseLine ts = some (.simple s, [';'] :: rest)) (hne : ts ≠ [])
    (hlines : parseLines n rest = some lines) :
    parseLines (n + 1) ts = some (.simple s :: lines) := by
  rw [parseLines, h]
  · simp [hlines]
  · exact hne

theorem parseLines_block {conds : List Cond} {body : Statement} {ts rest : List Str} {n : ℕ}
    {lines : List Line} (h : parseLine ts = some (.when conds body, rest)) (hne : ts ≠ [])
    (hrest : rest ≠ []) (hlines : parseLines n rest = some lines) :
    parseLines (n + 1) ts = some (.when conds body :: lines) := by
  rw [parseLines, h]
  · cases rest with
    | nil => exact absurd rfl hrest
    | cons t rest => simp [hlines]
  · exact hne

end Painless
