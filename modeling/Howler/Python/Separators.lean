import Howler.Python.Text

namespace Python

section Split

variable {c : Char} {sep s x y : Str}

private theorem splitFrom_skip (sep : Str) (k : ℕ) (s t : Str) (h : s.length = k) :
    splitFrom sep k (s ++ t) = splitFrom sep 0 t := by
  induction k generalizing s with
  | zero => rw [List.length_eq_zero_iff.mp h, List.nil_append]
  | succ k ih =>
    cases s with
    | nil => simp at h
    | cons c s =>
      rw [List.cons_append, splitFrom]
      exact ih s (by simpa using h)

/-- A separator at the start cuts off an empty piece. -/
theorem splitOnStr_at_start (c : Char) (sep s : Str) :
    splitOnStr (c :: sep) (c :: sep ++ s) = [] :: splitOnStr (c :: sep) s := by
  have hp : (c :: sep).isPrefixOf (c :: (sep ++ s)) = true :=
    List.isPrefixOf_iff_prefix.mpr ⟨s, by simp⟩
  have hskip : splitFrom (c :: sep) ((c :: sep).length - 1) (sep ++ s) =
      splitFrom (c :: sep) 0 s := splitFrom_skip (c :: sep) sep.length sep s rfl
  rw [splitOnStr, List.cons_append, splitFrom, hp, if_pos rfl, hskip]
  rfl

/-- A character that starts no separator belongs to the first piece. -/
theorem splitOnStr_cons (h : ¬ sep <+: c :: s) :
    ∃ p ps, splitOnStr sep s = p :: ps ∧ splitOnStr sep (c :: s) = (c :: p) :: ps := by
  have hp : sep.isPrefixOf (c :: s) = false := by
    rw [Bool.eq_false_iff]
    exact fun hp => h (List.isPrefixOf_iff_prefix.mp hp)
  refine ⟨_, _, rfl, ?_⟩
  rw [splitOnStr, splitFrom, hp]
  rfl

theorem splitOnStr_ne_nil (sep s : Str) : splitOnStr sep s ≠ [] := by simp [splitOnStr]

/-- What stands before the first separator is the first piece. -/
theorem splitOnStr_append (hne : sep ≠ [])
    (h : ∀ i < x.length, ¬ sep <+: x.drop i ++ sep ++ y) :
    splitOnStr sep (x ++ sep ++ y) = x :: splitOnStr sep y := by
  induction x with
  | nil =>
    obtain ⟨c, sep, rfl⟩ := List.exists_cons_of_ne_nil hne
    exact splitOnStr_at_start c sep y
  | cons c x ih =>
    have hstart : ¬ sep <+: c :: (x ++ sep ++ y) := h 0 (by simp)
    have htail := ih fun i hi => h (i + 1) (by simpa using hi)
    obtain ⟨p, ps, hps, hcons⟩ := splitOnStr_cons hstart
    rw [htail] at hps
    obtain ⟨rfl, rfl⟩ := List.cons.inj hps
    exact hcons

/-- Without a separator there is one piece. -/
theorem splitOnStr_of_absent (h : ¬ sep <:+: s) : splitOnStr sep s = [s] := by
  induction s with
  | nil => rfl
  | cons c s ih =>
    have htail := ih fun hin => h (hin.trans (List.suffix_cons c s).isInfix)
    obtain ⟨p, ps, hps, hcons⟩ := splitOnStr_cons fun hp => h hp.isInfix
    rw [htail] at hps
    obtain ⟨rfl, rfl⟩ := List.cons.inj hps
    exact hcons

/-- The first piece: the whole text without a separator, or what stands before the first one. -/
theorem splitOnStr_cases (hne : sep ≠ []) (s : Str) :
    (splitOnStr sep s = [s] ∧ ¬ sep <:+: s) ∨
      ∃ x y, s = x ++ sep ++ y ∧ splitOnStr sep s = x :: splitOnStr sep y ∧
        ∀ i < x.length, ¬ sep <+: x.drop i ++ sep ++ y := by
  induction s with
  | nil =>
    refine .inl ⟨rfl, fun h => hne (List.eq_nil_of_infix_nil h)⟩
  | cons c s ih =>
    by_cases hp : sep <+: c :: s
    · obtain ⟨y, hy⟩ := hp
      obtain ⟨d, sep, rfl⟩ := List.exists_cons_of_ne_nil hne
      refine .inr ⟨[], y, hy.symm, ?_, fun i hi => by simp at hi⟩
      rw [← hy]
      exact splitOnStr_at_start d sep y
    · obtain ⟨p, ps, hps, hcons⟩ := splitOnStr_cons hp
      rcases ih with ⟨hone, habsent⟩ | ⟨x, y, rfl, hsplit, hfirst⟩
      · rw [hone] at hps
        obtain ⟨rfl, rfl⟩ := List.cons.inj hps
        refine .inl ⟨hcons, fun hin => ?_⟩
        cases List.infix_cons_iff.mp hin with
        | inl h => exact hp h
        | inr h => exact habsent h
      · rw [hsplit] at hps
        obtain ⟨rfl, rfl⟩ := List.cons.inj hps
        refine .inr ⟨c :: x, y, rfl, hcons, fun i hi => ?_⟩
        cases i with
        | zero => exact hp
        | succ i => exact hfirst i (by simpa using hi)

/-- The pieces joined again are the text. -/
theorem join_splitOnStr (hne : sep ≠ []) (s : Str) : join sep (splitOnStr sep s) = s := by
  rcases splitOnStr_cases hne s with ⟨hone, -⟩ | ⟨x, y, hs, hsplit, -⟩
  · rw [hone, join_singleton]
  · have hlen : y.length < s.length := by
      have hpos := List.length_pos_iff.mpr hne
      rw [hs]
      simp
      omega
    obtain ⟨p, ps, hps⟩ := List.exists_cons_of_ne_nil (splitOnStr_ne_nil sep y)
    have hjoin := join_splitOnStr hne y
    rw [hsplit, hps, join_cons_cons, ← hps, hjoin, hs, List.append_assoc]
termination_by s.length

end Split

end Python
