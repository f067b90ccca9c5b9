import Mathlib.Data.List.Basic

namespace Python

variable {ε σ α β : Type}

/-- A computation that may raise and may change a state keeps an invariant of the state, also
where it raises, and returns only values with a property. -/
def Keeps (P : σ → Prop) (m : ExceptT ε (StateM σ) α) (Q : α → Prop) : Prop :=
  ∀ s, P s → P (m.run s).2 ∧ ∀ a, (m.run s).1 = .ok a → Q a

variable {P : σ → Prop} {Q : α → Prop} {R : β → Prop}

theorem run_exceptT_bind (m : ExceptT ε (StateM σ) α) (f : α → ExceptT ε (StateM σ) β) (s : σ) :
    (m >>= f).run s = (match m.run s with
      | (.ok a, s') => (f a).run s'
      | (.error e, s') => (.error e, s')) := by
  show (ExceptT.bind m f).run s = _
  simp only [ExceptT.bind, ExceptT.bindCont, ExceptT.run, ExceptT.mk, Bind.bind, StateT.bind]
  cases h : m s with
  | mk r s' => cases r <;> rfl

theorem run_exceptT_bind_eq_ok {m : ExceptT ε (StateM σ) α} {f : α → ExceptT ε (StateM σ) β} {s : σ}
    {b : β} : ((m >>= f).run s).1 = .ok b ↔
      ∃ a, (m.run s).1 = .ok a ∧ ((f a).run (m.run s).2).1 = .ok b := by
  rw [run_exceptT_bind]
  cases h : m.run s with
  | mk r s' => cases r <;> simp

theorem run_exceptT_bind_ok {m : ExceptT ε (StateM σ) α} {s s' : σ} {a : α} (h : m.run s = (.ok a, s'))
    (f : α → ExceptT ε (StateM σ) β) : (m >>= f).run s = (f a).run s' := by
  rw [run_exceptT_bind, h]

theorem run_exceptT_tryCatch (m : ExceptT ε (StateM σ) α) (f : ε → ExceptT ε (StateM σ) α) (s : σ) :
    (MonadExcept.tryCatch m f).run s = (match m.run s with
      | (.ok a, s') => (.ok a, s')
      | (.error e, s') => (f e).run s') := by
  show (ExceptT.tryCatch m f).run s = _
  simp only [ExceptT.tryCatch, ExceptT.run, ExceptT.mk, Bind.bind, StateT.bind]
  cases h : m s with
  | mk r s' => cases r <;> rfl

/-- A raising expression that is lifted leaves the state alone. -/
theorem run_liftExcept (x : Except ε α) (s : σ) :
    (liftM x : ExceptT ε (StateM σ) α).run s = (x, s) := by
  cases x <;> rfl

theorem run_map_liftExcept (g : α → β) (x : Except ε α) (s : σ) :
    (g <$> (liftM x : ExceptT ε (StateM σ) α)).run s = (g <$> x, s) := by
  cases x <;> rfl

/-- Lifting a sequence of raising expressions is lifting them one after the other. -/
theorem run_liftExcept_bind {x : Except ε α} {g : α → Except ε β}
    {f : α → ExceptT ε (StateM σ) β} {s : σ} (h : ∀ a, (f a).run s = (g a, s)) :
    ((liftM x : ExceptT ε (StateM σ) α) >>= f).run s = (x >>= g, s) := by
  rw [run_exceptT_bind, run_liftExcept]
  cases x with
  | error e => rfl
  | ok a => exact h a

theorem Keeps.mono {Q' : α → Prop} {m : ExceptT ε (StateM σ) α} (h : Keeps P m Q)
    (hQ : ∀ a, Q a → Q' a) : Keeps P m Q' := by
  intro s hs
  exact ⟨(h s hs).1, fun a ha => hQ a ((h s hs).2 a ha)⟩

theorem keeps_pure {a : α} (h : Q a) : Keeps P (pure a : ExceptT ε (StateM σ) α) Q := by
  intro s hs
  refine ⟨hs, fun b hb => ?_⟩
  obtain rfl := Except.ok.inj hb
  exact h

theorem keeps_throw (e : ε) : Keeps P (throw e : ExceptT ε (StateM σ) α) Q := by
  intro s hs
  exact ⟨hs, fun _ h => nomatch h⟩

theorem keeps_get : Keeps P (get : ExceptT ε (StateM σ) σ) P := by
  intro s hs
  refine ⟨hs, fun a ha => ?_⟩
  obtain rfl := Except.ok.inj ha
  exact hs

theorem keeps_modify {f : σ → σ} (h : ∀ s, P s → P (f s)) :
    Keeps P (modify f : ExceptT ε (StateM σ) Unit) fun _ => True := by
  intro s hs
  exact ⟨h s hs, fun _ _ => trivial⟩

/-- Where a raising expression is lifted, nothing happens to the state. -/
theorem keeps_liftExcept {x : Except ε α} (h : ∀ a, x = .ok a → Q a) :
    Keeps P (liftM x : ExceptT ε (StateM σ) α) Q := by
  intro s hs
  cases x with
  | error e => exact ⟨hs, fun _ h => nomatch h⟩
  | ok a =>
    refine ⟨hs, fun b hb => ?_⟩
    obtain rfl := Except.ok.inj hb
    exact h a rfl

/-- A computation may establish a stronger invariant before another one starts. -/
theorem Keeps.bind_of_imp {P' : σ → Prop} {m : ExceptT ε (StateM σ) α}
    {f : α → ExceptT ε (StateM σ) β} (hm : Keeps P m Q) (hP : ∀ s, P s → P' s)
    (hf : ∀ a, Q a → Keeps P' (f a) R) {s : σ} (hs : P s) :
    P' ((m >>= f).run s).2 ∧ ∀ b, ((m >>= f).run s).1 = .ok b → R b := by
  obtain ⟨hs', hQ⟩ := hm s hs
  rw [run_exceptT_bind]
  cases h : m.run s with
  | mk r s' =>
    rw [h] at hs' hQ
    cases r with
    | error e => exact ⟨hP s' hs', fun _ h => nomatch h⟩
    | ok a => exact hf a (hQ a rfl) s' (hP s' hs')

theorem Keeps.bind {m : ExceptT ε (StateM σ) α} {f : α → ExceptT ε (StateM σ) β}
    (hm : Keeps P m Q) (hf : ∀ a, Q a → Keeps P (f a) R) : Keeps P (m >>= f) R :=
  fun _ hs => hm.bind_of_imp (fun _ h => h) hf hs

theorem Keeps.tryCatch {m : ExceptT ε (StateM σ) α} {f : ε → ExceptT ε (StateM σ) α}
    (hm : Keeps P m Q) (hf : ∀ e, Keeps P (f e) Q) : Keeps P (MonadExcept.tryCatch m f) Q := by
  intro s hs
  obtain ⟨hs', hQ⟩ := hm s hs
  rw [run_exceptT_tryCatch]
  cases h : m.run s with
  | mk r s' =>
    rw [h] at hs' hQ
    cases r with
    | ok a => exact ⟨hs', hQ⟩
    | error e => exact hf e s' hs'

end Python
