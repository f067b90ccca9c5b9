import Mathlib.Data.List.Basic

namespace Python

variable {ε α β : Type}

theorem bind_eq_ok {x : Except ε α} {f : α → Except ε β} {b : β} :
    (x >>= f) = .ok b ↔ ∃ a, x = .ok a ∧ f a = .ok b := by
  cases x with
  | error e => simp [bind, Except.bind]
  | ok a => simp [bind, Except.bind]

theorem mem_toOption {x : Except ε α} {a : α} (h : x = .ok a) : a ∈ x.toOption := by
  rw [h]
  rfl

theorem map_eq_ok {x : Except ε α} {f : α → β} {b : β} :
    x.map f = .ok b ↔ ∃ a, x = .ok a ∧ f a = b := by
  cases x <;> simp [Except.map]

/-- What a loop that may raise returns: one value for each item. -/
theorem mem_of_mapM_ok {f : α → Except ε β} {xs : List α} {ys : List β}
    (h : xs.mapM f = .ok ys) (y : β) : y ∈ ys ↔ ∃ x ∈ xs, f x = .ok y := by
  induction xs generalizing ys with
  | nil =>
    have hy : ys = [] := by simpa [pure, Except.pure] using h.symm
    simp [hy]
  | cons x xs ih =>
    rw [List.mapM_cons, bind_eq_ok] at h
    obtain ⟨z, hz, h⟩ := h
    obtain ⟨zs, hzs, h⟩ := bind_eq_ok.mp h
    have hy : ys = z :: zs := by simpa [pure, Except.pure] using h.symm
    rw [hy, List.mem_cons, ih hzs]
    simp [hz, eq_comm]

theorem ok_of_mapM_ok {f : α → Except ε β} {xs : List α} {ys : List β} (h : xs.mapM f = .ok ys)
    {x : α} (hx : x ∈ xs) : ∃ y ∈ ys, f x = .ok y := by
  induction xs generalizing ys with
  | nil => simp at hx
  | cons z zs ih =>
    rw [List.mapM_cons, bind_eq_ok] at h
    obtain ⟨v, hv, h⟩ := h
    obtain ⟨vs, hvs, h⟩ := bind_eq_ok.mp h
    have hy : ys = v :: vs := by simpa [pure, Except.pure] using h.symm
    rw [hy]
    rcases List.mem_cons.mp hx with rfl | hx
    · exact ⟨v, by simp, hv⟩
    · obtain ⟨y, hy, hfy⟩ := ih hvs hx
      exact ⟨y, List.mem_cons_of_mem _ hy, hfy⟩

/-- What each value keeps of its item, the values keep of the items, in their order. -/
theorem map_of_mapM_ok {γ : Type} {f : α → Except ε β} {g : β → γ} {h : α → γ} {xs : List α}
    {ys : List β} (hok : xs.mapM f = .ok ys) (hkeep : ∀ x y, f x = .ok y → g y = h x) :
    ys.map g = xs.map h := by
  induction xs generalizing ys with
  | nil =>
    have hy : ys = [] := by simpa [pure, Except.pure] using hok.symm
    rw [hy]
    rfl
  | cons x xs ih =>
    rw [List.mapM_cons, bind_eq_ok] at hok
    obtain ⟨y, hy, hok⟩ := hok
    obtain ⟨zs, hzs, hok⟩ := bind_eq_ok.mp hok
    have hcons : ys = y :: zs := by simpa [pure, Except.pure] using hok.symm
    rw [hcons, List.map_cons, List.map_cons, hkeep x y hy, ih hzs]

theorem exists_mapM_ok {f : α → Except ε β} {xs : List α} (h : ∀ x ∈ xs, ∃ y, f x = .ok y) :
    ∃ ys, xs.mapM f = .ok ys := by
  induction xs with
  | nil => exact ⟨[], rfl⟩
  | cons x xs ih =>
    obtain ⟨y, hy⟩ := h x (by simp)
    obtain ⟨ys, hys⟩ := ih fun z hz => h z (List.mem_cons_of_mem _ hz)
    exact ⟨y :: ys, by rw [List.mapM_cons, hy, hys]; rfl⟩

end Python
