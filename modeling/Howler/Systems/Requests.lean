import Howler.Systems.Programs

namespace Systems

/-- What becomes of a request: it is answered, or it fails before or after its effect. -/
inductive Delivery where
  | answered
  | failedBefore
  | failedAfter
  deriving DecidableEq, Repr

/-- Commands that may be refused or get lost. -/
abbrev Interface.fallible (I : Interface) (ε : Type) : Interface :=
  ⟨I.Command, fun c => Except ε (I.Answer c)⟩

/-- The other side: it answers and changes, or refuses and stays as it is. -/
abbrev Server (I : Interface) (ε σ : Type) := (c : I.Command) → σ → Except ε (I.Answer c × σ)

variable {I : Interface} {ε σ α β : Type}

/-- A server behind a connection on which requests fail as they are listed. Requests beyond the
list are answered. -/
def Server.behind (S : Server I ε σ) (lost : ε) : Handler (I.fallible ε) (σ × List Delivery) :=
  fun c s => match S c s.1, s.2.headD .answered with
    | .error e, _ => (.error e, s.1, s.2.tail)
    | .ok r, .answered => (.ok r.1, r.2, s.2.tail)
    | .ok _, .failedBefore => (.error lost, s.1, s.2.tail)
    | .ok r, .failedAfter => (.error lost, r.2, s.2.tail)

namespace Prog

/-- A request whose failure is raised. -/
def request (c : I.Command) : Prog (I.fallible ε) ε (I.Answer c) :=
  call c fromExcept

variable {S : Server I ε σ} {lost : ε}

/-- What a request does that is answered. -/
theorem run_request_ok {c : I.Command} {s : σ} {ds : List Delivery} {a : I.Answer c}
    {t : σ × List Delivery} (h : (request c).run (S.behind lost) (s, ds) = (.ok a, t)) :
    S c s = .ok (a, t.1) := by
  have hrun : (request c).run (S.behind lost) (s, ds) = S.behind lost c (s, ds) :=
    run_fromExcept _ _ _
  rw [hrun] at h
  unfold Server.behind at h
  cases hS : S c s with
  | error e =>
    simp only [hS] at h
    cases h
  | ok r =>
    cases hd : ds.headD .answered with
    | answered =>
      simp only [hS, hd] at h
      cases h
      rfl
    | failedBefore =>
      simp only [hS, hd] at h
      cases h
    | failedAfter =>
      simp only [hS, hd] at h
      cases h

/-- A request fails on the way, or because it is refused. -/
theorem run_request_error {c : I.Command} {s : σ} {ds : List Delivery} {e : ε}
    {t : σ × List Delivery} (h : (request c).run (S.behind lost) (s, ds) = (.error e, t)) :
    e = lost ∨ S c s = .error e := by
  have hrun : (request c).run (S.behind lost) (s, ds) = S.behind lost c (s, ds) :=
    run_fromExcept _ _ _
  rw [hrun] at h
  unfold Server.behind at h
  cases hS : S c s with
  | error e' =>
    simp only [hS] at h
    cases h
    exact .inr rfl
  | ok r =>
    cases hd : ds.headD .answered with
    | answered =>
      simp only [hS, hd] at h
      cases h
    | failedBefore =>
      simp only [hS, hd] at h
      cases h
      exact .inl rfl
    | failedAfter =>
      simp only [hS, hd] at h
      cases h
      exact .inl rfl

/-- A request leaves the server as it is or does what it does. -/
theorem run_request_snd (c : I.Command) (s : σ) (ds : List Delivery) :
    ((request c).run (S.behind lost) (s, ds)).2.1 = s ∨
      ∃ a, S c s = .ok (a, ((request c).run (S.behind lost) (s, ds)).2.1) := by
  have hrun : (request c).run (S.behind lost) (s, ds) = S.behind lost c (s, ds) :=
    run_fromExcept _ _ _
  rw [hrun]
  unfold Server.behind
  cases hS : S c s with
  | error e => exact .inl rfl
  | ok r =>
    cases ds.headD .answered with
    | answered => exact .inr ⟨r.1, rfl⟩
    | failedBefore => exact .inl rfl
    | failedAfter => exact .inr ⟨r.1, rfl⟩

end Prog

end Systems
