import Howler.Datastore.Phases
import Howler.Datastore.WriteIndex

namespace Howler.Datastore

open Python Systems Prog

variable {D : Type} {copying : Copying D}

/-- The failures that leave a write block: of a request that blocks, after its effect; of one that
unblocks or swaps the aliases, without it; of the clone; and of the question whether an index that
is blocked exists. -/
def Harmful (r : Request) (c : Cluster D) (effect : Bool) : Prop :=
  match r with
  | .putWriteBlock _ true => effect = true
  | .putWriteBlock _ false => effect = false
  | .updateAliases _ => effect = false
  | .clone _ _ => True
  | .exists_ n => ∃ ix, c.index? n = some ix ∧ ix.blocked = true
  | _ => False

/-- What holds of a task wherever it is interrupted and however its requests fail, unless they fail
in a way that does harm. -/
def Safe (copying : Copying D) (harm : Request → Cluster D → Bool → Prop) (P : Cluster D → Prop)
    {α : Type} (task : Task α) (c : Cluster D) (Q : α → Cluster D → Prop)
    (E : ClusterError → Cluster D → Prop) : Prop :=
  ∀ ds, task.Keeps (Cluster.faulty copying) (Harmless (Cluster.server copying) harm)
    (fun t => P t.1) (fun a t => Q a t.1) (fun e t => E e t.1) (c, ds)

section Rules

variable {α β : Type} {harm : Request → Cluster D → Bool → Prop} {P : Cluster D → Prop} {Q : α → Cluster D → Prop}
  {R : β → Cluster D → Prop} {E F : ClusterError → Cluster D → Prop} {c : Cluster D}

theorem Safe.bind {task : Task α} {f : α → Task β} (h : Safe copying harm P task c Q E)
    (hf : ∀ a c', P c' → Q a c' → Safe copying harm P (f a) c' R E) :
    Safe copying harm P (task >>= f) c R E :=
  fun ds => (h ds).bind fun a t hP hQ => hf a t.1 hP hQ t.2

theorem Safe.catch {task : Task α} {f : ClusterError → Task α} (h : Safe copying harm P task c Q F)
    (hf : ∀ e c', P c' → F e c' → Safe copying harm P (f e) c' Q E) :
    Safe copying harm P (tryCatch task f) c Q E :=
  fun ds => (h ds).catch fun e t hP hF => hf e t.1 hP hF t.2

theorem Safe.mono {task : Task α} {Q' : α → Cluster D → Prop}
    {E' : ClusterError → Cluster D → Prop} (h : Safe copying harm P task c Q E)
    (hQ : ∀ a t, Q a t → Q' a t) (hE : ∀ e t, E e t → E' e t) : Safe copying harm P task c Q' E' :=
  fun ds => (h ds).mono (fun _ hP => hP) (fun a t => hQ a t.1) (fun e t => hE e t.1)

end Rules

section Requests

variable {c : Cluster D} {n : Str} {ix : Index D}

end Requests

section Aliases

variable {c : Cluster D} {j : Str} {sx cp : Index D} {aliases : Dict Str AliasData}

end Aliases

section Reindex

variable {name : Str} {whole c : Cluster D} {j : Str} {ix : Index D}

/-- The source is there, with what has been made of a copy of it. -/
def Copied (c : Cluster D) (j : Str) (ix : Index D) (blocked : Bool) (c' : Cluster D) : Prop :=
  ∃ y : Option (Index D), Patched c j (some { ix with blocked }) y c' ∧
    ∀ cp, y = some cp → cp.aliases = [] ∧ cp.blocked = false

/-- The source is gone, and the copy has its documents. -/
def Moved (c : Cluster D) (j : Str) (ix : Index D) (blocked : Bool) (c' : Cluster D) : Prop :=
  ∃ cp : Index D, Patched c j none (some cp) c' ∧ cp.docs = ix.docs ∧ cp.aliases = [] ∧
    cp.blocked = blocked

/-- The copy has become the source. -/
def Renamed (c : Cluster D) (j : Str) (ix : Index D) (blocked : Bool) (c' : Cluster D) : Prop :=
  ∃ fx : Index D, Patched c j (some fx) none c' ∧ fx.docs = ix.docs ∧ SameAliases ix fx ∧
    fx.blocked = blocked

variable (hj : Own name j) (hc : InPhase name whole c) (hix : c.index? j = some ix)
  (hcopy : c.index? (copyOf j) = none)
include hj hc hix hcopy

theorem whole_of_inPhase :
    ∃ ix₀, whole.index? j = some ix₀ ∧ ix.docs = ix₀.docs ∧ SameAliases ix₀ ix := by
  have h := hc j hj
  cases hw : whole.index? j with
  | none => simp [hw, hix] at h
  | some ix₀ =>
    rw [hw, hix, hcopy] at h
    exact ⟨ix₀, rfl, h⟩

theorem Copied.inPhase {blocked : Bool} {c' : Cluster D} (h : Copied c j ix blocked c') :
    InPhase name whole c' := by
  obtain ⟨ix₀, hw, hdocs, haliases⟩ := whole_of_inPhase hj hc hix hcopy
  obtain ⟨y, hpatched, hy⟩ := h
  apply hpatched.inPhase hj hc
  rw [hw]
  cases y with
  | none => exact ⟨hdocs, haliases⟩
  | some cp => exact ⟨hdocs, (hy cp rfl).1⟩

theorem Moved.inPhase {blocked : Bool} {c' : Cluster D} (h : Moved c j ix blocked c') :
    InPhase name whole c' := by
  obtain ⟨ix₀, hw, hdocs, -⟩ := whole_of_inPhase hj hc hix hcopy
  obtain ⟨cp, hpatched, hcp, haliases, -⟩ := h
  apply hpatched.inPhase hj hc
  rw [hw]
  exact ⟨hcp.trans hdocs, haliases⟩

theorem Renamed.inPhase {blocked : Bool} {c' : Cluster D} (h : Renamed c j ix blocked c') :
    InPhase name whole c' := by
  obtain ⟨ix₀, hw, hdocs, haliases⟩ := whole_of_inPhase hj hc hix hcopy
  obtain ⟨fx, hpatched, hfx, hsame, -⟩ := h
  apply hpatched.inPhase hj hc
  rw [hw]
  exact ⟨hfx.trans hdocs, fun a => (hsame a).trans (haliases a)⟩

/-- What a failed reindex of one index leaves. -/
def Left (c : Cluster D) (j : Str) (ix : Index D) (e : ClusterError) (c' : Cluster D) : Prop :=
  c' = c ∨ Copied c j ix false c' ∨ (e = .connection ∧ Moved c j ix false c') ∨
    Renamed c j ix false c'

end Reindex

section Outcomes

variable {name : Str} {whole c c' : Cluster D} {j : Str} {ix : Index D} (hj : Own name j)
  (hix : c.index? j = some ix) (hcopy : c.index? (copyOf j) = none)
include hix hcopy

theorem Copied.remains {blocked : Bool} (h : Copied c j ix blocked c') : Remains c c' := by
  obtain ⟨y, hpatched, -⟩ := h
  apply hpatched.remains
  · intro ix' hix'
    rw [hix] at hix'
    obtain rfl := Option.some.inj hix'
    exact ⟨_, rfl, rfl⟩
  · intro ix' hix'
    rw [hcopy] at hix'
    cases hix'

theorem Renamed.remains {blocked : Bool} (h : Renamed c j ix blocked c') : Remains c c' := by
  obtain ⟨fx, hpatched, hdocs, -⟩ := h
  apply hpatched.remains
  · intro ix' hix'
    rw [hix] at hix'
    obtain rfl := Option.some.inj hix'
    exact ⟨_, rfl, hdocs⟩
  · intro ix' hix'
    rw [hcopy] at hix'
    cases hix'

include hj

omit hix hcopy in
theorem Copied.lifted (h : Copied c j ix false c') : Lifted name c c' := by
  obtain ⟨y, hpatched, hy⟩ := h
  apply hpatched.lifted hj
  · intro _ ix' hix'
    obtain rfl := Option.some.inj hix'
    rfl
  · intro _ cp hcp
    exact (hy cp hcp).2

omit hix hcopy in
theorem Moved.lifted (h : Moved c j ix false c') : Lifted name c c' := by
  obtain ⟨cp, hpatched, -, -, hblocked⟩ := h
  apply hpatched.lifted hj
  · intro _ ix' hix'
    cases hix'
  · intro _ cp' hcp'
    obtain rfl := Option.some.inj hcp'
    exact hblocked

omit hix hcopy in
theorem Renamed.lifted (h : Renamed c j ix false c') : Lifted name c c' := by
  obtain ⟨fx, hpatched, -, -, hblocked⟩ := h
  apply hpatched.lifted hj
  · intro _ ix' hix'
    obtain rfl := Option.some.inj hix'
    exact hblocked
  · intro _ cp hcp
    cases hcp

/-- An error has lifted the write block, and a refusal has deleted nothing. -/
theorem Left.outcome {e : ClusterError} (h : Left c j ix e c') :
    Lifted name c c' ∧ (e = .dataStore → Remains c c') := by
  obtain rfl | h | ⟨rfl, h⟩ | h := h
  · exact ⟨fun _ _ hu => hu, fun _ => Remains.refl _⟩
  · exact ⟨h.lifted hj, fun _ => h.remains hix hcopy⟩
  · exact ⟨h.lifted hj, nofun⟩
  · exact ⟨h.lifted hj, fun _ => h.remains hix hcopy⟩

end Outcomes

section Loop

variable {name : Str} {whole c : Cluster D} {ns : List Str}

end Loop

end Howler.Datastore
