import Howler.Datastore.Cluster

namespace Howler.Datastore

open Python Systems

namespace AliasAction

/-- What the action makes of the data that its index has for the alias. -/
def onData (a : Str) (act : AliasAction) (data : Option AliasData) : Option AliasData :=
  match act with
  | add _ a' new => if a = a' then some new else data
  | remove _ a' => if a = a' then none else data
  | removeIndex _ => data

variable {D : Type} (acts : List AliasAction)

@[simp] theorem onIndex_docs (act : AliasAction) (ix : Index D) : (act.onIndex ix).docs = ix.docs := by
  cases act <;> rfl

@[simp] theorem onIndex_blocked (act : AliasAction) (ix : Index D) :
    (act.onIndex ix).blocked = ix.blocked := by
  cases act <;> rfl

theorem onIndex_aliases (act : AliasAction) (ix : Index D) (a : Str) :
    (act.onIndex ix).aliases.get? a = act.onData a (ix.aliases.get? a) := by
  cases act with
  | add n a' new => exact Dict.get?_set _ _ _ _
  | remove n a' => exact Dict.get?_erase _ _ _
  | removeIndex n => rfl

/-- The actions on one index, in their order. -/
def onIndexAll (n : Str) (ix : Index D) : Index D :=
  (acts.filter (·.index = n)).foldl (fun ix act => act.onIndex ix) ix

theorem onIndexAll_cons (act : AliasAction) (n : Str) (ix : Index D) :
    onIndexAll (act :: acts) n ix =
      onIndexAll acts n (if n = act.index then act.onIndex ix else ix) := by
  rw [onIndexAll, onIndexAll]
  by_cases h : n = act.index
  · rw [List.filter_cons_of_pos (by simp [h]), if_pos h]
    rfl
  · rw [List.filter_cons_of_neg (by simpa using Ne.symm h), if_neg h]

theorem onIndexAll_docs (n : Str) (ix : Index D) : (onIndexAll acts n ix).docs = ix.docs := by
  induction acts generalizing ix with
  | nil => rfl
  | cons act acts ih =>
    rw [onIndexAll_cons, ih]
    split <;> simp

theorem onIndexAll_blocked (n : Str) (ix : Index D) :
    (onIndexAll acts n ix).blocked = ix.blocked := by
  induction acts generalizing ix with
  | nil => rfl
  | cons act acts ih =>
    rw [onIndexAll_cons, ih]
    split <;> simp

theorem onIndexAll_aliases (n a : Str) (ix : Index D) :
    (onIndexAll acts n ix).aliases.get? a =
      (acts.filter (·.index = n)).foldl (fun data act => act.onData a data) (ix.aliases.get? a) := by
  rw [onIndexAll]
  induction acts.filter (·.index = n) generalizing ix with
  | nil => rfl
  | cons act acts ih => rw [List.foldl_cons, List.foldl_cons, ih, onIndex_aliases]

variable {acts} (h : ∀ act ∈ acts, act.isRemoveIndex = false) (c : Cluster D)
include h

theorem index?_foldl_apply (n : Str) :
    (acts.foldl apply c).index? n = (c.index? n).map (onIndexAll acts n) := by
  induction acts generalizing c with
  | nil => exact (Option.map_id_fun' ▸ rfl : c.index? n = (c.index? n).map fun ix => ix)
  | cons act acts ih =>
    have hact : apply c act = c.modify act.index act.onIndex := by
      have := h act (by simp)
      cases act <;> simp_all [apply, isRemoveIndex]
    rw [List.foldl_cons, ih (fun a ha => h a (by simp [ha])), hact, Cluster.index?_modify]
    cases c.index? n with
    | none => simp
    | some ix =>
      by_cases hn : n = act.index
      · simp [hn, onIndexAll_cons]
      · simp [hn, onIndexAll_cons]

theorem names_foldl_apply : (acts.foldl apply c).names = c.names := by
  induction acts generalizing c with
  | nil => rfl
  | cons act acts ih =>
    have hact : (apply c act).names = c.names := by
      have := h act (by simp)
      cases act <;> simp_all [apply, isRemoveIndex]
    rw [List.foldl_cons, ih (fun a ha => h a (by simp [ha])), hact]

theorem doc?_foldl_apply (n k : Str) : (acts.foldl apply c).doc? n k = c.doc? n k := by
  rw [Cluster.doc?, index?_foldl_apply h, Cluster.doc?]
  cases c.index? n with
  | none => rfl
  | some ix => simp [onIndexAll_docs]

theorem aliasData_foldl_apply (n a : Str) :
    (acts.foldl apply c).aliasData n a = if n ∈ c.names then
      (acts.filter (·.index = n)).foldl (fun data act => act.onData a data) (c.aliasData n a)
    else none := by
  rw [Cluster.aliasData, index?_foldl_apply h, Cluster.aliasData]
  cases hn : c.index? n with
  | none =>
    have : n ∉ c.names := fun hmem => by simpa [hn] using (c.mem_names n).mp hmem
    simp [this]
  | some ix =>
    have : n ∈ c.names := (c.mem_names n).mpr ⟨ix, hn⟩
    simp [this, onIndexAll_aliases]

theorem updateAliases_eq_ok {c' : Cluster D} (hok : c.updateAliases acts = .ok c') :
    c' = acts.foldl apply c := by
  have hnone : acts.filter (·.isRemoveIndex) = [] := by
    simpa [List.filter_eq_nil_iff] using h
  have hall : acts.filter (!·.isRemoveIndex) = acts := by
    simpa [List.filter_eq_self] using h
  simp only [Cluster.updateAliases, hnone, hall, List.foldl_nil, Cluster.checked] at hok
  split at hok
  · split at hok
    · exact (Except.ok.inj hok).symm
    · cases hok
  · cases hok

end AliasAction

end Howler.Datastore
