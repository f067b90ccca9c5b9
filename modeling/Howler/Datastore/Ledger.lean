import Howler.Datastore.Rollover

namespace Howler.Datastore

open Python Systems

variable {D : Type} {search : Search D} {c c' : Collection D} {l : Ledger D} {key : Str}

/-- A key lives in no other index than this one. -/
def Collection.OnlyIn (c : Collection D) (key : Str) (index : ℕ) : Prop :=
  ∀ j, j ≠ index → c.docs j key = none

/-- An operation finds the key in the index that it goes to, or in none. The requests with a version,
and those of a save or an update that reads it, need no such condition. -/
def Placed (s : Collection D × Ledger D) : Operation D → Prop
  | .save key _ (some .create) => s.1.OnlyIn key s.1.write
  | .save key _ (some .empty) => s.1.OnlyIn key s.1.write
  | .delete key => s.1.OnlyIn key s.1.write
  | .bulkInsert key _ index => s.1.OnlyIn key (index.getD s.1.indexName)
  | .bulkIndex key _ index => s.1.OnlyIn key (index.getD s.1.indexName)
  | .bulkDelete key index => s.1.OnlyIn key (index.getD s.1.indexName)
  | _ => True

/-- The document of a key is in one index, or in none. -/
def Collection.Holds (c : Collection D) (key : Str) : Option D → Prop
  | none => ∀ j, c.docs j key = none
  | some d => ∃ j s, c.docs j key = some s ∧ s.doc = d ∧ c.OnlyIn key j

/-- The collection holds what the plain store has, behind its alias. -/
structure Tracks (c : Collection D) (l : Ledger D) : Prop where
  behind : ∀ j key, c.docs j key ≠ none → j ≤ c.write
  holds : ∀ key, c.Holds key (l key)

section Reading

/-- What a search takes where all the hits are one. -/
theorem first_eq {hits : List (ℕ × Stored D)} {h : ℕ × Stored D} (hmem : h ∈ hits)
    (hall : ∀ h' ∈ hits, h' = h) : search.first hits = some h := by
  obtain ⟨h', hh', hfirst⟩ := search.first_mem hits (List.ne_nil_of_mem hmem)
  rw [hfirst, hall h' hh']

theorem mem_hits {j : ℕ} {s : Stored D} :
    (j, s) ∈ c.hits key ↔ j ≤ c.write ∧ c.docs j key = some s := by
  rw [Collection.hits, List.mem_filterMap]
  constructor
  · rintro ⟨i, hi, hs⟩
    obtain ⟨s', hs', heq⟩ := Option.map_eq_some_iff.mp hs
    obtain ⟨rfl, rfl⟩ := Prod.mk.inj heq
    exact ⟨Nat.lt_succ_iff.mp (List.mem_range.mp hi), hs'⟩
  · rintro ⟨hj, hs⟩
    exact ⟨j, List.mem_range.mpr (Nat.lt_succ_iff.mpr hj), by rw [hs, Option.map_some]⟩

theorem get_of_holds {j : ℕ} {s : Stored D} (h : Tracks c l) (hs : c.docs j key = some s)
    (honly : c.OnlyIn key j) : c.get search key = (some s.doc, .token j s.seq) := by
  have hj : j ≤ c.write := h.behind j key (by simp [hs])
  have hall : ∀ h' ∈ c.hits key, h' = (j, s) := by
    rintro ⟨i, s'⟩ hmem
    obtain ⟨-, hs'⟩ := mem_hits.mp hmem
    by_cases hij : i = j
    · subst hij
      rw [Option.some.inj (hs'.symm.trans hs)]
    · rw [honly i hij] at hs'
      contradiction
  rw [Collection.get, first_eq (mem_hits.mpr ⟨hj, hs⟩) hall]

theorem get_of_none (h : ∀ j, c.docs j key = none) : c.get search key = (none, .create) := by
  have hnil : c.hits key = [] := by
    refine List.eq_nil_iff_forall_not_mem.mpr fun e he => ?_
    have hs := (mem_hits.mp (show (e.1, e.2) ∈ c.hits key from he)).2
    rw [h] at hs
    contradiction
  rw [Collection.get, hnil, search.first_nil]

theorem Tracks.get_eq (h : Tracks c l) (key : Str) : (c.get search key).1 = l key := by
  have hk := h.holds key
  cases hl : l key with
  | none =>
    rw [hl] at hk
    rw [get_of_none hk]
  | some d =>
    rw [hl] at hk
    obtain ⟨j, s, hs, hd, honly⟩ := hk
    rw [get_of_holds h hs honly, ← hd]

theorem Collection.Holds.unique {o : Option D} (h : c.Holds key o) {i j : ℕ}
    (hi : c.docs i key ≠ none) (hj : c.docs j key ≠ none) : i = j := by
  cases o with
  | none => exact absurd (h i) hi
  | some d =>
    obtain ⟨k, s, -, -, honly⟩ := h
    have hik : i = k := by
      by_contra hne
      exact hi (honly i hne)
    have hjk : j = k := by
      by_contra hne
      exact hj (honly j hne)
    exact hik.trans hjk.symm

/-- A key that is found in an index is in no other. -/
theorem Tracks.onlyIn (h : Tracks c l) {j : ℕ} (hj : c.docs j key ≠ none) : c.OnlyIn key j := by
  intro i hi
  by_contra hne
  exact hi ((h.holds key).unique hne hj)

end Reading

section Writing

theorem Tracks.put (h : Tracks c l) {index : ℕ} (hindex : index ≤ c.write)
    (honly : c.OnlyIn key index) (d : D) :
    Tracks (c.put index key d) (Function.update l key (some d)) := by
  have hdocs : ∀ j k, (c.put index key d).docs j k =
      if j = index ∧ k = key then some ⟨d, c.seq⟩ else c.docs j k := by
    intro j k
    by_cases hj : j = index
    · subst hj
      by_cases hk : k = key
      · simp [Collection.put, hk]
      · simp [Collection.put, hk]
    · simp [Collection.put, hj]
  constructor
  · intro j k hne
    rw [hdocs] at hne
    split at hne
    · next heq => exact heq.1 ▸ hindex
    · exact h.behind j k hne
  · intro k
    by_cases hk : k = key
    · subst hk
      rw [Function.update_self]
      refine ⟨index, ⟨d, c.seq⟩, by simp [hdocs], rfl, fun j hj => ?_⟩
      rw [hdocs, if_neg (by simp [hj])]
      exact honly j hj
    · rw [Function.update_of_ne hk]
      have hold := h.holds k
      have hsame : ∀ j, (c.put index key d).docs j k = c.docs j k := fun j => by simp [hdocs, hk]
      cases hl : l k with
      | none =>
        rw [hl] at hold
        exact fun j => (hsame j).trans (hold j)
      | some d' =>
        rw [hl] at hold
        obtain ⟨j, s, hs, hd, ho⟩ := hold
        exact ⟨j, s, (hsame j).trans hs, hd, fun i hi => (hsame i).trans (ho i hi)⟩

theorem Tracks.remove (h : Tracks c l) {index : ℕ} (honly : c.OnlyIn key index) :
    Tracks (c.remove index key) (Function.update l key none) := by
  have hdocs : ∀ j k, (c.remove index key).docs j k =
      if j = index ∧ k = key then none else c.docs j k := by
    intro j k
    by_cases hj : j = index
    · subst hj
      by_cases hk : k = key
      · simp [Collection.remove, hk]
      · simp [Collection.remove, hk]
    · simp [Collection.remove, hj]
  constructor
  · intro j k hne
    rw [hdocs] at hne
    split at hne
    · contradiction
    · exact h.behind j k hne
  · intro k
    by_cases hk : k = key
    · subst hk
      rw [Function.update_self]
      intro j
      rw [hdocs]
      by_cases hj : j = index
      · simp [hj]
      · rw [if_neg (by simp [hj])]
        exact honly j hj
    · rw [Function.update_of_ne hk]
      have hold := h.holds k
      have hsame : ∀ j, (c.remove index key).docs j k = c.docs j k := fun j => by simp [hdocs, hk]
      cases hl : l k with
      | none =>
        rw [hl] at hold
        exact fun j => (hsame j).trans (hold j)
      | some d' =>
        rw [hl] at hold
        obtain ⟨j, s, hs, hd, ho⟩ := hold
        exact ⟨j, s, (hsame j).trans hs, hd, fun i hi => (hsame i).trans (ho i hi)⟩

/-- A key without a document may be cleared. -/
theorem Tracks.cleared (h : Tracks c l) (hnone : ∀ j, c.docs j key = none) :
    Tracks c (Function.update l key none) := by
  refine ⟨h.behind, fun k => ?_⟩
  by_cases hk : k = key
  · subst hk
    rw [Function.update_self]
    exact hnone
  · rw [Function.update_of_ne hk]
    exact h.holds k

variable {index : ℕ} {d : D} {f : D → Option D} {create : Bool} {ifSeq : Option ℕ}

theorem Tracks.indexRequest (h : Tracks c l)
    (honly : c.OnlyIn key index ∨ ∃ seq, ifSeq = some seq)
    (hr : c.indexRequest index key d create ifSeq = .ok c') :
    Tracks c' (Function.update l key (some d)) := by
  rw [Collection.indexRequest] at hr
  split at hr
  · contradiction
  · next hle =>
    split at hr
    · contradiction
    · split at hr
      · contradiction
      · next hseq =>
        obtain rfl := Except.ok.inj hr
        refine h.put (not_lt.mp hle) ?_ d
        cases honly with
        | inl honly => exact honly
        | inr hsome =>
          -- the document with the sequence number is in this index
          obtain ⟨seq, rfl⟩ := hsome
          refine h.onlyIn fun hnone => ?_
          simp [hnone] at hseq

theorem Tracks.updateRequest (h : Tracks c l)
    (hr : c.updateRequest index key f ifSeq = .ok c') :
    Tracks c' (Function.update l key ((l key).bind f)) := by
  rw [Collection.updateRequest] at hr
  cases hs : c.docs index key with
  | none =>
    rw [hs] at hr
    contradiction
  | some s =>
    rw [hs] at hr
    dsimp only at hr
    have honly : c.OnlyIn key index := h.onlyIn (by simp [hs])
    have hl : l key = some s.doc := by
      rw [← @Tracks.get_eq _ ⟨List.head?, rfl, fun hits hne => ?_⟩ _ _ h key, get_of_holds h hs honly]
      obtain ⟨a, as, rfl⟩ := List.exists_cons_of_ne_nil hne
      exact ⟨a, List.mem_cons_self, rfl⟩
    split at hr
    · contradiction
    · split at hr
      · contradiction
      · next d hd =>
        obtain rfl := Except.ok.inj hr
        rw [hl, Option.bind_some, hd]
        exact h.put (h.behind index key (by simp [hs])) honly d

/-- After a deletion the key is gone, whether it was there or not. -/
theorem Tracks.deleteRequest (h : Tracks c l) (honly : c.OnlyIn key index) :
    (∀ c', c.deleteRequest index key = .ok c' → Tracks c' (Function.update l key none)) ∧
      ∀ e, c.deleteRequest index key = .error e → Tracks c (Function.update l key none) := by
  rw [Collection.deleteRequest]
  cases hs : c.docs index key with
  | none =>
    refine ⟨fun c' hc' => by simp at hc', fun e _ => h.cleared fun j => ?_⟩
    by_cases hj : j = index
    · rw [hj, hs]
    · exact honly j hj
  | some s =>
    refine ⟨fun c' hc' => ?_, fun e he => by simp at he⟩
    obtain rfl := Except.ok.inj hc'
    exact h.remove honly

end Writing

section Runs

/-- A save goes where the document is, or makes a new one. -/
theorem Tracks.save (h : Tracks c l) {d : D} {version : Option Version}
    (hplaced : Placed (c, l) (.save key d version)) (hr : c.save search key d version = .ok c') :
    Tracks c' (Function.update l key (some d)) := by
  rw [Collection.save] at hr
  split at hr
  · contradiction
  · have htoken : ∀ v, (c.versionWriteTarget v >>= fun t =>
        c.indexRequest t.1 key d false (some t.2)) = .ok c' →
        Tracks c' (Function.update l key (some d)) := by
      intro v hv
      cases ht : c.versionWriteTarget v with
      | error e =>
        rw [ht] at hv
        contradiction
      | ok t =>
        rw [ht] at hv
        exact h.indexRequest (.inr ⟨_, rfl⟩) hv
    cases version with
    | some v =>
      rw [Option.getD_some] at hr
      cases v with
      | create => exact h.indexRequest (.inl hplaced) hr
      | empty => exact h.indexRequest (.inl hplaced) hr
      | token i s => exact htoken _ hr
      | plain s => exact htoken _ hr
      | malformed => exact htoken _ hr
    | none =>
      rw [Option.getD_none] at hr
      have hk := h.holds key
      cases hl : l key with
      | none =>
        rw [hl] at hk
        rw [get_of_none hk] at hr
        exact h.indexRequest (.inl fun j _ => hk j) hr
      | some d' =>
        rw [hl] at hk
        obtain ⟨j, s, hs, -, honly⟩ := hk
        rw [get_of_holds h hs honly] at hr
        exact htoken _ hr

theorem Tracks.update (h : Tracks c l) {f : D → Option D} {version : Option Version}
    (hr : c.update search key f version = .ok c') :
    Tracks c' (Function.update l key ((l key).bind f)) := by
  rw [Collection.update] at hr
  have htoken : ∀ v, (c.versionWriteTarget v >>= fun t =>
      c.updateRequest t.1 key f (some t.2)) = .ok c' →
      Tracks c' (Function.update l key ((l key).bind f)) := by
    intro v hv
    cases ht : c.versionWriteTarget v with
    | error e =>
      rw [ht] at hv
      contradiction
    | ok t =>
      rw [ht] at hv
      exact h.updateRequest hv
  generalize version.getD (c.get search key).2 = v at hr
  cases v with
  | empty => exact h.updateRequest hr
  | create => exact htoken _ hr
  | token i s => exact htoken _ hr
  | plain s => exact htoken _ hr
  | malformed => exact htoken _ hr

theorem Tracks.rollover (h : Tracks c l) : Tracks c.rollover l :=
  ⟨fun j k hne => (h.behind j k hne).trans (Nat.le_succ _), h.holds⟩

theorem Tracks.step (h : Tracks c l) (op : Operation D) (hplaced : Placed (c, l) op) :
    Tracks (step search (c, l) op).1 (step search (c, l) op).2 := by
  rw [Datastore.step]
  cases hr : perform search c op with
  | ok c' =>
    cases op with
    | save key d version => exact h.save hplaced hr
    | update key f version => exact h.update hr
    | delete key => exact (h.deleteRequest hplaced).1 c' hr
    | bulkInsert key d index => exact h.indexRequest (.inl hplaced) hr
    | bulkIndex key d index => exact h.indexRequest (.inl hplaced) hr
    | bulkUpdate key f index => exact h.updateRequest hr
    | bulkDelete key index => exact (h.deleteRequest hplaced).1 c' hr
    | rollover =>
      obtain rfl := Except.ok.inj hr
      exact h.rollover
    | ensure =>
      obtain rfl := Except.ok.inj hr
      exact ⟨h.behind, h.holds⟩
  | error e =>
    cases op with
    | delete key => exact (h.deleteRequest hplaced).2 e hr
    | bulkDelete key index => exact (h.deleteRequest hplaced).2 e hr
    | _ => exact h

/-- In every run from an empty collection whose operations find their keys where they go, a key lives
in one index at most, and `get` returns what a plain store has. -/
theorem collection_tracks (search : Search D) (ops : List (Operation D))
    (hplaced : Along (step search) Placed ({}, fun _ => none) ops) (key : Str) :
    (∀ i j, (Systems.run (step search) ({}, fun _ => none) ops).1.docs i key ≠ none →
      (Systems.run (step search) ({}, fun _ => none) ops).1.docs j key ≠ none → i = j) ∧
    ((Systems.run (step search) ({}, fun _ => none) ops).1.get search key).1 =
      (Systems.run (step search) ({}, fun _ => none) ops).2 key := by
  have hinit : Tracks ({} : Collection D) fun _ => none := ⟨by simp, fun _ _ => rfl⟩
  have htracks := inv_run (fun s : Collection D × Ledger D => Tracks s.1 s.2)
    (fun s op h hp => h.step op hp) hinit hplaced
  exact ⟨fun i j => (htracks.holds key).unique, htracks.get_eq key⟩

end Runs

/-- The first of the hits. -/
def firstHit (D : Type) : Search D where
  first := List.head?
  first_nil := rfl
  first_mem := fun hits hne => by
    obtain ⟨a, as, rfl⟩ := List.exists_cons_of_ne_nil hne
    exact ⟨a, List.mem_cons_self, rfl⟩

/-- A document that is saved, saved again after a rollover, and written once more by a bulk plan that
names its index, and one that is saved after the rollover and deleted. -/
theorem collection_tracks_saved :
    ((Systems.run (step (firstHit ℕ)) ({}, fun _ => none)
      [.save ['k'] 1 none, .rollover, .save ['k'] 2 none, .save ['m'] 5 none,
        .bulkIndex ['k'] 3 (some 0), .delete ['m']]).1.get (firstHit ℕ) ['k']).1 = some 3 ∧
    ((Systems.run (step (firstHit ℕ)) ({}, fun _ => none)
      [.save ['k'] 1 none, .rollover, .save ['k'] 2 none, .save ['m'] 5 none,
        .bulkIndex ['k'] 3 (some 0), .delete ['m']]).1.get (firstHit ℕ) ['m']).1 = none := by
  have hsaves : Along (step (firstHit ℕ)) Placed ({}, fun _ => none)
      [.save ['k'] 1 none, .rollover, .save ['k'] 2 none, .save ['m'] 5 none] :=
    ⟨trivial, trivial, trivial, trivial, trivial⟩
  have honce := (collection_tracks (firstHit ℕ) [.save ['k'] 1 none, .rollover,
    .save ['k'] 2 none, .save ['m'] 5 none] hsaves ['k']).1
  have hbulk : Along (step (firstHit ℕ)) Placed ({}, fun _ => none)
      [.save ['k'] 1 none, .rollover, .save ['k'] 2 none, .save ['m'] 5 none,
        .bulkIndex ['k'] 3 (some 0)] := by
    refine ⟨trivial, trivial, trivial, trivial, fun j hj => ?_, trivial⟩
    by_contra hstored
    exact hj (honce j 0 hstored (by decide))
  have honce' := (collection_tracks (firstHit ℕ) [.save ['k'] 1 none, .rollover,
    .save ['k'] 2 none, .save ['m'] 5 none, .bulkIndex ['k'] 3 (some 0)] hbulk ['m']).1
  have hall : Along (step (firstHit ℕ)) Placed ({}, fun _ => none)
      [.save ['k'] 1 none, .rollover, .save ['k'] 2 none, .save ['m'] 5 none,
        .bulkIndex ['k'] 3 (some 0), .delete ['m']] := by
    refine ⟨trivial, trivial, trivial, trivial, hbulk.2.2.2.2.1, fun j hj => ?_, trivial⟩
    by_contra hstored
    exact hj (honce' j 1 hstored (by decide))
  exact ⟨(collection_tracks (firstHit ℕ) _ hall ['k']).2,
    (collection_tracks (firstHit ℕ) _ hall ['m']).2⟩

/-- A deletion goes to the write index only, and a bulk plan to the index of the client: after a
rollover a deleted document stays, and a document is stored twice. -/
theorem rollover_keeps_deleted :
    ((Systems.run (step (firstHit ℕ)) ({}, fun _ => none)
      [.save ['k'] 1 none, .rollover, .delete ['k']]).1.get (firstHit ℕ) ['k']).1 = some 1 ∧
    (Systems.run (step (firstHit ℕ)) ({}, fun _ => none)
      [.save ['k'] 1 none, .rollover, .delete ['k']]).2 ['k'] = none ∧
    (Systems.run (step (firstHit ℕ)) ({}, fun _ => none)
      [.save ['k'] 1 none, .rollover, .ensure, .bulkIndex ['k'] 2 none]).1.docs 0 ['k'] ≠ none ∧
    (Systems.run (step (firstHit ℕ)) ({}, fun _ => none)
      [.save ['k'] 1 none, .rollover, .ensure, .bulkIndex ['k'] 2 none]).1.docs 1 ['k'] ≠ none := by
  exact ⟨rfl, rfl, by decide, by decide⟩

end Howler.Datastore
