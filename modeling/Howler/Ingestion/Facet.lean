import Mathlib.Data.List.Dedup
import Howler.Python.Text

namespace Howler.Ingestion

open Python

/-- The values of a field by how many documents have them, and those that as many have in their
order. -/
def buckets (values : List Str) : List Str :=
  (sorted values.dedup).insertionSort fun a b => values.count b ≤ values.count a

section Facet

-- which stored hashes the hits have that a query matches, or nothing if the query is refused
variable (search : Str → Option (Str → Bool))

/-- A search for the most frequent hashes of the hits that a query matches. -/
def facet (stored : List Str) (query : Str) (rows : ℕ) : Option (List Str) :=
  (search query).map fun hits => (buckets (stored.filter hits)).take rows

/-- `f"howler.hash:({' OR '.join(hashes)})"` -/
def hashQuery (hashes : List Str) : Str :=
  "howler.hash:(".toList ++ join " OR ".toList hashes ++ ")".toList

/-- The hashes of a list that are found in the store. -/
def existingHashes (stored hashes : List Str) : Option (List Str) :=
  facet search stored (hashQuery hashes) hashes.length

variable {search} {stored stored' hashes existing : List Str} {h : Str}

theorem perm_buckets (values : List Str) : (buckets values).Perm values.dedup :=
  (List.perm_insertionSort _ _).trans (List.perm_insertionSort _ _)

theorem buckets_congr {values values' : List Str} (h : values.Perm values') :
    buckets values = buckets values' := by
  unfold buckets
  rw [sorted_congr h.dedup]
  simp only [h.count_eq]

theorem existingHashes_congr (h : stored.Perm stored') :
    existingHashes search stored hashes = existingHashes search stored' hashes := by
  unfold existingHashes facet
  simp only [buckets_congr (h.filter _)]

/-- What is found is stored. -/
theorem mem_of_existingHashes (h : existingHashes search stored hashes = some existing) :
    existing ⊆ stored := by
  obtain ⟨hits, -, rfl⟩ := Option.map_eq_some_iff.mp h
  intro x hx
  have hmem := (perm_buckets _).mem_iff.mp (List.mem_of_mem_take hx)
  exact List.mem_of_mem_filter (List.mem_dedup.mp hmem)

/-- Whether the query is refused does not depend on what is stored. -/
theorem isSome_existingHashes :
    (existingHashes search stored hashes).isSome = (search (hashQuery hashes)).isSome :=
  Option.isSome_map ..

/-- A search that finds the hits with one of the hashes finds all of the hashes that are stored. -/
theorem mem_existingHashes_of_words (hsearch : search (hashQuery hashes) = some fun x => decide (x ∈ hashes))
    (hexisting : existingHashes search stored hashes = some existing) (hh : h ∈ hashes)
    (hstored : h ∈ stored) : h ∈ existing := by
  rw [existingHashes, facet, hsearch, Option.map_some, Option.some.injEq] at hexisting
  subst hexisting
  have hperm := perm_buckets (stored.filter (· ∈ hashes))
  have hlength : (buckets (stored.filter (· ∈ hashes))).length ≤ hashes.length := by
    rw [hperm.length_eq]
    refine (List.subperm_of_subset (List.nodup_dedup _) fun x hx => ?_).length_le
    simpa using List.of_mem_filter (List.mem_dedup.mp hx)
  rw [List.take_of_length_le hlength, hperm.mem_iff, List.mem_dedup]
  exact List.mem_filter.mpr ⟨hstored, by simpa using hh⟩

end Facet

section Distinct

variable {α : Type} {hash : α → Str} {hits : List α} {stored existing : List Str}

/-- The hashes of a list that are not stored. -/
def unsaved (stored hashes : List Str) : List Str := hashes.filter (· ∉ stored)

/-- Each hash that is not stored belongs to one of what is created, and no hash that is stored. -/
structure OncePerHash (stored hashes created : List Str) : Prop where
  once : created.Nodup
  missing : ∀ h, h ∈ created ↔ h ∈ hashes ∧ h ∉ stored

/-- Leaving out what is found makes up for what is stored exactly where all of it is found and no
hash that is not stored occurs twice. -/
theorem oncePerHash_iff (hexisting : existing ⊆ stored) :
    OncePerHash stored (hits.map hash) ((hits.filter fun a => hash a ∉ existing).map hash) ↔
      (∀ h ∈ hits.map hash, h ∈ stored → h ∈ existing) ∧
        (unsaved stored (hits.map hash)).Nodup := by
  have hmap : (hits.filter fun a => hash a ∉ existing).map hash = unsaved existing (hits.map hash) := by
    rw [unsaved, List.filter_map]
    rfl
  rw [hmap]
  constructor
  · intro h
    have hfound : ∀ x ∈ hits.map hash, x ∈ stored → x ∈ existing := by
      intro x hx hstored
      by_contra hmissing
      have hcreated : x ∈ unsaved existing (hits.map hash) :=
        List.mem_filter.mpr ⟨hx, by simpa using hmissing⟩
      exact ((h.missing x).mp hcreated).2 hstored
    refine ⟨hfound, h.once.sublist (List.monotone_filter_right _ fun x hx => ?_)⟩
    rw [decide_eq_true_eq] at hx ⊢
    exact fun hmem => hx (hexisting hmem)
  · rintro ⟨hfound, hnodup⟩
    have hsame : unsaved existing (hits.map hash) = unsaved stored (hits.map hash) := by
      refine List.filter_congr fun x hx => ?_
      rw [decide_eq_decide, not_iff_not]
      exact ⟨fun hmem => hexisting hmem, hfound x hx⟩
    rw [hsame]
    exact ⟨hnodup, fun x => by simp [unsaved]⟩

end Distinct

end Howler.Ingestion
