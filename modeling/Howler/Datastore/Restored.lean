import Howler.Datastore.Recovery
import Howler.Systems.Runs

namespace Howler.Datastore

open Python Systems Prog

variable {D : Type} {copying : Copying D}

section Listed

variable (name : Str) (ilm : Bool)

/-- The indices that a call goes through. -/
def listed (c : Cluster D) : List Str :=
  let rollovers := sorted ((c.names.filter (ilmPrefix name).isPrefixOf).filter (isRollover name))
  ((if ilm then rollovers else []).getLast?.getD (hotIndex name) :: rollovers.reverse).eraseDups

variable {name ilm} {harm : Request → Cluster D → Bool → Prop} {P : Cluster D → Prop}
  {c : Cluster D}

end Listed

section Cleanup

variable {name : Str} {whole c : Cluster D} {j : Str} {ix cp : Index D}

/-- The index is there, with its aliases, and accepts writes unless a cleanup of it is due. -/
def ReadyAt (ix₀ : Index D) (c : Cluster D) (i : Str) : Prop :=
  ∃ ix, c.index? i = some ix ∧ SameAliases ix₀ ix ∧
    (c.index? (copyOf i) = none → ix.blocked = false)

def AllReady (name : Str) (whole c : Cluster D) : Prop :=
  ∀ i ix₀, Own name i → whole.index? i = some ix₀ → ReadyAt ix₀ c i

variable (hj : Own name j) (hc : InPhase name whole c) (hready : AllReady name whole c)
include hj hc hready

omit hc in
theorem Patched.ready {c' : Cluster D} {fx : Index D} {y : Option (Index D)}
    (h : Patched c j (some fx) y c') (hsame : ∀ ix₀, whole.index? j = some ix₀ → SameAliases ix₀ fx)
    (hblocked : y = none → fx.blocked = false) : AllReady name whole c' := by
  intro i ix₀ hi hw
  by_cases hij : i = j
  · subst hij
    exact ⟨fx, h.source, hsame ix₀ hw, fun hnone => hblocked (h.copy ▸ hnone)⟩
  · obtain ⟨ix, hix, haliases, hfree⟩ := hready i ix₀ hi hw
    refine ⟨ix, ?_, haliases, fun hnone => hfree ?_⟩
    · rw [h i, if_neg hij, if_neg (own_ne_copyOf hi j), hix]
    · rwa [h (copyOf i), if_neg (own_ne_copyOf hj i).symm,
        if_neg (fun he => hij (copyOf_inj he))] at hnone

end Cleanup

section Loop

variable {name : Str} {whole c : Cluster D} {ns : List Str}

end Loop

/-- The collection, and the collection as it should be. -/
structure Site (D : Type) where
  cluster : Cluster D
  whole : Cluster D

/-- A call, with the failures of its requests and the number of requests after which it is
interrupted at the latest; or the documents of an index that is written to. -/
inductive Event (D : Type) where
  | reindex (allowFailures : Bool) (deliveries : List Delivery) (limit : ℕ)
  | cleanup (deliveries : List Delivery) (limit : ℕ)
  | write (index : Str) (docs : Dict Str D)

section Events

variable (copying : Copying D) (name : Str) (ilm : Bool)

/-- Whether an index of the collection takes writes. -/
def accepts (c : Cluster D) (i : Str) : Bool :=
  decide (Own name i) && (c.index? i).any fun ix => !ix.blocked

/-- How the event ends, if it does, and what it leaves. -/
def outcome (c : Cluster D) : Event D → Option (Except ClusterError Unit) × Cluster D
  | .reindex allowFailures ds limit =>
    let r := (reindex name ilm allowFailures).runFor (Cluster.faulty copying) limit (c, ds)
    (r.1, r.2.1)
  | .cleanup ds limit =>
    let r := (reindexCleanup name ilm).runFor (Cluster.faulty copying) limit (c, ds)
    (r.1, r.2.1)
  | .write i docs =>
    (some (.ok ()), if accepts name c i then c.modify i fun ix => { ix with docs } else c)

def Site.step (s : Site D) (e : Event D) : Site D :=
  { cluster := (outcome copying name ilm s.cluster e).2
    whole := match e with
      | .write i docs =>
        if accepts name s.cluster i then s.whole.modify i fun ix => { ix with docs } else s.whole
      | _ => s.whole }

/-- A cleanup that comes first to an index that is gone, and has nothing to clean before it. -/
def Refuses (c : Cluster D) : Prop :=
  ∃ pre j post, listed name ilm c = pre ++ j :: post ∧ c.index? j = none ∧
    (c.index? (copyOf j)).isSome ∧ ∀ k ∈ pre, c.index? (copyOf k) = none

/-- Every index of the collection is there. One that has a copy has its aliases and will be gone
through, one that has none accepts writes. -/
def Cleanable (whole c : Cluster D) : Prop :=
  ∀ i ix₀, Own name i → whole.index? i = some ix₀ → ∃ ix, c.index? i = some ix ∧
    ((c.index? (copyOf i) = none ∧ ix.blocked = false) ∨
      ((c.index? (copyOf i)).isSome ∧ i ∈ listed name ilm c ∧ SameAliases ix₀ ix))

/-- A reindex is not told to drop documents, and no request of it fails in a way that does harm; a
cleanup refuses at once, or can put all right. -/
def Careful (s : Site D) : Event D → Prop
  | .reindex allowFailures ds limit => allowFailures = false ∧
      (reindex name ilm allowFailures).Obeys (Cluster.faulty copying)
        (Harmless (Cluster.server copying) Harmful) limit (s.cluster, ds)
  | .cleanup _ _ => Refuses name ilm s.cluster ∨ Cleanable name ilm s.whole s.cluster
  | .write _ _ => True

end Events

section Main

variable {name : Str} {ilm : Bool} {whole c : Cluster D}

end Main

theorem nodup_hitsAlias : (Dict.keys [("hits".toList, ({} : AliasData))]).Nodup := by decide

theorem nodup_hitsHot : (Dict.keys [("hits_hot".toList,
    ({ docs := [("a".toList, ())], aliases := [("hits".toList, {})],
       nodup := nodup_hitsAlias } : Index Unit))]).Nodup := by decide

/-- A collection with one index. -/
def single : Cluster Unit :=
  ⟨[("hits_hot".toList,
    { docs := [("a".toList, ())], aliases := [("hits".toList, {})], nodup := nodup_hitsAlias })],
    nodup_hitsHot⟩

end Howler.Datastore
