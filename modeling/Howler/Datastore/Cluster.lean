import Mathlib.Data.List.Sort
import Howler.Python.Dict
import Howler.Python.Text
import Howler.Systems.Requests

namespace Howler.Datastore

open Python Systems

inductive ClusterError where
  | indexNotFound
  | resourceAlreadyExists
  | badRequest
  | connection
  | dataStore
  deriving DecidableEq, Repr

/-- What an index has for one of its aliases: the write flag, and the filter and the routing. -/
structure AliasData where
  isWriteIndex : Option Bool := none
  other : Dict Str Str := []
  deriving DecidableEq, Repr

/-- A physical index. -/
structure Index (D : Type) where
  docs : Dict Str D := []
  blocked : Bool := false
  aliases : Dict Str AliasData := []
  nodup : (Dict.keys aliases).Nodup := by decide
  deriving DecidableEq

/-- An empty index, which writes for the alias if there is one. -/
def Index.withAlias {D : Type} : Option Str → Index D
  | none => {}
  | some a => { aliases := [(a, { isWriteIndex := some true })], nodup := List.nodup_singleton a }

/-- The physical indices of a cluster by name. -/
structure Cluster (D : Type) where
  indices : Dict Str (Index D)
  nodup : (Dict.keys indices).Nodup

namespace Cluster

variable {D : Type} (c : Cluster D)

def names : List Str := Dict.keys c.indices

def index? (n : Str) : Option (Index D) := Dict.get? c.indices n

/-- What the index has for the alias. -/
def aliasData (n a : Str) : Option AliasData := (c.index? n).bind fun ix => ix.aliases.get? a

/-- The indices that have the alias. -/
def behind (a : Str) : List Str := c.names.filter fun n => (c.aliasData n a).isSome

/-- The indices that the alias writes to. -/
def writeIndices (a : Str) : List Str :=
  c.names.filter fun n => (c.aliasData n a).any fun d => d.isWriteIndex = some true

/-- The indices that have the alias, with what they have for it. -/
def aliasTable (a : Str) : Dict Str AliasData :=
  c.names.filterMap fun n => (c.aliasData n a).map (n, ·)

/-- The document that the index has under the id. -/
def doc? (n key : Str) : Option D := (c.index? n).bind fun ix => ix.docs.get? key

theorem mem_names (n : Str) : n ∈ c.names ↔ ∃ ix, c.index? n = some ix :=
  Dict.mem_keys_iff _ _

theorem index?_eq_none {n : Str} : c.index? n = none ↔ n ∉ c.names :=
  Dict.get?_eq_none_iff _ _

theorem mem_behind (a n : Str) : n ∈ c.behind a ↔ ∃ data, c.aliasData n a = some data := by
  rw [behind, List.mem_filter, ← Option.isSome_iff_exists, and_iff_right_iff_imp]
  intro h
  cases hn : c.index? n with
  | none => simp [aliasData, hn] at h
  | some ix => exact (c.mem_names n).mpr ⟨ix, hn⟩

theorem mem_writeIndices (a n : Str) : n ∈ c.writeIndices a ↔
    ∃ data, c.aliasData n a = some data ∧ data.isWriteIndex = some true := by
  have hsome : ∀ data, c.aliasData n a = some data → n ∈ c.names := fun data h =>
    (List.mem_filter.mp ((c.mem_behind a n).mpr ⟨data, h⟩)).1
  rw [writeIndices, List.mem_filter]
  cases h : c.aliasData n a with
  | none => simp
  | some data => simp [hsome data h]

theorem mem_aliasTable (a : Str) (e : Str × AliasData) :
    e ∈ c.aliasTable a ↔ c.aliasData e.1 a = some e.2 := by
  obtain ⟨n, data⟩ := e
  have hname : c.aliasData n a = some data → n ∈ c.names := fun h =>
    (List.mem_filter.mp ((c.mem_behind a n).mpr ⟨data, h⟩)).1
  rw [aliasTable, List.mem_filterMap]
  constructor
  · rintro ⟨m, -, hm⟩
    cases hd : c.aliasData m a with
    | none => simp [hd] at hm
    | some data' =>
      rw [hd, Option.map_some, Option.some.injEq, Prod.mk.injEq] at hm
      rw [← hm.1, hd, hm.2]
  · intro h
    have h' : c.aliasData n a = some data := h
    exact ⟨n, hname h', by rw [h']; rfl⟩

theorem nodup_keys_aliasTable (a : Str) : (Dict.keys (c.aliasTable a)).Nodup := by
  have hsub : (Dict.keys (c.aliasTable a)).Sublist c.names := by
    rw [aliasTable, Dict.keys]
    induction c.names with
    | nil => simp
    | cons n ns ih =>
      rw [List.filterMap_cons]
      cases c.aliasData n a with
      | none => exact ih.cons n
      | some data => exact ih.cons_cons n
  exact c.nodup.sublist hsub

theorem get?_aliasTable (a n : Str) : Dict.get? (c.aliasTable a) n = c.aliasData n a := by
  cases h : c.aliasData n a with
  | some data => exact Dict.get?_of_mem (c.nodup_keys_aliasTable a) ((c.mem_aliasTable a (n, data)).mpr h)
  | none =>
    cases hget : Dict.get? (c.aliasTable a) n with
    | none => rfl
    | some data =>
      have hdata := (c.mem_aliasTable a (n, data)).mp (Dict.mem_of_get? hget)
      rw [h] at hdata
      cases hdata

def put (n : Str) (ix : Index D) : Cluster D :=
  ⟨Dict.set c.indices n ix, Dict.nodup_keys_set c.nodup n ix⟩

/-- Every index changed in place. -/
def mapIndices (f : Str → Index D → Index D) : Cluster D :=
  ⟨Dict.mapItems f c.indices, (Dict.keys_mapItems f c.indices).symm ▸ c.nodup⟩

def erase (n : Str) : Cluster D := ⟨Dict.erase c.indices n, Dict.nodup_keys_erase c.nodup n⟩

def modify (n : Str) (f : Index D → Index D) : Cluster D :=
  c.mapIndices fun m ix => if m = n then f ix else ix

@[simp] theorem names_mapIndices (f : Str → Index D → Index D) :
    (c.mapIndices f).names = c.names :=
  Dict.keys_mapItems f c.indices

theorem index?_mapIndices (f : Str → Index D → Index D) (n : Str) :
    (c.mapIndices f).index? n = (c.index? n).map (f n) :=
  Dict.get?_mapItems f c.indices n

theorem index?_modify (n m : Str) (f : Index D → Index D) :
    (c.modify n f).index? m = if m = n then (c.index? m).map f else c.index? m := by
  rw [modify, index?_mapIndices]
  by_cases h : m = n
  · simp [h]
  · simp [h]

@[simp] theorem names_modify (n : Str) (f : Index D → Index D) :
    (c.modify n f).names = c.names :=
  names_mapIndices c _

theorem index?_put (n m : Str) (ix : Index D) :
    (c.put n ix).index? m = if m = n then some ix else c.index? m :=
  Dict.get?_set _ _ _ _

theorem mem_names_put (n m : Str) (ix : Index D) :
    m ∈ (c.put n ix).names ↔ m = n ∨ m ∈ c.names :=
  Dict.mem_keys_set _ _ _ _

end Cluster

inductive AliasAction where
  | add (index a : Str) (data : AliasData)
  | remove (index a : Str)
  | removeIndex (index : Str)
  deriving DecidableEq, Repr

namespace AliasAction

def index : AliasAction → Str
  | add n _ _ => n
  | remove n _ => n
  | removeIndex n => n

def isRemoveIndex : AliasAction → Bool
  | removeIndex _ => true
  | _ => false

/-- The alias that the action adds. -/
def added : AliasAction → Option Str
  | add _ a _ => some a
  | _ => none

variable {D : Type}

/-- The action on one index. -/
def onIndex (act : AliasAction) (ix : Index D) : Index D :=
  match act with
  | add _ a data =>
    { ix with aliases := ix.aliases.set a data, nodup := Dict.nodup_keys_set ix.nodup a data }
  | remove _ a =>
    { ix with aliases := ix.aliases.erase a, nodup := Dict.nodup_keys_erase ix.nodup a }
  | removeIndex _ => ix

def apply (c : Cluster D) (act : AliasAction) : Cluster D :=
  match act with
  | removeIndex n => c.erase n
  | act => c.modify act.index act.onIndex

end AliasAction

/-- What clients ask of a cluster. -/
inductive Request where
  | getIndices (namePrefix : Str)
  | getIndex (index : Str)
  | exists_ (index : Str)
  | existsAlias (a : Str)
  | existsAliasOn (index a : Str)
  | getAlias (a : Str)
  | putWriteBlock (index : Str) (on : Bool)
  | create (index : Str) (a : Option Str)
  | clone (index target : Str)
  | updateAliases (actions : List AliasAction)
  | putAlias (index a : Str) (data : AliasData)
  | delete (index : Str)
  | count (index : Str)
  | reindex (source dest : Str)

/-- The failures and version conflicts of a reindex task. -/
structure TaskResult where
  failures : ℕ
  versionConflicts : ℕ
  deriving DecidableEq, Repr

abbrev Request.Reply : Request → Type
  | getIndices _ => List Str
  | getIndex _ => Dict Str AliasData
  | exists_ _ => Bool
  | existsAlias _ => Bool
  | existsAliasOn _ _ => Bool
  | getAlias _ => Dict Str AliasData
  | count _ => ℕ
  | reindex _ _ => TaskResult
  | _ => Unit

abbrev api : Interface := ⟨Request, Request.Reply⟩

/-- A reindex task into an empty index: it copies some of the documents, and reports. -/
structure Copying (D : Type) where
  copied : Dict Str D → Dict Str D
  result : Dict Str D → TaskResult
  sublist : ∀ docs, (copied docs).Sublist docs

/-- A task that copies everything. -/
def Copying.all {D : Type} : Copying D := ⟨id, fun _ => ⟨0, 0⟩, fun _ => List.Sublist.refl _⟩

namespace Cluster

variable {D : Type} (c : Cluster D)

/-- The cluster, unless one of the aliases has the name of an index or two write indices. -/
def checked (as : List Str) : Except ClusterError (Cluster D) :=
  if ∀ a ∈ as, a ∉ c.names ∧ (c.writeIndices a).length ≤ 1 then .ok c else .error .badRequest

/-- All of the actions or none. Indices are removed first. -/
def updateAliases (actions : List AliasAction) : Except ClusterError (Cluster D) :=
  let kept := (actions.filter (·.isRemoveIndex)).foldl AliasAction.apply c
  let rest := actions.filter (!·.isRemoveIndex)
  if (∀ act ∈ actions, act.index ∈ c.names) ∧ ∀ act ∈ rest, act.index ∈ kept.names then
    (rest.foldl AliasAction.apply kept).checked (rest.filterMap (·.added))
  else .error .indexNotFound

def create (n : Str) (ix : Index D) : Except ClusterError (Cluster D) :=
  if n ∈ c.names then .error .resourceAlreadyExists
  else if c.behind n ≠ [] then .error .badRequest
  else (c.put n ix).checked (Dict.keys ix.aliases)

/-- A clone has the documents and the settings of its source, but no aliases. -/
def clone (n target : Str) : Except ClusterError (Cluster D) :=
  match c.index? n with
  | none => .error .indexNotFound
  | some ix => if ix.blocked then c.create target { docs := ix.docs, blocked := true }
    else .error .badRequest

variable (copying : Copying D)

def serve (c : Cluster D) : (r : Request) → Except ClusterError (r.Reply × Cluster D)
  | .getIndices p => .ok (c.names.filter p.isPrefixOf, c)
  | .getIndex n => match c.index? n with
    | none => .error .indexNotFound
    | some ix => .ok (ix.aliases, c)
  | .exists_ n => .ok (decide (n ∈ c.names), c)
  | .existsAlias a => .ok (decide (c.behind a ≠ []), c)
  | .existsAliasOn n a => .ok ((c.aliasData n a).isSome, c)
  | .getAlias a => .ok (c.aliasTable a, c)
  | .putWriteBlock n on =>
    if n ∈ c.names then .ok ((), c.modify n fun ix => { ix with blocked := on })
    else .error .indexNotFound
  | .create n a => do .ok ((), ← c.create n (Index.withAlias a))
  | .clone n target => do .ok ((), ← c.clone n target)
  | .updateAliases actions => do .ok ((), ← c.updateAliases actions)
  | .putAlias n a data => do .ok ((), ← c.updateAliases [.add n a data])
  | .delete n => if n ∈ c.names then .ok ((), c.erase n) else .error .indexNotFound
  | .count n => match c.index? n with
    | none => .error .indexNotFound
    | some ix => .ok (ix.docs.length, c)
  | .reindex source dest => match c.index? source with
    | none => .error .indexNotFound
    | some ix => .ok (copying.result ix.docs,
        c.modify dest fun target => { target with docs := copying.copied ix.docs })

/-- The cluster as a server. -/
def server : Server api ClusterError (Cluster D) := fun r c => c.serve copying r

end Cluster

end Howler.Datastore
