import Howler.Datastore.Cluster

namespace Howler.Datastore

open Python Systems Prog

/-- What the collection asks of the cluster, and what it makes of the answers. -/
abbrev Task (α : Type) := Prog (api.fallible ClusterError) ClusterError α

def ask (r : Request) : Task r.Reply := request (I := api) r

def isWrite (data : AliasData) : Bool := data.isWriteIndex.getD false

/-- `{index}_hot`. -/
def hotIndex (name : Str) : Str := name ++ "_hot".toList

def ilmInitialIndex (name : Str) : Str := name ++ "-000001".toList

def ilmPrefix (name : Str) : Str := name ++ "-0".toList

section Repair

variable (name latest : Str)

/-- What becomes of an index that has the alias. -/
def repairAction (aliasIndex : Str) (data : AliasData) : List AliasAction :=
  if aliasIndex = hotIndex name then [.remove aliasIndex name]
  else if aliasIndex ≠ latest ∧ isWrite data then
    [.add aliasIndex name { data with isWriteIndex := some false }]
  else []

def latestAction (aliasIndices : Dict Str AliasData) : List AliasAction :=
  let data := (aliasIndices.get? latest).getD {}
  if isWrite data then [] else [.add latest name { data with isWriteIndex := some true }]

def aliasActions (aliasIndices : Dict Str AliasData) : List AliasAction :=
  aliasIndices.flatMap (fun e => repairAction name latest e.1 e.2) ++
    latestAction name latest aliasIndices

/-- There are rollover indices already: the alias is made to write to the latest. -/
def repairAlias : Task Unit := do
  if ← ask (.existsAlias name) then
    let aliasIndices ← ask (.getAlias name)
    let actions := aliasActions name latest aliasIndices
    if actions ≠ [] then
      ask (.updateAliases actions)
  else
    ask (.putAlias latest name { isWriteIndex := some true })

end Repair

section Migrate

variable (name indexName : Str)

/-- The part of the migration that is undone when it fails. -/
def copyHot : Task Unit := do
  ask (.clone indexName (ilmInitialIndex name))
  ask (.putWriteBlock (ilmInitialIndex name) false)
  let add := AliasAction.add (ilmInitialIndex name) name { isWriteIndex := some true }
  let actions := if ← ask (.existsAliasOn indexName name)
    then [add, .remove indexName name] else [add]
  ask (.updateAliases actions)

def rollback : Task Unit := do
  let _ ← optional (ask (.putWriteBlock indexName false))
  let _ ← optional (do
    if ← ask (.exists_ (ilmInitialIndex name)) then
      ask (.delete (ilmInitialIndex name)))

/-- The legacy index becomes the first rollover index. -/
def migrate : Task Str := do
  ask (.putWriteBlock indexName true)
  tryCatch (copyHot name indexName) fun e => do
    rollback name indexName
    throw e
  ask (.putWriteBlock indexName false)
  return ilmInitialIndex name

end Migrate

def createInitial (name : Str) : Task Str := do
  tryCatch (ask (.create (ilmInitialIndex name) (some name))) fun e =>
    if e = .resourceAlreadyExists then pure () else throw e
  return ilmInitialIndex name

/-- `_ensure_collection_ilm`, from the index name that the collection has to the one it gets. -/
def ensureCollectionIlm (name indexName : Str) : Task Str := do
  let existing ← ask (.getIndices (ilmPrefix name))
  match (sorted existing).getLast? with
  | some latest => do
    repairAlias name latest
    return latest
  | none =>
    if ← ask (.exists_ indexName) then migrate name indexName
    else createInitial name

end Howler.Datastore
