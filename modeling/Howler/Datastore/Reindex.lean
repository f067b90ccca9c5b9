import Howler.Datastore.Bootstrap
import Howler.Systems.Interruptions

namespace Howler.Datastore

open Python Systems Prog

/-- `{index}__reindex`. -/
def copyOf (index : Str) : Str := index ++ "__reindex".toList

/-- `^{name}-\d{6}$`. -/
def isRollover (name n : Str) : Bool :=
  (name ++ "-".toList).isPrefixOf n ∧ n.length = name.length + 7 ∧
    (n.drop (name.length + 1)).all Char.isDigit

def getIlmIndexNames (name : Str) : Task (List Str) := do
  let indices ← ask (.getIndices (ilmPrefix name))
  return sorted (indices.filter (isRollover name))

/-- `_refresh_ilm_index_name`. -/
def refreshIlmIndexName (name : Str) (ilm : Bool) : Task (List Str) :=
  if ilm then getIlmIndexNames name else pure []

/-- The rollover indices, unless the client has them already. -/
def ilmIndexList (name : Str) (found : List Str) : Task (List Str) :=
  if found = [] then getIlmIndexNames name else pure found

/-- `index_list_full`, for a client that has just been made. -/
def indexListFull (name : Str) (ilm : Bool) : Task (List Str) := do
  let found ← refreshIlmIndexName name ilm
  let indexList ← ilmIndexList name found
  let indexName := found.getLast?.getD (hotIndex name)
  return (indexName :: indexList.reverse).eraseDups

section Reindex

variable (index : Str)

/-- What is done about the write block of the source, or of the index that takes its name. -/
def unblock : Task Unit := do
  if ← ask (.exists_ index) then
    ask (.putWriteBlock index false)

/-- From the write block to the deletion of the source. -/
def copyAndDelete (allowFailures : Bool) : Task Unit := do
  let sourceCount ← ask (.count index)
  ask (.create (copyOf index) none)
  let result ← ask (.reindex index (copyOf index))
  if (result.failures ≠ 0 ∨ result.versionConflicts ≠ 0) ∧ allowFailures = false then
    throw .dataStore
  else do
    let targetCount ← ask (.count (copyOf index))
    if sourceCount ≠ targetCount ∧ allowFailures = false then
      throw .dataStore
    else
      ask (.delete index)

/-- The aliases of the source, for the index that takes its name. -/
def restoreActions (aliases : Dict Str AliasData) : List AliasAction :=
  aliases.map (fun e => .add index e.1 e.2) ++ [.removeIndex (copyOf index)]

/-- The copy gets the name of the source. -/
def rename (aliases : Dict Str AliasData) : Task Unit := do
  ask (.clone (copyOf index) index)
  ask (.updateAliases (restoreActions index aliases))
  if ← ask (.exists_ (copyOf index)) then
    ask (.delete (copyOf index))

/-- One index of `reindex` that exists and has no copy. -/
def reindexExisting (allowFailures : Bool) : Task Unit := do
  let aliases ← ask (.getIndex index)
  ask (.putWriteBlock index true)
  tryCatch (copyAndDelete index allowFailures) fun e => do
    unblock index
    throw e
  ask (.putWriteBlock (copyOf index) true)
  tryFinally (rename index aliases) (unblock index)

def reindexIndex (allowFailures : Bool) : Task Unit := do
  let sourceExists ← ask (.exists_ index)
  let targetExists ← ask (.exists_ (copyOf index))
  if targetExists then throw .dataStore
  else if sourceExists then reindexExisting index allowFailures
  else pure ()

/-- What an alias of the source or of the copy becomes. -/
def addRestored (source copy : Dict Str AliasData) (a : Str) : AliasAction :=
  let data := (source.get? a).getD {}
  let copyData := (copy.get? a).getD {}
  .add index a (if isWrite data ∨ isWrite copyData then { data with isWriteIndex := some true } else data)

def cleanupActions (source copy : Dict Str AliasData) : List AliasAction :=
  (sorted (Dict.keys source ++ Dict.keys copy).dedup).map (addRestored index source copy) ++
    (Dict.keys copy).map (.remove (copyOf index))

def updateUnlessEmpty (actions : List AliasAction) : Task Unit :=
  if actions = [] then pure () else ask (.updateAliases actions)

def cleanupExisting : Task Unit := do
  let source ← ask (.getIndex index)
  let copy ← ask (.getIndex (copyOf index))
  updateUnlessEmpty (cleanupActions index source copy)
  ask (.delete (copyOf index))
  ask (.putWriteBlock index false)

def cleanupIndex : Task Unit := do
  if ← ask (.exists_ (copyOf index)) then
    if ← ask (.exists_ index) then cleanupExisting index
    else throw .dataStore
  else pure ()

end Reindex

/-- One index after the other. -/
def forEach (f : Str → Task Unit) : List Str → Task Unit
  | [] => pure ()
  | n :: ns => do
    f n
    forEach f ns

def reindex (name : Str) (ilm allowFailures : Bool) : Task Unit := do
  forEach (fun n => reindexIndex n allowFailures) (← indexListFull name ilm)

def reindexCleanup (name : Str) (ilm : Bool) : Task Unit := do
  forEach cleanupIndex (← indexListFull name ilm)

end Howler.Datastore
