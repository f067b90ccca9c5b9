import Mathlib.Logic.Function.Basic
import Mathlib.Data.List.Range
import Howler.Python.Text
import Howler.Systems.Runs

namespace Howler.Datastore

open Python Systems

inductive DatastoreError where
  | notFound
  | conflict
  | badRequest
  | dataStore
  deriving DecidableEq, Repr

/-- A version token, as it is read: `create`, the index and the sequence number of a document, a
sequence number only, the empty text, or anything else. -/
inductive Version where
  | create
  | token (index seq : ℕ)
  | plain (seq : ℕ)
  | empty
  | malformed
  deriving DecidableEq, Repr

structure Stored (D : Type) where
  doc : D
  seq : ℕ
  deriving DecidableEq, Repr

/-- An ILM-managed collection: the physical indices from the first one to the write index of the
alias, the next sequence number, and the index that the client has as `index_name`. -/
structure Collection (D : Type) where
  docs : ℕ → Str → Option (Stored D) := fun _ _ => none
  write : ℕ := 0
  seq : ℕ := 0
  indexName : ℕ := 0

/-- The document that a search for one id takes of several. -/
structure Search (D : Type) where
  first : List (ℕ × Stored D) → Option (ℕ × Stored D)
  first_nil : first [] = none
  first_mem : ∀ hits, hits ≠ [] → ∃ h ∈ hits, first hits = some h

namespace Collection

variable {D : Type} (c : Collection D)

def put (index : ℕ) (key : Str) (doc : D) : Collection D :=
  { c with
    docs := Function.update c.docs index
      (Function.update (c.docs index) key (some ⟨doc, c.seq⟩))
    seq := c.seq + 1 }

def remove (index : ℕ) (key : Str) : Collection D :=
  { c with
    docs := Function.update c.docs index (Function.update (c.docs index) key none)
    seq := c.seq + 1 }

/-- The index request, which may be for a new document only, or for a sequence number. -/
def indexRequest (index : ℕ) (key : Str) (doc : D) (create : Bool) (ifSeq : Option ℕ) :
    Except DatastoreError (Collection D) :=
  if c.write < index then .error .notFound
  else if create = true ∧ c.docs index key ≠ none then .error .conflict
  else if ifSeq ≠ none ∧ (c.docs index key).map (·.seq) ≠ ifSeq then .error .conflict
  else .ok (c.put index key doc)

/-- The update request. An update of a document may fail. -/
def updateRequest (index : ℕ) (key : Str) (f : D → Option D) (ifSeq : Option ℕ) :
    Except DatastoreError (Collection D) :=
  match c.docs index key with
  | none => .error .notFound
  | some s =>
    if ifSeq ≠ none ∧ some s.seq ≠ ifSeq then .error .conflict
    else match f s.doc with
      | none => .error .badRequest
      | some doc => .ok (c.put index key doc)

def deleteRequest (index : ℕ) (key : Str) : Except DatastoreError (Collection D) :=
  match c.docs index key with
  | none => .error .notFound
  | some _ => .ok (c.remove index key)

/-- The documents with an id in the indices behind the alias. -/
def hits (key : Str) : List (ℕ × Stored D) :=
  (List.range (c.write + 1)).filterMap fun j => (c.docs j key).map (j, ·)

variable (search : Search D)

/-- `get` with the version. -/
def get (key : Str) : Option D × Version :=
  match search.first (c.hits key) with
  | none => (none, .create)
  | some (j, s) => (some s.doc, .token j s.seq)

/-- `_get_version_write_target`. -/
def versionWriteTarget : Version → Except DatastoreError (ℕ × ℕ)
  | .token index seq => .ok (index, seq)
  | .plain seq => .ok (c.write, seq)
  | _ => .error .dataStore

def save (key : Str) (doc : D) (version : Option Version) :
    Except DatastoreError (Collection D) :=
  if ' ' ∈ key then .error .dataStore
  else match version.getD (c.get search key).2 with
    | .create => c.indexRequest c.write key doc true none
    | .empty => c.indexRequest c.write key doc false none
    | version => do
      let (index, seq) ← c.versionWriteTarget version
      c.indexRequest index key doc false (some seq)

def delete (key : Str) : Except DatastoreError (Collection D) := c.deleteRequest c.write key

def update (key : Str) (f : D → Option D) (version : Option Version) :
    Except DatastoreError (Collection D) :=
  match version.getD (c.get search key).2 with
  | .empty => c.updateRequest c.write key f none
  | version => do
    let (index, seq) ← c.versionWriteTarget version
    c.updateRequest index key f (some seq)

/-- A new write index. The clients do not hear of it. -/
def rollover : Collection D := { c with write := c.write + 1 }

/-- What `_ensure_collection` does for a client: the index it has is the latest. -/
def ensure : Collection D := { c with indexName := c.write }

end Collection

/-- The operations on a collection. The operations of a bulk plan go to the index that the client
has unless they name one. -/
inductive Operation (D : Type) where
  | save (key : Str) (doc : D) (version : Option Version)
  | update (key : Str) (f : D → Option D) (version : Option Version)
  | delete (key : Str)
  | bulkInsert (key : Str) (doc : D) (index : Option ℕ)
  | bulkIndex (key : Str) (doc : D) (index : Option ℕ)
  | bulkUpdate (key : Str) (f : D → Option D) (index : Option ℕ)
  | bulkDelete (key : Str) (index : Option ℕ)
  | rollover
  | ensure

variable {D : Type} (search : Search D)

def perform (c : Collection D) : Operation D → Except DatastoreError (Collection D)
  | .save key doc version => c.save search key doc version
  | .update key f version => c.update search key f version
  | .delete key => c.delete key
  | .bulkInsert key doc index => c.indexRequest (index.getD c.indexName) key doc true none
  | .bulkIndex key doc index => c.indexRequest (index.getD c.indexName) key doc false none
  | .bulkUpdate key f index => c.updateRequest (index.getD c.indexName) key f none
  | .bulkDelete key index => c.deleteRequest (index.getD c.indexName) key
  | .rollover => .ok c.rollover
  | .ensure => .ok c.ensure

/-- A plain store: what a collection is for. -/
abbrev Ledger (D : Type) := Str → Option D

/-- What an operation means for a plain store, if it succeeds. -/
def Ledger.write (l : Ledger D) : Operation D → Ledger D
  | .save key doc _ => Function.update l key (some doc)
  | .bulkInsert key doc _ => Function.update l key (some doc)
  | .bulkIndex key doc _ => Function.update l key (some doc)
  | .update key f _ => Function.update l key ((l key).bind f)
  | .bulkUpdate key f _ => Function.update l key ((l key).bind f)
  | _ => l

/-- What an operation means for a plain store, whether it succeeds or not. -/
def Ledger.clear (l : Ledger D) : Operation D → Ledger D
  | .delete key => Function.update l key none
  | .bulkDelete key _ => Function.update l key none
  | _ => l

/-- The collection beside the plain store. -/
def step (s : Collection D × Ledger D) (op : Operation D) : Collection D × Ledger D :=
  match perform search s.1 op with
  | .ok c => (c, (s.2.write op).clear op)
  | .error _ => (s.1, s.2.clear op)

end Howler.Datastore
