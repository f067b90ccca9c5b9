import Howler.Ingestion.Facet
import Howler.Structures.Canonical

namespace Howler.Ingestion

open Python Structures

/-- A value that is no list and no dict. -/
inductive Scalar where
  | null
  | bool (b : Bool)
  | int (n : ℤ)
  | float (x : ℚ)
  | str (s : Str)
  deriving DecidableEq

abbrev Value := Structures.Tree Scalar

/-- A hit as it is submitted. -/
structure Submitted where
  fields : Dict Str Value
  unique : (Structures.Tree.obj fields).Unique

/-- What `create` raises. -/
inductive ClientError where
  | keyError (key : Str)
  | typeError
  | valueError
  | request
  deriving DecidableEq

/-- A client: the digests of texts, the texts of floats and the queries of the hits. -/
structure Client where
  sha256 : Str → Str
  repr : ℚ → Str
  search : Str → Option (Str → Bool)

section Flatten

variable (fields : List Str)

/-- The dotted key of an entry. -/
def keyBelow (parent : Option Str) (k : Str) : Str :=
  match parent with
  | some parent => parent ++ '.' :: k
  | none => k

mutual

/-- The items of a dict in `flatten`. -/
def flattenItems (parent : Option Str) : List (Str × Value) → List (Str × Value)
  | [] => []
  | (k, v) :: data => flattenValue (keyBelow parent k) k v ++ flattenItems parent data

/-- The items of an entry in `flatten`: a dict is flattened in its place, if its key is to be. -/
def flattenValue (key k : Str) : Value → List (Str × Value)
  | .obj data =>
    if fields = [] ∨ fields.any (·.isPrefixOf k) then
      if key = "howler.data".toList then [(key, .obj data)]
      else Dict.ofItems (flattenItems (some key) data)
    else [(key, .obj data)]
  | v => [(key, v)]

end

/-- `flatten` of the client. -/
def flatten (data : Dict Str Value) : Dict Str Value := Dict.ofItems (flattenItems fields none data)

end Flatten

section Client

variable (client : Client)

/-- The text of a value in a JSON text. -/
def Scalar.text : Scalar → Str
  | .null => "null".toList
  | .bool b => if b then "true".toList else "false".toList
  | .int n => if n < 0 then '-' :: Nat.toDigits 10 n.natAbs else Nat.toDigits 10 n.natAbs
  | .float x => client.repr x
  | .str s => Json.quote s

/-- `json.dumps(value, sort_keys=True, ensure_ascii=True)` -/
def dumps (v : Value) : Str := v.dumps (Scalar.text client)

/-- The raw data entries of a hit. -/
def entriesOf : Value → List Value
  | .list xs => xs
  | v => [v]

/-- `Hit.generate_hash`. -/
def generateHash (hit : Dict Str Value) : Except ClientError Str :=
  let howlerData := (Dict.get? hit "howler.data".toList).getD (.list [])
  match Dict.get? hit "howler.analytic".toList with
  | none => .error (.keyError "howler.analytic".toList)
  | some analytic =>
    .ok (client.sha256 (dumps client (.obj [
      ("analytic".toList, analytic),
      ("detection".toList, (Dict.get? hit "howler.detection".toList).getD
        (.leaf (.str "no_detection".toList))),
      ("raw_data".toList, .list ((sorted ((entriesOf howlerData).map (dumps client))).map fun s =>
        .leaf (.str s)))])))

/-- A hit as `create` posts it. -/
def prepare (hit : Dict Str Value) : Except ClientError (Dict Str Value) :=
  let hit := flatten ["howler".toList] hit
  let existingHash : Except ClientError Value := match Dict.get? hit "howler.hash".toList with
    | none | some (.leaf .null) => (generateHash client hit).map fun s => Structures.Tree.leaf (.str s)
    | some v => .ok v
  existingHash.map fun v =>
    let hit := Dict.set hit "howler.hash".toList v
    match Dict.get? hit "howler.data".toList with
    | none => hit
    | some howlerData => Dict.set hit "howler.data".toList
        (.list ((entriesOf howlerData).map fun entry => .leaf (.str (dumps client entry))))

/-- The hash of a prepared hit, if it is a text. -/
def hashOf (hit : Dict Str Value) : Option Str :=
  match Dict.get? hit "howler.hash".toList with
  | some (.leaf (.str s)) => some s
  | _ => none

/-- The number that a value is equal to. -/
def Scalar.number : Scalar → Option ℚ
  | .bool b => some (if b then 1 else 0)
  | .int n => some n
  | .float x => some x
  | _ => none

/-- The equality of Python. -/
def Scalar.same : Scalar → Scalar → Bool
  | .null, .null => true
  | .str s, .str t => s = t
  | a, b =>
    match a.number, b.number with
    | some x, some y => x = y
    | _, _ => false

/-- `final_hit_list.remove(hit)`, for hits with their places in the list: the first one goes that is
this one or equal to it. -/
def remove (hit : ℕ × Dict Str Value) (hits : List (ℕ × Dict Str Value)) :
    Except ClientError (List (ℕ × Dict Str Value)) :=
  let isEqual (e : ℕ × Dict Str Value) : Bool :=
    e.1 = hit.1 || Structures.Tree.same Scalar.same (.obj e.2) (.obj hit.2)
  if hits.any isEqual then .ok (hits.eraseP isEqual) else .error .valueError

/-- The loop over a copy of the hits that takes those out that exist. -/
def removeExisting (existing : List Str) :
    List (ℕ × Dict Str Value) → List (ℕ × Dict Str Value) →
      Except ClientError (List (ℕ × Dict Str Value))
  | [], hits => .ok hits
  | hit :: rest, hits =>
    if (hashOf hit.2).any (· ∈ existing) then
      match remove hit hits with
      | .error e => .error e
      | .ok hits => removeExisting existing rest hits
    else removeExisting existing rest hits

/-- The hits that `Hit.create` posts, for the hashes that are stored. -/
def create (stored : List Str) (data : List Submitted) :
    Except ClientError (List (Dict Str Value)) := do
  let finalHitList ← data.mapM fun hit => prepare client hit.fields
  match finalHitList.mapM hashOf with
  | none => .error .typeError
  | some hashes =>
    match existingHashes client.search stored hashes with
    | none => .error .request
    | some existing =>
      let hits := finalHitList.zipIdx.map Prod.swap
      (removeExisting existing hits hits).map fun hits => hits.map Prod.snd

end Client

end Howler.Ingestion
