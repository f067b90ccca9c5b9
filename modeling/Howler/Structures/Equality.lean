import Howler.Structures.Json

namespace Structures.Json

open Python

mutual

/-- The equality of Python: a truth value is the number 0 or 1, and maps are compared by their
keys. -/
def same : Json → Json → Bool
  | null, null => true
  | bool b, bool b' => b = b'
  | bool b, num n => n = if b then 1 else 0
  | num n, bool b => n = if b then 1 else 0
  | num n, num n' => n = n'
  | str s, str s' => s = s'
  | list xs, list ys => sameItems xs ys
  | obj fields, obj fields' => fields.length = fields'.length && sameFields fields fields'
  | _, _ => false

def sameItems : List Json → List Json → Bool
  | [], [] => true
  | x :: xs, y :: ys => same x y && sameItems xs ys
  | _, _ => false

def sameFields : List (Str × Json) → List (Str × Json) → Bool
  | [], _ => true
  | (k, v) :: fields, fields' =>
    (match Dict.get? fields' k with
      | some v' => same v v'
      | none => false) && sameFields fields fields'

end

end Structures.Json
