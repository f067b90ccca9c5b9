import Howler.Python.Dict
import Howler.Python.Text

namespace Howler.Datastore

open Python

/-- What the check of a field raises, by the types that its callers tell apart. -/
inductive CheckError where
  | value
  | type
  | attribute
  | other
  deriving DecidableEq

/-- `field.check`. -/
abbrev Check (V : Type) := V → Except CheckError V

/-- `index` and `store` of a field. -/
structure Settings where
  index : Option Bool
  store : Option Bool
  deriving DecidableEq

mutual

/-- A field of a model: its settings, how its class checks a value, and its child. -/
inductive Field (V : Type) where
  | plain (s : Settings) (run : Settings → Check V)
  | list (s : Settings) (run : Check V → Check V) (child : Field V)
  | optional (s : Settings) (run : Check V → Check V) (child : Field V)
  | mapping (s : Settings) (run : Settings → Check V → Check V) (child : Field V)
  | compound (s : Settings) (run : Check V) (child : Model V)

/-- A model: the models it inherits from and the fields it declares. -/
inductive Model (V : Type) where
  | mk (bases : List (Model V)) (declared : List (Str × Field V))

end

variable {V : Type}

/-- `name.rstrip("_")`. -/
def rstrip (name : Str) : Str := (name.reverse.dropWhile (· = '_')).reverse

/-- `out.update(other)`. -/
def updateDict (out other : Dict Str (Field V)) : Dict Str (Field V) :=
  other.foldl (fun out e => Dict.set out e.1 e.2) out

namespace Field

def isMapping : Field V → Bool
  | mapping .. => true
  | _ => false

/-- The check of a field goes through the checks of its child. -/
def check : Field V → Check V
  | plain s run => run s
  | list _ run child => run child.check
  | optional _ run child => run child.check
  | mapping s run child => run s child.check
  | compound _ run _ => run

/-- Settings that are not set are those of the parent. -/
def inherit (own parent : Settings) : Settings :=
  ⟨own.index <|> parent.index, own.store <|> parent.store⟩

def applyDefaults (parent : Settings) : Field V → Field V
  | plain s run => plain (inherit s parent) run
  | list s run child => list (inherit s parent) run (child.applyDefaults (inherit s parent))
  | optional s run child =>
    optional (inherit s parent) run (child.applyDefaults (inherit s parent))
  | mapping s run child => mapping (inherit s parent) run (child.applyDefaults (inherit s parent))
  | compound s run child => compound (inherit s parent) run child

end Field

mutual

def Field.fields : Field V → Dict Str (Field V)
  | .plain s run => [([], .plain s run)]
  | .list s _ child => Dict.mapItems (fun _ f => f.applyDefaults s) child.fields
  | .optional _ _ child => child.fields
  | .mapping s run child => [([], .mapping s run child)]
  | .compound s _ child => Dict.mapItems (fun _ f => f.applyDefaults s) child.fields

def Model.fields : Model V → Dict Str (Field V)
  | .mk bases declared =>
    declared.foldl (fun out e => Dict.set out (rstrip e.1) e.2) (Model.inherited bases [])

/-- The loop over `cls.__bases__` in `fields`. -/
def Model.inherited : List (Model V) → Dict Str (Field V) → Dict Str (Field V)
  | [], out => out
  | base :: bases, out => Model.inherited bases (updateDict out base.fields)

end

mutual

/-- How deep a field goes. -/
def Field.size : Field V → ℕ
  | .plain .. => 0
  | .list _ _ child => child.size + 1
  | .optional _ _ child => child.size + 1
  | .mapping _ _ child => child.size + 1
  | .compound _ _ child => child.size + 1

def Model.size : Model V → ℕ
  | .mk bases declared => Model.sizeBases bases + Model.sizeDeclared declared

def Model.sizeBases : List (Model V) → ℕ
  | [] => 0
  | base :: bases => base.size + Model.sizeBases bases

def Model.sizeDeclared : List (Str × Field V) → ℕ
  | [] => 0
  | (_, f) :: declared => f.size + Model.sizeDeclared declared

end

@[simp] theorem Field.size_applyDefaults (s : Settings) (f : Field V) :
    (f.applyDefaults s).size = f.size := by
  match f with
  | .plain .. => rfl
  | .list _ _ child => simp [Field.applyDefaults, Field.size, size_applyDefaults _ child]
  | .optional _ _ child => simp [Field.applyDefaults, Field.size, size_applyDefaults _ child]
  | .mapping _ _ child => simp [Field.applyDefaults, Field.size, size_applyDefaults _ child]
  | .compound .. => rfl

theorem mem_foldl_set {W : Type} {g : W → Str × Field V} {es : List W}
    {out : Dict Str (Field V)} {e : Str × Field V}
    (h : e ∈ es.foldl (fun out e => Dict.set out (g e).1 (g e).2) out) :
    e ∈ out ∨ ∃ d ∈ es, e.2 = (g d).2 := by
  induction es generalizing out with
  | nil => exact .inl h
  | cons d es ih =>
    cases ih h with
    | inl hout =>
      cases Dict.mem_set hout with
      | inl heq => exact .inr ⟨d, by simp, by rw [heq]⟩
      | inr hmem => exact .inl hmem
    | inr hes =>
      obtain ⟨d', hd', heq⟩ := hes
      exact .inr ⟨d', List.mem_cons_of_mem _ hd', heq⟩

theorem Model.size_le_sizeDeclared {declared : List (Str × Field V)} {e : Str × Field V}
    (h : e ∈ declared) : e.2.size ≤ Model.sizeDeclared declared := by
  induction declared with
  | nil => cases h
  | cons d declared ih =>
    obtain ⟨k, f⟩ := d
    rw [Model.sizeDeclared]
    cases List.mem_cons.mp h with
    | inl heq =>
      have hsize : e.2.size = f.size := by rw [heq]
      omega
    | inr hmem =>
      have hle := ih hmem
      omega

mutual

/-- The fields of a field are not deeper than it is. -/
theorem Field.size_le_of_mem_fields {f : Field V} {e : Str × Field V} (h : e ∈ f.fields) :
    e.2.size ≤ f.size := by
  match f with
  | .plain s run =>
    rw [Field.fields, List.mem_singleton] at h
    rw [h]
  | .mapping s run child =>
    rw [Field.fields, List.mem_singleton] at h
    rw [h]
  | .list s run child =>
    rw [Field.fields, Dict.mapItems] at h
    obtain ⟨d, hd, heq⟩ := List.mem_map.mp h
    have hle := Field.size_le_of_mem_fields hd
    rw [← heq, Field.size_applyDefaults, Field.size]
    omega
  | .optional s run child =>
    rw [Field.fields] at h
    have hle := Field.size_le_of_mem_fields h
    rw [Field.size]
    omega
  | .compound s run child =>
    rw [Field.fields, Dict.mapItems] at h
    obtain ⟨d, hd, heq⟩ := List.mem_map.mp h
    have hle := Model.size_le_of_mem_fields hd
    rw [← heq, Field.size_applyDefaults, Field.size]
    omega

theorem Model.size_le_of_mem_fields {m : Model V} {e : Str × Field V} (h : e ∈ m.fields) :
    e.2.size ≤ m.size := by
  match m with
  | .mk bases declared =>
    rw [Model.fields] at h
    rw [Model.size]
    cases mem_foldl_set (g := fun e : Str × Field V => (rstrip e.1, e.2)) h with
    | inl hbases =>
      cases Model.size_le_of_mem_inherited hbases with
      | inl hnil => cases hnil
      | inr hle => omega
    | inr hown =>
      obtain ⟨d, hd, heq⟩ := hown
      have hle := Model.size_le_sizeDeclared hd
      have hsize : e.2.size = d.2.size := by rw [heq]
      omega

theorem Model.size_le_of_mem_inherited {bases : List (Model V)} {out : Dict Str (Field V)}
    {e : Str × Field V} (h : e ∈ Model.inherited bases out) :
    e ∈ out ∨ e.2.size ≤ Model.sizeBases bases := by
  match bases with
  | [] => exact .inl h
  | base :: bases =>
    rw [Model.inherited] at h
    rw [Model.sizeBases]
    cases Model.size_le_of_mem_inherited h with
    | inl hout =>
      cases mem_foldl_set (g := id) hout with
      | inl hmem => exact .inl hmem
      | inr hbase =>
        obtain ⟨d, hd, heq⟩ := hbase
        have hle := Model.size_le_of_mem_fields hd
        rw [heq]
        exact .inr (Nat.le_add_right_of_le hle)
    | inr hle => exact .inr (Nat.le_add_left_of_le hle)

end

/-- The child of a list, of an optional or of a compound field: a field or a model. -/
def Field.nested : Field V → Option (Field V ⊕ Model V)
  | .list _ _ child => some (.inl child)
  | .optional _ _ child => some (.inl child)
  | .compound _ _ child => some (.inr child)
  | _ => none

def fieldsOf : Field V ⊕ Model V → Dict Str (Field V)
  | .inl f => f.fields
  | .inr m => m.fields

def targetSize : Field V ⊕ Model V → ℕ
  | .inl f => f.size
  | .inr m => m.size

/-- The compound field that is shown under the name of a field as well. -/
def shown : Field V ⊕ Model V → Option (Field V)
  | .inl (.compound s run child) => some (.compound s run child)
  | .inl (.list _ _ (.compound s run child)) => some (.compound s run child)
  | _ => none

theorem targetSize_nested {f : Field V} {child : Field V ⊕ Model V} (h : f.nested = some child) :
    targetSize child < f.size := by
  cases f with
  | plain s run => cases h
  | mapping s run c => cases h
  | list s run c | optional s run c | compound s run c =>
    obtain rfl := Option.some.inj h
    simp [targetSize, Field.size]

theorem size_le_targetSize {field : Field V ⊕ Model V} {e : Str × Field V}
    (h : e ∈ fieldsOf field) : e.2.size ≤ targetSize field := by
  cases field with
  | inl f => exact Field.size_le_of_mem_fields h
  | inr m => exact Model.size_le_of_mem_fields h

/-- `Model._recurse_fields`. -/
def recurseFields (showCompound skipMappings : Bool) (name : Str) (field : Field V ⊕ Model V) :
    Dict Str (Field V) :=
  let out := (fieldsOf field).attach.foldl (fun out e =>
    if skipMappings && e.1.2.isMapping then out
    else match hchild : e.1.2.nested with
      | some child =>
        if e.1.1 ≠ [] then
          have := targetSize_nested hchild
          have := size_le_targetSize e.2
          updateDict out
            (recurseFields showCompound skipMappings (rstrip name ++ '.' :: e.1.1) child)
        else Dict.set out (rstrip name) e.1.2
      | none =>
        if e.1.1 ≠ [] then Dict.set out (rstrip name ++ '.' :: e.1.1) e.1.2
        else Dict.set out (rstrip name) e.1.2) []
  match shown field with
  | some f => if showCompound then Dict.set out (rstrip name) f else out
  | none => out
termination_by targetSize field

/-- One round of the loop over the declared fields. -/
def flatField (showCompound skipMappings : Bool) (out : Dict Str (Field V))
    (e : Str × Field V) : Dict Str (Field V) :=
  if skipMappings && e.2.isMapping then out
  else updateDict out (recurseFields showCompound skipMappings e.1 (.inl e.2))

mutual

def Model.flatFields (showCompound skipMappings : Bool) : Model V → Dict Str (Field V)
  | .mk bases declared =>
    declared.foldl (flatField showCompound skipMappings)
      (Model.flatBases showCompound skipMappings bases [])

/-- The loop over `cls.__bases__` in `flat_fields`. -/
def Model.flatBases (showCompound skipMappings : Bool) :
    List (Model V) → Dict Str (Field V) → Dict Str (Field V)
  | [], out => out
  | base :: bases, out =>
    Model.flatBases showCompound skipMappings bases
      (updateDict out (base.flatFields showCompound skipMappings))

end

end Howler.Datastore
