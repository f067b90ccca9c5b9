import Howler.Datastore.Fields
import Howler.Datastore.Scripts

namespace Howler.Datastore.Validation

open Python Structures

inductive OperationError where
  | datastore (msg : Str)
  | missingKey (key : Str)
  | check (e : CheckError)
  deriving DecidableEq

/-- What validation needs of values and of the fields that `howler.odm` declares. -/
class Values (V : Type) where
  /-- `Integer().check` -/
  integer : Check V
  /-- `Keyword().check` -/
  keyword : Check V
  /-- `List(child).check` -/
  typedList : Check V → Check V
  /-- A checked value as primitives: models, dates and classifications are converted. -/
  primitive : V → V
  /-- `str(value)` -/
  text : V → Str

structure Operation (V : Type) where
  op : Str
  docKey : Str
  value : V

def updateSet : Str := "SET".toList
def updateInc : Str := "INC".toList
def updateDec : Str := "DEC".toList
def updateMax : Str := "MAX".toList
def updateMin : Str := "MIN".toList
def updateAppend : Str := "APPEND".toList
def updateAppendIfMissing : Str := "APPEND_IF_MISSING".toList
def updateRemove : Str := "REMOVE".toList
def updateDelete : Str := "DELETE".toList

def updateOperations : List Str :=
  [updateAppend, updateAppendIfMissing, updateDec, updateInc, updateMax, updateMin, updateRemove,
    updateSet, updateDelete]

/-- The operations whose check may also raise an `AttributeError`. -/
def listOperations : List Str := [updateAppend, updateAppendIfMissing, updateRemove]

def valueOperations : List Str := [updateSet, updateDec, updateInc]

section Code

variable {V : Type} [Values V]

def accessFields : Dict Str (Field V) :=
  let unset : Settings := ⟨none, none⟩
  let keywords : Field V :=
    .list unset Values.typedList (.plain unset fun _ => Values.keyword)
  [("__access_lvl__".toList, .plain unset fun _ => Values.integer),
    ("__access_req__".toList, keywords), ("__access_grp1__".toList, keywords),
    ("__access_grp2__".toList, keywords)]

/-- The fields that a collection of the model validates against. -/
def validatedFields (m : Model V) : Dict Str (Field V) :=
  let fields := m.flatFields true false
  if "classification".toList ∈ Dict.keys fields then updateDict fields accessFields else fields

def lookupField (fields : Dict Str (Field V)) (key : Str) : Except OperationError (Field V) :=
  match Dict.get? fields key with
  | some f => .ok f
  | none => .error (.missingKey key)

/-- `prev_key`: the key of the mapping, for a key that is not a field itself. -/
def prevKey (fields : Dict Str (Field V)) (docKey : Str) : Except OperationError Str :=
  let invalid (key : Str) : Except OperationError Str :=
    .error (.datastore ("Invalid field for model: ".toList ++ key))
  if docKey ∈ Dict.keys fields then .ok []
  else if '.' ∈ docKey then
    match Dict.get? fields (parentKey docKey) with
    | some f => if f.isMapping then .ok (parentKey docKey) else invalid (parentKey docKey)
    | none => .ok (parentKey docKey)
  else invalid docKey

/-- `field.child_type` of a mapping. -/
def childType : Field V → Field V
  | .mapping _ _ child => child
  | f => f

def resolveField (fields : Dict Str (Field V)) (docKey : Str) :
    Except OperationError (Field V) := do
  let prev ← prevKey fields docKey
  if prev ≠ [] then return childType (← lookupField fields prev) else lookupField fields docKey

/-- `try: value = field.check(value)` with the exception types that are caught. -/
def checkValue (caught : List CheckError) (f : Field V) (docKey : Str) (value : V) :
    Except OperationError V :=
  match f.check value with
  | .ok value => .ok value
  | .error e =>
    if e ∈ caught then
      .error (.datastore ("Invalid value for field ".toList ++ docKey ++ ": ".toList ++
        Values.text value))
    else .error (.check e)

def validateValue (f : Field V) (o : Operation V) : Except OperationError V :=
  if o.op ∈ listOperations then checkValue [.value, .type, .attribute] f o.docKey o.value
  else if o.op ∈ valueOperations then checkValue [.value, .type] f o.docKey o.value
  else .ok o.value

/-- One round of the loop of `_validate_operations`. -/
def validateOperation (fields : Option (Dict Str (Field V))) (o : Operation V) :
    Except OperationError (Operation V) := do
  if o.op ∉ updateOperations then
    throw (.datastore ("Not a valid Update Operation: ".toList ++ o.op))
  match fields with
  | none => return o
  | some fields =>
    let f ← resolveField fields o.docKey
    let value ← validateValue f o
    return { o with value := Values.primitive value }

def validateOperations (modelClass : Option (Model V)) (operations : List (Operation V)) :
    Except OperationError (List (Operation V)) :=
  operations.mapM (validateOperation (modelClass.map validatedFields))

end Code

section Spec

variable {V : Type} (fields : Dict Str (Field V))

/-- The field that a key names: a field of the model, or the child of a mapping for a sub-key. -/
def Names (docKey : Str) (f : Field V) : Prop :=
  Dict.get? fields docKey = some f ∨
    Dict.get? fields docKey = none ∧ ∃ pre sub s run, docKey = pre ++ '.' :: sub ∧ '.' ∉ sub ∧
      Dict.get? fields pre = some (.mapping s run f)

/-- The operations whose value has to be accepted by the check of the field. -/
def Checked (op : Str) : Prop := op ∈ listOperations ∨ op ∈ valueOperations

def Valid (o : Operation V) : Prop :=
  o.op ∈ updateOperations ∧ ∃ f, Names fields o.docKey f ∧
    (Checked o.op → ∃ value, f.check o.value = .ok value)

/-- Validation returns or raises a `DataStoreException`, and it returns for valid operations only. -/
def Validates (operations : List (Operation V))
    (result : Except OperationError (List (Operation V))) : Prop :=
  ((∃ ops, result = .ok ops) ∨ ∃ msg, result = .error (.datastore msg)) ∧
    ((∃ ops, result = .ok ops) ↔ ∀ o ∈ operations, Valid fields o)

/-- A key with a dot for which there is no field, and neither one for what stands before the last
dot; or nothing stands there, and that names a mapping. -/
def Orphan (docKey : Str) : Prop :=
  docKey ∉ Dict.keys fields ∧ ∃ pre sub, docKey = pre ++ '.' :: sub ∧ '.' ∉ sub ∧
    (pre ∉ Dict.keys fields ∨ pre = [] ∧ ∃ f, Dict.get? fields [] = some f ∧ f.isMapping = true)

/-- What the check of a field raises is not among the types that are caught for the operation. -/
def Uncaught (op : Str) (e : CheckError) : Prop :=
  e = .other ∨ e = .attribute ∧ op ∈ valueOperations

/-- An operation on which something other than a `DataStoreException` is raised. -/
def Foreign (o : Operation V) : Prop :=
  o.op ∈ updateOperations ∧ (Orphan fields o.docKey ∨ Checked o.op ∧
    ∃ f e, Names fields o.docKey f ∧ f.check o.value = .error e ∧ Uncaught o.op e)

end Spec

section Keys

variable {V : Type} {fields : Dict Str (Field V)}

theorem exists_split_of_mem_dot {key : Str} (h : '.' ∈ key) :
    ∃ pre sub, key = pre ++ '.' :: sub ∧ '.' ∉ sub := by
  induction key with
  | nil => cases h
  | cons c cs ih =>
    by_cases hcs : '.' ∈ cs
    · obtain ⟨pre, sub, hkey, hsub⟩ := ih hcs
      exact ⟨c :: pre, sub, by rw [hkey]; rfl, hsub⟩
    · have hc : '.' = c := by simpa [hcs] using h
      exact ⟨[], cs, by rw [hc]; rfl, hcs⟩

theorem parentKey_append {pre sub : Str} (h : '.' ∉ sub) :
    parentKey (pre ++ '.' :: sub) = pre := by
  have hsub : ∀ c ∈ sub.reverse, decide (c ≠ '.') = true := by
    intro c hc
    have hne : c ≠ '.' := fun heq => h (heq ▸ List.mem_reverse.mp hc)
    simpa using hne
  rw [parentKey, List.reverse_append, List.reverse_cons, List.append_assoc,
    List.dropWhile_append_of_pos hsub]
  simp

theorem parent_unique {pre sub pre' sub' : Str} (hsub : '.' ∉ sub) (hsub' : '.' ∉ sub')
    (h : pre ++ '.' :: sub = pre' ++ '.' :: sub') : pre = pre' := by
  have hparent := @parentKey_append pre _ hsub
  rw [h, parentKey_append hsub'] at hparent
  exact hparent.symm

theorem names_of_split {pre sub : Str} {f : Field V} (hsub : '.' ∉ sub)
    (hnone : Dict.get? fields (pre ++ '.' :: sub) = none) :
    Names fields (pre ++ '.' :: sub) f ↔
      ∃ s run, Dict.get? fields pre = some (.mapping s run f) := by
  constructor
  · intro h
    cases h with
    | inl hsome => rw [hnone] at hsome; cases hsome
    | inr h =>
      obtain ⟨-, pre', sub', s, run, heq, hsub', hget⟩ := h
      rw [parent_unique hsub hsub' heq]
      exact ⟨s, run, hget⟩
  · intro h
    obtain ⟨s, run, hget⟩ := h
    exact .inr ⟨hnone, pre, sub, s, run, rfl, hsub, hget⟩

theorem names_unique {key : Str} {f g : Field V} (hf : Names fields key f)
    (hg : Names fields key g) : f = g := by
  cases hf with
  | inl hf =>
    cases hg with
    | inl hg => exact Option.some.inj (hf.symm.trans hg)
    | inr hg => rw [hg.1] at hf; cases hf
  | inr hf =>
    obtain ⟨hnone, pre, sub, s, run, rfl, hsub, hget⟩ := hf
    obtain ⟨s', run', hget'⟩ := (names_of_split hsub hnone).mp hg
    rw [hget] at hget'
    injection hget' with heq
    injection heq

theorem orphan_of_split {pre sub : Str} (hsub : '.' ∉ sub)
    (hnone : Dict.get? fields (pre ++ '.' :: sub) = none) :
    Orphan fields (pre ++ '.' :: sub) ↔ Dict.get? fields pre = none ∨
      pre = [] ∧ ∃ f, Dict.get? fields [] = some f ∧ f.isMapping = true := by
  have hkey := (Dict.get?_eq_none_iff _ _).mp hnone
  rw [Dict.get?_eq_none_iff]
  constructor
  · intro h
    obtain ⟨-, pre', sub', heq, hsub', hcase⟩ := h
    rw [parent_unique hsub hsub' heq]
    exact hcase
  · intro h
    exact ⟨hkey, pre, sub, rfl, hsub, h⟩

end Keys

section Resolution

variable {V : Type} {fields : Dict Str (Field V)} {pre sub : Str}

theorem not_orphan_of_get? {key : Str} {f : Field V} (h : Dict.get? fields key = some f) :
    ¬Orphan fields key := by
  intro horphan
  have hnone := (Dict.get?_eq_none_iff _ _).mpr horphan.1
  rw [hnone] at h
  cases h

theorem lookupField_none {key : Str} (h : Dict.get? fields key = none) :
    lookupField fields key = .error (.missingKey key) := by
  rw [lookupField, h]

theorem lookupField_some {key : Str} {f : Field V} (h : Dict.get? fields key = some f) :
    lookupField fields key = .ok f := by
  rw [lookupField, h]

theorem resolveField_of_get? {key : Str} {f : Field V} (h : Dict.get? fields key = some f) :
    resolveField fields key = .ok f := by
  have hmem : key ∈ Dict.keys fields := (Dict.mem_keys_iff _ _).mpr ⟨f, h⟩
  rw [resolveField, prevKey, if_pos hmem]
  exact lookupField_some h

theorem prevKey_of_split (hsub : '.' ∉ sub)
    (hnone : Dict.get? fields (pre ++ '.' :: sub) = none) :
    prevKey fields (pre ++ '.' :: sub) = match Dict.get? fields pre with
      | some f => if f.isMapping then .ok pre
        else .error (.datastore ("Invalid field for model: ".toList ++ pre))
      | none => .ok pre := by
  have hmem := (Dict.get?_eq_none_iff _ _).mp hnone
  have hdot : '.' ∈ pre ++ '.' :: sub := by simp
  rw [prevKey, if_neg hmem, if_pos hdot, parentKey_append hsub]

/-- A sub-key of a mapping is resolved to the child of the mapping, where the mapping has a name. -/
theorem resolveField_mapping {s : Settings} {run : Settings → Check V → Check V} {f : Field V}
    (hsub : '.' ∉ sub) (hnone : Dict.get? fields (pre ++ '.' :: sub) = none)
    (hget : Dict.get? fields pre = some (.mapping s run f)) (hpre : pre ≠ []) :
    resolveField fields (pre ++ '.' :: sub) = .ok f := by
  rw [resolveField, prevKey_of_split hsub hnone, hget]
  show (if pre ≠ [] then _ else _) = _
  rw [if_pos hpre, lookupField_some hget]
  rfl

theorem resolveField_parent_none (hsub : '.' ∉ sub)
    (hnone : Dict.get? fields (pre ++ '.' :: sub) = none)
    (hget : Dict.get? fields pre = none) :
    ∃ k, resolveField fields (pre ++ '.' :: sub) = .error (.missingKey k) := by
  rw [resolveField, prevKey_of_split hsub hnone, hget]
  by_cases hpre : pre = []
  · exact ⟨pre ++ '.' :: sub, by rw [← lookupField_none hnone, hpre]; rfl⟩
  · refine ⟨pre, ?_⟩
    show (if pre ≠ [] then _ else _) = _
    rw [if_pos hpre, lookupField_none hget]
    rfl

theorem resolveField_unnamed {f : Field V} (hsub : '.' ∉ sub)
    (hnone : Dict.get? fields ('.' :: sub) = none) (hget : Dict.get? fields [] = some f)
    (hmap : f.isMapping = true) :
    resolveField fields ('.' :: sub) = .error (.missingKey ('.' :: sub)) := by
  have hprev := @prevKey_of_split _ _ [] _ hsub hnone
  rw [hget] at hprev
  rw [resolveField, show prevKey fields ('.' :: sub) = .ok [] from hprev.trans (if_pos hmap)]
  exact lookupField_none hnone

theorem resolveField_not_mapping {f : Field V} (hsub : '.' ∉ sub)
    (hnone : Dict.get? fields (pre ++ '.' :: sub) = none) (hget : Dict.get? fields pre = some f)
    (hmap : f.isMapping = false) :
    resolveField fields (pre ++ '.' :: sub) =
      .error (.datastore ("Invalid field for model: ".toList ++ pre)) := by
  rw [resolveField, prevKey_of_split hsub hnone, hget]
  simp only [hmap]
  rfl

/-- A key is resolved to the field that it names, or it is not a key of the model; what is raised
then depends on the part before its last dot. -/
theorem resolveField_cases (fields : Dict Str (Field V)) (key : Str) :
    (∃ f, resolveField fields key = .ok f ∧ Names fields key f ∧ ¬Orphan fields key) ∨
    (∃ k, resolveField fields key = .error (.missingKey k) ∧ Orphan fields key) ∨
    (∃ msg, resolveField fields key = .error (.datastore msg) ∧ ¬Orphan fields key ∧
      ∀ f, ¬Names fields key f) := by
  cases hget : Dict.get? fields key with
  | some f => exact .inl ⟨f, resolveField_of_get? hget, .inl hget, not_orphan_of_get? hget⟩
  | none =>
    by_cases hdot : '.' ∈ key
    · obtain ⟨pre, sub, rfl, hsub⟩ := exists_split_of_mem_dot hdot
      cases hpre : Dict.get? fields pre with
      | none =>
        obtain ⟨k, hk⟩ := resolveField_parent_none hsub hget hpre
        exact .inr (.inl ⟨k, hk, (orphan_of_split hsub hget).mpr (.inl hpre)⟩)
      | some g =>
        cases g with
        | mapping s run f =>
          by_cases hempty : pre = []
          · subst hempty
            have hraise := resolveField_unnamed hsub hget hpre rfl
            exact .inr (.inl ⟨_, hraise, (orphan_of_split hsub hget).mpr (.inr ⟨rfl, _, hpre, rfl⟩)⟩)
          · refine .inl ⟨f, resolveField_mapping hsub hget hpre hempty,
              (names_of_split hsub hget).mpr ⟨s, run, hpre⟩, ?_⟩
            rw [orphan_of_split hsub hget, hpre]
            simp [hempty]
        | plain | list | optional | compound =>
          refine .inr (.inr ⟨_, resolveField_not_mapping hsub hget hpre rfl, ?_, fun f hf => ?_⟩)
          · rw [orphan_of_split hsub hget, hpre]
            intro h
            cases h with
            | inl h => cases h
            | inr h =>
              obtain ⟨rfl, g, hg, hmap⟩ := h
              rw [hpre] at hg
              obtain rfl := Option.some.inj hg
              cases hmap
          · obtain ⟨s, run, hmap⟩ := (names_of_split hsub hget).mp hf
            rw [hpre] at hmap
            cases hmap
    · have hmem := (Dict.get?_eq_none_iff _ _).mp hget
      refine .inr (.inr ⟨"Invalid field for model: ".toList ++ key, ?_, fun h => ?_, fun f hf => ?_⟩)
      · rw [resolveField, prevKey, if_neg hmem, if_neg hdot]
        rfl
      · obtain ⟨-, pre, sub, rfl, -⟩ := h
        exact hdot (by simp)
      · cases hf with
        | inl hf => rw [hget] at hf; cases hf
        | inr hf =>
          obtain ⟨-, pre, sub, s, run, rfl, -⟩ := hf
          exact hdot (by simp)

end Resolution

section Steps

variable {V : Type} [Values V] {fields : Dict Str (Field V)}

theorem not_mem_valueOperations {op : Str} (h : op ∈ listOperations) : op ∉ valueOperations := by
  have hall : ∀ op ∈ listOperations, op ∉ valueOperations := by decide
  exact hall op h

/-- The check of a value is passed on, turned into a `DataStoreException` or not caught. -/
theorem checkValue_cases (caught : List CheckError) (f : Field V) (key : Str) (value : V) :
    (∃ v, checkValue caught f key value = .ok v ∧ f.check value = .ok v) ∨
    (∃ e, checkValue caught f key value = .error (.check e) ∧ f.check value = .error e ∧
      e ∉ caught) ∨
    (∃ msg e, checkValue caught f key value = .error (.datastore msg) ∧ f.check value = .error e ∧
      e ∈ caught) := by
  rw [checkValue]
  cases hcheck : f.check value with
  | ok v => exact .inl ⟨v, rfl, rfl⟩
  | error e =>
    by_cases he : e ∈ caught
    · exact .inr (.inr ⟨_, e, if_pos he, rfl, he⟩)
    · exact .inr (.inl ⟨e, if_neg he, rfl, he⟩)

/-- The types caught for an operation. -/
def caughtFor (op : Str) : List CheckError :=
  if op ∈ listOperations then [.value, .type, .attribute] else [.value, .type]

theorem validateValue_checked {f : Field V} {o : Operation V} (h : Checked o.op) :
    validateValue f o = checkValue (caughtFor o.op) f o.docKey o.value := by
  rw [validateValue, caughtFor]
  by_cases hlist : o.op ∈ listOperations
  · rw [if_pos hlist, if_pos hlist]
  · have hvalue := h.resolve_left hlist
    rw [if_neg hlist, if_neg hlist, if_pos hvalue]

theorem validateValue_unchecked {f : Field V} {o : Operation V} (h : ¬Checked o.op) :
    validateValue f o = .ok o.value := by
  have hlist : o.op ∉ listOperations := fun hmem => h (.inl hmem)
  have hvalue : o.op ∉ valueOperations := fun hmem => h (.inr hmem)
  rw [validateValue, if_neg hlist, if_neg hvalue]

theorem uncaught_iff {op : Str} (h : Checked op) (e : CheckError) :
    Uncaught op e ↔ e ∉ caughtFor op := by
  rw [Uncaught, caughtFor]
  by_cases hlist : op ∈ listOperations
  · have hvalue := not_mem_valueOperations hlist
    rw [if_pos hlist]
    cases e <;> simp [hvalue]
  · have hvalue := h.resolve_left hlist
    rw [if_neg hlist]
    cases e <;> simp [hvalue]

theorem validateOperation_unknown {o : Operation V} (h : o.op ∉ updateOperations) :
    validateOperation (some fields) o =
      .error (.datastore ("Not a valid Update Operation: ".toList ++ o.op)) := by
  rw [validateOperation, if_pos h]
  rfl

theorem validateOperation_known {o : Operation V} (h : o.op ∈ updateOperations) :
    validateOperation (some fields) o = resolveField fields o.docKey >>= fun f =>
      validateValue f o >>= fun value => pure { o with value := Values.primitive value } := by
  rw [validateOperation, if_neg (not_not.mpr h)]

/-- What one operation leads to, when its key is resolved to a field. -/
theorem validateOperation_resolved {o : Operation V} {f : Field V} (hop : o.op ∈ updateOperations)
    (hf : resolveField fields o.docKey = .ok f) :
    validateOperation (some fields) o =
      validateValue f o >>= fun value => pure { o with value := Values.primitive value } := by
  rw [validateOperation_known hop, hf]
  rfl

/-- An operation is passed, it is refused with a `DataStoreException`, or something else is raised. -/
theorem validateOperation_cases (fields : Dict Str (Field V)) (o : Operation V) :
    (∃ o', validateOperation (some fields) o = .ok o' ∧ Valid fields o ∧ ¬Foreign fields o) ∨
    (∃ e, validateOperation (some fields) o = .error e ∧ (∀ msg, e ≠ .datastore msg) ∧
      Foreign fields o) ∨
    (∃ msg, validateOperation (some fields) o = .error (.datastore msg) ∧ ¬Valid fields o ∧
      ¬Foreign fields o) := by
  by_cases hop : o.op ∈ updateOperations
  · rcases resolveField_cases fields o.docKey with ⟨f, hf, hnames, horphan⟩ | ⟨k, hk, horphan⟩ |
      ⟨msg, hmsg, horphan, hnone⟩
    · have hstep := validateOperation_resolved hop hf
      by_cases hchecked : Checked o.op
      · rw [validateValue_checked hchecked] at hstep
        rcases checkValue_cases (caughtFor o.op) f o.docKey o.value with
          ⟨v, hv, hok⟩ | ⟨e, he, herr, huncaught⟩ | ⟨msg, e, he, herr, hcaught⟩
        · refine .inl ⟨_, hstep.trans (by rw [hv]; rfl), ⟨hop, f, hnames, fun _ => ⟨v, hok⟩⟩, ?_⟩
          intro hforeign
          cases hforeign.2 with
          | inl h => exact horphan h
          | inr h =>
            obtain ⟨-, g, e, hg, herr, -⟩ := h
            rw [names_unique hg hnames, hok] at herr
            cases herr
        · refine .inr (.inl ⟨_, hstep.trans (by rw [he]; rfl), (fun _ h => by cases h), hop, .inr ?_⟩)
          exact ⟨hchecked, f, e, hnames, herr, (uncaught_iff hchecked e).mpr huncaught⟩
        · refine .inr (.inr ⟨msg, hstep.trans (by rw [he]; rfl), fun hvalid => ?_, fun hforeign => ?_⟩)
          · obtain ⟨-, g, hg, hcheck⟩ := hvalid
            obtain ⟨v, hv⟩ := hcheck hchecked
            rw [names_unique hg hnames, herr] at hv
            cases hv
          · cases hforeign.2 with
            | inl h => exact horphan h
            | inr h =>
              obtain ⟨-, g, e', hg, herr', huncaught⟩ := h
              rw [names_unique hg hnames, herr] at herr'
              obtain rfl := Except.error.inj herr'
              exact (uncaught_iff hchecked e).mp huncaught hcaught
      · rw [validateValue_unchecked hchecked] at hstep
        refine .inl ⟨_, hstep, ⟨hop, f, hnames, fun h => absurd h hchecked⟩, fun hforeign => ?_⟩
        cases hforeign.2 with
        | inl h => exact horphan h
        | inr h => exact hchecked h.1
    · refine .inr (.inl ⟨.missingKey k, ?_, (fun _ h => by cases h), hop, .inl horphan⟩)
      · rw [validateOperation_known hop, hk]
        rfl
    · refine .inr (.inr ⟨msg, ?_, fun hvalid => ?_, fun hforeign => ?_⟩)
      · rw [validateOperation_known hop, hmsg]
        rfl
      · obtain ⟨-, f, hf, -⟩ := hvalid
        exact hnone f hf
      · cases hforeign.2 with
        | inl h => exact horphan h
        | inr h =>
          obtain ⟨-, f, e, hf, -⟩ := h
          exact hnone f hf
  · exact .inr (.inr ⟨_, validateOperation_unknown hop, fun h => hop h.1, fun h => hop h.1⟩)

end Steps

section Runs

variable {V : Type} [Values V] {fields : Dict Str (Field V)}

/-- The loop over the operations. -/
def validateAll (fields : Dict Str (Field V)) (operations : List (Operation V)) :
    Except OperationError (List (Operation V)) :=
  operations.mapM (validateOperation (some fields))

theorem validateAll_ok {o o' : Operation V} (h : validateOperation (some fields) o = .ok o')
    (operations : List (Operation V)) :
    validateAll fields (o :: operations) = (o' :: ·) <$> validateAll fields operations := by
  rw [validateAll, List.mapM_cons, h]
  rfl

theorem validateAll_error {o : Operation V} {e : OperationError}
    (h : validateOperation (some fields) o = .error e) (operations : List (Operation V)) :
    validateAll fields (o :: operations) = .error e := by
  rw [validateAll, List.mapM_cons, h]
  rfl

omit [Values V] in
theorem validates_map {o o' : Operation V} {operations : List (Operation V)}
    {result : Except OperationError (List (Operation V))} (h : Valid fields o) :
    Validates fields (o :: operations) ((o' :: ·) <$> result) ↔
      Validates fields operations result := by
  have hall : (∀ x ∈ o :: operations, Valid fields x) ↔ ∀ x ∈ operations, Valid fields x := by
    simp [h]
  rw [Validates, Validates, hall]
  cases result with
  | ok ops => simp [Functor.map, Except.map]
  | error e => simp [Functor.map, Except.map]

/-- No operation with only valid ones before it raises something else. -/
def NoneForeign (fields : Dict Str (Field V)) (operations : List (Operation V)) : Prop :=
  ∀ pre o post, operations = pre ++ o :: post → (∀ x ∈ pre, Valid fields x) → ¬Foreign fields o

omit [Values V] in
theorem noneForeign_cons {o : Operation V} {operations : List (Operation V)} :
    NoneForeign fields (o :: operations) ↔
      ¬Foreign fields o ∧ (Valid fields o → NoneForeign fields operations) := by
  constructor
  · intro h
    refine ⟨h [] o operations rfl (by simp), fun hvalid pre x post heq hpre => ?_⟩
    exact h (o :: pre) x post (by rw [heq]; rfl) (by simpa [hvalid] using hpre)
  · intro h pre x post heq hpre
    cases pre with
    | nil =>
      obtain ⟨rfl, -⟩ := List.cons.inj heq
      exact h.1
    | cons y pre =>
      obtain ⟨rfl, htail⟩ := List.cons.inj heq
      have hvalid := hpre o (by simp)
      exact h.2 hvalid pre x post htail fun z hz => hpre z (List.mem_cons_of_mem _ hz)

/-- The loop by induction on the operations: each is passed, refused or foreign. -/
theorem validates_iff (fields : Dict Str (Field V)) (operations : List (Operation V)) :
    Validates fields operations (validateAll fields operations) ↔
      NoneForeign fields operations := by
  induction operations with
  | nil =>
    constructor
    · intro _ pre o post heq
      have hlength := congrArg List.length heq
      simp at hlength
    · intro _
      exact ⟨.inl ⟨[], rfl⟩, by simp [validateAll]; exact ⟨[], rfl⟩⟩
  | cons o operations ih =>
    rw [noneForeign_cons]
    rcases validateOperation_cases fields o with ⟨o', ho, hvalid, hforeign⟩ |
      ⟨e, he, hne, hforeign⟩ | ⟨msg, hmsg, hvalid, hforeign⟩
    · rw [validateAll_ok ho, validates_map hvalid, ih]
      simp [hvalid, hforeign]
    · rw [validateAll_error he]
      constructor
      · intro h
        cases h.1 with
        | inl h => obtain ⟨ops, h⟩ := h; cases h
        | inr h => obtain ⟨msg, h⟩ := h; exact absurd (Except.error.inj h) (hne msg)
      · intro h
        exact absurd hforeign h.1
    · rw [validateAll_error hmsg]
      constructor
      · intro _
        exact ⟨hforeign, fun h => absurd h hvalid⟩
      · intro _
        refine ⟨.inr ⟨msg, rfl⟩, fun h => ?_, fun h => ?_⟩
        · obtain ⟨ops, h⟩ := h
          cases h
        · exact absurd (h o (by simp)) hvalid

/-- Validation returns or raises a `DataStoreException`, and it returns for valid operations only,
exactly when no operation after valid ones has a key that hangs in the air or a value whose check
raises an exception that is not caught. -/
theorem validate_operations_iff (m : Model V) (operations : List (Operation V)) :
    Validates (validatedFields m) operations (validateOperations (some m) operations) ↔
      NoneForeign (validatedFields m) operations :=
  validates_iff (validatedFields m) operations

end Runs

section Scripts

variable [Values Json] {fields : Dict Str (Field Json)}

/-- A field as the scripts see it: a value is refused, or it becomes the primitives that are stored. -/
def valueCheck (f : Field Json) (value : Json) : Option Json :=
  (f.check value).toOption.map Values.primitive

def fieldCheck (f : Field Json) : FieldCheck where
  check := valueCheck f
  child := if f.isMapping then some (valueCheck (childType f)) else none

def fieldChecks (fields : Dict Str (Field Json)) : Dict Str FieldCheck :=
  Dict.mapItems (fun _ f => fieldCheck f) fields

theorem get?_fieldChecks (key : Str) :
    Dict.get? (fieldChecks fields) key = (Dict.get? fields key).map fieldCheck :=
  Dict.get?_mapItems _ _ _

theorem fieldFor_of_split {pre sub : Str} (hsub : '.' ∉ sub)
    (hnone : Dict.get? fields (pre ++ '.' :: sub) = none) :
    (fieldFor (fieldChecks fields) (pre ++ '.' :: sub)).toOption =
      match Dict.get? fields pre with
      | some f => if f.isMapping then some (valueCheck (childType f)) else none
      | none => none := by
  have hdot : '.' ∈ pre ++ '.' :: sub := by simp
  rw [fieldFor, get?_fieldChecks, hnone, parentKey_append hsub, get?_fieldChecks]
  simp only [Option.map_none, hdot, if_true]
  cases Dict.get? fields pre with
  | none => rfl
  | some f =>
    cases hmap : f.isMapping with
    | true => simp [fieldCheck, hmap, Except.toOption]
    | false => simp [fieldCheck, hmap, Except.toOption]

/-- Where no field is without a name, the check for a key is that of the field it is resolved to. -/
theorem fieldFor_fieldChecks (hroot : Dict.get? fields [] = none) (key : Str) :
    (fieldFor (fieldChecks fields) key).toOption =
      (resolveField fields key).toOption.map valueCheck := by
  cases hget : Dict.get? fields key with
  | some f =>
    rw [fieldFor, get?_fieldChecks, hget, resolveField_of_get? hget]
    rfl
  | none =>
    by_cases hdot : '.' ∈ key
    · obtain ⟨pre, sub, rfl, hsub⟩ := exists_split_of_mem_dot hdot
      rw [fieldFor_of_split hsub hget]
      cases hpre : Dict.get? fields pre with
      | none =>
        obtain ⟨k, hk⟩ := resolveField_parent_none hsub hget hpre
        rw [hk]
        rfl
      | some f =>
        cases hmap : f.isMapping with
        | false =>
          rw [resolveField_not_mapping hsub hget hpre hmap]
          simp [hmap, Except.toOption]
        | true =>
          cases f with
          | mapping s run c =>
            have hne : pre ≠ [] := fun h => by rw [h, hroot] at hpre; cases hpre
            rw [resolveField_mapping hsub hget hpre hne]
            rfl
          | plain | list | optional | compound => cases hmap
    · have hmem := (Dict.get?_eq_none_iff _ _).mp hget
      rw [fieldFor, get?_fieldChecks, hget, resolveField, prevKey, if_neg hmem, if_neg hdot]
      simp only [Option.map_none, hdot, if_false]
      rfl

omit [Values Json] in
theorem isChecked_iff {op : Str} {u : UpdateOperation} (h : UpdateOperation.ofName.get? op = some u) :
    isChecked u = true ↔ Checked op := by
  have hall : ∀ e ∈ UpdateOperation.ofName,
      isChecked e.2 = true ↔ e.1 ∈ listOperations ∨ e.1 ∈ valueOperations := by decide
  exact hall _ (Dict.mem_of_get? h)

/-- The scripts are made from the operations that validation passes, with the values that it
returns. -/
theorem validateOperation_scripts (hroot : Dict.get? fields [] = none) (o : Operation Json)
    (hprimitive : ¬Checked o.op → Values.primitive o.value = o.value) :
    (Datastore.validateOperation (fieldChecks fields) (o.op, o.docKey, o.value)).toOption.map
        (fun d => (d.key, d.value)) =
      (validateOperation (some fields) o).toOption.map fun o => (o.docKey, o.value) := by
  cases hop : UpdateOperation.ofName.get? o.op with
  | none =>
    have hmem : o.op ∉ updateOperations := (Dict.get?_eq_none_iff _ _).mp hop
    rw [validateOperation_unknown hmem, Datastore.validateOperation, hop]
    rfl
  | some u =>
    have hmem : o.op ∈ updateOperations := (Dict.mem_keys_iff _ _).mpr ⟨u, hop⟩
    have hfor := fieldFor_fieldChecks hroot o.docKey
    have hchecked := isChecked_iff hop
    rw [Datastore.validateOperation, hop]
    cases hcheck : fieldFor (fieldChecks fields) o.docKey with
    | error e =>
      rw [hcheck] at hfor
      cases hresolve : resolveField fields o.docKey with
      | ok f => rw [hresolve] at hfor; cases hfor
      | error e' =>
        rw [validateOperation_known hmem, hresolve]
        rfl
    | ok check =>
      rw [hcheck] at hfor
      cases hresolve : resolveField fields o.docKey with
      | error e' => rw [hresolve] at hfor; cases hfor
      | ok f =>
        rw [hresolve] at hfor
        obtain rfl := Option.some.inj hfor
        rw [validateOperation_resolved hmem hresolve]
        by_cases hu : Checked o.op
        · rw [validateValue_checked hu]
          show Option.map _ (Except.toOption (if isChecked u = true then _ else _)) = _
          rw [if_pos (hchecked.mpr hu), valueCheck]
          rcases checkValue_cases (caughtFor o.op) f o.docKey o.value with
            ⟨v, hv, hok⟩ | ⟨e, he, herr, -⟩ | ⟨msg, e, he, herr, -⟩
          · rw [hv, hok]
            rfl
          · rw [he, herr]
            rfl
          · rw [he, herr]
            rfl
        · rw [validateValue_unchecked hu]
          show Option.map _ (Except.toOption (if isChecked u = true then _ else _)) = _
          rw [if_neg (fun h => hu (hchecked.mp h))]
          show some (o.docKey, o.value) = some (o.docKey, Values.primitive o.value)
          rw [hprimitive hu]

end Scripts

section Orphans

/-- Values that are texts. -/
@[reducible] def textValues : Values Str where
  integer _ := .error .value
  keyword value := if value = [] then .error .value else .ok value
  typedList _ _ := .error .type
  primitive value := value
  text value := value

/-- A keyword of its own model. -/
def nameField : Field Str := .plain ⟨some true, some true⟩ fun _ => textValues.keyword

def nameModel : Model Str := .mk [] [("name".toList, nameField)]

theorem nameModel_fields :
    @validatedFields Str textValues nameModel = [("name".toList, nameField)] := by
  have hrec : recurseFields true false "name".toList (.inl nameField) =
      [("name".toList, nameField)] := by
    rw [recurseFields]
    rfl
  have hflat : nameModel.flatFields true false = [("name".toList, nameField)] := by
    show updateDict [] (recurseFields true false "name".toList (.inl nameField)) = _
    rw [hrec]
    rfl
  unfold validatedFields
  rw [hflat]
  rfl

/-- The model has no field `nope`, and a value is set below it. -/
def orphanUpdate : Operation Str := ⟨updateSet, "nope.x".toList, "v".toList⟩

theorem orphan_raises :
    @validateOperations Str textValues (some nameModel) [orphanUpdate] =
        .error (.missingKey "nope".toList) ∧
      ¬Validates (@validatedFields Str textValues nameModel) [orphanUpdate]
        (@validateOperations Str textValues (some nameModel) [orphanUpdate]) := by
  have hraise : @validateOperations Str textValues (some nameModel) [orphanUpdate] =
      .error (.missingKey "nope".toList) := by
    show [orphanUpdate].mapM
      (@validateOperation Str textValues (some (@validatedFields Str textValues nameModel))) = _
    rw [nameModel_fields]
    rfl
  refine ⟨hraise, fun h => ?_⟩
  rw [hraise] at h
  cases h.1 with
  | inl h => obtain ⟨ops, h⟩ := h; cases h
  | inr h => obtain ⟨msg, h⟩ := h; cases h

end Orphans

end Howler.Datastore.Validation
