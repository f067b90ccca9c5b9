import Howler.Classification.Render
import Mathlib.Data.List.Sublists

namespace Howler

open Python

/-- `_classification_cache` and `_classification_cache_short`, the attributes of a constructed
engine that its methods change. -/
structure Caches where
  long : List Str := []
  short : List Str := []
  deriving DecidableEq, Repr

/-- A method of the engine: it may raise and it may fill the caches. -/
abbrev Method := ExceptT PyError (StateM Caches)

/-- The keyword arguments of `normalize_classification`. -/
structure Flags where
  longFormat : Bool := true
  skipAutoSelect : Bool := false
  getDynamicGroups : Bool := true
  ignoreUnused : Bool := false
  deriving DecidableEq, Repr

namespace Flags

def parts (f : Flags) : PartsFlags where
  longFormat := f.longFormat
  getDynamicGroups := f.getDynamicGroups
  ignoreUnused := f.ignoreUnused

end Flags

namespace Caches

/-- The condition under which `normalize_classification` returns its argument at once. -/
def hit (s : Caches) (c12n : Str) (f : Flags) : Bool :=
  (f.longFormat && c12n ∈ s.long && f.getDynamicGroups) ||
    (!f.longFormat && c12n ∈ s.short && f.getDynamicGroups)

def add (s : Caches) (c12n : Str) (long : Bool) : Caches :=
  if long then { s with long := c12n :: s.long } else { s with short := c12n :: s.short }

end Caches

/-- `int(lvl)` of a level. -/
def LvlEntry.toInt : LvlEntry → Except PyError Int
  | .idx n => .ok n
  | .text s =>
    match (String.ofList (strip s)).toInt? with
    | some n => .ok n
    | none => .error .valueError

/-- `max(lvl_1, lvl_2)`, which raises for a number and a text. -/
def LvlEntry.max : LvlEntry → LvlEntry → Except PyError LvlEntry
  | .idx m, .idx n => .ok (.idx (Max.max m n))
  | .text s, .text t => .ok (.text (if s < t then t else s))
  | _, _ => .error .typeError

namespace Engine

variable (rt : Runtime) (E : Engine)

/-- `self.UNRESTRICTED`, an attribute that exists only once the constructor has set it. -/
def getUnrestricted : Except PyError Str :=
  match E.unrestricted with
  | some u => .ok u
  | none => .error (.attributeError "UNRESTRICTED".toList)

/-- What `normalize_classification` computes where the cache does not answer. -/
def computeNormal (c12n : Str) (f : Flags) : Except PyError Str := do
  let p ← E.getClassificationParts rt c12n f.parts
  E.getNormalizedClassificationText rt p.lvl p.req p.groups p.subgroups
    f.longFormat f.skipAutoSelect

def normalizeClassification (c12n : Str) (f : Flags) : Method Str := do
  if !E.enforce || E.invalidMode then
    E.getUnrestricted
  else if (← get).hit c12n f then
    return c12n
  else
    let newC12n ← E.computeNormal rt c12n f
    modify fun s => s.add newC12n f.longFormat
    return newC12n

/-- `_build_combinations`. -/
def buildCombinations (items : List Str) (separator : Str) (solitaryDisplay : Dict Str Str) :
    List Str :=
  let items := rt.listSet items
  [] :: items.flatMap fun i =>
    let others := items.filter (· ≠ i)
    (List.range (others.length + 1)).flatMap fun x =>
      (others.sublistsLen x).map fun c =>
        let value := join separator (sorted (i :: c))
        (solitaryDisplay.get? value).getD value

/-- `sep.join((a, b))`, cut where it ends with `sep`. -/
def joinOrCut (sep : Str) (p : Str × Str) : Str :=
  let cl := p.1 ++ sep ++ p.2
  if sep.isSuffixOf cl then cl.take (cl.length - sep.length) else cl

/-- The loop over `solitary_names`. -/
def replaceSolitary (combinations : List Str) (solName : Str) : List Str :=
  let toFind := "REL TO ".toList ++ solName
  let toEdit := combinations.filter fun c => decide (toFind <:+: c)
  toEdit.foldl (fun cs e => (cs ++ [replace toFind solName e]).filter (· ≠ e)) combinations

/-- The combinations of `list_all_classification_combinations` before they are normalized. -/
def rawCombinations (long : Bool) : Except PyError (List Str) := do
  let d := E.originalDefinition
  let some levels := d.levels | .error (.keyError "levels".toList)
  let some required := d.required | .error (.keyError "required".toList)
  let some groups := d.groups | .error (.keyError "groups".toList)
  let some subgroups := d.subgroups | .error (.keyError "subgroups".toList)
  let label := fun (x : Item) => if long then x.name else x.shortName
  let reqCbs := buildCombinations rt (required.map label) "/".toList []
  let solitary := groups.filterMap fun x => x.params.solitaryDisplayName.map (label x, ·)
  let solitaryNames := solitary.map Prod.snd
  let grpCbs := buildCombinations rt (groups.map label) ", ".toList
    (solitary.foldl (fun m e => m.set e.1 e.2) [])
  let sgrpCbs := buildCombinations rt (subgroups.map label) "/".toList []
  let lvls := rt.listSet (levels.map fun x => if long then x.name else x.shortName)
  let combinations := (lvls.product reqCbs).map (joinOrCut "//".toList)
  let combinations :=
    combinations ++ (combinations.product grpCbs).map (joinOrCut "//REL TO ".toList)
  let combinations := rt.listSet (solitaryNames.foldl replaceSolitary combinations)
  let hasGroup := fun (c : Str) => decide ("//REL TO ".toList <:+: c) ||
    solitaryNames.any fun s => ("//".toList ++ s).isSuffixOf c
  return combinations ++ (combinations.product sgrpCbs).map fun p =>
    joinOrCut (if hasGroup p.1 then "/".toList else "//".toList) p

/-- The normal forms of the combinations; those that cannot be parsed are left out. -/
def normalizeAll (long : Bool) : List Str → Method (List Str)
  | [] => return []
  | x :: xs => do
    let f : Flags := { longFormat := long }
    let t ← tryCatch (some <$> E.normalizeClassification rt x f) fun
      | .invalidClassification _ => return none
      | e => throw e
    return t.toList ++ (← normalizeAll long xs)

/-- `list_all_classification_combinations(long_format, normalized=True)`. -/
def listAllClassificationCombinations (long : Bool) : Method (List Str) := do
  let combinations ← E.rawCombinations rt long
  E.normalizeAll rt long (rt.listSet combinations)

/-- `_can_see_required`. -/
def canSeeRequired (userReq req : List Str) : Bool := req.all (· ∈ userReq)

/-- `_can_see_groups`. -/
def canSeeGroups (userGroups req : List Str) : Bool :=
  if req.length = 0 then true else userGroups.any (· ∈ req)

/-- The answer of `is_accessible` for two markings that parse. -/
def partsAccessible (user doc : Parts) : Except PyError Bool := do
  let userLvl ← user.lvl.toInt
  let lvl ← doc.lvl.toInt
  if userLvl ≥ lvl then
    return canSeeRequired user.req doc.req && canSeeGroups user.groups doc.groups &&
      canSeeGroups user.subgroups doc.subgroups
  else return false

/-- `is_accessible`; a marking that is `None` is accessible. -/
def isAccessible (userC12n : Str) (c12n : Option Str) (ignoreInvalid : Bool) :
    Except PyError Bool :=
  if E.invalidMode then .ok false
  else if !E.enforce then .ok true
  else match c12n with
    | none => .ok true
    | some c12n =>
      let answer := do
        let user ← E.getClassificationParts rt userC12n {}
        let doc ← E.getClassificationParts rt c12n {}
        partsAccessible user doc
      match answer with
      | .error (.invalidClassification msg) =>
          if ignoreInvalid then .ok false else .error (.invalidClassification msg)
      | answer => answer

/-- The loop over the items of one section in `is_valid`; `none` is `return False`. -/
def checkItems : Bool → List Str → Option Bool
  | checkGroups, [] => some checkGroups
  | checkGroups, i :: items =>
    let checkGroups := checkGroups ||
      !(i ∈ E.accessReqAliases.keys || i ∈ E.accessReqMapStl.keys || i ∈ E.accessReqMapLts.keys)
    if checkGroups && !E.dynamicGroups &&
        !(i ∈ E.groupsAliases.keys || i ∈ E.groupsMapStl.keys || i ∈ E.groupsMapLts.keys ||
          i ∈ E.subgroupsAliases.keys || i ∈ E.subgroupsMapStl.keys ||
          i ∈ E.subgroupsMapLts.keys) then none
    else checkItems checkGroups items

/-- The items of a section: the last one with a comma is cut up and moved to the end. -/
def sectionItems (part : Str) : List Str :=
  let items := part.splitOn '/'
  match (items.zipIdx.filter fun e => ',' ∈ e.1).getLast? with
  | none => items
  | some (item, idx) => items.eraseIdx idx ++ (item.splitOn ',').map strip

/-- The `while` loop of `is_valid`. -/
def checkSections : Bool → List Str → Bool
  | _, [] => true
  | checkGroups, part :: parts =>
    if checkGroups then false
    else match E.checkItems checkGroups (sectionItems part) with
      | none => false
      | some checkGroups => checkSections checkGroups parts

/-- The end of `is_valid`, which looks at the text itself. -/
def checkShape (c12n : Str) : Bool :=
  let c12n := replace "REL ".toList [] (replace "REL TO ".toList [] c12n)
  match splitOnStr "//".toList c12n with
  | [] => false
  | lvl :: parts =>
    parts.length ≤ 2 &&
      (lvl ∈ E.levelsAliases.keys || lvl ∈ E.levelsMapLts.keys || lvl ∈ E.levelsMapStl.keys) &&
      E.checkSections false parts

/-- `is_valid`. -/
def isValid (c12n : Str) (skipAutoSelect : Bool) : Method Bool := do
  if !E.enforce then return true
  else
    let parsed ← tryCatch (do
        let n ← E.normalizeClassification rt c12n { skipAutoSelect := skipAutoSelect }
        let np ← E.getClassificationParts rt n {}
        let p ← E.getClassificationParts rt c12n {}
        return some (np, p)) fun
      | .invalidClassification _ => return none
      | e => throw e
    match parsed with
    | none => return false
    | some (np, p) =>
      return p.lvl = np.lvl && sorted p.req = sorted np.req &&
        sorted p.groups = sorted np.groups && sorted p.subgroups = sorted np.subgroups &&
        E.checkShape c12n

/-- `repr` of a character of a `str` in quotes. Further characters that are not printable stay. -/
def reprChar (quote c : Char) : Str :=
  let backslash := Char.ofNat 92
  if c = quote ∨ c = backslash then [backslash, c]
  else if c.toNat = 10 then [backslash, 'n']
  else if c.toNat = 13 then [backslash, 'r']
  else if c.toNat = 9 then [backslash, 't']
  else if c.toNat < 32 ∨ c.toNat = 127 then
    [backslash, 'x', Nat.digitChar (c.toNat / 16), Nat.digitChar (c.toNat % 16)]
  else [c]

/-- `repr` of a `str`: in double quotes where it has single ones only. -/
def reprStr (s : Str) : Str :=
  let single := Char.ofNat 39
  let double := Char.ofNat 34
  let quote := if single ∈ s ∧ double ∉ s then double else single
  quote :: s.flatMap (reprChar quote) ++ [quote]

/-- `str` of a list of texts. -/
def strOfList (xs : List Str) : Str := '[' :: join ", ".toList (xs.map reprStr) ++ [']']

/-- `_max_groups`. -/
def maxGroups (groups1 groups2 : List Str) : Except PyError (List Str) :=
  if groups1.length > 0 ∧ groups2.length > 0 then
    let groups := rt.listSet ((rt.listSet groups1).filter (· ∈ groups2))
    if groups.length = 0 then
      .error (.invalidClassification ("Could not find any intersection between the groups. ".toList
        ++ strOfList groups1 ++ " & ".toList ++ strOfList groups2))
    else .ok groups
  else .ok (rt.listSet (rt.listSet groups1 ++ rt.listSet groups2))

/-- `max_classification`. -/
def maxClassification (c12n1 c12n2 : Option Str) (long : Bool) : Method Str := do
  if !E.enforce || E.invalidMode then E.getUnrestricted
  else
    let n1 ← c12n1.mapM (E.normalizeClassification rt · {})
    let n2 ← c12n2.mapM (E.normalizeClassification rt · {})
    match n1, n2 with
    | none, none => E.getUnrestricted
    | none, some n | some n, none => if n = [] then E.getUnrestricted else return n
    | some n1, some n2 =>
      let p1 ← E.getClassificationParts rt n1 { longFormat := long }
      let p2 ← E.getClassificationParts rt n2 { longFormat := long }
      let req := rt.listSet (rt.listSet p1.req ++ rt.listSet p2.req)
      let groups ← maxGroups rt p1.groups p2.groups
      let subgroups ← maxGroups rt p1.subgroups p2.subgroups
      E.getNormalizedClassificationText rt (← p1.lvl.max p2.lvl) req groups subgroups long false

/-- `build_user_classification`. -/
def buildUserClassification (c12n1 c12n2 : Option Str) (long : Bool) : Method (Option Str) := do
  if !E.enforce || E.invalidMode then some <$> E.getUnrestricted
  else
    let n1 ← c12n1.mapM (E.normalizeClassification rt · { skipAutoSelect := true })
    let n2 ← c12n2.mapM (E.normalizeClassification rt · { skipAutoSelect := true })
    match n1, n2 with
    | none, n | n, none => return n
    | some n1, some n2 =>
      let p1 ← E.getClassificationParts rt n1 { longFormat := long }
      let p2 ← E.getClassificationParts rt n2 { longFormat := long }
      let req := rt.listSet (rt.listSet p1.req ++ rt.listSet p2.req)
      let groups := rt.listSet (rt.listSet p1.groups ++ rt.listSet p2.groups)
      let subgroups := rt.listSet (rt.listSet p1.subgroups ++ rt.listSet p2.subgroups)
      some <$> E.getNormalizedClassificationText rt (← p1.lvl.max p2.lvl) req groups subgroups
        long true

end Engine

/-- The access parameters stored with a document and with a user. -/
structure AccessControlParts where
  accessLvl : LvlEntry
  accessReq : List Str
  accessGrp1 : List Str
  accessGrp2 : List Str
  deriving DecidableEq, Repr

namespace Engine

variable (rt : Runtime) (E : Engine)

def emptyGroup : Str := "__EMPTY__".toList

/-- `get_access_control_parts`. -/
def getAccessControlParts (c12n : Str) (userClassification : Bool) :
    Except PyError AccessControlParts := do
  let off := !E.enforce || E.invalidMode
  let c12n ← if off then E.getUnrestricted else .ok c12n
  match E.getClassificationParts rt c12n { longFormat := false, autoSelect := !userClassification } with
  | .ok p =>
      .ok ⟨p.lvl, p.req, if p.groups = [] then [emptyGroup] else p.groups,
        if p.subgroups = [] then [emptyGroup] else p.subgroups⟩
  | .error (.invalidClassification msg) =>
      if off then .ok ⟨.idx nullLvl, [], [emptyGroup], [emptyGroup]⟩
      else .error (.invalidClassification msg)
  | .error e => .error e

/-- `get_access_control_req`. -/
def getAccessControlReq : List Str :=
  if !E.enforce || E.invalidMode then [] else E.accessReqMapStl.keys

end Engine

/-- A `Classification` object: its fixed attributes and its caches. -/
structure Classification where
  engine : Engine
  caches : Caches
  deriving DecidableEq, Repr

/-- The constructor works on the object it is building, also when it raises. -/
abbrev Init := ExceptT PyError (StateM Classification)

namespace Classification

variable (rt : Runtime)

/-- A call of a method of the object under construction. -/
def call {α : Type} (m : Engine → Method α) : Init α := fun o =>
  let r := (m o.engine).run o.caches
  (r.1, { o with caches := r.2 })

def modifyEngine (f : Engine → Engine) : Init Unit :=
  modify fun o => { o with engine := f o.engine }

def addLevels : List LevelItem → Init Unit
  | [] => return ()
  | x :: xs => do
    let E ← (← get).engine.addLevel x
    modifyEngine fun _ => E
    addLevels xs

/-- A key of the definition that has to be there. -/
def need {α : Type} (x : Option α) (e : PyError) : Init α :=
  match x with
  | some a => return a
  | none => throw e

/-- The constructor up to the tables: the flags, the levels and the three kinds of items. -/
def readTables (d : Definition) : Init Unit := do
  let enforce ← need d.enforce (.howlerKeyError "Enforce not set!".toList)
  modifyEngine fun E => { E with enforce := enforce }
  let dynamicGroups ← need d.dynamicGroups (.howlerKeyError "Dynamic groups not set!".toList)
  modifyEngine fun E => { E with
    dynamicGroups := dynamicGroups
    dynamicGroupsType := d.dynamicGroupsType.getD E.dynamicGroupsType }
  let levels ← need d.levels (.howlerKeyError "No classification levels provided!".toList)
  addLevels levels
  modifyEngine fun E => (d.required.getD []).foldl Engine.addRequired E
  modifyEngine fun E => (d.groups.getD []).foldl (Engine.addGroup rt) E
  modifyEngine fun E => (d.subgroups.getD []).foldl (Engine.addSubgroup rt) E

/-- The classification caches are filled only where classification is enforced. -/
def fillCaches : Init Unit := do
  if (← get).engine.enforce then
    let long ← call fun E => E.listAllClassificationCombinations rt true
    modify fun o => { o with caches := { o.caches with long := long } }
    let short ← call fun E => E.listAllClassificationCombinations rt false
    modify fun o => { o with caches := { o.caches with short := short } }

/-- A marking of the definition that `is_valid` has to accept. -/
def needValid (c12n : Option Str) (key msg : Str) : Init Str := do
  let c12n ← need c12n (.keyError key)
  if ← call fun E => E.isValid rt c12n false then return c12n
  else throw (.invalidDefinition msg)

/-- The body of the `try` block of `Classification.__init__`. -/
def initBody (d : Definition) : Init Unit := do
  readTables rt d
  fillCaches rt
  let unrestricted ← needValid rt d.unrestricted "unrestricted".toList
    "Classification definition's unrestricted classification is invalid.".toList
  let restricted ← needValid rt d.restricted "restricted".toList
    "Classification definition's restricted classification is invalid.".toList
  let u ← call fun E => E.normalizeClassification rt unrestricted {}
  modifyEngine fun E => { E with unrestricted := some u }
  let r ← call fun E => E.normalizeClassification rt restricted {}
  modifyEngine fun E => { E with restricted := some r }

/-- `Classification(classification_definition)`: any exception leads to the invalid mode. -/
def init (d : Definition) : Classification :=
  match (initBody rt d).run ⟨Engine.empty d, {}⟩ with
  | (.ok _, o) => o
  | (.error _, o) =>
      { o with engine := { o.engine with
          unrestricted := some nullClassification
          restricted := some invalidClassification
          invalidMode := true } }

end Classification

end Howler
