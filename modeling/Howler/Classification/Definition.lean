import Howler.Python.Runtime
import Howler.Python.Dict

namespace Howler

open Python

/-- Exceptions the engine raises; only the texts of its own exceptions are kept. -/
inductive PyError where
  | invalidClassification (msg : Str)
  | invalidDefinition (msg : Str)
  | howlerKeyError (msg : Str)
  | keyError (key : Str)
  | attributeError (name : Str)
  | indexError
  | typeError
  | valueError
  deriving DecidableEq, Repr

/-- An entry of `params_map`: what an item of the definition says outside `banned_params_keys`. -/
structure Params where
  requireLvl : Option Int := none
  isRequiredGroup : Bool := false
  requireGroup : Option Str := none
  limitedToGroup : Option Str := none
  solitaryDisplayName : Option Str := none
  deriving DecidableEq, Repr

/-- An item of `required`, `groups` or `subgroups`. -/
structure Item where
  name : Str
  shortName : Str
  aliases : List Str := []
  autoSelect : Bool := false
  params : Params := {}
  deriving DecidableEq, Repr

structure LevelItem where
  name : Str
  shortName : Str
  lvl : Int
  aliases : List Str := []
  params : Params := {}
  deriving DecidableEq, Repr

/-- A classification definition; `none` is a key the dictionary does not have. -/
structure Definition where
  enforce : Option Bool
  dynamicGroups : Option Bool
  dynamicGroupsType : Option Str := none
  levels : Option (List LevelItem)
  required : Option (List Item)
  groups : Option (List Item)
  subgroups : Option (List Item)
  unrestricted : Option Str
  restricted : Option Str
  deriving DecidableEq, Repr

/-- Values of `levels_map`, which maps short names to level numbers and level numbers,
as text, to short names. -/
inductive LvlEntry where
  | idx (n : Int)
  | text (s : Str)
  deriving DecidableEq, Repr

def minLvl : Int := 1
def maxLvl : Int := 10000
def nullLvl : Int := 0
def invalidLvl : Int := 10001
def nullClassification : Str := "NULL".toList
def invalidClassification : Str := "INVALID".toList

/-- `str(n)`. -/
def strOfInt (n : Int) : Str := (Int.repr n).toList

/-- The attributes of `Classification` that do not change once it is constructed. -/
structure Engine where
  originalDefinition : Definition
  levelsMap : Dict Str LvlEntry := []
  levelsMapStl : Dict Str Str := []
  levelsMapLts : Dict Str Str := []
  levelsAliases : Dict Str Str := []
  accessReqMapLts : Dict Str Str := []
  accessReqMapStl : Dict Str Str := []
  accessReqAliases : Dict Str (List Str) := []
  groupsMapLts : Dict Str Str := []
  groupsMapStl : Dict Str Str := []
  groupsAliases : Dict Str (List Str) := []
  groupsAutoSelect : List Str := []
  groupsAutoSelectShort : List Str := []
  subgroupsMapLts : Dict Str Str := []
  subgroupsMapStl : Dict Str Str := []
  subgroupsAliases : Dict Str (List Str) := []
  subgroupsAutoSelect : List Str := []
  subgroupsAutoSelectShort : List Str := []
  paramsMap : Dict Str Params := []
  invalidMode : Bool := false
  enforce : Bool := false
  dynamicGroups : Bool := false
  dynamicGroupsType : Str := "email".toList
  unrestricted : Option Str := none
  restricted : Option Str := none
  deriving DecidableEq, Repr

namespace Engine

/-- `params_map.get(x, {})`. -/
def params (E : Engine) (x : Str) : Params := (E.paramsMap.get? x).getD {}

def requireGroup (E : Engine) (x : Str) : Option Str := (E.params x).requireGroup

def limitedToGroup (E : Engine) (x : Str) : Option Str := (E.params x).limitedToGroup

/-- `access_req_map_stl[r]`; every required token that is parsed has an entry. -/
def reqText (E : Engine) (long : Bool) (r : Str) : Str :=
  if long then (E.accessReqMapStl.get? r).getD r else r

/-- `groups_map_stl.get(r, r)`. -/
def groupText (E : Engine) (long : Bool) (r : Str) : Str :=
  if long then (E.groupsMapStl.get? r).getD r else r

/-- `subgroups_map_stl[r]`; every subgroup that is parsed has an entry. -/
def subgroupText (E : Engine) (long : Bool) (r : Str) : Str :=
  if long then (E.subgroupsMapStl.get? r).getD r else r

/-- The state in which the constructor starts: only the invalid and the null level exist. -/
def empty (d : Definition) : Engine where
  originalDefinition := d
  levelsMap :=
    [("INV".toList, .idx invalidLvl), (strOfInt invalidLvl, .text "INV".toList),
     (nullClassification, .idx nullLvl), (strOfInt nullLvl, .text nullClassification)]
  levelsMapStl :=
    [("INV".toList, invalidClassification), (nullClassification, nullClassification)]
  levelsMapLts :=
    [(invalidClassification, "INV".toList), (nullClassification, nullClassification)]

/-- The loop body over `definition["levels"]`. -/
def addLevel (E : Engine) (x : LevelItem) : Except PyError Engine :=
  if x.shortName ∈ ["INV".toList, "NULL".toList] ∨
      x.name ∈ [invalidClassification, nullClassification] then
    .error (.invalidDefinition
      "You cannot use reserved words NULL, INVALID or INV in your classification definition.".toList)
  else if x.lvl > maxLvl then
    .error (.invalidDefinition
      ("Level over maximum classification level of ".toList ++ strOfInt maxLvl ++ ".".toList))
  else if x.lvl < minLvl then
    .error (.invalidDefinition
      ("Level under minimum classification level of ".toList ++ strOfInt minLvl ++ ".".toList))
  else
    .ok { E with
      levelsMap := (E.levelsMap.set x.shortName (.idx x.lvl)).set (strOfInt x.lvl) (.text x.shortName)
      levelsMapStl := E.levelsMapStl.set x.shortName x.name
      levelsMapLts := E.levelsMapLts.set x.name x.shortName
      levelsAliases := x.aliases.foldl (fun m a => m.set a x.shortName) E.levelsAliases
      paramsMap := (E.paramsMap.set x.shortName x.params).set x.name x.params }

/-- The loop body over `definition["required"]`. -/
def addRequired (E : Engine) (x : Item) : Engine :=
  { E with
    accessReqMapLts := E.accessReqMapLts.set x.name x.shortName
    accessReqMapStl := E.accessReqMapStl.set x.shortName x.name
    accessReqAliases := x.aliases.foldl
      (fun m a => m.set a ((m.get? a).getD [] ++ [x.shortName])) E.accessReqAliases
    paramsMap := (E.paramsMap.set x.shortName x.params).set x.name x.params }

/-- `aliases[a] = list(set(aliases.get(a, []) + [short_name]))`. -/
def addAlias (rt : Runtime) (short : Str) (m : Dict Str (List Str)) (a : Str) :
    Dict Str (List Str) :=
  m.set a (rt.listSet ((m.get? a).getD [] ++ [short]))

/-- The aliases of a group or subgroup, then its solitary display name unless that is empty. -/
def addAliases (rt : Runtime) (x : Item) (m : Dict Str (List Str)) : Dict Str (List Str) :=
  let m := x.aliases.foldl (addAlias rt x.shortName) m
  match x.params.solitaryDisplayName with
  | some s => if s = [] then m else addAlias rt x.shortName m s
  | none => m

/-- The loop body over `definition["groups"]`. -/
def addGroup (rt : Runtime) (E : Engine) (x : Item) : Engine :=
  { E with
    groupsMapLts := E.groupsMapLts.set x.name x.shortName
    groupsMapStl := E.groupsMapStl.set x.shortName x.name
    groupsAliases := addAliases rt x E.groupsAliases
    groupsAutoSelect := if x.autoSelect then E.groupsAutoSelect ++ [x.name] else E.groupsAutoSelect
    groupsAutoSelectShort :=
      if x.autoSelect then E.groupsAutoSelectShort ++ [x.shortName] else E.groupsAutoSelectShort
    paramsMap := (E.paramsMap.set x.shortName x.params).set x.name x.params }

/-- The loop body over `definition["subgroups"]`. -/
def addSubgroup (rt : Runtime) (E : Engine) (x : Item) : Engine :=
  { E with
    subgroupsMapLts := E.subgroupsMapLts.set x.name x.shortName
    subgroupsMapStl := E.subgroupsMapStl.set x.shortName x.name
    subgroupsAliases := addAliases rt x E.subgroupsAliases
    subgroupsAutoSelect :=
      if x.autoSelect then E.subgroupsAutoSelect ++ [x.name] else E.subgroupsAutoSelect
    subgroupsAutoSelectShort :=
      if x.autoSelect then E.subgroupsAutoSelectShort ++ [x.shortName]
      else E.subgroupsAutoSelectShort
    paramsMap := (E.paramsMap.set x.shortName x.params).set x.name x.params }

end Engine

end Howler
