import Howler.Classification.Definition

namespace Howler

open Python

/-- What `_get_classification_parts` returns. -/
structure Parts where
  lvl : LvlEntry
  req : List Str
  groups : List Str
  subgroups : List Str
  deriving DecidableEq, Repr

/-- The keyword arguments of `_get_classification_parts`. -/
structure PartsFlags where
  longFormat : Bool := true
  getDynamicGroups : Bool := true
  autoSelect : Bool := false
  ignoreUnused : Bool := false
  deriving DecidableEq, Repr

namespace Engine

variable (rt : Runtime) (E : Engine)

def levelEntry (short : Str) : Except PyError LvlEntry :=
  match E.levelsMap.get? short with
  | some v => .ok v
  | none => .error (.keyError short)

/-- The level a level token stands for. -/
def levelKey (lvl : Str) : Except PyError LvlEntry :=
  match E.levelsMap.get? lvl with
  | some v => .ok v
  | none =>
    match E.levelsMapLts.get? lvl with
    | some short => E.levelEntry short
    | none =>
      match E.levelsAliases.get? lvl with
      | some short => E.levelEntry short
      | none => .error (.invalidClassification ("Classification level '".toList ++ lvl ++
          "' was not found in your classification definition.".toList))

/-- `_get_c12n_level_index`: the level and what follows the first `//`. -/
def getC12nLevelIndex (c12n : Str) : Except PyError (LvlEntry × Str) :=
  let p := partition "//".toList (rt.upper c12n)
  (E.levelKey p.1).map fun v => (v, p.2)

/-- `_get_c12n_level_text`. The last case is a level number that is also the short name of
another level: `levels_map` then holds a number where a text is expected. -/
def getC12nLevelText (lvlIdx : Int) (long : Bool) : Except PyError Str :=
  let notFound : PyError := .invalidClassification ("Classification level number '".toList ++
    strOfInt lvlIdx ++ "' was not found in your classification definition.".toList)
  match E.levelsMap.get? (strOfInt lvlIdx) with
  | none => .error notFound
  | some (.text t) =>
      if t = [] then .error notFound
      else if long then
        match E.levelsMapStl.get? t with
        | some name => .ok name
        | none => .error (.keyError t)
      else .ok t
  | some (.idx n) =>
      if n = 0 then .error notFound
      else if long then .error (.keyError (strOfInt n)) else .error .typeError

/-- The required tokens a part stands for. -/
def requiredKeys (p : Str) : Option (List Str) :=
  match E.accessReqMapLts.get? p with
  | some short => some [short]
  | none => if p ∈ E.accessReqMapStl.keys then some [p] else E.accessReqAliases.get? p

/-- `return_set` and `unused` of `_get_c12n_required`, before the set is sorted. -/
def requiredSets (c12n : Str) : List Str × List Str :=
  let parts := (rt.listSet ((rt.upper c12n).splitOn '/')).filter (· ≠ [])
  (parts.flatMap fun p => (E.requiredKeys p).getD [],
    parts.filter fun p => (E.requiredKeys p).isNone)

def getC12nRequired (c12n : Str) (long : Bool) : List Str × List Str :=
  let r := E.requiredSets rt c12n
  (sorted ((rt.listSet r.1).map (E.reqText long)), r.2)

/-- The group names of a `REL` marking. -/
def relGroups (gp : Str) : List Str :=
  let gp := replace "REL ".toList [] (replace "REL TO ".toList [] gp)
  (rt.listSet ((gp.splitOn ',').map strip)).flatMap (·.splitOn '/')

/-- The groups a name inside a `REL` marking stands for. -/
def groupKeys (g : Str) : Option (List Str) :=
  match E.groupsMapLts.get? g with
  | some short => some [short]
  | none => if g ∈ E.groupsMapStl.keys then some [g] else E.groupsAliases.get? g

/-- The groups and the subgroups a part outside a `REL` marking stands for: it may be the
solitary display name of a group. -/
def subgroupKeys (g : Str) : Except PyError (List Str × List Str) :=
  match E.subgroupsMapLts.get? g with
  | some short => .ok ([], [short])
  | none =>
    if g ∈ E.subgroupsMapStl.keys then .ok ([], [g])
    else match E.subgroupsAliases.get? g with
      | some shorts => .ok ([], shorts)
      | none =>
        match E.groupsAliases.get? g with
        | some [short] => .ok ([short], [])
        | some [] => .error .indexError
        | some _ => .error (.invalidClassification ("Unclear use of alias: ".toList ++ g))
        | none => .error (.invalidClassification ("Unknown Subgroup: ".toList ++ g))

/-- `require_group` of a subgroup where it is truthy. -/
def truthyRequireGroup (subgroup : Str) : Option Str :=
  (E.requireGroup subgroup).filter (· ≠ [])

/-- The loop that rejects groups a subgroup is not limited to. -/
def checkLimits (g1 : List Str) : List Str → Except PyError Unit
  | [] => .ok ()
  | subgroup :: rest =>
    match E.limitedToGroup subgroup with
    | none => checkLimits g1 rest
    | some limited =>
      if (rt.listSet g1).length > 1 ∨ ((rt.listSet g1).length = 1 ∧ rt.listSet g1 ≠ [limited]) then
        .error (.invalidClassification ("Subgroup ".toList ++ subgroup ++
          " is limited to group ".toList ++ limited ++ " (found: ".toList ++
          join ", ".toList (rt.listSet g1) ++ ")".toList))
      else checkLimits g1 rest

/-- `g1_set`, `g2_set` and `others` of `_get_c12n_groups` before the auto-selection. -/
def groupSets (c12n : List Str) (getDynamicGroups : Bool) :
    Except PyError (List Str × List Str × List Str) := do
  let groups := (c12n.filter ("REL ".toList.isPrefixOf ·)).flatMap (relGroups rt)
  let subgroups := c12n.filter (!"REL ".toList.isPrefixOf ·)
  let known := groups.flatMap fun g => (E.groupKeys g).getD []
  let others := groups.filter fun g => (E.groupKeys g).isNone
  let subs ← subgroups.mapM E.subgroupKeys
  let dynamic := E.dynamicGroups && getDynamicGroups
  let g2 := subs.flatMap Prod.snd
  let g1 := known ++ subs.flatMap Prod.fst ++ (if dynamic then others else []) ++
    (rt.listSet g2).filterMap E.truthyRequireGroup
  checkLimits rt E g1 (rt.listSet g2)
  return (g1, g2, if dynamic then [] else others)

/-- `_get_c12n_groups`. -/
def getC12nGroups (c12n : List Str) (long getDynamicGroups autoSelect : Bool) :
    Except PyError (List Str × List Str × List Str) := do
  let (g1, g2, others) ← E.groupSets rt c12n getDynamicGroups
  let g1 := if autoSelect && g1 ≠ [] then g1 ++ E.groupsAutoSelectShort else g1
  let g2 := if autoSelect && g2 ≠ [] then g2 ++ E.subgroupsAutoSelectShort else g2
  return (sorted ((rt.listSet g1).map (E.groupText long)),
    sorted ((rt.listSet g2).map (E.subgroupText long)), rt.listSet others)

/-- `_get_classification_parts`. -/
def getClassificationParts (c12n : Str) (f : PartsFlags) : Except PyError Parts := do
  let (lvlIdx, unused) ← E.getC12nLevelIndex rt c12n
  let (req, unusedParts) := E.getC12nRequired rt unused f.longFormat
  let (groups, subgroups, unusedParts) ←
    E.getC12nGroups rt unusedParts f.longFormat f.getDynamicGroups f.autoSelect
  if unusedParts ≠ [] ∧ !f.ignoreUnused then
    .error (.invalidClassification
      ("Unparsable classification parts: ".toList ++ join ", ".toList unusedParts))
  else return ⟨lvlIdx, req, groups, subgroups⟩

end Engine

end Howler
