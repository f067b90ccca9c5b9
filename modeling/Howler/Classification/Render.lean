import Howler.Classification.Parse

namespace Howler

open Python

namespace Engine

variable (rt : Runtime) (E : Engine)

/-- The loop over `temp_groups`: what the subgroups require, restarted by each limited one. -/
def tempGroups (subgroups : List Str) : List Str :=
  subgroups.foldl (fun temp sg =>
    let temp := match E.requireGroup sg with
      | some g => temp ++ [g]
      | none => temp
    match E.limitedToGroup sg with
    | some l => if l ∈ temp then [l] else []
    | none => temp) []

/-- The display of a required group: its name in the long format, its short name otherwise. -/
def tempGroupText (long : Bool) (g : Str) : Str :=
  if long then (E.groupsMapStl.get? g).getD g else (E.groupsMapLts.get? g).getD g

/-- An alias that stands for exactly these groups replaces them. -/
def aliasGroups (groups : List Str) : List Str :=
  E.groupsAliases.foldl
    (fun gs e => if e.2.length > 1 ∧ sorted e.2 = gs then [e.1] else gs) groups

/-- The group marking, without the slashes in front of it. -/
def groupMark (groups : List Str) (long : Bool) : Str :=
  match groups with
  | [grp] =>
      let displayName := (E.params grp).solitaryDisplayName.getD grp
      if displayName ≠ grp then displayName else "REL TO ".toList ++ grp
  | groups =>
      "REL TO ".toList ++
        join ", ".toList (sorted (if long then groups else E.aliasGroups groups))

/-- The subgroups that are shown: with any subgroup come the auto-selected ones. -/
def shownSubgroups (subgroups : List Str) (long skipAutoSelect : Bool) : List Str :=
  let auto := if long then E.subgroupsAutoSelect else E.subgroupsAutoSelectShort
  if subgroups ≠ [] ∧ auto ≠ [] ∧ !skipAutoSelect then sorted (rt.listSet (subgroups ++ auto))
  else subgroups

/-- The groups that are shown, next to the subgroups that are. -/
def shownGroups (groups subgroups : List Str) (long skipAutoSelect : Bool) : List Str :=
  let auto := if long then E.groupsAutoSelect else E.groupsAutoSelectShort
  let groups := rt.listSet (groups ++ (E.tempGroups subgroups).map (E.tempGroupText long))
  if groups ≠ [] ∧ auto ≠ [] ∧ !skipAutoSelect then sorted (rt.listSet (groups ++ auto))
  else groups

/-- The required tokens that are not shown in the group section: `set.difference`. -/
def plainReq (req : List Str) : List Str :=
  rt.listSet ((rt.listSet req).filter fun r => !(E.params r).isRequiredGroup)

/-- `max(lvl_idx, required_lvl_idx)`, which raises if the level is a text. -/
def raisedLvl (lvlIdx : LvlEntry) (req : List Str) : Except PyError Int :=
  match lvlIdx with
  | .idx n => .ok (max n (req.foldl (fun m r => max m ((E.params r).requireLvl.getD 0)) 0))
  | .text _ => .error .typeError

/-- `_get_normalized_classification_text`. -/
def getNormalizedClassificationText (lvlIdx : LvlEntry) (req groups subgroups : List Str)
    (long skipAutoSelect : Bool) : Except PyError Str := do
  let lvl ← E.raisedLvl lvlIdx req
  let out ← E.getC12nLevelText lvl long
  let reqGrp := req.filter fun r => (E.params r).isRequiredGroup
  let req := E.plainReq rt req
  let out := if req ≠ [] then out ++ "//".toList ++ join "/".toList req else out
  let out := if reqGrp ≠ [] then out ++ "//".toList ++ join "/".toList (sorted reqGrp) else out
  let subgroups := E.shownSubgroups rt subgroups long skipAutoSelect
  let groups := E.shownGroups rt groups subgroups long skipAutoSelect
  let out :=
    if groups ≠ [] then
      out ++ (if reqGrp ≠ [] then "/".toList else "//".toList) ++ E.groupMark groups long
    else out
  let out :=
    if subgroups ≠ [] then
      out ++ (if groups ≠ [] ∨ reqGrp ≠ [] then "/".toList else "//".toList) ++
        join "/".toList (sorted subgroups)
    else out
  return out

end Engine

end Howler
