import Howler.Classification.Mix
import Howler.Search.BoolQuery

namespace Howler

open Python Clearance Search

/-- The access fields of a document. -/
inductive AccessField where
  | lvl
  | req
  | grp1
  | grp2
  deriving DecidableEq, Repr

def AccessField.name : AccessField → Str
  | .lvl => "__access_lvl__".toList
  | .req => "__access_req__".toList
  | .grp1 => "__access_grp1__".toList
  | .grp2 => "__access_grp2__".toList

/-- `str(lvl)` of a level. -/
def LvlEntry.str : LvlEntry → Str
  | .idx n => strOfInt n
  | .text s => s

/-- What `add_access_control` writes into a user. -/
structure AccessControl where
  parts : AccessControlParts
  accessControl : Str
  deriving DecidableEq, Repr

namespace Engine

section Source

variable (rt : Runtime) (E : Engine) (safeStr : Str → Str)

/-- The required tokens that a user does not have. -/
def missingReq (parts : AccessControlParts) : List Str :=
  rt.listSet ((rt.listSet E.getAccessControlReq).filter (· ∉ parts.accessReq))

/-- `gl1_query` and `gl2_query`. -/
def groupQuery (field : AccessField) (groups : List Str) : Str :=
  "(".toList ++ join " OR ".toList ((field.name ++ ":__EMPTY__".toList) ::
    groups.map fun x => field.name ++ ":\"".toList ++ x ++ "\"".toList) ++ ") AND ".toList

/-- `req_query`. -/
def reqQuery (req : List Str) : Str :=
  let query := join " OR ".toList
    (req.map fun r => AccessField.req.name ++ ":\"".toList ++ r ++ "\"".toList)
  if query ≠ [] then "-(".toList ++ query ++ ") AND ".toList else query

/-- `lvl_query`. -/
def lvlQuery (lvl : LvlEntry) : Str :=
  AccessField.lvl.name ++ ":[0 TO ".toList ++ lvl.str ++ "]".toList

/-- `add_access_control`, for the classification of a user. -/
def addAccessControl (classification : Option Str) : Except PyError AccessControl := do
  let unrestricted ← E.getUnrestricted
  let parts ← E.getAccessControlParts rt (classification.getD unrestricted) true
  return ⟨parts, safeStr (groupQuery .grp2 parts.accessGrp2 ++ groupQuery .grp1 parts.accessGrp1 ++
    reqQuery (missingReq rt E parts) ++ lvlQuery parts.accessLvl)⟩

end Source

/-- How the access fields of a document are searched. -/
def accessIndex : Index AccessField Str LvlEntry AccessControlParts where
  keywords p := fun
    | .lvl => []
    | .req => p.accessReq
    | .grp1 => p.accessGrp1
    | .grp2 => p.accessGrp2
  number p := fun
    | .lvl =>
      match p.accessLvl with
      | .idx n => some n
      | .text _ => none
    | _ => none
  bound b := b.toInt.toOption

/-- The filter of a user, as a boolean query. -/
def accessQuery (rt : Runtime) (E : Engine) (parts : AccessControlParts) :
    List (Clause AccessField Str LvlEntry) :=
  let req := missingReq rt E parts
  [.anyOf .grp2 (.bare emptyGroup :: parts.accessGrp2.map .quoted),
    .anyOf .grp1 (.bare emptyGroup :: parts.accessGrp1.map .quoted)] ++
  (if req ≠ [] then [.noneOf .req (req.map .quoted)] else []) ++ [.upTo .lvl parts.accessLvl]

/-- The filter of a user finds a document with these access fields. -/
def finds (rt : Runtime) (E : Engine) (user doc : AccessControlParts) : Bool :=
  matchesAll accessIndex doc (accessQuery rt E user)

variable {rt : Runtime} {E : Engine}

section Text

theorem map_quoted (f : AccessField) (xs : List Str) :
    (xs.map Term.quoted).map (termText AccessField.name f) =
      xs.map fun x => f.name ++ ":\"".toList ++ x ++ "\"".toList := by
  rw [List.map_map]
  rfl

theorem groupQuery_eq (f : AccessField) (xs : List Str) :
    groupQuery f xs = clauseText AccessField.name LvlEntry.str
      (.anyOf f (.bare emptyGroup :: xs.map .quoted)) ++ " AND ".toList := by
  have hempty : termText AccessField.name f (.bare emptyGroup) =
      f.name ++ ":__EMPTY__".toList := by
    rw [termText, List.append_assoc]
    rfl
  rw [groupQuery, clauseText, List.map_cons, map_quoted, hempty, List.append_assoc _ ")".toList]
  rfl

theorem reqQuery_eq {req : List Str} (h : req ≠ []) :
    reqQuery req = clauseText AccessField.name LvlEntry.str
      (.noneOf .req (req.map .quoted)) ++ " AND ".toList := by
  have hne : join " OR ".toList
      (req.map fun r => AccessField.req.name ++ ":\"".toList ++ r ++ "\"".toList) ≠ [] := by
    obtain ⟨x, xs, rfl⟩ := List.exists_cons_of_ne_nil h
    cases xs with
    | nil => simp [join_singleton]
    | cons y ys => simp [join_cons_cons]
  unfold reqQuery
  dsimp only
  rw [if_pos hne, clauseText, map_quoted, List.append_assoc _ ")".toList]
  rfl

/-- The filter that is stored with a user is the text of the query. -/
theorem addAccessControl_text {safeStr : Str → Str} {c : Option Str} {a : AccessControl}
    (h : E.addAccessControl rt safeStr c = .ok a) :
    a.accessControl =
      safeStr (queryText AccessField.name LvlEntry.str (E.accessQuery rt a.parts)) := by
  obtain ⟨u, -, h⟩ := bind_eq_ok.mp h
  obtain ⟨parts, -, h⟩ := bind_eq_ok.mp h
  obtain rfl := Except.ok.inj h
  have hlvl : lvlQuery parts.accessLvl =
      clauseText AccessField.name LvlEntry.str (.upTo .lvl parts.accessLvl) := rfl
  dsimp only
  congr 1
  rw [groupQuery_eq, groupQuery_eq, hlvl, accessQuery, queryText]
  by_cases hr : missingReq rt E parts = []
  · have hreq : reqQuery (missingReq rt E parts) = [] := by
      rw [hr]
      rfl
    rw [hreq, if_neg (by simp [hr])]
    simp only [List.append_nil, List.cons_append, List.nil_append, List.map_cons, List.map_nil,
      join_cons_cons, join_singleton, List.append_assoc]
  · rw [reqQuery_eq hr, if_pos hr]
    simp only [List.cons_append, List.nil_append, List.map_cons, List.map_nil,
      join_cons_cons, join_singleton, List.append_assoc]

end Text

/-- The stored values of a family: its members, or the empty group. -/
def Listed (xs : List Str) (S : Finset Str) : Prop :=
  ∀ x, x ∈ xs ↔ x ∈ S ∨ (S = ∅ ∧ x = emptyGroup)

/-- What the filter asks of a family: one member in common, or the empty group in the document. -/
def FilterAdmits (user doc : Finset Str) : Prop := emptyGroup ∈ doc ∨ Admits user doc

theorem filterAdmits_iff {us ds : List Str} {user doc : Finset Str} (hu : Listed us user)
    (hd : Listed ds doc) :
    (∃ t ∈ (.bare emptyGroup :: us.map .quoted : List (Term Str)), t.value ∈ ds) ↔
      FilterAdmits user doc := by
  have hterms : (∃ t ∈ (.bare emptyGroup :: us.map .quoted : List (Term Str)), t.value ∈ ds) ↔
      emptyGroup ∈ ds ∨ ∃ x ∈ us, x ∈ ds := by
    simp [Term.value]
  rw [hterms]
  constructor
  · intro h
    rcases h with h | ⟨x, hxu, hxd⟩
    · rcases (hd _).mp h with h | ⟨h, -⟩
      · exact .inl h
      · exact .inr (.inl h)
    · rcases (hd x).mp hxd with hxd | ⟨h, -⟩
      · rcases (hu x).mp hxu with hxu | ⟨-, rfl⟩
        · exact .inr (admits_of_mem hxu hxd)
        · exact .inl hxd
      · exact .inr (.inl h)
  · intro h
    rcases h with h | h | ⟨x, hx⟩
    · exact .inl ((hd _).mpr (.inl h))
    · exact .inl ((hd _).mpr (.inr ⟨h, rfl⟩))
    · obtain ⟨hxu, hxd⟩ := Finset.mem_inter.mp hx
      exact .inr ⟨x, (hu x).mpr (.inl hxu), (hd x).mpr (.inl hxd)⟩

/-- The user's filter finds the document. -/
structure CanFind (user doc : Label) : Prop where
  lvl : doc.lvl ≤ user.lvl
  req : doc.req ⊆ user.req
  grp : FilterAdmits user.grp doc.grp
  sub : FilterAdmits user.sub doc.sub

/-- Access fields that list a label. -/
structure Lists (v : AccessControlParts) (M : Label) : Prop where
  req : ∀ x, x ∈ v.accessReq ↔ x ∈ M.req
  grp : Listed v.accessGrp1 M.grp
  sub : Listed v.accessGrp2 M.sub

theorem getAccessControlParts_ok (he : E.enforce = true) (hv : E.invalidMode = false) {c : Str}
    {uc : Bool} {v : AccessControlParts} (h : E.getAccessControlParts rt c uc = .ok v) :
    ∃ r, E.reading rt c true = .ok r ∧ r.others = [] ∧ v.accessLvl = r.lvl ∧
      ∀ n, Lists v ((r.autoSelected E (!uc)).label n) := by
  unfold getAccessControlParts at h
  simp only [he, hv, Bool.not_true, Bool.or_self, Bool.false_eq_true, if_false] at h
  obtain ⟨c', hc', h⟩ := bind_eq_ok.mp h
  obtain rfl := Except.ok.inj hc'
  cases hp : E.getClassificationParts rt c { longFormat := false, autoSelect := !uc } with
  | error e =>
    rw [hp] at h
    cases e <;> contradiction
  | ok p =>
    rw [hp] at h
    obtain rfl := Except.ok.inj h
    obtain ⟨r, hr, ho, rfl⟩ := getClassificationParts_ok_iff.mp hp
    have hmem : ∀ (f : Str → Str) (xs : List Str), (∀ x, f x = x) →
        ∀ x, x ∈ sorted ((rt.listSet xs).map f) ↔ x ∈ xs := by
      intro f xs hf x
      simp [rt.mem_sorted_map_listSet, hf]
    have hlist : ∀ (f : Str → Str) (xs : List Str), (∀ x, f x = x) →
        Listed (if sorted ((rt.listSet xs).map f) = [] then [emptyGroup]
          else sorted ((rt.listSet xs).map f)) xs.toFinset := by
      intro f xs hf x
      have hm := hmem f xs hf
      by_cases hx : xs = []
      · have hnil : sorted ((rt.listSet xs).map f) = [] :=
          List.eq_nil_iff_forall_not_mem.mpr fun y hy => by simpa [hx] using (hm y).mp hy
        rw [if_pos hnil]
        simp [hx]
      · obtain ⟨y, hy⟩ := List.exists_mem_of_ne_nil xs hx
        rw [if_neg (List.ne_nil_of_mem ((hm y).mpr hy)), hm]
        simp [hx]
    refine ⟨r, hr, by simpa using ho, rfl, fun n => ⟨fun x => ?_, ?_, ?_⟩⟩
    · exact (hmem _ _ (fun _ => rfl) x).trans List.mem_toFinset.symm
    · exact hlist _ _ fun _ => rfl
    · exact hlist _ _ fun _ => rfl

/-- The filter of a user finds a document exactly where the user's label can find its label. -/
theorem finds_iff {vu vd : AccessControlParts} {L : LvlEntry} {U D : Label}
    (hlvl : vu.accessLvl = L) (hu : Lists vu U) (hd : Lists vd D)
    (hdl : vd.accessLvl = .idx D.lvl) (hpos : 0 ≤ D.lvl) (hk : D.req ⊆ E.getAccessControlReq.toFinset) :
    finds rt E vu vd = true ↔ ∃ n, L.toInt = .ok n ∧ CanFind { U with lvl := n } D := by
  have hgrp : ∀ {f : AccessField} {us : List Str} {user doc : Finset Str}, Listed us user →
      Listed (accessIndex.keywords vd f) doc →
      ((Clause.anyOf f (.bare emptyGroup :: us.map .quoted) :
        Clause AccessField Str LvlEntry).matches accessIndex vd = true ↔ FilterAdmits user doc) :=
    fun hus hds => matches_anyOf.trans (filterAdmits_iff hus hds)
  have hreq : matchesAll accessIndex vd (if missingReq rt E vu ≠ [] then
      [(.noneOf .req ((missingReq rt E vu).map .quoted) : Clause AccessField Str LvlEntry)]
        else []) = true ↔ D.req ⊆ U.req := by
    have hmiss : (∀ r ∈ missingReq rt E vu, r ∉ vd.accessReq) ↔ D.req ⊆ U.req := by
      simp only [missingReq, Runtime.mem_listSet, List.mem_filter, decide_eq_true_eq, hu.req,
        hd.req]
      constructor
      · intro h r hr
        by_contra hn
        exact h r ⟨List.mem_toFinset.mp (hk hr), hn⟩ hr
      · intro h r hr hrd
        exact hr.2 (h hrd)
    rw [← hmiss]
    by_cases hnil : missingReq rt E vu = []
    · rw [if_neg (by simp [hnil]), hnil]
      simp [matchesAll]
    · rw [if_pos hnil]
      have hone : ∀ c : Clause AccessField Str LvlEntry,
          matchesAll accessIndex vd [c] = c.matches accessIndex vd := by simp [matchesAll]
      rw [hone, matches_noneOf]
      simp [Term.value, accessIndex]
  have hl : (Clause.upTo .lvl vu.accessLvl : Clause AccessField Str LvlEntry).matches accessIndex vd
      = true ↔ ∃ n, L.toInt = .ok n ∧ D.lvl ≤ n := by
    rw [matches_upTo]
    simp only [accessIndex, hdl, hlvl, Option.some.injEq]
    cases L.toInt <;> simp [Except.toOption, hpos]
  have hall : finds rt E vu vd = true ↔ FilterAdmits U.sub D.sub ∧ FilterAdmits U.grp D.grp ∧
      D.req ⊆ U.req ∧ ∃ n, L.toInt = .ok n ∧ D.lvl ≤ n := by
    rw [finds, accessQuery, matchesAll_append, matchesAll_append, hreq, ← hl,
      ← hgrp (f := .grp2) hu.sub hd.sub, ← hgrp (f := .grp1) hu.grp hd.grp]
    simp only [matchesAll, List.all_cons, List.all_nil, Bool.and_true, Bool.and_eq_true, and_assoc]
  rw [hall]
  constructor
  · rintro ⟨hs, hg, hr, n, hn, hle⟩
    exact ⟨n, hn, hle, hr, hg, hs⟩
  · rintro ⟨n, hn, h⟩
    exact ⟨h.sub, h.grp, h.req, n, hn, h.lvl⟩

/-- The empty group is no subgroup of the label, and where it is a group of it, the label has
subgroups and each requires a group. -/
structure Unmistakable (E : Engine) (D : Label) : Prop where
  sub : emptyGroup ∉ D.sub
  grp : emptyGroup ∈ D.grp → D.sub.Nonempty ∧ ∀ s ∈ D.sub, (E.requireGroup s).isSome

instance (E : Engine) (D : Label) : Decidable (Unmistakable E D) :=
  decidable_of_iff (emptyGroup ∉ D.sub ∧
    (emptyGroup ∈ D.grp → D.sub.Nonempty ∧ ∀ s ∈ D.sub, (E.requireGroup s).isSome))
    ⟨fun h => ⟨h.1, h.2⟩, fun h => ⟨h.sub, h.grp⟩⟩

theorem canFind_of_canSee {U D : Label} (h : CanSee U D) : CanFind U D :=
  ⟨h.lvl, h.req, .inr h.grp, .inr h.sub⟩

/-- Closed labels that can find an unmistakable one can see it. -/
theorem CanFind.canSee {U D : Label} (h : CanFind U D) (hE : E.Unmistakable D)
    (hU : E.requiredBy U.sub ⊆ U.grp) (hD : E.requiredBy D.sub ⊆ D.grp) : CanSee U D := by
  have hsub : Admits U.sub D.sub := h.sub.resolve_left hE.sub
  refine ⟨h.lvl, h.req, ?_, hsub⟩
  rcases h.grp with hg | hg
  · obtain ⟨hne, hreq⟩ := hE.grp hg
    obtain ⟨s, hsU, hsD⟩ := hsub.exists_mem hne
    obtain ⟨g, hg⟩ := Option.isSome_iff_exists.mp (hreq s hsD)
    exact admits_of_mem (hU (mem_requiredBy.mpr ⟨s, hsU, hg⟩)) (hD (mem_requiredBy.mpr ⟨s, hsD, hg⟩))
  · exact hg

section Normalized

variable {M : Label} {long : Bool}

/-- Where a label that was closed with the automatic selection names groups, it names the
selected ones. -/
theorem auto_subset_said (hL : Legible rt E long) (hne : (E.said (E.closure false M)).grp.Nonempty) :
    E.groupsAutoSelectShort.toFinset ⊆ (E.said (E.closure false M)).grp := by
  obtain ⟨x, hx⟩ := hne
  obtain ⟨g, hg, -⟩ := mem_heard.mp hx
  have hbase : (M.grp ∪ E.requiredBy (E.closure false M).sub).Nonempty := by
    rw [Finset.nonempty_iff_ne_empty]
    intro h
    have hg : g ∈ withAuto false E.groupsAutoSelectShort
        (M.grp ∪ E.requiredBy (E.closure false M).sub) := hg
    rw [h, withAuto, if_pos (.inl rfl)] at hg
    simp at hg
  have hgrp : (E.closure false M).grp = (M.grp ∪ E.requiredBy (E.closure false M).sub) ∪
      E.groupsAutoSelectShort.toFinset := by
    have hif : ¬ (M.grp ∪ E.requiredBy (E.closure false M).sub = ∅ ∨ false = true) := by
      simpa using hbase.ne_empty
    exact if_neg hif
  intro a ha
  refine mem_heard.mpr ⟨a, by rw [hgrp]; exact Finset.mem_union_right _ ha, ?_⟩
  rw [readAs_known (groupKeys_ne_none (hL.autoGroups.2 a (List.mem_toFinset.mp ha)))]
  simp

theorem auto_subset_sub (hne : (E.closure false M).sub.Nonempty) :
    E.subgroupsAutoSelectShort.toFinset ⊆ (E.closure false M).sub := by
  have hbase : M.sub ≠ ∅ := by
    intro h
    have hsub : (E.closure false M).sub = ∅ := by
      show withAuto false _ _ = _
      rw [h, withAuto, if_pos (.inl rfl)]
    exact hne.ne_empty hsub
  have hsub : (E.closure false M).sub = M.sub ∪ E.subgroupsAutoSelectShort.toFinset := by
    show withAuto false _ _ = _
    rw [withAuto, if_neg (by simpa using hbase)]
  rw [hsub]
  exact Finset.subset_union_right

/-- A normalized text is read alike with and without the automatic selection. -/
theorem autoSelected_label (hL : Legible rt E long) {r : Reading} {n : Int}
    (h : r.label n = E.said (E.closure false M)) (auto : Bool) :
    (r.autoSelected E auto).label n = E.said (E.closure false M) := by
  have hadd : ∀ {xs sel : List Str} {S : Finset Str}, xs.toFinset = S →
      (S.Nonempty → sel.toFinset ⊆ S) →
      (if auto && xs ≠ [] then xs ++ sel else xs).toFinset = S := by
    intro xs sel S hx hsel
    split_ifs with hc
    · have hne : S.Nonempty := by
        rw [← hx]
        exact List.toFinset_nonempty_iff _ |>.mpr (by simpa using (Bool.and_eq_true_iff.mp hc).2)
      rw [List.toFinset_append, hx, Finset.union_eq_left]
      exact hsel hne
    · exact hx
  have hlvl := congrArg Marking.lvl h
  have hreq := congrArg Marking.req h
  ext1
  · exact hlvl
  · exact hreq
  · exact hadd (congrArg Marking.grp h) (auto_subset_said hL)
  · exact hadd (congrArg Marking.sub h) auto_subset_sub

end Normalized

/-- All users find a document by their filters exactly where they can see it. -/
def FilterAgrees (rt : Runtime) (E : Engine) (c : Str) (doc : AccessControlParts) : Prop :=
  ∀ u vu, E.getAccessControlParts rt u true = .ok vu →
    (finds rt E vu doc = true ↔ E.isAccessible rt u (some c) false = .ok true)

section Agrees

variable {M : Label} {c : Str} {doc : AccessControlParts}

theorem raised_nonneg (M : Label) : 0 ≤ E.raised M :=
  (le_max_right _ _).trans ((Finset.le_fold_max (b := max M.lvl 0) _).mpr (.inl (le_refl _)))

theorem exists_accessControlParts (hC : E.Coherent) (hL : Legible rt E false)
    (he : E.enforce = true) (hv : E.invalidMode = false) {u : Str} {U : Label}
    (h : Says rt E u U) : ∃ vu, E.getAccessControlParts rt u true = .ok vu := by
  have hp := h.parts hC hL false
  unfold getAccessControlParts
  simp only [he, hv, Bool.not_true, Bool.or_self, Bool.false_eq_true, if_false, bind, Except.bind, hp]
  exact ⟨_, rfl⟩

/-- What the filter of a user finds, in terms of what the user's text says. -/
theorem finds_of_says (he : E.enforce = true)
    (hv : E.invalidMode = false) (hM : Proper rt E M)
    (hlists : Lists doc (E.said (E.closure false M))) (hlvl : doc.accessLvl = .idx (E.raised M))
    {u : Str} {vu : AccessControlParts} (hu : E.getAccessControlParts rt u true = .ok vu) :
    finds rt E vu doc = true ↔ ∃ U, Clears rt E u U ∧ CanFind U (E.said (E.closure false M)) := by
  obtain ⟨r, hr, ho, hl, hlu⟩ := getAccessControlParts_ok he hv hu
  have hreq : (E.said (E.closure false M)).req ⊆ E.getAccessControlReq.toFinset := by
    intro x hx
    rw [List.mem_toFinset, getAccessControlReq, he, hv]
    exact hM.req x hx
  rw [finds_iff hl (hlu 0) hlists hlvl (raised_nonneg M) hreq]
  constructor
  · intro h
    obtain ⟨n, hn, h⟩ := h
    exact ⟨r.label n, ⟨r, hr, ho, hn, rfl⟩, h⟩
  · intro h
    obtain ⟨U, ⟨r', hr', -, hn, hlabel⟩, h⟩ := h
    obtain rfl := Except.ok.inj (hr.symm.trans hr')
    refine ⟨U.lvl, hn, ?_⟩
    rw [← hlabel] at h
    exact h

theorem filterAgrees_iff (hC : E.Coherent) (hL : ∀ long, Legible rt E long) (he : E.enforce = true)
    (hv : E.invalidMode = false) (hM : Proper rt E M)
    (hl : ∃ l, E.getC12nLevelText (E.raised M) true = .ok l)
    (hw : E.WithinLimits (E.said (E.closure false M)))
    (hsaid : Says rt E c (E.said (E.closure false M)))
    (hlists : Lists doc (E.said (E.closure false M))) (hlvl : doc.accessLvl = .idx (E.raised M)) :
    FilterAgrees rt E c doc ↔ E.Unmistakable (E.said (E.closure false M)) := by
  have hacc : ∀ u, E.isAccessible rt u (some c) false = .ok true ↔
      ∃ U, Clears rt E u U ∧ CanSee U (E.said (E.closure false M)) := by
    intro u
    rw [isAccessible_iff hC (hL true) hv he]
    constructor
    · intro h
      obtain ⟨U, D, hU, hD, h⟩ := h
      exact ⟨U, hU, by rwa [hsaid.clears.unique hD]⟩
    · intro h
      obtain ⟨U, hU, h⟩ := h
      exact ⟨U, _, hU, hsaid.clears, h⟩
  have hfind : ∀ {u vu}, E.getAccessControlParts rt u true = .ok vu → (finds rt E vu doc = true ↔
      ∃ U, Clears rt E u U ∧ CanFind U (E.said (E.closure false M))) :=
    finds_of_says he hv hM hlists hlvl
  constructor
  · intro h
    -- whoever could be found by a filter through the empty group has to see the document
    have hsee : ∀ {G B : Finset Str}, G ⊆ (E.said (E.closure false M)).grp →
        B ⊆ (E.closure false M).sub →
        FilterAdmits (G ∪ E.requiredBy B) (E.said (E.closure false M)).grp →
        FilterAdmits B (E.closure false M).sub →
        CanSee (⟨E.raised M, M.req, G ∪ E.requiredBy B, B⟩ : Label)
          (E.said (E.closure false M)) := by
      intro G B hG hB hgrp hsub
      obtain ⟨u, hu⟩ := exists_clearance hC (hL true) hM hl hw hG hB
      obtain ⟨vu, hvu⟩ := exists_accessControlParts hC (hL false) he hv hu
      have hf := hfind hvu |>.mpr ⟨_, hu.clears, le_refl _, Finset.Subset.refl _, hgrp, hsub⟩
      obtain ⟨U, hU, h⟩ := (hacc u).mp ((h u vu hvu).mp hf)
      rwa [hU.unique hu.clears] at h
    constructor
    · intro hmem
      have hgrp : FilterAdmits ((E.said (E.closure false M)).grp ∪ E.requiredBy ∅)
          (E.said (E.closure false M)).grp := by
        cases Finset.eq_empty_or_nonempty (E.said (E.closure false M)).grp with
        | inl h => exact .inr (.inl h)
        | inr h =>
          obtain ⟨g, hg⟩ := h
          exact .inr (admits_of_mem (Finset.mem_union_left _ hg) hg)
      have hno := (hsee (Finset.Subset.refl _) (Finset.empty_subset _) hgrp (.inl hmem)).sub
      obtain ⟨s, hs, -⟩ := hno.exists_mem ⟨_, hmem⟩
      simp at hs
    · intro hmem
      by_contra hno
      rw [not_and_or] at hno
      obtain ⟨B, hB, hreq, hsub⟩ : ∃ B ⊆ (E.closure false M).sub, E.requiredBy B = ∅ ∧
          FilterAdmits B (E.closure false M).sub := by
        rcases hno with h | h
        · exact ⟨∅, Finset.empty_subset _, rfl, .inr (.inl (Finset.not_nonempty_iff_eq_empty.mp h))⟩
        · push Not at h
          obtain ⟨s, hs, hn⟩ := h
          refine ⟨{s}, Finset.singleton_subset_iff.mpr hs, ?_,
            .inr (admits_of_mem (Finset.mem_singleton_self s) hs)⟩
          have hnone : E.requireGroup s = none := by simpa using hn
          rw [requiredBy, Finset.singleton_biUnion, hnone]
          rfl
      have hgrp := (hsee (Finset.empty_subset _) hB (.inl hmem) hsub).grp
      obtain ⟨g, hg, -⟩ := hgrp.exists_mem ⟨_, hmem⟩
      simp [hreq] at hg
  · intro hE u vu hvu
    rw [hfind hvu, hacc]
    constructor
    · intro h
      obtain ⟨U, hU, h⟩ := h
      exact ⟨U, hU, h.canSee hE (hU.requiredBy_subset hC (hL true))
        (hsaid.clears.requiredBy_subset hC (hL true))⟩
    · intro h
      obtain ⟨U, hU, h⟩ := h
      exact ⟨U, hU, canFind_of_canSee h⟩

end Agrees

end Engine

/-- For a valid definition and a document with a normalized marking, the filters of all users agree
with `is_accessible` exactly where the marking cannot be mistaken for an empty one. -/
theorem filter_agrees_iff {rt : Runtime} {d : Definition} (hv : Valid rt d) {c₀ c : Str}
    {doc : AccessControlParts} (hc : (engineOf rt d).computeNormal rt c₀ {} = .ok c)
    (hdoc : (engineOf rt d).getAccessControlParts rt c false = .ok doc) :
    Engine.FilterAgrees rt (engineOf rt d) c doc ↔
      ∃ C, Engine.Says rt (engineOf rt d) c C ∧ (engineOf rt d).Unmistakable C := by
  have hC := engineOf_coherent rt d
  have hL := hv.legible
  obtain ⟨M, hM, ht⟩ := Engine.render_of_computeNormal hC (hL true) hc
  obtain ⟨r, hr, -, hlvl, hlists⟩ :=
    Engine.getAccessControlParts_ok hv.enforced hv.accepted hdoc
  have hw := (Engine.says_of_render hC (hL true) hM ht).2 r hr
  have hsaid := (Engine.says_of_render hC (hL true) hM ht).1 hw
  have hread := hsaid
  obtain ⟨r', hr', -, hl', hlabel⟩ := hread
  obtain rfl := Except.ok.inj (hr.symm.trans hr')
  have hl := Engine.level_of_render (hL true) hM.toNameable
    (Engine.shows_partsOf (engineOf rt d) true M) ht
  have hlist := hlists ((engineOf rt d).said ((engineOf rt d).closure false M)).lvl
  rw [Engine.autoSelected_label (hL true) hlabel] at hlist
  have hiff := Engine.filterAgrees_iff hC hL hv.enforced hv.accepted hM hl hw hsaid hlist
    (hlvl.trans hl')
  rw [hiff]
  constructor
  · intro h
    exact ⟨_, hsaid, h⟩
  · intro h
    obtain ⟨C, hs, h⟩ := h
    rwa [← hs.clears.unique hsaid.clears]

/-- One level, a department, and dynamic groups. -/
def dynamicOne : Definition where
  enforce := some true
  dynamicGroups := some true
  levels := some [{ name := "UNRESTRICTED".toList, shortName := "U".toList, lvl := 100 }]
  required := some []
  groups := some [{ name := "DEPARTMENT 1".toList, shortName := "D1".toList }]
  subgroups := some []
  unrestricted := some "U".toList
  restricted := some "U//REL TO D1".toList

theorem dynamicOne_valid : Valid Runtime.ascii dynamicOne := by decide +kernel

/-- A department is found by its members. -/
theorem filter_agrees_iff_department :
    Engine.FilterAgrees Runtime.ascii (engineOf Runtime.ascii dynamicOne)
        "UNRESTRICTED//REL TO DEPARTMENT 1".toList
        ⟨.idx 100, [], ["D1".toList], [Engine.emptyGroup]⟩ ↔
      ∃ C, Engine.Says Runtime.ascii (engineOf Runtime.ascii dynamicOne)
          "UNRESTRICTED//REL TO DEPARTMENT 1".toList C ∧
        (engineOf Runtime.ascii dynamicOne).Unmistakable C := by
  have hrun : (engineOf Runtime.ascii dynamicOne).computeNormal Runtime.ascii
        "U//REL TO D1".toList {} = .ok "UNRESTRICTED//REL TO DEPARTMENT 1".toList ∧
      (engineOf Runtime.ascii dynamicOne).getAccessControlParts Runtime.ascii
        "UNRESTRICTED//REL TO DEPARTMENT 1".toList false =
          .ok ⟨.idx 100, [], ["D1".toList], [Engine.emptyGroup]⟩ := by decide +kernel
  exact filter_agrees_iff dynamicOne_valid hrun.1 hrun.2

/-- A dynamic group with the name of the empty one. -/
theorem empty_group_found :
    Valid Runtime.ascii dynamicOne ∧
      (engineOf Runtime.ascii dynamicOne).computeNormal Runtime.ascii
        "U//REL TO __EMPTY__".toList {} = .ok "UNRESTRICTED//REL TO __EMPTY__".toList ∧
      (engineOf Runtime.ascii dynamicOne).getAccessControlParts Runtime.ascii
        "UNRESTRICTED//REL TO __EMPTY__".toList false =
          .ok ⟨.idx 100, [], ["__EMPTY__".toList], [Engine.emptyGroup]⟩ ∧
      (engineOf Runtime.ascii dynamicOne).getAccessControlParts Runtime.ascii "U".toList true =
          .ok ⟨.idx 100, [], [Engine.emptyGroup], [Engine.emptyGroup]⟩ ∧
      Engine.finds Runtime.ascii (engineOf Runtime.ascii dynamicOne)
        ⟨.idx 100, [], [Engine.emptyGroup], [Engine.emptyGroup]⟩
        ⟨.idx 100, [], ["__EMPTY__".toList], [Engine.emptyGroup]⟩ = true ∧
      (engineOf Runtime.ascii dynamicOne).isAccessible Runtime.ascii "U".toList
        (some "UNRESTRICTED//REL TO __EMPTY__".toList) false = .ok false :=
  ⟨dynamicOne_valid, by decide +kernel⟩

end Howler
