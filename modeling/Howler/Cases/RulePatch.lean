import Howler.Cases.Appending
import Howler.Cases.Rules

namespace Howler

open Python

/-- A value in the body of a request. Of floats, lists and maps the truth and the text are known. -/
inductive BodyValue where
  | null
  | bool (b : Bool)
  | int (n : Int)
  | str (s : Str)
  | other (truthy : Bool) (text : Str) (nonempty : text ≠ [])

namespace BodyValue

/-- `bool(value)`. -/
def truthy : BodyValue → Bool
  | null => false
  | bool b => b
  | int n => n ≠ 0
  | str s => s ≠ []
  | other truthy _ _ => truthy

/-- `str(value)`. -/
def text : BodyValue → Str
  | null => "None".toList
  | bool b => CaseRule.pyBool b
  | int n => (toString n).toList
  | str s => s
  | other _ text _ => text

/-- What a keyword field looks at. -/
def keywordText : BodyValue → Option Str
  | null => none
  | v => some v.text

/-- What the check of a timeframe looks at. -/
def timeframe : BodyValue → JsonTimeframe
  | null => .null
  | bool b => .bool b
  | int n => .int n
  | str s => .other s
  | other _ text _ => .other text

end BodyValue

/-- The fields of a rule that may be updated. -/
inductive RuleField where
  | enabled
  | query
  | destination
  | timeframe
  | expireAfterResolved
  deriving DecidableEq

def RuleField.name : RuleField → Str
  | enabled => "enabled".toList
  | query => "query".toList
  | destination => "destination".toList
  | timeframe => "timeframe".toList
  | expireAfterResolved => "expire_after_resolved".toList

def RuleField.all : List RuleField := [enabled, query, destination, timeframe, expireAfterResolved]

/-- `\x7bk: v for k, v in update_data.items() if k in allowed_fields\x7d`. -/
def allowedPatch (updateData : Dict Str BodyValue) : Dict RuleField BodyValue :=
  updateData.filterMap fun e => (RuleField.all.find? (·.name = e.1)).map fun k => (k, e.2)

/-- The body of a request for a new rule, with an index list that is one. -/
structure RuleBody where
  query : BodyValue
  destination : BodyValue
  timeframe : BodyValue
  enabled : BodyValue
  expireAfterResolved : BodyValue
  indexes : List RuleIndexTypes

/-- What the fields of the body are made into. -/
def RuleBody.data (body : RuleBody) : RuleData where
  query := body.query.keywordText
  destination := body.destination.keywordText
  timeframe := body.timeframe.timeframe
  enabled := body.enabled.truthy
  expireAfterResolved := body.expireAfterResolved.truthy
  indexes := body.indexes

namespace CaseRule

/-- The assignment of a value, which its field makes something of. -/
def change : RuleField → BodyValue → RuleChange
  | .enabled, v => .enabled v.truthy
  | .query, v => .query v.keywordText
  | .destination, v => .destination v.keywordText
  | .timeframe, v => .timeframe v.timeframe
  | .expireAfterResolved, v => .expireAfterResolved v.truthy

/-- The value of a field, as text. -/
def fieldText (rule : CaseRule) : RuleField → Str
  | .enabled => pyBool rule.enabled
  | .query => rule.query
  | .destination => rule.destination
  | .timeframe => pyTimeframe ((rule.timeframe.map .int).getD .null)
  | .expireAfterResolved => pyBool rule.expireAfterResolved

/-- `changes` of `update_case_rule`. -/
def describePatch : CaseRule → Dict RuleField BodyValue → List Str
  | _, [] => []
  | rule, (k, v) :: patch =>
    (k.name ++ ": '".toList ++ rule.fieldText k ++ "' → '".toList ++ v.text ++ "'".toList) ::
      describePatch ((rule.setField (change k v)).toOption.getD rule) patch

/-- The fields of a rule as they are with a patch. -/
def withPatch (rule : CaseRule) (patch : Dict RuleField BodyValue) : RuleBody where
  query := (Dict.get? patch .query).getD (.str rule.query)
  destination := (Dict.get? patch .destination).getD (.str rule.destination)
  timeframe := (Dict.get? patch .timeframe).getD ((rule.timeframe.map .int).getD .null)
  enabled := (Dict.get? patch .enabled).getD (.bool rule.enabled)
  expireAfterResolved := (Dict.get? patch .expireAfterResolved).getD (.bool rule.expireAfterResolved)
  indexes := rule.indexes

/-- What the constructor lets be a rule. -/
structure Valid (rule : CaseRule) : Prop where
  query : rule.query ≠ []
  destination : rule.destination ≠ []
  timeframe : ∀ n, rule.timeframe = some n → 0 < n
  expires : rule.expireAfterResolved = true → rule.timeframe ≠ none

end CaseRule

namespace Cases

open Systems.Prog

/-- `add_case_rule`, for any body. -/
def addCaseRuleBody (caseId : Str) (body : RuleBody) (user : Str) : Service Case := do
  let case ← fetchCase caseId (.notFound ("Case ".toList ++ caseId ++ " does not exist".toList))
  if ¬ body.query.truthy then throw (.invalidData "Rule 'query' is required".toList)
  else if ¬ body.destination.truthy then
    throw (.invalidData "Rule 'destination' is required".toList)
  else do
    let ruleId ← randomId
    let time ← now
    match CaseRule.new body.data user ruleId time with
    | .error (.howlerValue msg) => throw (.invalidData msg)
    | .error e => throw e
    | .ok rule =>
      let case := { case with
        rules := case.rules ++ [rule]
        log := case.log ++ [{
          timestamp := time
          user := user
          explanation := some ("Added correlation rule targeting '".toList ++ rule.destination ++
            "'".toList) }]
        updated := some time }
      saveCase case
      return case

/-- `update_case_rule`, for any body. -/
def updateCaseRuleBody (caseId ruleId : Str) (updateData : Dict Str BodyValue) (user : Str) :
    Service Case := do
  let case ← fetchCase caseId (.notFound ("Case ".toList ++ caseId ++ " does not exist".toList))
  let patch := allowedPatch updateData
  if patch = [] then throw (.invalidData
    ("No valid fields provided for update. Allowed fields: destination, enabled, " ++
      "expire_after_resolved, query, timeframe").toList)
  else
    match case.rules.find? (·.ruleId = ruleId) with
    | none => throw (.notFound ("Rule ".toList ++ ruleId ++ " not found in case ".toList ++ caseId))
    | some rule => do
      let patched ← fromExcept (rule.patch (patch.map fun e => CaseRule.change e.1 e.2))
      let time ← now
      let case := { case with
        rules := replaceRule patched case.rules
        log := case.log ++ [{
          timestamp := time
          user := user
          explanation := some ("Updated correlation rule ".toList ++ ruleId ++ ": ".toList ++
            join "; ".toList (rule.describePatch patch)) }]
        updated := some time }
      saveCase case
      return case

/-- Whether a function returns where the next write goes through. -/
def Succeeds (es : Elastic) (p : Service Case) (w : World) : Prop :=
  ∃ case w', p.run (handle es) { w with faults := fun _ => false } = (.ok case, w')

/-- An update of a rule goes through where the rule could be added as the patch leaves it, and one
that raises leaves the cases as they are, whichever writes fail. -/
def UpdatesAsAdd (es : Elastic) (w : World) (caseId : Str) (rule : CaseRule)
    (updateData : Dict Str BodyValue) (user : Str) : Prop :=
  (Succeeds es (updateCaseRuleBody caseId rule.ruleId updateData user) w ↔
    Succeeds es (addCaseRuleBody caseId (rule.withPatch (allowedPatch updateData)) user) w) ∧
  ∀ faults e w', (updateCaseRuleBody caseId rule.ruleId updateData user).run (handle es)
    { w with faults := faults } = (.error e, w') → w'.cases = w.cases

end Cases

section Patches

open CaseRule RuleField

variable {rule rule' : CaseRule} {patch : Dict RuleField BodyValue}

/-- A value that no keyword field takes. -/
def BodyValue.Blank (v : BodyValue) : Prop := v.keywordText.getD [] = []

/-- A value that a keyword field takes for its text, and that is not true. -/
def BodyValue.Hollow (v : BodyValue) : Prop := v.keywordText.getD [] ≠ [] ∧ v.truthy = false

/-- A timeframe that the update does not take. -/
def BodyValue.NoTimeframe (v : BodyValue) : Prop :=
  match v.timeframe with
  | .null | .bool true => False
  | .int n => n ≤ 0
  | .bool false | .other _ => True

/-- What the update does not take. -/
def CaseRule.Refused (rule : CaseRule) (patch : Dict RuleField BodyValue) : Prop :=
  (∃ v, Dict.get? patch .query = some v ∧ v.Blank) ∨
  (∃ v, Dict.get? patch .destination = some v ∧ v.Blank) ∨
  (∃ v, Dict.get? patch .timeframe = some v ∧ v.NoTimeframe) ∨
  ((rule.withPatch patch).timeframe.timeframe = .null ∧
    (rule.withPatch patch).expireAfterResolved.truthy = true)

/-- What only the update takes: true for a timeframe, and a query or a destination that is a text
only when it is made one. -/
def CaseRule.Lax (patch : Dict RuleField BodyValue) : Prop :=
  Dict.get? patch .timeframe = some (.bool true) ∨
  (∃ v, Dict.get? patch .query = some v ∧ v.Hollow) ∨
  ∃ v, Dict.get? patch .destination = some v ∧ v.Hollow

/-- What the field of a key takes. -/
def RuleField.Fine : RuleField → BodyValue → Prop
  | .query, v | .destination, v => ¬ v.Blank
  | .timeframe, v => ¬ v.NoTimeframe
  | .enabled, _ | .expireAfterResolved, _ => True

/-- The number of days that a timeframe stands for. -/
def BodyValue.days (v : BodyValue) : Option Int :=
  match v.timeframe with
  | .null | .other _ => none
  | .int n => some n
  | .bool b => some (if b then 1 else 0)

/-- The rule with the value of a field. -/
def CaseRule.assign (rule : CaseRule) : RuleField → BodyValue → CaseRule
  | .enabled, v => { rule with enabled := v.truthy }
  | .query, v => { rule with query := v.text }
  | .destination, v => { rule with destination := v.text }
  | .timeframe, v => { rule with timeframe := v.days }
  | .expireAfterResolved, v => { rule with expireAfterResolved := v.truthy }

theorem BodyValue.keywordText_eq {v : BodyValue} (h : v ≠ .null) : v.keywordText = some v.text := by
  cases v with
  | null => exact absurd rfl h
  | _ => rfl

theorem keyword_ok {field : Str} {v : BodyValue} (h : ¬ v.Blank) :
    keyword field v.keywordText = .ok v.text := by
  have hnull : v ≠ .null := by
    rintro rfl
    exact h rfl
  rw [BodyValue.Blank, BodyValue.keywordText_eq hnull, Option.getD_some] at h
  rw [BodyValue.keywordText_eq hnull]
  cases htext : v.text with
  | nil => exact absurd htext h
  | cons c cs => rfl

theorem keyword_blank {field : Str} {v : BodyValue} (h : v.Blank) :
    ∃ e, keyword field v.keywordText = .error e := by
  unfold BodyValue.Blank at h
  cases htext : v.keywordText with
  | none => exact ⟨_, rfl⟩
  | some s =>
    rw [htext, Option.getD_some] at h
    rw [h]
    exact ⟨_, rfl⟩

theorem setField_fine {k : RuleField} {v : BodyValue} (h : Fine k v) :
    rule.setField (change k v) = .ok (assign rule k v) := by
  cases k with
  | enabled => rfl
  | expireAfterResolved => rfl
  | query =>
    rw [change, setField, keyword_ok h]
    rfl
  | destination =>
    rw [change, setField, keyword_ok h]
    rfl
  | timeframe =>
    cases v with
    | null => rfl
    | bool b =>
      cases b with
      | true => rfl
      | false => exact absurd trivial h
    | int n =>
      have hn : ¬ n ≤ 0 := h
      rw [change, BodyValue.timeframe, setField, if_neg hn]
      rfl
    | str s => exact absurd trivial h
    | other truthy text nonempty => exact absurd trivial h

theorem setField_not_fine {k : RuleField} {v : BodyValue} (h : ¬ Fine k v) :
    ∃ e, rule.setField (change k v) = .error e := by
  cases k with
  | enabled => exact absurd trivial h
  | expireAfterResolved => exact absurd trivial h
  | query =>
    obtain ⟨e, he⟩ := @keyword_blank "query".toList _ (not_not.mp h)
    exact ⟨e, by rw [change, setField, he]; rfl⟩
  | destination =>
    obtain ⟨e, he⟩ := @keyword_blank "destination".toList _ (not_not.mp h)
    exact ⟨e, by rw [change, setField, he]; rfl⟩
  | timeframe =>
    cases v with
    | null => exact absurd (fun hno => hno) h
    | bool b =>
      cases b with
      | true => exact absurd (fun hno => hno) h
      | false => exact ⟨_, rfl⟩
    | int n =>
      have hn : n ≤ 0 := not_not.mp h
      exact ⟨badTimeframe, by rw [change, BodyValue.timeframe, setField, if_pos hn]⟩
    | str s => exact ⟨_, rfl⟩
    | other truthy text nonempty => exact ⟨_, rfl⟩

theorem foldlM_fine (h : ∀ e ∈ patch, Fine e.1 e.2) :
    (patch.map fun e => change e.1 e.2).foldlM setField rule =
      .ok (patch.foldl (fun r e => assign r e.1 e.2) rule) := by
  induction patch generalizing rule with
  | nil => rfl
  | cons e patch ih =>
    rw [List.map_cons, List.foldlM_cons, setField_fine (h e (List.mem_cons_self ..))]
    exact ih fun e' he' => h e' (List.mem_cons_of_mem _ he')

theorem foldlM_not_fine (h : ¬ ∀ e ∈ patch, Fine e.1 e.2) :
    ∃ err, (patch.map fun e => change e.1 e.2).foldlM setField rule = .error err := by
  induction patch generalizing rule with
  | nil => exact absurd (by simp) h
  | cons e patch ih =>
    rw [List.map_cons, List.foldlM_cons]
    by_cases he : Fine e.1 e.2
    · rw [setField_fine he]
      refine ih fun hall => h ?_
      exact List.forall_mem_cons.mpr ⟨he, hall⟩
    · obtain ⟨err, herr⟩ := @setField_not_fine rule _ _ he
      exact ⟨err, by rw [herr]; rfl⟩

/-- The timeframe and the expiry that a patch leaves. -/
theorem foldl_assign (hnodup : (Dict.keys patch).Nodup) :
    (patch.foldl (fun r e => assign r e.1 e.2) rule).timeframe =
        ((Dict.get? patch .timeframe).map BodyValue.days).getD rule.timeframe ∧
      (patch.foldl (fun r e => assign r e.1 e.2) rule).expireAfterResolved =
        ((Dict.get? patch .expireAfterResolved).map BodyValue.truthy).getD
          rule.expireAfterResolved := by
  induction patch generalizing rule with
  | nil => exact ⟨rfl, rfl⟩
  | cons e patch ih =>
    obtain ⟨k, v⟩ := e
    obtain ⟨hk, hnodup⟩ := List.nodup_cons.mp hnodup
    have htail := @ih (assign rule k v) hnodup
    have hnone : Dict.get? patch k = none := (Dict.get?_eq_none_iff _ _).mpr hk
    rw [List.foldl_cons, htail.1, htail.2, Dict.get?_cons, Dict.get?_cons]
    cases k with
    | timeframe => simp [hnone, assign]
    | expireAfterResolved => simp [hnone, assign]
    | enabled => simp [assign]
    | query => simp [assign]
    | destination => simp [assign]

theorem BodyValue.days_eq_none_iff {v : BodyValue} (h : ¬ v.NoTimeframe) :
    v.days = none ↔ v.timeframe = .null := by
  unfold BodyValue.NoTimeframe at h
  unfold BodyValue.days
  cases htimeframe : v.timeframe with
  | null => simp
  | int n => simp
  | bool b => simp
  | other s =>
    rw [htimeframe] at h
    exact absurd trivial h

theorem BodyValue.days_pos {v : BodyValue} {n : Int} (h : ¬ v.NoTimeframe)
    (hdays : v.days = some n) : 0 < n := by
  unfold BodyValue.NoTimeframe at h
  unfold BodyValue.days at hdays
  cases htimeframe : v.timeframe with
  | null =>
    rw [htimeframe] at hdays
    cases hdays
  | other s =>
    rw [htimeframe] at hdays
    cases hdays
  | int m =>
    rw [htimeframe] at h hdays
    obtain rfl := Option.some.inj hdays
    exact Int.not_le.mp h
  | bool b =>
    rw [htimeframe] at h hdays
    cases b with
    | true =>
      obtain rfl := Option.some.inj hdays
      decide
    | false => exact absurd trivial h

/-- What the patch leaves of the timeframe is null where the rule has none then. -/
theorem timeframe_eq_none_iff (h : ∀ v, Dict.get? patch .timeframe = some v → ¬ v.NoTimeframe) :
    ((Dict.get? patch .timeframe).map BodyValue.days).getD rule.timeframe = none ↔
      (rule.withPatch patch).timeframe.timeframe = .null := by
  rw [withPatch]
  cases hget : Dict.get? patch .timeframe with
  | none => cases ht : rule.timeframe <;> simp [BodyValue.timeframe]
  | some v => simpa using BodyValue.days_eq_none_iff (h v hget)

theorem expires_eq : ((Dict.get? patch .expireAfterResolved).map BodyValue.truthy).getD
    rule.expireAfterResolved = (rule.withPatch patch).expireAfterResolved.truthy := by
  rw [withPatch]
  cases Dict.get? patch .expireAfterResolved <;> rfl

/-- A patch is taken unless something in it is refused. -/
theorem patch_ok_iff (hnodup : (Dict.keys patch).Nodup) (hvalid : rule.Valid) :
    (∃ r, rule.patch (patch.map fun e => change e.1 e.2) = .ok r) ↔ ¬ rule.Refused patch := by
  by_cases hfine : ∀ e ∈ patch, Fine e.1 e.2
  · have hget : ∀ k v, Dict.get? patch k = some v → Fine k v := fun k v hv =>
      hfine (k, v) (Dict.mem_of_get? hv)
    have htimeframe : ∀ v, Dict.get? patch .timeframe = some v → ¬ v.NoTimeframe := hget .timeframe
    obtain ⟨hdays, hexpires⟩ := @foldl_assign rule _ hnodup
    rw [expires_eq] at hexpires
    rw [CaseRule.patch, foldlM_fine hfine]
    have hrefused : rule.Refused patch ↔ (rule.withPatch patch).timeframe.timeframe = .null ∧
        (rule.withPatch patch).expireAfterResolved.truthy = true := by
      constructor
      · rintro (⟨v, hv, hblank⟩ | ⟨v, hv, hblank⟩ | ⟨v, hv, hno⟩ | h)
        · exact absurd hblank (hget _ _ hv)
        · exact absurd hblank (hget _ _ hv)
        · exact absurd hno (htimeframe v hv)
        · exact h
      · exact fun h => .inr (.inr (.inr h))
    rw [hrefused, ← timeframe_eq_none_iff htimeframe, ← hdays, ← hexpires]
    generalize hfinal : patch.foldl (fun r e => assign r e.1 e.2) rule = final
    rw [hfinal] at hdays
    have hbind : ∀ f : CaseRule → Except HowlerError CaseRule,
        (Except.ok final >>= f) = f final := fun _ => rfl
    rw [hbind]
    cases ht : final.timeframe with
    | none => cases hx : final.expireAfterResolved <;> simp
    | some n =>
      have hpos : 0 < n := by
        rw [ht] at hdays
        cases hv : Dict.get? patch .timeframe with
        | none =>
          rw [hv] at hdays
          exact hvalid.timeframe n hdays.symm
        | some v =>
          rw [hv] at hdays
          exact BodyValue.days_pos (htimeframe v hv) hdays.symm
      have hle : ¬ n ≤ 0 := by omega
      simp [hle]
  · obtain ⟨err, herr⟩ := @foldlM_not_fine rule _ hfine
    refine iff_of_false ?_ (not_not.mpr ?_)
    · rintro ⟨r, hr⟩
      rw [CaseRule.patch, herr] at hr
      cases hr
    · obtain ⟨⟨k, v⟩, hmem, hnot⟩ : ∃ e ∈ patch, ¬ Fine e.1 e.2 := by simpa using hfine
      have hv := Dict.get?_of_mem hnodup hmem
      cases k with
      | enabled => exact absurd trivial hnot
      | expireAfterResolved => exact absurd trivial hnot
      | query => exact .inl ⟨v, hv, not_not.mp hnot⟩
      | destination => exact .inr (.inl ⟨v, hv, not_not.mp hnot⟩)
      | timeframe => exact .inr (.inr (.inl ⟨v, hv, not_not.mp hnot⟩))

theorem BodyValue.text_ne_nil {v : BodyValue} (h : v.truthy = true) : v.text ≠ [] := by
  cases v with
  | null => cases h
  | bool b =>
    cases b with
    | true => decide
    | false => cases h
  | int n =>
    cases n with
    | ofNat n =>
      intro htext
      exact Nat.repr_ne_empty (String.toList_eq_nil_iff.mp htext)
    | negSucc n =>
      intro htext
      have hdash : toString (Int.negSucc n) = "-" ++ Nat.repr (n + 1) := rfl
      rw [BodyValue.text, hdash, String.toList_append] at htext
      cases htext
  | str s => simpa [BodyValue.truthy, BodyValue.text] using h
  | other truthy text nonempty => exact nonempty

/-- A true value is neither blank nor hollow. -/
theorem BodyValue.truthy_iff (v : BodyValue) : v.truthy = true ↔ ¬ v.Blank ∧ ¬ v.Hollow := by
  constructor
  · intro h
    refine ⟨fun hblank => ?_, fun hhollow => ?_⟩
    · have hnull : v ≠ .null := by
        rintro rfl
        cases h
      rw [BodyValue.Blank, BodyValue.keywordText_eq hnull] at hblank
      exact BodyValue.text_ne_nil h hblank
    · rw [hhollow.2] at h
      cases h
  · rintro ⟨hblank, hhollow⟩
    by_contra hfalse
    exact hhollow ⟨hblank, by simpa using hfalse⟩

/-- A text with a value is required of a new rule. -/
theorem truthy_getD_iff {value : Option BodyValue} {s : Str} (hs : s ≠ []) :
    (value.getD (.str s)).truthy = true ↔
      ¬ (∃ v, value = some v ∧ v.Blank) ∧ ¬ ∃ v, value = some v ∧ v.Hollow := by
  cases value with
  | none => simpa [BodyValue.truthy] using hs
  | some v => simpa using v.truthy_iff

theorem checkTimeframe_ok_iff {timeframe : BodyValue} {expires : Bool} :
    (∃ t, checkTimeframe timeframe.timeframe expires = .ok t) ↔
      ¬ timeframe.NoTimeframe ∧ timeframe.timeframe ≠ .bool true ∧
        ¬ (timeframe.timeframe = .null ∧ expires = true) := by
  unfold BodyValue.NoTimeframe checkTimeframe
  cases timeframe.timeframe with
  | null => cases expires <;> simp
  | bool b => cases b <;> simp
  | int n =>
    by_cases hn : n ≤ 0 <;> simp [hn]
  | other s => simp

/-- What `add_case_rule` makes of the fields of a rule with a patch. -/
theorem add_ok_iff (hvalid : rule.Valid) :
    ((rule.withPatch patch).query.truthy = true ∧ (rule.withPatch patch).destination.truthy = true ∧
      ∃ t, checkTimeframe (rule.withPatch patch).timeframe.timeframe
        (rule.withPatch patch).expireAfterResolved.truthy = .ok t) ↔
      ¬ rule.Refused patch ∧ ¬ Lax patch := by
  have hquery : (rule.withPatch patch).query.truthy = true ↔ _ := truthy_getD_iff hvalid.query
  have hdestination : (rule.withPatch patch).destination.truthy = true ↔ _ :=
    truthy_getD_iff hvalid.destination
  have htimeframe : ¬ (rule.withPatch patch).timeframe.NoTimeframe ↔
      ¬ ∃ v, Dict.get? patch .timeframe = some v ∧ v.NoTimeframe := by
    rw [withPatch]
    cases Dict.get? patch .timeframe with
    | none =>
      cases ht : rule.timeframe with
      | none => simp [BodyValue.NoTimeframe, BodyValue.timeframe]
      | some n =>
        have hn := hvalid.timeframe n ht
        simp [BodyValue.NoTimeframe, BodyValue.timeframe]
        omega
    | some v => simp
  have hbool : (rule.withPatch patch).timeframe.timeframe ≠ .bool true ↔
      ¬ Dict.get? patch .timeframe = some (.bool true) := by
    rw [withPatch]
    cases Dict.get? patch .timeframe with
    | none => cases ht : rule.timeframe <;> simp [BodyValue.timeframe]
    | some v => cases v <;> simp [BodyValue.timeframe]
  rw [hquery, hdestination, checkTimeframe_ok_iff, htimeframe, hbool, CaseRule.Refused, Lax]
  simp only [not_or]
  constructor
  · rintro ⟨⟨hq, hq'⟩, ⟨hd, hd'⟩, ht, ht', hx⟩
    exact ⟨⟨hq, hd, ht, hx⟩, ht', hq', hd'⟩
  · rintro ⟨⟨hq, hd, ht, hx⟩, ht', hq', hd'⟩
    exact ⟨⟨hq, hq'⟩, ⟨hd, hd'⟩, ht, ht', hx⟩

end Patches

namespace Cases

open Systems.Prog CaseRule

section Updates

variable {es : Elastic} {w : World} {caseId user : Str} {case : Case} {rule : CaseRule}

/-- A save that goes through, and the case that is returned. -/
theorem run_save_return (c : Case) (hw : w.faults w.writes = false) :
    ∃ w', (do saveCase c; return c : Service Case).run (handle es) w = (.ok c, w') := by
  have hwrite : w.write (·.setCase c) =
      (.ok (), ({ w with writes := w.writes + 1 }).setCase c) := by
    rw [World.write, if_neg (by simp [hw])]
  refine ⟨({ w with writes := w.writes + 1 }).setCase c, ?_⟩
  rw [run_bind_ok ((run_saveCase es w c).trans hwrite)]
  rfl

theorem new_ok_iff (data : RuleData) (author ruleId : Str) (time : Datetime) :
    (∃ r, CaseRule.new data author ruleId time = .ok r) ↔
      ∃ t, checkTimeframe data.timeframe data.expireAfterResolved = .ok t := by
  rw [CaseRule.new]
  cases checkTimeframe data.timeframe data.expireAfterResolved with
  | error e => exact iff_of_false (fun ⟨_, h⟩ => by cases h) (fun ⟨_, h⟩ => by cases h)
  | ok t => exact iff_of_true ⟨_, rfl⟩ ⟨t, rfl⟩

theorem succeeds_add_iff (hcase : w.cases caseId = some case) (body : RuleBody) :
    Succeeds es (addCaseRuleBody caseId body user) w ↔
      body.query.truthy = true ∧ body.destination.truthy = true ∧
        ∃ t, checkTimeframe body.timeframe.timeframe body.expireAfterResolved.truthy = .ok t := by
  have hfetch := run_fetchCase_some (w := { w with faults := fun _ => false }) es
    (.notFound ("Case ".toList ++ caseId ++ " does not exist".toList)) hcase
  unfold Succeeds addCaseRuleBody
  rw [run_bind_ok hfetch]
  by_cases hquery : body.query.truthy = true
  · by_cases hdestination : body.destination.truthy = true
    · simp only [hquery, hdestination, not_true, if_false, true_and]
      rw [run_bind_ok (run_randomId es _), run_bind_ok (run_now es _)]
      have hnew := new_ok_iff body.data user (w.uids w.nextUid) w.time
      cases hrule : CaseRule.new body.data user (w.uids w.nextUid) w.time with
      | ok rule =>
        refine iff_of_true ?_ (hnew.mp ⟨rule, hrule⟩)
        obtain ⟨w', hw'⟩ := @run_save_return es
            { w with faults := fun _ => false, nextUid := w.nextUid + 1 } { case with
            rules := case.rules ++ [rule]
            log := case.log ++ [{
              timestamp := w.time
              user := user
              explanation := some ("Added correlation rule targeting '".toList ++
                rule.destination ++ "'".toList) }]
            updated := some w.time } rfl
        exact ⟨_, w', hw'⟩
      | error e =>
        refine iff_of_false ?_ fun h => ?_
        · rintro ⟨c, w', h⟩
          cases e <;> cases h
        · obtain ⟨r, hr⟩ := hnew.mpr h
          rw [hrule] at hr
          cases hr
    · simp [hquery, hdestination]
  · simp [hquery]

theorem succeeds_update_iff (hcase : w.cases caseId = some case)
    (hrule : case.rules.find? (·.ruleId = rule.ruleId) = some rule)
    (updateData : Dict Str BodyValue) :
    Succeeds es (updateCaseRuleBody caseId rule.ruleId updateData user) w ↔
      allowedPatch updateData ≠ [] ∧
        ∃ r, rule.patch ((allowedPatch updateData).map fun e => change e.1 e.2) = .ok r := by
  have hfetch := run_fetchCase_some (w := { w with faults := fun _ => false }) es
    (.notFound ("Case ".toList ++ caseId ++ " does not exist".toList)) hcase
  unfold Succeeds updateCaseRuleBody
  rw [run_bind_ok hfetch]
  by_cases hpatch : allowedPatch updateData = []
  · simp [hpatch]
  · simp only [hpatch, if_false, hrule, ne_eq, not_false_eq_true, true_and]
    cases hpatched : rule.patch ((allowedPatch updateData).map fun e => change e.1 e.2) with
    | error e =>
      refine iff_of_false ?_ (fun ⟨_, h⟩ => by cases h)
      rintro ⟨c, w', h⟩
      cases h
    | ok patched =>
      refine iff_of_true ?_ ⟨patched, rfl⟩
      obtain ⟨w', hw'⟩ := @run_save_return es { w with faults := fun _ => false } { case with
          rules := replaceRule patched case.rules
          log := case.log ++ [{
            timestamp := w.time
            user := user
            explanation := some ("Updated correlation rule ".toList ++ rule.ruleId ++ ": ".toList ++
              join "; ".toList (rule.describePatch (allowedPatch updateData))) }]
          updated := some w.time } rfl
      exact ⟨_, w', hw'⟩

/-- An update that raises has saved nothing. -/
theorem ends_update (ruleId : Str) (updateData : Dict Str BodyValue) :
    Ends (handle es) (updateCaseRuleBody caseId ruleId updateData user) w (fun _ _ => True)
      fun w' => w'.cases = w.cases := by
  refine ends_bind_fetchCase (fun case _ => ?_) rfl
  dsimp only
  split_ifs with hpatch
  · exact ends_throw rfl
  · split
    · exact ends_throw rfl
    · refine ends_bind_fromExcept (fun patched _ => ?_) rfl
      refine ends_bind_ok (run_now es w) ?_
      refine Ends.bind (M := fun _ _ => True) ⟨fun _ _ _ => trivial, fun e w' he => ?_⟩
        fun _ _ _ => ends_pure trivial
      rw [run_saveCase] at he
      rw [World.write_error he]

theorem keys_allowedPatch {updateData : Dict Str BodyValue} (h : (Dict.keys updateData).Nodup) :
    (Dict.keys (allowedPatch updateData)).Nodup := by
  have hname : ∀ s k, RuleField.all.find? (·.name = s) = some k → k.name = s := by
    intro s k hk
    simpa using List.find?_some hk
  induction updateData with
  | nil => exact List.nodup_nil
  | cons e updateData ih =>
    obtain ⟨s, v⟩ := e
    obtain ⟨hs, hnodup⟩ := List.nodup_cons.mp h
    rw [allowedPatch, List.filterMap_cons]
    cases hfind : RuleField.all.find? (·.name = s) with
    | none => exact ih hnodup
    | some k =>
      refine List.nodup_cons.mpr ⟨fun hmem => hs ?_, ih hnodup⟩
      obtain ⟨e, he, hk⟩ := List.mem_map.mp hmem
      obtain ⟨e', he', hopt⟩ := List.mem_filterMap.mp he
      obtain ⟨k', hk', rfl⟩ := Option.map_eq_some_iff.mp hopt
      obtain rfl : k' = k := hk
      have hs : s = e'.1 := (hname s k' hfind).symm.trans (hname e'.1 k' hk')
      rw [hs]
      exact List.mem_map.mpr ⟨e', he', rfl⟩

/-- A rule is updated as it could be added, and left alone otherwise, where the patch has an allowed
field and nothing that only the update takes, unless something else in it is refused. -/
theorem update_case_rule_iff (hcase : w.cases caseId = some case)
    (hrule : case.rules.find? (·.ruleId = rule.ruleId) = some rule) (hvalid : rule.Valid)
    {updateData : Dict Str BodyValue} (hnodup : (Dict.keys updateData).Nodup) :
    UpdatesAsAdd es w caseId rule updateData user ↔
      allowedPatch updateData ≠ [] ∧
        (Lax (allowedPatch updateData) → rule.Refused (allowedPatch updateData)) := by
  have hunchanged : ∀ faults e w', (updateCaseRuleBody caseId rule.ruleId updateData user).run
      (handle es) { w with faults := faults } = (.error e, w') → w'.cases = w.cases :=
    fun faults => (ends_update rule.ruleId updateData).2
  refine (and_iff_left hunchanged).trans ?_
  rw [succeeds_update_iff hcase hrule, succeeds_add_iff hcase, add_ok_iff hvalid,
    patch_ok_iff (keys_allowedPatch hnodup) hvalid]
  by_cases hpatch : allowedPatch updateData = []
  · have hrefused : ¬ rule.Refused [] := by
      rintro (⟨v, hv, -⟩ | ⟨v, hv, -⟩ | ⟨v, hv, -⟩ | ⟨htimeframe, hexpires⟩)
      · cases hv
      · cases hv
      · cases hv
      · refine hvalid.expires hexpires ?_
        cases ht : rule.timeframe with
        | none => rfl
        | some n =>
          rw [withPatch, ht] at htimeframe
          cases htimeframe
    have hlax : ¬ Lax [] := by
      rintro (hv | ⟨v, hv, -⟩ | ⟨v, hv, -⟩)
      · cases hv
      · cases hv
      · cases hv
    simp [hpatch, hrefused, hlax]
  · simp only [hpatch, ne_eq, not_false_eq_true, true_and]
    by_cases hrefused : rule.Refused (allowedPatch updateData)
    · simp [hrefused]
    · simp [hrefused]

end Updates

section Weekly

def dayOne : Datetime := ⟨0, some 0, Datetime.zero_nonneg, Datetime.zero_le_maxWall⟩

/-- A rule without an end. -/
def endless : CaseRule where
  ruleId := "r".toList
  destination := "d".toList
  query := "q".toList
  author := "u".toList
  createdAt := dayOne

theorem valid_endless : endless.Valid where
  query := by decide
  destination := by decide
  timeframe n hn := by cases hn
  expires h := by cases h

def caseWithRule : Case := { caseId := "c".toList, rules := [endless] }

def worldWithRule : World := .ofDocuments [caseWithRule] [] (fun _ => "i".toList) dayOne

def noSearch : Elastic where
  withRules _ := []
  withItemValue _ _ := []
  search _ _ _ _ := .ok []

/-- A rule that gets a week. -/
theorem update_case_rule_week : UpdatesAsAdd noSearch worldWithRule "c".toList endless
    [("timeframe".toList, .int 7)] "u".toList := by
  refine (@update_case_rule_iff _ _ _ _ caseWithRule _ rfl rfl valid_endless _ (by decide)).mpr ?_
  have hpatch : allowedPatch [("timeframe".toList, .int 7)] = [(.timeframe, .int 7)] := rfl
  rw [hpatch]
  refine ⟨by simp, ?_⟩
  rintro (h | ⟨v, hv, -⟩ | ⟨v, hv, -⟩)
  · cases h
  · cases hv
  · cases hv

/-- True for a timeframe is a day for the update, and nothing that can be added. -/
theorem true_timeframe_updated : ¬ ∀ (es : Elastic) (w : World) (caseId user : Str) (case : Case)
    (rule : CaseRule) (updateData : Dict Str BodyValue), w.cases caseId = some case →
    case.rules.find? (·.ruleId = rule.ruleId) = some rule → rule.Valid →
    (Dict.keys updateData).Nodup → UpdatesAsAdd es w caseId rule updateData user := by
  intro h
  have hupdates := (h noSearch worldWithRule "c".toList "u".toList caseWithRule endless
    [("timeframe".toList, .bool true)] rfl rfl valid_endless (by decide)).1
  rw [@succeeds_update_iff _ _ _ _ caseWithRule _ rfl rfl, @succeeds_add_iff _ _ _ _ caseWithRule
      rfl]
    at hupdates
  have hpatch : allowedPatch [("timeframe".toList, .bool true)] = [(.timeframe, .bool true)] := rfl
  rw [hpatch] at hupdates
  obtain ⟨-, -, t, ht⟩ := hupdates.mp ⟨by simp, _, rfl⟩
  cases ht

end Weekly

end Cases

end Howler
