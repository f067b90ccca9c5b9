import Howler.Cases.Service
import Howler.Python.Raising

namespace Howler

open Python

/-- The timeframe in the body of a request: a number of days, or anything else. -/
inductive JsonTimeframe where
  | null
  | bool (b : Bool)
  | int (n : Int)
  | other (text : Str)
  deriving DecidableEq, Repr

/-- The body of a request for a new rule. -/
structure RuleData where
  query : Option Str := none
  destination : Option Str := none
  timeframe : JsonTimeframe := .null
  enabled : Bool := true
  expireAfterResolved : Bool := false
  indexes : List RuleIndexTypes := [.hit]
  deriving DecidableEq, Repr

/-- One entry of the body of a request that changes a rule. -/
inductive RuleChange where
  | enabled (b : Bool)
  | query (s : Option Str)
  | destination (s : Option Str)
  | timeframe (v : JsonTimeframe)
  | expireAfterResolved (b : Bool)
  deriving DecidableEq, Repr

namespace CaseRule

def badTimeframe : HowlerError :=
  .howlerValue "Rule timeframe must be a positive integer or None".toList

def expiryWithoutTimeframe : Str :=
  "Rule cannot expire after resolved when no timeframe is set".toList

/-- The check of `CaseRule.__init__`. -/
def checkTimeframe (timeframe : JsonTimeframe) (expireAfterResolved : Bool) :
    Except HowlerError (Option Int) :=
  match timeframe with
  | .null =>
    if expireAfterResolved then .error (.howlerValue expiryWithoutTimeframe) else .ok none
  | .int n => if n ≤ 0 then .error badTimeframe else .ok (some n)
  | .bool _ | .other _ => .error badTimeframe

/-- `CaseRule(rule_data)`: a rule that is created now. -/
def new (data : RuleData) (author ruleId : Str) (now : Datetime) : Except HowlerError CaseRule := do
  let timeframe ← checkTimeframe data.timeframe data.expireAfterResolved
  return {
    ruleId := ruleId
    destination := data.destination.getD []
    query := data.query.getD []
    author := author
    enabled := data.enabled
    createdAt := now.replaceUtc
    timeframe := timeframe
    expireAfterResolved := data.expireAfterResolved
    indexes := data.indexes }

/-- A keyword field, which is never empty. -/
def keyword (field : Str) : Option Str → Except HowlerError Str
  | none | some [] => .error (.howlerValue
      ("[".toList ++ field ++ "] Empty strings are not allowed without defaults".toList))
  | some s => .ok s

/-- `setattr(rule, key, value)` with the check before it. A Boolean is an `int` for this check, and
the field makes 1 of `True`. -/
def setField (rule : CaseRule) : RuleChange → Except HowlerError CaseRule
  | .enabled b => .ok { rule with enabled := b }
  | .query s => do
    let query ← keyword "query".toList s
    return { rule with query := query }
  | .destination s => do
    let destination ← keyword "destination".toList s
    return { rule with destination := destination }
  | .timeframe .null => .ok { rule with timeframe := none }
  | .timeframe (.int n) =>
    if n ≤ 0 then .error badTimeframe else .ok { rule with timeframe := some n }
  | .timeframe (.bool b) =>
    if b then .ok { rule with timeframe := some 1 } else .error badTimeframe
  | .timeframe (.other _) => .error badTimeframe
  | .expireAfterResolved b => .ok { rule with expireAfterResolved := b }

/-- The loop of `update_case_rule` and the check after it. -/
def patch (rule : CaseRule) (changes : List RuleChange) : Except HowlerError CaseRule := do
  let rule ← changes.foldlM setField rule
  match rule.timeframe with
  | some n => if n ≤ 0 then .error badTimeframe else .ok rule
  | none => if rule.expireAfterResolved then .error (.invalidData expiryWithoutTimeframe) else .ok rule

def pyBool (b : Bool) : Str := if b then "True".toList else "False".toList

def pyTimeframe : JsonTimeframe → Str
  | .null => "None".toList
  | .bool b => pyBool b
  | .int n => (toString n).toList
  | .other text => text

/-- A rule that `add_case_rule` or `update_case_rule` stored. -/
inductive Accepted : CaseRule → Prop
  | added {data : RuleData} {author ruleId : Str} {now : Datetime} {rule : CaseRule}
      (h : new data author ruleId now = .ok rule) : Accepted rule
  | patched {rule rule' : CaseRule} {changes : List RuleChange} (h : Accepted rule)
      (h' : rule.patch changes = .ok rule') : Accepted rule'

theorem setField_createdAt {rule rule' : CaseRule} {c : RuleChange}
    (h : rule.setField c = .ok rule') : rule'.createdAt = rule.createdAt := by
  unfold setField at h
  split at h
  · obtain rfl := Except.ok.inj h
    rfl
  · obtain ⟨q, -, h⟩ := bind_eq_ok.mp h
    obtain rfl := Except.ok.inj h
    rfl
  · obtain ⟨q, -, h⟩ := bind_eq_ok.mp h
    obtain rfl := Except.ok.inj h
    rfl
  · obtain rfl := Except.ok.inj h
    rfl
  · split at h
    · contradiction
    · obtain rfl := Except.ok.inj h
      rfl
  · split at h
    · obtain rfl := Except.ok.inj h
      rfl
    · contradiction
  · contradiction
  · obtain rfl := Except.ok.inj h
    rfl

theorem foldlM_createdAt {rule rule' : CaseRule} {changes : List RuleChange}
    (h : changes.foldlM setField rule = .ok rule') : rule'.createdAt = rule.createdAt := by
  induction changes generalizing rule with
  | nil =>
    obtain rfl : rule = rule' := by simpa [pure, Except.pure] using h
    rfl
  | cons c changes ih =>
    rw [List.foldlM_cons] at h
    obtain ⟨r, hr, h⟩ := bind_eq_ok.mp h
    rw [ih h, setField_createdAt hr]

theorem patch_ok {rule rule' : CaseRule} {changes : List RuleChange}
    (h : rule.patch changes = .ok rule') : rule'.createdAt = rule.createdAt ∧
      ∀ n, rule'.timeframe = some n → 0 < n := by
  obtain ⟨r, hr, h⟩ := bind_eq_ok.mp h
  have hc := foldlM_createdAt hr
  cases ht : r.timeframe with
  | none =>
    rw [ht] at h
    dsimp only at h
    split at h
    · contradiction
    · obtain rfl := Except.ok.inj h
      exact ⟨hc, fun n hn => by simp [ht] at hn⟩
  | some m =>
    rw [ht] at h
    dsimp only at h
    split at h
    · contradiction
    · next hm =>
      obtain rfl := Except.ok.inj h
      refine ⟨hc, fun n hn => ?_⟩
      obtain rfl : m = n := by simpa [ht] using hn
      omega

/-- Accepted rules have a positive timeframe, if any, and a creation time on the clock of UTC. -/
theorem Accepted.spec {rule : CaseRule} (h : Accepted rule) :
    rule.createdAt.offset = some 0 ∧ ∀ n, rule.timeframe = some n → 0 < n := by
  induction h with
  | @added data author ruleId now rule h =>
    obtain ⟨t, ht, h⟩ := bind_eq_ok.mp h
    obtain rfl := Except.ok.inj h
    refine ⟨rfl, fun n hn => ?_⟩
    obtain rfl : t = some n := hn
    cases hd : data.timeframe with
    | null =>
      rw [hd, checkTimeframe] at ht
      split at ht <;> simp at ht
    | int m =>
      rw [hd, checkTimeframe] at ht
      split at ht
      · contradiction
      · obtain rfl : m = n := by simpa using ht
        omega
    | bool b => simp [hd, checkTimeframe] at ht
    | other text => simp [hd, checkTimeframe] at ht
  | patched _ h' ih =>
    obtain ⟨hc, ht⟩ := patch_ok h'
    exact ⟨hc ▸ ih.1, ht⟩

end CaseRule

namespace Cases

/-- The assignment to the fields of the rule with an id: the first that is found. -/
def replaceRule (rule : CaseRule) : List CaseRule → List CaseRule
  | [] => []
  | r :: rs => if r.ruleId = rule.ruleId then rule :: rs else r :: replaceRule rule rs

end Cases

end Howler
