import Howler.Cases.Rules

namespace Howler

open Python

namespace Case

/-- `get_last_resolved_time`: the log is gone through from its end. -/
def lastResolvedTime (case : Case) : Option Datetime :=
  (case.log.reverse.find? fun entry =>
    entry.key = some "status".toList ∧ entry.newValue = some "resolved".toList).map fun entry =>
      if entry.timestamp.offset = none then entry.timestamp.replaceUtc else entry.timestamp

/-- The time from which the timeframe of a rule counts, if it does. -/
def startTime (case : Case) (rule : CaseRule) : Option Datetime :=
  if rule.expireAfterResolved then
    case.lastResolvedTime.map fun d => if d.offset = none then d.replaceUtc else d
  else some rule.createdAt

end Case

namespace Correlation

/-- The body of the inner loop of `get_active_rules`: whether a rule is appended. -/
def isActive (now : Datetime) (case : Case) (rule : CaseRule) : Except HowlerError Bool :=
  if !rule.enabled then .ok false
  else match rule.timeframe with
    | none => .ok true
    | some n =>
      if n ≤ 0 then .ok false
      else match case.startTime rule with
        | none => .ok true
        | some start =>
          match start.addDays n with
          | .error e => .error (.datetime e)
          | .ok expiry =>
            match expiry.later now with
            | .error e => .error (.datetime e)
            | .ok b => .ok b

/-- The loop over the rules of a case, and below the loop over the cases. -/
def activeRulesOf (now : Datetime) (case : Case) :
    List CaseRule → Except HowlerError (List (Str × CaseRule))
  | [] => .ok []
  | rule :: rules => do
    let active ← isActive now case rule
    let rest ← activeRulesOf now case rules
    return if active then (case.caseId, rule) :: rest else rest

def activeRules (now : Datetime) : List Case → Except HowlerError (List (Str × CaseRule))
  | [] => .ok []
  | case :: cases => do
    let here ← activeRulesOf now case case.rules
    let rest ← activeRules now cases
    return here ++ rest

open Cases Systems.Prog in
def getActiveRules : Service (List (Str × CaseRule)) := do
  let time ← now
  let cases ← casesWithRules
  fromExcept (activeRules time.replaceUtc cases)

section Active

variable {now : Datetime} {case : Case} {rule : CaseRule}

/-- The last entry of the log that resolved the case. -/
def lastResolution (case : Case) : Option CaseLog :=
  (case.log.filter fun entry =>
    entry.key = some "status".toList ∧ entry.newValue = some "resolved".toList).getLast?

/-- A moment in microseconds. A reading without an offset is one of UTC. -/
def utc (d : Datetime) : Int := d.wall - d.offset.getD 0

/-- The moment from which the timeframe counts: the creation of the rule, or the last resolution
of the case, if there was one. -/
def countsFrom (case : Case) (rule : CaseRule) : Option Datetime :=
  if rule.expireAfterResolved then (lastResolution case).map (·.timestamp)
  else some rule.createdAt

/-- No timeframe, or one that has not started or is not over. -/
def Unexpired (now : Datetime) (case : Case) (rule : CaseRule) : Prop :=
  ∀ n, rule.timeframe = some n → ∀ start, countsFrom case rule = some start →
    utc now < utc start + n * microsecondsPerDay

instance : Decidable (Unexpired now case rule) :=
  match ht : rule.timeframe with
  | none => isTrue fun n hn => by simp [ht] at hn
  | some n =>
    match hs : countsFrom case rule with
    | none => isTrue fun m _ start h => by simp [hs] at h
    | some start =>
      decidable_of_iff (utc now < utc start + n * microsecondsPerDay)
        ⟨fun h m hm s h' => by
          obtain rfl : n = m := by simpa [ht] using hm
          obtain rfl : start = s := by simpa [hs] using h'
          exact h,
        fun h => h n ht start hs⟩

/-- The enabled rules that are not expired, with their cases. -/
def unexpiredRules (now : Datetime) (cases : List Case) : List (Str × CaseRule) :=
  cases.flatMap fun case =>
    (case.rules.filter fun rule => rule.enabled ∧ Unexpired now case rule).map (case.caseId, ·)

/-- The end of the timeframe is a date. -/
def EndsInRange (case : Case) (rule : CaseRule) : Prop :=
  ∀ n, rule.timeframe = some n → ∀ start, countsFrom case rule = some start →
    start.wall + n * microsecondsPerDay ≤ maxWall

theorem lastResolvedTime_eq (case : Case) : case.lastResolvedTime = (lastResolution case).map
    fun entry => if entry.timestamp.offset = none then entry.timestamp.replaceUtc
      else entry.timestamp := by
  rw [Case.lastResolvedTime, lastResolution, ← List.head?_reverse, ← List.filter_reverse,
    List.head?_filter]

theorem startTime_eq (case : Case) (rule : CaseRule) :
    case.startTime rule = (countsFrom case rule).map fun d =>
      if rule.expireAfterResolved ∧ d.offset = none then d.replaceUtc else d := by
  rw [Case.startTime, countsFrom]
  by_cases he : rule.expireAfterResolved = true
  · rw [if_pos he, if_pos he, lastResolvedTime_eq, Option.map_map, Option.map_map]
    congr 1
    funext entry
    by_cases ho : entry.timestamp.offset = none <;> simp [he, ho, Datetime.replaceUtc]
  · simp [he]

/-- A time that counts is aware. -/
theorem startTime_of_start (hr : rule.createdAt.offset = some 0) {start : Datetime}
    (hs : countsFrom case rule = some start) : ∃ s, case.startTime rule = some s ∧
      s.wall = start.wall ∧ s.offset = some (start.offset.getD 0) := by
  rw [startTime_eq, hs]
  refine ⟨_, rfl, ?_⟩
  dsimp only
  by_cases hc : rule.expireAfterResolved = true ∧ start.offset = none
  · simp [hc, Datetime.replaceUtc]
  · rw [if_neg hc]
    refine ⟨rfl, ?_⟩
    cases ho : start.offset with
    | some o => rfl
    | none =>
      by_cases hx : rule.expireAfterResolved = true
      · exact absurd ⟨hx, ho⟩ hc
      · have hcr : rule.createdAt = start := by simpa [countsFrom, hx] using hs
        rw [← hcr, hr] at ho
        contradiction

/-- The date arithmetic is that of moments, as long as it does not leave the range of dates. -/
theorem isActive_of_start (hnow : now.offset = some 0)
    (hr : rule.createdAt.offset = some 0) {n : Int} (hn : 0 < n) (ht : rule.timeframe = some n)
    (he : rule.enabled = true) {start : Datetime} (hs : countsFrom case rule = some start) :
    (start.wall + n * microsecondsPerDay ≤ maxWall → isActive now case rule =
        .ok (decide (utc now < utc start + n * microsecondsPerDay))) ∧
      (¬ start.wall + n * microsecondsPerDay ≤ maxWall →
        ∃ e, isActive now case rule = .error e) := by
  obtain ⟨s, hst, hwall, hutc⟩ := startTime_of_start hr hs
  have hn' : ¬ n ≤ 0 := by omega
  have hadd := Datetime.addDays_ok_iff s (le_of_lt hn)
  rw [hwall] at hadd
  constructor
  · intro hle
    obtain ⟨e, hsum⟩ := hadd.mpr hle
    obtain ⟨hw, ho⟩ := Datetime.addDays_ok hsum
    have hlater : e.later now = .ok (decide (utc now < utc start + n * microsecondsPerDay)) := by
      have hm : e.moment = some (utc start + n * microsecondsPerDay) := by
        rw [Datetime.moment, ho, hutc, Option.map_some, hw, hwall, utc]
        congr 1
        omega
      have hnm : now.moment = some (utc now) := by
        rw [Datetime.moment, hnow, Option.map_some, utc, hnow, Option.getD_some]
      rw [Datetime.later, hm, hnm]
    simp [isActive, he, ht, hn', hst, hsum, hlater]
  · intro hle
    cases hsum : s.addDays n with
    | ok e => exact absurd (hadd.mp ⟨e, hsum⟩) hle
    | error e => exact ⟨.datetime e, by simp [isActive, he, ht, hn', hst, hsum]⟩

theorem isActive_spec (case : Case) (hnow : now.offset = some 0) (hr : rule.Accepted) :
    ((rule.enabled → EndsInRange case rule) →
      isActive now case rule = .ok (decide (rule.enabled ∧ Unexpired now case rule))) ∧
    (¬ (rule.enabled → EndsInRange case rule) → ∃ e, isActive now case rule = .error e) := by
  obtain ⟨hoff, hpos⟩ := hr.spec
  cases he : rule.enabled with
  | false => simp [isActive, he]
  | true =>
    cases ht : rule.timeframe with
    | none => simp [isActive, he, ht, Unexpired, EndsInRange]
    | some n =>
      have hn := hpos n ht
      cases hs : countsFrom case rule with
      | none =>
        have hst : case.startTime rule = none := by rw [startTime_eq, hs]; rfl
        have hn' : ¬ n ≤ 0 := by omega
        simp [isActive, he, ht, hs, hst, hn', Unexpired, EndsInRange]
      | some start =>
        obtain ⟨hin, hout⟩ := isActive_of_start hnow hoff hn ht he hs
        have hun : Unexpired now case rule ↔
            utc now < utc start + n * microsecondsPerDay := by
          simp [Unexpired, ht, hs]
        have hrange : EndsInRange case rule ↔
            start.wall + n * microsecondsPerDay ≤ maxWall := by
          simp [EndsInRange, ht, hs]
        simp only [true_and, true_imp_iff, hrange, hun]
        exact ⟨hin, hout⟩

theorem activeRulesOf_spec (case : Case) (hnow : now.offset = some 0) (rules : List CaseRule)
    (hr : ∀ rule ∈ rules, rule.Accepted) :
    ((∀ rule ∈ rules, rule.enabled → EndsInRange case rule) →
      activeRulesOf now case rules = .ok ((rules.filter fun rule =>
        rule.enabled ∧ Unexpired now case rule).map (case.caseId, ·))) ∧
    (¬ (∀ rule ∈ rules, rule.enabled → EndsInRange case rule) →
      ∃ e, activeRulesOf now case rules = .error e) := by
  induction rules with
  | nil => simp [activeRulesOf]
  | cons rule rules ih =>
    obtain ⟨hin, hout⟩ := ih fun r h => hr r (List.mem_cons_of_mem _ h)
    obtain ⟨hin₀, hout₀⟩ := isActive_spec case hnow (hr rule List.mem_cons_self)
    rw [List.forall_mem_cons]
    constructor
    · intro ⟨h₀, h⟩
      rw [activeRulesOf, hin₀ h₀, hin h]
      by_cases hu : rule.enabled ∧ Unexpired now case rule <;>
        simp [hu, bind, Except.bind, pure, Except.pure]
    · intro h
      by_cases h₀ : rule.enabled → EndsInRange case rule
      · obtain ⟨e, he⟩ := hout fun h' => h ⟨h₀, h'⟩
        exact ⟨e, by simp [activeRulesOf, hin₀ h₀, he, bind, Except.bind]⟩
      · obtain ⟨e, he⟩ := hout₀ h₀
        exact ⟨e, by simp [activeRulesOf, he, bind, Except.bind]⟩

theorem activeRules_spec (hnow : now.offset = some 0) (cases : List Case)
    (hr : ∀ case ∈ cases, ∀ rule ∈ case.rules, rule.Accepted) :
    ((∀ case ∈ cases, ∀ rule ∈ case.rules, rule.enabled → EndsInRange case rule) →
      activeRules now cases = .ok (unexpiredRules now cases)) ∧
    (¬ (∀ case ∈ cases, ∀ rule ∈ case.rules, rule.enabled → EndsInRange case rule) →
      ∃ e, activeRules now cases = .error e) := by
  induction cases with
  | nil => simp [activeRules, unexpiredRules]
  | cons case cases ih =>
    obtain ⟨hin, hout⟩ := ih fun c h => hr c (List.mem_cons_of_mem _ h)
    obtain ⟨hin₀, hout₀⟩ := activeRulesOf_spec case hnow case.rules
      (hr case List.mem_cons_self)
    rw [List.forall_mem_cons]
    constructor
    · intro ⟨h₀, h⟩
      simp [activeRules, hin₀ h₀, hin h, unexpiredRules, bind, Except.bind, pure, Except.pure]
    · intro h
      by_cases h₀ : ∀ rule ∈ case.rules, rule.enabled → EndsInRange case rule
      · obtain ⟨e, he⟩ := hout fun h' => h ⟨h₀, h'⟩
        exact ⟨e, by simp [activeRules, hin₀ h₀, he, bind, Except.bind]⟩
      · obtain ⟨e, he⟩ := hout₀ h₀
        exact ⟨e, by simp [activeRules, he, bind, Except.bind]⟩

end Active

open Cases in
theorem run_getActiveRules (es : Elastic) (w : World) :
    getActiveRules.run (handle es) w = (activeRules w.time.replaceUtc (es.withRules w), w) := by
  rw [getActiveRules, Systems.Prog.run_bind_ok (run_now es w),
    Systems.Prog.run_bind_ok (run_casesWithRules es w), Systems.Prog.run_fromExcept]

open Cases in
/-- On the stored cases that have rules, all accepted, `get_active_rules` returns the enabled rules
that are not expired just if the timeframe of every enabled rule ends within the range of dates. -/
theorem active_rules_iff (es : Elastic) (w : World)
    (hr : ∀ case ∈ es.withRules w, ∀ rule ∈ case.rules, rule.Accepted) :
    (getActiveRules.run (handle es) w).1 =
        .ok (unexpiredRules w.time.replaceUtc (es.withRules w)) ↔
      ∀ case ∈ es.withRules w, ∀ rule ∈ case.rules, rule.enabled → EndsInRange case rule := by
  have hnow : w.time.replaceUtc.offset = some 0 := rfl
  obtain ⟨hin, hout⟩ := activeRules_spec hnow (es.withRules w) hr
  rw [run_getActiveRules]
  constructor
  · intro h
    by_contra hn
    obtain ⟨e, he⟩ := hout hn
    rw [he] at h
    contradiction
  · exact hin

/-- The start of the year 2026. -/
def newYear : Datetime := ⟨739616 * microsecondsPerDay, some 0, by decide, by decide⟩

/-- A rule with a timeframe, created at `newYear`. -/
def ruleOf (timeframe : Int) : CaseRule where
  ruleId := ['r']
  destination := ['d']
  query := ['q']
  author := ['a']
  createdAt := newYear
  timeframe := some timeframe

theorem accepted_ruleOf {timeframe : Int} (h : 0 < timeframe) :
    (ruleOf timeframe).Accepted := by
  have hn : ¬ timeframe ≤ 0 := by omega
  have hnew : CaseRule.new
      { query := some ['q'], destination := some ['d'], timeframe := .int timeframe }
      ['a'] ['r'] newYear = .ok (ruleOf timeframe) := by
    rw [CaseRule.new, CaseRule.checkTimeframe, if_neg hn]
    rfl
  exact .added hnew

/-- Two cases with a rule each. -/
def casesOf (m n : Int) : List Case :=
  [{ caseId := ['A'], rules := [ruleOf m] }, { caseId := ['B'], rules := [ruleOf n] }]

open Cases in
/-- A search that finds these cases. -/
def findsCases (m n : Int) : Elastic where
  withRules _ := casesOf m n
  withItemValue _ _ := []
  search _ _ _ _ := .ok []

theorem accepted_casesOf {m n : Int} (hm : 0 < m) (hn : 0 < n) :
    ∀ case ∈ casesOf m n, ∀ rule ∈ case.rules, rule.Accepted := by
  simp only [casesOf, List.forall_mem_cons, List.not_mem_nil, false_imp_iff, implies_true, and_true]
  exact ⟨accepted_ruleOf hm, accepted_ruleOf hn⟩

open Cases in
theorem active_rules_iff_thirty :
    (getActiveRules.run (handle (findsCases 30 30)) (.ofDocuments [] [] (fun _ => []) newYear)).1 =
        .ok (unexpiredRules newYear.replaceUtc (casesOf 30 30)) ↔
      ∀ case ∈ casesOf 30 30, ∀ rule ∈ case.rules, rule.enabled → EndsInRange case rule :=
  active_rules_iff (findsCases 30 30) _ (accepted_casesOf (by decide) (by decide))

open Cases in
/-- With a timeframe of three million days in one case, the rule of the other case is not returned
either. -/
theorem active_rules_overflow :
    (∀ case ∈ casesOf 3000000 30, ∀ rule ∈ case.rules, rule.Accepted) ∧
    (getActiveRules.run (handle (findsCases 3000000 30))
      (.ofDocuments [] [] (fun _ => []) newYear)).1 = .error (.datetime .overflow) ∧
    (unexpiredRules newYear.replaceUtc (casesOf 3000000 30)).map (·.1) = [['A'], ['B']] :=
  ⟨accepted_casesOf (by decide) (by decide), by rfl, by decide⟩

end Correlation

end Howler
