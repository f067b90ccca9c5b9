import Howler.Ingestion.Facet
import Howler.Systems.Interruptions

namespace Howler.Cronjobs

open Python Systems Systems.Prog Ingestion

inductive RetentionError where
  | elastic (reason : Str)
  | overflowError
  deriving DecidableEq, Repr

structure RetentionRule where
  name : Str
  enabled : Bool := true
  query : Str
  limitUnit : Str := "days".toList
  limitAmount : ℤ

/-- What the log says of a rule. -/
inductive RuleStatus where
  | skipped
  | ok (deleted : ℕ) (cutoff : Str)
  | error (query : Str)
  deriving DecidableEq, Repr

structure RuleResult where
  rule : Str
  status : RuleStatus
  deriving DecidableEq, Repr

structure Analytic where
  analyticId : Str
  name : Str
  rule : Option Str := none
  ruleType : Option Str := none
  deriving DecidableEq, Repr

/-- The dates before which hits are old, the hits that a query matches, if it is not refused, and what
`lowercase_normalizer` makes of a name where it is indexed or looked for. -/
structure Surroundings (H : Type) where
  cutoff : Except RetentionError Str
  cutoffOf : RetentionRule → Except RetentionError Str
  finds : Str → Except RetentionError (H → Bool)
  analytic : H → Str
  lower : Str → Str
  lower_lower : ∀ name, lower (lower name) = lower name
  /-- The answer to a search has the aggregation. -/
  aggregates : Bool := true

section Store

/-- What the job asks of Elasticsearch. -/
inductive Command where
  | countHits (query : Str)
  | deleteHits (query : Str)
  | commitHits
  | countAnalytics
  | matchedAnalytics (size : ℕ)
  | deleteAnalytics (matched : List Str)
  | commitAnalytics

abbrev Command.Answer : Command → Type
  | .countHits _ => ℕ
  | .deleteHits _ => Bool
  | .commitHits => Unit
  | .countAnalytics => ℕ
  | .matchedAnalytics _ => Option (List Str)
  | .deleteAnalytics _ => Bool
  | .commitAnalytics => Unit

abbrev interface : Interface := ⟨Command, Command.Answer⟩

structure Store (H : Type) where
  hits : List H
  analytics : List Analytic

/-- An analytic that the job may delete. -/
def Analytic.unruled (a : Analytic) : Bool := a.rule.isNone && a.ruleType.isNone

variable {H : Type}

/-- The most frequent names of the analytics of hits: they are indexed in lower case. -/
def Surroundings.matchedNames (around : Surroundings H) (hits : List H) (size : ℕ) : List Str :=
  (buckets (hits.map fun h => around.lower (around.analytic h))).take size

/-- The search object of `_remove_analytics_without_hits`. -/
def Surroundings.unmatched (around : Surroundings H) (matched : List Str) (a : Analytic) : Bool :=
  a.unruled && around.lower a.name ∉ matched.map around.lower

def server (around : Surroundings H) : Server interface RetentionError (Store H)
  | .countHits query, s => (around.finds query).map fun matched => (s.hits.countP matched, s)
  | .deleteHits query, s => (around.finds query).map fun matched =>
    (s.hits.any matched, { s with hits := s.hits.filter fun h => !matched h })
  | .commitHits, s => .ok ((), s)
  | .countAnalytics, s => .ok (s.analytics.length, s)
  | .matchedAnalytics size, s =>
    .ok (if around.aggregates then some (around.matchedNames s.hits size) else none, s)
  | .deleteAnalytics matched, s =>
    .ok (s.analytics.any (around.unmatched matched),
      { s with analytics := s.analytics.filter fun a => !around.unmatched matched a })
  | .commitAnalytics, s => .ok ((), s)

abbrev Job := Prog (interface.fallible RetentionError) RetentionError

def ask (c : Command) : Job c.Answer := @request interface RetentionError c

end Store

section Job

variable {H : Type} (around : Surroundings H)

/-- Hits that are old or that have expired. -/
def sweepQuery (cutoff : Str) : Str :=
  "event.created:\x7b* TO ".toList ++ cutoff ++ "\x7d OR howler.expiry:\x7b* TO now\x7d".toList

/-- Hits of a rule that are old for it. -/
def combinedQuery (rule : RetentionRule) (cutoff : Str) : Str :=
  "(".toList ++ rule.query ++ ") AND event.created:\x7b* TO ".toList ++ cutoff ++ "\x7d".toList

/-- The part of a rule that may raise. -/
def deleteFor (rule : RetentionRule) (cutoff : Str) : Job RuleResult := do
  let count ← ask (.countHits (combinedQuery rule cutoff))
  let _ ← ask (.deleteHits (combinedQuery rule cutoff))
  ask .commitHits
  return ⟨rule.name, .ok count cutoff⟩

def executeRule (rule : RetentionRule) : Job RuleResult :=
  if !rule.enabled then pure ⟨rule.name, .skipped⟩
  else do
    -- a date out of range is raised outside of what is caught
    let cutoff ← fromExcept (around.cutoffOf rule)
    tryCatch (deleteFor rule cutoff)
      fun _ => pure ⟨rule.name, .error (combinedQuery rule cutoff)⟩

def executeRules : List RetentionRule → Job (List RuleResult)
  | [] => pure []
  | rule :: rules => do
    let result ← executeRule around rule
    let results ← executeRules rules
    return result :: results

/-- The names of the analytics that have hits, at most as many of them as there are analytics. -/
def findAnalyticsWithHits : Job (Option (List Str)) := do
  let total : ℕ ← ask .countAnalytics
  if total ≠ 0 then ask (.matchedAnalytics total) else pure (some [])

def removeAnalyticsWithoutHits : Job Unit := do
  match ← findAnalyticsWithHits with
  | some matched =>
    let _ ← ask (.deleteAnalytics matched)
    ask .commitAnalytics
  | none => pure ()

/-- The hits that are deleted whatever their rules are. -/
def sweep : Job Unit := do
  let cutoff ← fromExcept around.cutoff
  let _ ← ask (.deleteHits (sweepQuery cutoff))
  ask .commitHits

def execute (rules : List RetentionRule) : Job (List RuleResult) := do
  sweep around
  let results ← executeRules around rules
  removeAnalyticsWithoutHits
  return results

end Job

end Howler.Cronjobs
