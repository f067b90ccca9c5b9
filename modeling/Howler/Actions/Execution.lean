import Howler.Actions.Report
import Howler.Lucene.Sanitize
import Howler.Python.Stateful
import Howler.Structures.Json

namespace Howler.Actions

open Python Structures Lucene

/-- What running actions raises. -/
inductive ActionError where
  | howlerValueError (message : Str)
  | notImplementedError (message : Str)
  | attributeError
  | typeError
  | valueError
  | raised (message : Str)
  deriving DecidableEq, Repr

structure User where
  uname : Str
  type : List Str
  deriving DecidableEq

/-- What an operation is called with, besides the query and the user. -/
abbrev Data := Dict Str Json

/-- An operation of an action, with its data as JSON. -/
structure Operation where
  operationId : Str
  dataJson : Option Str

structure Action where
  actionId : Str
  query : Str
  operations : List Operation

/-- The module of an operation, over the state of the datastore. -/
structure OperationModule (σ : Type) where
  roles : List Str
  maxHitsBasic : Option ℕ
  maxHitsAdvanced : Option ℕ
  skipCentralLimit : Bool
  execute : Str → Option Json → User → Data → σ → Except ActionError (List ReportEntry) × σ

/-- What the functions use of the datastore and of the modules. -/
structure Surroundings (σ : Type) where
  operation : Str → Option (OperationModule σ)
  loads : Str → Except ActionError Json
  actionsOn : Str → σ → Except ActionError (List Action)
  total : Str → σ → Except ActionError ℕ
  getUser : Option Str → σ → Except ActionError (Option User)
  uname_of_getUser : ∀ uname s user, getUser uname s = .ok (some user) → uname = some user.uname

/-- An operation that ran, with the state before it. -/
structure Ran (σ : Type) where
  operationId : Str
  query : Str
  user : User
  before : σ

/-- The datastore, the operations that ran, and the calls of `bulk_execute_on_query`, each with its
query and its user. -/
structure Log (σ : Type) where
  state : σ
  ran : List (Ran σ) := []
  called : List (Str × Option User) := []

abbrev ActionM (σ : Type) := ExceptT ActionError (StateM (Log σ))

def validTriggers : List Str :=
  ["create".toList, "demote".toList, "promote".toList, "add_label".toList, "remove_label".toList]

/-- Roles that grant advanced hit limits. -/
def advancedRoles : List Str :=
  ["automation_advanced".toList, "actionrunner_advanced".toList, "admin".toList]

def errorEntry (query title message : Str) : ReportEntry :=
  { query := query, outcome := "error".toList, title := title, message := message }

/-- `howler.id:(a OR b)`. -/
def idQuery (hitIds : List Str) : Str :=
  "howler.id:(".toList ++ join " OR ".toList (hitIds.map sanitizeLuceneQuery) ++ ")".toList

def intersected (query actionQuery : Str) : Str :=
  "(".toList ++ query ++ ") AND (".toList ++ actionQuery ++ ")".toList

section Execute

variable {σ : Type} (around : Surroundings σ)

/-- A question to the datastore. -/
def ask {α : Type} (f : σ → Except ActionError α) : ActionM σ α := do
  let log ← get
  liftM (f log.state)

/-- The limit on the hits of a user. -/
def hitLimit (user : User) (maxHitsBasic maxHitsAdvanced : Option ℕ) : Option ℕ :=
  if ∃ role ∈ advancedRoles, role ∈ user.type then maxHitsAdvanced else maxHitsBasic

def checkHitLimit (query : Str) (user : User) (maxHitsBasic maxHitsAdvanced : Option ℕ) :
    ActionM σ (Option ReportEntry) := do
  match hitLimit user maxHitsBasic maxHitsAdvanced with
  | none => return none
  | some limit => do
    let hitCount ← ask (around.total query)
    if hitCount > limit then
      return some (errorEntry query "Hit limit exceeded".toList
        ("This action affects ".toList ++ (toString hitCount).toList ++
          " hits, but you can only process ".toList ++ (toString limit).toList ++
          " at a time. Contact an administrator for bulk operations.".toList))
    else return none

/-- The operation itself runs. -/
def runModule (module : OperationModule σ) (operationId query : Str) (requestId : Option Json)
    (user : User) (data : Data) : ActionM σ (List ReportEntry) :=
  ExceptT.mk fun log =>
    let result := module.execute query requestId user data log.state
    (result.1, { log with
      state := result.2
      ran := log.ran ++ [⟨operationId, query, user, log.state⟩] })

/-- Whether a user may run an operation. -/
def Allowed (module : OperationModule σ) (user : User) : Prop :=
  "admin".toList ∈ user.type ∨ ∃ role ∈ module.roles, role ∈ user.type

instance (module : OperationModule σ) (user : User) : Decidable (Allowed module user) :=
  inferInstanceAs (Decidable (_ ∨ _))

/-- The rest of `execute`, after the checks. -/
def executeModule (module : OperationModule σ) (operationId query : Str) (requestId : Option Json)
    (user : User) (data : Data) : ActionM σ (List ReportEntry) := do
  let report ← runModule module operationId query requestId user data
  match sanitizeReport report with
  | .ok concise => return concise
  | .error _ => throw .valueError

def execute (operationId query : Str) (user : Option User) (requestId : Option Json) (data : Data) :
    ActionM σ (List ReportEntry) := do
  match around.operation operationId with
  | none =>
    return [errorEntry query "Unknown Action".toList ("The operation ID provided (".toList ++
      operationId ++ ") does not match any enabled operations.".toList)]
  | some module =>
    match user with
    | none =>
      return [errorEntry query "Authentication required".toList
        "You must be logged in to execute actions.".toList]
    | some user =>
      if ¬ Allowed module user then
        return [errorEntry query "Insufficient permissions".toList
          ("The operation ID provided (".toList ++ operationId ++
            ") requires permissions you do not have (missing one of: ".toList ++
            join ", ".toList (sorted module.roles.dedup) ++
            "). Contact HOWLER Support for more information.".toList)]
      else do
        let limitError ←
          if module.skipCentralLimit then pure none
          else checkHitLimit around query user module.maxHitsBasic module.maxHitsAdvanced
        match limitError with
        | some entry => return [entry]
        | none => executeModule module operationId query requestId user data

/-- What `json.loads` makes of the data of an operation; an operation without them has no other. -/
def parsedData (operation : Operation) : Except ActionError Json :=
  match operation.dataJson with
  | none | some [] => .error .attributeError
  | some text => around.loads text

/-- The data as keyword arguments. -/
def keywords : Json → Except ActionError Data
  | .obj fields =>
    if ∃ name ∈ ["operation_id".toList, "query".toList, "user".toList], name ∈ Dict.keys fields then
      .error .typeError
    else .ok fields
  | _ => .error .typeError

/-- An operation of an action whose query finds hits. -/
def executeOperation (query : Str) (user : Option User) (operation : Operation) : ActionM σ Unit := do
  if operation.operationId = "example_plugin".toList then return ()
  let parsed ← liftM (parsedData around operation)
  -- the audit entry takes any mapping, also one with the names of the arguments
  match parsed, user with
  | .obj _, none =>
    throw (.notImplementedError
      "Running actions without a user object is not currently supported".toList)
  | parsed, user => do
    let data ← liftM (keywords parsed)
    let requestId := Dict.get? data "request_id".toList
    let _ ← execute around operation.operationId query user requestId
      (Dict.erase data "request_id".toList)
    return ()

def executeAction (query : Str) (user : Option User) (action : Action) : ActionM σ Unit := do
  let total ← ask (around.total (intersected query action.query))
  if total < 1 then return ()
  action.operations.forM (executeOperation around (intersected query action.query) user)

/-- The body of `bulk_execute_on_query`. -/
def executeOnTrigger (query trigger : Str) (user : Option User) : ActionM σ Unit := do
  if trigger ∉ validTriggers then
    throw (.howlerValueError (trigger ++ " is not a valid trigger. It must be one of ".toList ++
      join ",".toList validTriggers))
  let actions ← ask (around.actionsOn trigger)
  actions.forM (executeAction around query user)

/-- `bulk_execute_on_query`, with a record of the call. -/
def bulkExecuteOnQuery (query trigger : Str) (user : Option User) : ActionM σ Unit := do
  modify fun log => { log with called := log.called ++ [(query, user)] }
  executeOnTrigger around query trigger user

end Execute

section Permitted

variable {σ : Type} {around : Surroundings σ}

/-- The hits of a query are within the limit of a user. -/
def WithinLimit (around : Surroundings σ) (module : OperationModule σ) (r : Ran σ) : Prop :=
  ∀ limit, hitLimit r.user module.maxHitsBasic module.maxHitsAdvanced = some limit →
    ∃ total, around.total r.query r.before = .ok total ∧ total ≤ limit

/-- The user might run the operation, on the hits that there were. -/
def Permitted (around : Surroundings σ) (r : Ran σ) : Prop :=
  ∃ module, around.operation r.operationId = some module ∧ Allowed module r.user ∧
    (module.skipCentralLimit = false → WithinLimit around module r)

/-- What holds of all operations that ran, when some calls have been made. -/
structure AllRan (ok : Ran σ → Prop) (called : List (Str × Option User)) (log : Log σ) : Prop where
  ran : ∀ r ∈ log.ran, ok r
  called : log.called = called

theorem keeps_ask {P : Log σ → Prop} {α : Type} (f : σ → Except ActionError α) :
    Keeps P (ask f : ActionM σ α) fun a => ∃ s, f s = .ok a := by
  refine keeps_get.bind fun log _ => ?_
  exact keeps_liftExcept fun a ha => ⟨log.state, ha⟩

theorem keeps_forM {P : Log σ → Prop} {α : Type} {f : α → ActionM σ Unit} {as : List α}
    (h : ∀ a ∈ as, Keeps P (f a) fun _ => True) : Keeps P (as.forM f) fun _ => True := by
  induction as with
  | nil => exact keeps_pure trivial
  | cons a as ih =>
    refine (h a (List.mem_cons_self ..)).bind fun _ _ => ih fun b hb => ?_
    exact h b (List.mem_cons_of_mem _ hb)

/-- The check of the limit changes nothing, and what passes is within it. -/
theorem run_checkHitLimit (module : OperationModule σ) (operationId query : Str) (user : User)
    (log : Log σ) : ∃ r, (checkHitLimit around query user module.maxHitsBasic
      module.maxHitsAdvanced).run log = (r, log) ∧
        (r = .ok none → WithinLimit around module ⟨operationId, query, user, log.state⟩) := by
  rw [checkHitLimit]
  cases hlimit : hitLimit user module.maxHitsBasic module.maxHitsAdvanced with
  | none =>
    refine ⟨.ok none, rfl, fun _ limit h => ?_⟩
    rw [show hitLimit user _ _ = none from hlimit] at h
    cases h
  | some limit =>
    have hask : (ask (around.total query)).run log = (around.total query log.state, log) := by
      rw [ask, run_exceptT_bind_ok (show (get : ActionM σ (Log σ)).run log = (.ok log, log) from rfl),
        run_liftExcept]
    dsimp only
    rw [run_exceptT_bind, hask]
    cases htotal : around.total query log.state with
    | error e => exact ⟨.error e, rfl, fun h => nomatch h⟩
    | ok total =>
      dsimp only
      by_cases hmore : total > limit
      · rw [if_pos hmore]
        exact ⟨_, rfl, fun h => by cases h⟩
      · rw [if_neg hmore]
        refine ⟨.ok none, rfl, fun _ limit' h => ⟨total, htotal, ?_⟩⟩
        rw [show hitLimit user _ _ = some limit from hlimit] at h
        obtain rfl := Option.some.inj h
        exact Nat.le_of_not_lt hmore

/-- One more operation ran, or what it is refused by was reported. -/
theorem keeps_executeModule {ok : Ran σ → Prop} {called : List (Str × Option User)}
    (module : OperationModule σ) (operationId query : Str) (requestId : Option Json) (user : User)
    (data : Data) (log : Log σ) (h : AllRan ok called log)
    (hok : ok ⟨operationId, query, user, log.state⟩) :
    AllRan ok called ((executeModule module operationId query requestId user data).run log).2 := by
  have hran : AllRan ok called
      ((runModule module operationId query requestId user data).run log).2 := by
    refine ⟨fun r hr => ?_, h.called⟩
    rcases List.mem_append.mp hr with hr | hr
    · exact h.ran r hr
    · exact List.mem_singleton.mp hr ▸ hok
  rw [executeModule, run_exceptT_bind]
  cases hrun : (runModule module operationId query requestId user data).run log with
  | mk result log' =>
    rw [hrun] at hran
    cases result with
    | error e => exact hran
    | ok report =>
      dsimp only
      cases sanitizeReport report <;> exact hran

/-- What `execute` runs is permitted, and it is what was asked for. -/
theorem keeps_execute {ok : Ran σ → Prop} {called : List (Str × Option User)}
    {operationId query : Str} {user : Option User} {requestId : Option Json} {data : Data}
    (h : ∀ r : Ran σ, r.operationId = operationId → r.query = query → user = some r.user →
      Permitted around r → ok r) :
    Keeps (AllRan ok called) (execute around operationId query user requestId data) fun _ => True := by
  intro log hlog
  refine ⟨?_, fun _ _ => trivial⟩
  rw [execute]
  cases hmodule : around.operation operationId with
  | none => exact hlog
  | some module =>
    cases user with
    | none => exact hlog
    | some user =>
      dsimp only
      by_cases hallowed : Allowed module user
      · rw [if_neg (not_not.mpr hallowed)]
        have hpermitted (hwithin : module.skipCentralLimit = false →
            WithinLimit around module ⟨operationId, query, user, log.state⟩) :
            ok ⟨operationId, query, user, log.state⟩ :=
          h _ rfl rfl rfl ⟨module, hmodule, hallowed, hwithin⟩
        cases hskip : module.skipCentralLimit with
        | true =>
          exact keeps_executeModule module operationId query requestId user data log hlog
            (hpermitted fun h => by rw [hskip] at h; cases h)
        | false =>
          obtain ⟨r, hrun, hr⟩ := @run_checkHitLimit σ around module operationId query user log
          rw [if_neg Bool.false_ne_true, run_exceptT_bind, hrun]
          cases r with
          | error e => exact hlog
          | ok entry =>
            cases entry with
            | some entry => exact hlog
            | none =>
              exact keeps_executeModule module operationId query requestId user data log hlog
                (hpermitted fun _ => hr rfl)
      · rw [if_pos hallowed]
        exact hlog

/-- An operation of an action that runs for a user on the hits of a query. -/
structure Runs (around : Surroundings σ) (query : Str) (user : Option User) (r : Ran σ) : Prop where
  permitted : Permitted around r
  user : user = some r.user
  action : ∃ (action : Action) (operation : Operation), r.query = intersected query action.query ∧
    operation ∈ action.operations ∧ r.operationId = operation.operationId ∧
    operation.operationId ≠ "example_plugin".toList

theorem keeps_executeOperation {ok : Ran σ → Prop} {called : List (Str × Option User)}
    {query : Str} {user : Option User} {action : Action} {operation : Operation}
    (hmem : operation ∈ action.operations)
    (h : ∀ r, Runs around query user r → ok r) :
    Keeps (AllRan ok called)
      (executeOperation around (intersected query action.query) user operation) fun _ => True := by
  rw [executeOperation]
  by_cases hexample : operation.operationId = "example_plugin".toList
  · rw [if_pos hexample]
    exact keeps_pure trivial
  rw [if_neg hexample]
  refine Keeps.bind (keeps_liftExcept (Q := fun _ => True) fun _ _ => trivial) fun parsed _ => ?_
  have hrest : Keeps (AllRan ok called) (do
      let data ← liftM (keywords parsed)
      let requestId := Dict.get? data "request_id".toList
      let _ ← execute around operation.operationId (intersected query action.query) user requestId
        (Dict.erase data "request_id".toList)
      return () : ActionM σ Unit) fun _ => True := by
    refine Keeps.bind (keeps_liftExcept (Q := fun _ => True) fun _ _ => trivial) fun data _ => ?_
    refine Keeps.bind (keeps_execute fun r hid hquery huser hpermitted => ?_) fun _ _ =>
      keeps_pure trivial
    exact h r ⟨hpermitted, huser, action, operation, hquery, hmem, hid, hexample⟩
  cases parsed with
  | obj fields =>
    cases user with
    | none => exact keeps_throw _
    | some user => exact hrest
  | _ => exact hrest

theorem keeps_executeOnTrigger {ok : Ran σ → Prop} {called : List (Str × Option User)}
    {query : Str} {user : Option User} (trigger : Str) (h : ∀ r, Runs around query user r → ok r) :
    Keeps (AllRan ok called) (executeOnTrigger around query trigger user) fun _ => True := by
  have hactions : Keeps (AllRan ok called) (do
      let actions ← ask (around.actionsOn trigger)
      actions.forM (executeAction around query user) : ActionM σ Unit) fun _ => True := by
    refine (keeps_ask _).bind fun actions _ => keeps_forM fun action _ => ?_
    refine (keeps_ask _).bind fun total _ => ?_
    by_cases htotal : total < 1
    · rw [if_pos htotal]
      exact keeps_pure trivial
    · rw [if_neg htotal]
      exact keeps_forM fun operation hmem => keeps_executeOperation hmem h
  rw [executeOnTrigger]
  by_cases htrigger : trigger ∉ validTriggers
  · rw [if_pos htrigger]
    exact keeps_throw _
  · rw [if_neg htrigger]
    exact hactions

/-- The actions that run on a query run its operations as its user, and the call is on record. -/
theorem allRan_bulkExecuteOnQuery {ok : Ran σ → Prop} {called : List (Str × Option User)}
    {query trigger : Str} {user : Option User} {log : Log σ} (hlog : AllRan ok called log)
    (h : ∀ r, Runs around query user r → ok r) :
    AllRan ok (called ++ [(query, user)])
      ((bulkExecuteOnQuery around query trigger user).run log).2 := by
  have hcall : AllRan ok (called ++ [(query, user)])
      { log with called := log.called ++ [(query, user)] } :=
    ⟨hlog.ran, by rw [hlog.called]⟩
  have hbody := (keeps_executeOnTrigger trigger h) _ hcall
  exact hbody.1

end Permitted

end Howler.Actions
