import Howler.Datastore.Writes
import Howler.Python.Raising
import Howler.Structures.Batches
import Howler.Structures.Dumps

namespace Howler.Datastore

open Python Structures

/-- A queued operation: the line of its action, and the line of its body if it has one. -/
structure OperationGroup where
  action : Str
  body : Option Str
  deriving DecidableEq

def OperationGroup.lines (g : OperationGroup) : List Str := g.action :: g.body.toList

structure BulkPlan where
  indexes : List Str
  operations : List OperationGroup

/-- What is asked of a plan, with the primitives of the documents. An index that is not given is
empty. -/
inductive PlanRequest where
  | delete (docId index : Str)
  | insert (docId : Str) (doc : Dict Str Json) (index : Str)
  | index (docId : Str) (doc : Dict Str Json) (index : Str)
  | upsert (docId : Str) (doc : Dict Str Json) (index : Str)
  | update (docId : Str) (doc : Dict Str Json) (index : Str)

namespace BulkPlan

section Operations

variable (number : ℚ → Str) (plan : BulkPlan)

def append (gs : List OperationGroup) : BulkPlan :=
  { plan with operations := plan.operations ++ gs }

/-- The line of an action. -/
def actionLine (action index docId : Str) : Str :=
  Json.dumps number (.obj [(action, .obj [("_index".toList, .str index), ("_id".toList, .str docId)])])

def addDeleteOperation (docId index : Str) : BulkPlan :=
  plan.append ((updateTargets plan.indexes index).map fun i =>
    ⟨actionLine number "delete".toList i docId, none⟩)

/-- The operation for one of the three that write a whole document. -/
def addWholeOperation (action : Str) (body : Json → Json) (docId : Str) (doc : Dict Str Json)
    (index : Str) : Except PyError BulkPlan := do
  let saved := Json.obj (Dict.set doc "id".toList (.str docId))
  let index ← defaultIndex plan.indexes index
  return plan.append [⟨actionLine number action index docId, some (Json.dumps number (body saved))⟩]

def addInsertOperation : Str → Dict Str Json → Str → Except PyError BulkPlan :=
  addWholeOperation number plan "create".toList id

def addIndexOperation : Str → Dict Str Json → Str → Except PyError BulkPlan :=
  addWholeOperation number plan "index".toList id

def addUpsertOperation : Str → Dict Str Json → Str → Except PyError BulkPlan :=
  addWholeOperation number plan "update".toList fun saved =>
    .obj [("doc".toList, saved), ("doc_as_upsert".toList, .bool true)]

def addUpdateOperation (docId : Str) (doc : Dict Str Json) (index : Str) : BulkPlan :=
  plan.append ((updateTargets plan.indexes index).map fun i =>
    ⟨actionLine number "update".toList i docId,
      some (Json.dumps number (.obj [("doc".toList, .obj doc)]))⟩)

def add : PlanRequest → Except PyError BulkPlan
  | .delete docId index => .ok (plan.addDeleteOperation number docId index)
  | .insert docId doc index => plan.addInsertOperation number docId doc index
  | .index docId doc index => plan.addIndexOperation number docId doc index
  | .upsert docId doc index => plan.addUpsertOperation number docId doc index
  | .update docId doc index => .ok (plan.addUpdateOperation number docId doc index)

/-- The plan after a request. One that raises adds nothing. -/
def after (request : PlanRequest) : BulkPlan :=
  match plan.add number request with
  | .ok plan' => plan'
  | .error _ => plan

end Operations

/-- The plan after some requests. -/
def build (number : ℚ → Str) (indexes : List Str) (requests : List PlanRequest) : BulkPlan :=
  requests.foldl (after number) ⟨indexes, []⟩

section Payloads

variable (plan : BulkPlan)

/-- `_flatten_operations`: every queued operation for no batch or an empty one. -/
def flattenOperations (batch : Option (List OperationGroup)) : List Str :=
  let batch := match batch with
    | none | some [] => plan.operations
    | some batch => batch
  batch.flatMap OperationGroup.lines

/-- `_get_plan_for_operations`. -/
def getPlanForOperations (batch : Option (List OperationGroup)) : Str :=
  join ['\n'] (plan.flattenOperations batch) ++ ['\n']

def getPlanData : Str := plan.getPlanForOperations none

/-- `range(0, stop, step)`. -/
def range (stop step : ℕ) : Except PyError (List ℕ) :=
  if step = 0 then .error .valueError
  else .ok ((List.range ((stop + step - 1) / step)).map (· * step))

/-- `get_plan_batches`. -/
def getPlanBatches (batchSize : Option ℕ) : Except PyError (List Str) := do
  let batchSize := batchSize.getD plan.operations.length
  let ptrs ← range plan.operations.length batchSize
  return ptrs.map fun ptr =>
    plan.getPlanForOperations (some ((plan.operations.drop ptr).take batchSize))

/-- The payloads make up the plan's payload, or nothing for an empty plan, and the lines of each are
those of some operations: all of them in order, each once, and none of them split. -/
def Batched (batchSize : Option ℕ) : Prop :=
  ∃ payloads, plan.getPlanBatches batchSize = .ok payloads ∧
    payloads.flatten = (if plan.operations = [] then [] else plan.getPlanData) ∧
    ∃ batches : List (List OperationGroup), batches.flatten = plan.operations ∧
      payloads.map lines = batches.map fun batch => batch.flatMap OperationGroup.lines

end Payloads

section Proofs

variable {number : ℚ → Str} (hnumber : ∀ q, '\n' ∉ number q) {plan : BulkPlan}

/-- Each line of the plan is one. -/
def OneLined (plan : BulkPlan) : Prop := ∀ g ∈ plan.operations, ∀ l ∈ g.lines, '\n' ∉ l

theorem OneLined.append {gs : List OperationGroup} (h : OneLined plan)
    (hgs : ∀ g ∈ gs, ∀ l ∈ g.lines, '\n' ∉ l) : OneLined (plan.append gs) := by
  intro g hg
  rcases List.mem_append.mp hg with hg | hg
  · exact h g hg
  · exact hgs g hg

include hnumber

theorem one_lined_group (action index docId : Str) (body : Option Json) :
    ∀ l ∈ (OperationGroup.mk (actionLine number action index docId)
      (body.map (Json.dumps number))).lines, '\n' ∉ l := by
  intro l hl
  rcases List.mem_cons.mp hl with rfl | hl
  · exact Json.not_mem_dumps number hnumber _
  · cases body with
    | none => cases hl
    | some body =>
      obtain rfl := List.mem_singleton.mp hl
      exact Json.not_mem_dumps number hnumber _

theorem OneLined.after (h : OneLined plan) (request : PlanRequest) :
    OneLined (plan.after number request) := by
  have hwhole : ∀ action body docId doc index plan',
      addWholeOperation number plan action body docId doc index = .ok plan' → OneLined plan' := by
    intro action body docId doc index plan' hok
    obtain ⟨i, -, hok⟩ := bind_eq_ok.mp hok
    obtain rfl := Except.ok.inj hok
    apply h.append
    intro g hg
    obtain rfl := List.mem_singleton.mp hg
    exact one_lined_group hnumber action i docId (some _)
  have hall : ∀ action docId (body : Option Json) (is : List Str), OneLined (plan.append (is.map
      fun i => ⟨actionLine number action i docId, body.map (Json.dumps number)⟩)) := by
    intro action docId body is
    apply h.append
    intro g hg
    obtain ⟨i, -, rfl⟩ := List.mem_map.mp hg
    exact one_lined_group hnumber action i docId body
  unfold BulkPlan.after
  cases hadd : plan.add number request with
  | error e => exact h
  | ok plan' =>
    change OneLined plan'
    cases request with
    | delete docId index =>
      obtain rfl := Except.ok.inj hadd
      exact hall _ docId none _
    | insert docId doc index => exact hwhole _ _ _ _ _ _ hadd
    | index docId doc index => exact hwhole _ _ _ _ _ _ hadd
    | upsert docId doc index =>
      rw [add, addUpsertOperation] at hadd
      exact hwhole _ _ _ _ _ _ hadd
    | update docId doc index =>
      obtain rfl := Except.ok.inj hadd
      exact hall _ docId (some _) _

theorem one_lined_build (indexes : List Str) (requests : List PlanRequest) :
    OneLined (build number indexes requests) := by
  have hrun : ∀ plan, OneLined plan → OneLined (requests.foldl (BulkPlan.after number) plan) := by
    induction requests with
    | nil => exact fun _ h => h
    | cons request requests ih => exact fun plan h => ih _ (h.after hnumber request)
  exact hrun _ fun g hg => by cases hg

end Proofs

section Rendering

variable {plan : BulkPlan}

theorem join_unlines {ls : List Str} (h : ls ≠ []) : join ['\n'] ls ++ ['\n'] = unlines ls := by
  induction ls with
  | nil => contradiction
  | cons l ls ih =>
    cases ls with
    | nil => simp [join, unlines]
    | cons l' ls =>
      have htail := ih (by simp)
      have hjoin : join ['\n'] (l :: l' :: ls) = l ++ ['\n'] ++ join ['\n'] (l' :: ls) := by
        simp [join]
      have hunlines : unlines (l :: l' :: ls) = l ++ ['\n'] ++ unlines (l' :: ls) := by
        simp [unlines]
      rw [hjoin, hunlines, ← htail]
      simp

/-- The payload of a batch with operations. -/
theorem getPlanForOperations_eq {batch : List OperationGroup} (h : batch ≠ []) :
    plan.getPlanForOperations (some batch) = unlines (batch.flatMap OperationGroup.lines) := by
  cases batch with
  | nil => contradiction
  | cons g batch =>
    rw [getPlanForOperations, flattenOperations]
    · exact join_unlines (List.cons_ne_nil _ _)
    · exact h

theorem getPlanData_eq (h : plan.operations ≠ []) :
    plan.getPlanData = unlines (plan.operations.flatMap OperationGroup.lines) := by
  rw [← @getPlanForOperations_eq plan _ h, getPlanData, getPlanForOperations,
    getPlanForOperations]
  cases hops : plan.operations with
  | nil => contradiction
  | cons g gs => simp [flattenOperations, hops]

/-- The batches for a step: the slices of the operations. -/
theorem getPlanBatches_eq {batchSize : Option ℕ} {n : ℕ}
    (hsize : batchSize.getD plan.operations.length = n) (hn : 0 < n) :
    plan.getPlanBatches batchSize = .ok ((slices n plan.operations).map fun batch =>
      unlines (batch.flatMap OperationGroup.lines)) := by
  have hpayloads : (slices n plan.operations).map (fun batch =>
      plan.getPlanForOperations (some batch)) = (slices n plan.operations).map fun batch =>
        unlines (batch.flatMap OperationGroup.lines) :=
    List.map_congr_left fun batch hb => getPlanForOperations_eq (ne_nil_of_mem_slices hn hb)
  rw [getPlanBatches, hsize, range, if_neg (Nat.ne_of_gt hn), ← hpayloads]
  simp [slices, pure, Except.pure, bind, Except.bind]

theorem flatten_unlines (batches : List (List OperationGroup)) :
    (batches.map fun batch => unlines (batch.flatMap OperationGroup.lines)).flatten =
      unlines (batches.flatten.flatMap OperationGroup.lines) := by
  induction batches with
  | nil => rfl
  | cons batch batches ih =>
    rw [List.map_cons, List.flatten_cons, ih, List.flatten_cons, List.flatMap_append, unlines,
      unlines, unlines, List.flatMap_append]

theorem batched_of_pos {batchSize : Option ℕ} (h : OneLined plan)
    (hn : 0 < batchSize.getD plan.operations.length) : plan.Batched batchSize := by
  refine ⟨_, getPlanBatches_eq rfl hn, ?_, _, flatten_slices hn plan.operations, ?_⟩
  · rw [flatten_unlines, flatten_slices hn]
    split_ifs with hops
    · rw [hops]
      rfl
    · exact (getPlanData_eq hops).symm
  · rw [List.map_map]
    refine List.map_congr_left fun batch hb => lines_unlines fun l hl => ?_
    obtain ⟨g, hg, hl⟩ := List.mem_flatMap.mp hl
    have hmem : g ∈ plan.operations := by
      rw [← flatten_slices hn plan.operations]
      exact List.mem_flatten.mpr ⟨batch, hb, hg⟩
    exact h g hmem l hl

end Rendering

/-- The payloads make up the plan, unless the plan is empty and no batch size is given. -/
theorem get_plan_batches_iff {number : ℚ → Str} (hnumber : ∀ q, '\n' ∉ number q)
    (indexes : List Str) (requests : List PlanRequest) {batchSize : Option ℕ}
    (hsize : ∀ n ∈ batchSize, 1 ≤ n) :
    (build number indexes requests).Batched batchSize ↔
      ¬ (batchSize = none ∧ (build number indexes requests).operations = []) := by
  constructor
  · rintro ⟨payloads, hok, -⟩ ⟨rfl, hops⟩
    rw [getPlanBatches, hops] at hok
    cases hok
  · intro h
    apply batched_of_pos (one_lined_build hnumber indexes requests)
    cases batchSize with
    | some n => exact hsize n rfl
    | none => exact List.length_pos_iff.mpr fun hops => h ⟨rfl, hops⟩

/-- Two operations in two payloads. -/
theorem get_plan_batches_delete :
    (build (fun _ => ['0']) ["case".toList] [.delete "1".toList [], .index "2".toList [] []]).Batched
      (some 1) :=
  (get_plan_batches_iff (fun _ => by decide) ["case".toList]
    [.delete "1".toList [], .index "2".toList [] []] (by simp)).mpr (by simp)

/-- An empty plan in one payload. -/
theorem empty_plan_raises :
    ¬ ∀ (number : ℚ → Str) (indexes : List Str) (requests : List PlanRequest) (batchSize : Option ℕ),
      (∀ q, '\n' ∉ number q) → (∀ n ∈ batchSize, 1 ≤ n) →
      (build number indexes requests).Batched batchSize := by
  intro h
  obtain ⟨payloads, hok, -⟩ := h (fun _ => ['0']) ["case".toList] [] none (fun _ => by decide)
    (fun n hn => by cases hn)
  cases hok

end BulkPlan

end Howler.Datastore
