import Mathlib.Data.List.Nodup
import Mathlib.Logic.Function.Basic
import Veda.Docflow.Individuals
import Veda.Lib.Run

/-! # Work orders

The model of `prepare_work_order` in `docflow.js`: the results of the orders of a work item are
collected, and when every order has one the work items that follow along the flows of its element
are created. What is written to journals, messages and rights is left out. -/

namespace Veda.Docflow

open Veda.Run

/-! ## The store -/

/-- The stored individuals. `taken` notes for each work item that was created along a flow the one
it follows and the place of the flow in `v-wf:hasFlow`. -/
structure State where
  base : Base
  items : List WorkItem
  taken : List (ℕ × ℕ)

abbrev Vars := Uri → Option Variable

def State.putVars (vars : Vars) (st : State) : State :=
  { st with base := { st.base with vars } }

def State.putWorkOrder (uri : Uri) (workOrder : WorkOrder) (st : State) : State :=
  { st with
    base := { st.base with
      workOrders := Function.update st.base.workOrders uri (some workOrder) } }

/-- The result of an order: what is assigned to the fields of `el`. -/
structure Result where
  workOrder : Uri
  fields : List (String × Option (List Uri))

/-- What the expressions that are kept in individuals compute. They may write variables. -/
structure Scripts where
  /-- `create_and_mapping_variables`, where variables are stored. -/
  mapping : List Uri → Option (List Result) → ℕ → State → Vars × List Uri
  /-- The script of a codelet with `store_items_and_set_minimal_rights`, if it does not throw. -/
  codelet : String → ℕ → State → Vars × Option (List Uri)
  /-- Whether the decision forms of an order are made without an exception. -/
  decisionForms : Uri → Uri → State → Bool
  /-- The predicate of a flow: whether it is `true`, if it does not throw. -/
  predicate : String → List Result → ℕ → State → Option Bool

/-! ## The order -/

/-- What is found for an order: its executor, its work item and the element of the net. -/
structure Found where
  executor : Option Executor
  workItem : ℕ
  item : WorkItem
  process : Uri
  netElement : NetElement

/-- The executor of an order: there is none, or it must be found. -/
def findExecutor (document : WorkOrder) (base : Base) : Option (Option Executor) :=
  match document.executor with
  | none => some none
  | some uri => (base.executors uri).map some

/-- What `prepare_work_order` reads first. It ends where something is not found, or the process is
stopped. -/
def findOrder (document : WorkOrder) (st : State) : Option Found := do
  let executor ← findExecutor document st.base
  let workItem ← document.forWorkItem
  let item ← st.items[workItem]?
  let forProcess ← item.forProcess
  let process ← st.base.processes forProcess
  guard (process.isStopped = false)
  let forNetElement ← item.forNetElement
  let netElement ← st.base.netElements forNetElement
  return ⟨executor, workItem, item, forProcess, netElement⟩

section
variable (sc : Scripts) (f : Found) (uri : Uri) (document : WorkOrder)

/-- Whether the forms for the executor of an order are made. -/
def makeDecisionForms (st : State) : Bool :=
  match f.netElement.startDecisionTransform with
  | none => false
  | some transform => st.base.transforms transform && sc.decisionForms transform uri st

/-- `create_new_subprocess`, as far as it writes the order. -/
def createNewSubprocess (st : State) : State :=
  match document.useSubNet with
  | none => st.putWorkOrder uri document
  | some net => if (st.base.nets net).isSome then st.putWorkOrder uri document else st

/-- An order without an executor: its results are those of the mapping, or `v-wf:complete`. -/
def completeEmpty (st : State) : State × Option (WorkOrder × List Uri) :=
  let (vars, outVars) :=
    match f.netElement.completedMapping with
    | none => (st.base.vars, ["v-wf:complete"])
    | some mapping => sc.mapping mapping none f.workItem st
  let outVars := if outVars = [] then ["v-wf:complete"] else outVars
  let document := { document with outVars := some outVars }
  ((st.putVars vars).putWorkOrder uri document, some (document, outVars))

/-- An order for a codelet. -/
def runCodelet (executor : Executor) (st : State) : State × Option (WorkOrder × List Uri) :=
  match executor.script.filter (· ≠ "") with
  | none => (st, none)
  | some expression =>
    match sc.codelet expression f.workItem st with
    | (vars, none) => (st.putVars vars, none)
    | (vars, some outVars) =>
      if outVars = [] then (st.putVars vars, some (document, []))
      else
        let document := { document with outVars := some outVars }
        ((st.putVars vars).putWorkOrder uri document, some (document, []))

/-- What is done with an order that has no results: the order as it is after that, and
`task_output_vars`. There is nothing where the handler ends. -/
def startWorkOrder (st : State) : State × Option (WorkOrder × List Uri) :=
  match f.executor with
  | none => completeEmpty sc f uri document st
  | some executor =>
    if .codelet ∈ executor.type then runCodelet sc f uri document executor st
    else if (.appointment ∈ executor.type ∨ .position ∈ executor.type) ∧
        document.useSubNet = none ∧ makeDecisionForms sc f uri st = false then
      (st, none)
    else if .net ∈ executor.type ∨ document.useSubNet ≠ none then
      (createNewSubprocess uri document st, some (document, []))
    else (st, some (document, []))

/-! ## The results -/

/-- `key` and `val`, which keep their values from one variable to the next. -/
structure Hoisted where
  key : Option String
  val : Option (List Uri)

def Hoisted.read (var : Variable) (h : Hoisted) : Hoisted :=
  ⟨var.variableName.or h.key, var.variableValue.or h.val⟩

/-- The assignments to the fields of the result of an order. -/
def collectFields (netElement : NetElement) (vars : Vars) :
    List Uri → Hoisted → Hoisted × List (String × Option (List Uri))
  | [], h => (h, [])
  | outVar :: outVars, h =>
    match vars outVar with
    | none => collectFields netElement vars outVars h
    | some result =>
      if netElement.wosResultsMapping ≠ none then collectFields netElement vars outVars h
      else
        let h := h.read result
        let (last, fields) := collectFields netElement vars outVars h
        match h.key with
        | none => (last, fields)
        | some key => (last, (key, h.val) :: fields)

/-- `work_item_result`. The delivered order is not read again; where another one is missing there is
an exception. -/
def collectResults (netElement : NetElement) (base : Base) :
    List Uri → Hoisted → Option (List Result)
  | [], _ => some []
  | order :: orders, h =>
    match if order = uri then some document else base.workOrders order with
    | none => none
    | some workOrder =>
      match workOrder.outVars with
      | none => collectResults netElement base orders h
      | some outVars =>
        let (h, fields) := collectFields netElement base.vars outVars h
        let results := collectResults netElement base orders h
        if fields = [] then results else results.map (⟨order, fields⟩ :: ·)

/-! ## The next work items -/

/-- The element that `flow` goes to now, if it goes to one, and whether it is the last flow. -/
def takeFlow (results : List Result) (flow : Uri) (st : State) : Option Uri × Bool :=
  match st.base.netElements flow with
  | none => (none, false)
  | some element =>
    match element.flowsInto with
    | none => (none, false)
    | some next =>
      let next := if (st.base.netElements next).isSome then some next else none
      match element.predicate with
      | none => if f.netElement.split = none then (next, false) else (none, false)
      | some expression =>
        if expression ≠ "" ∧ sc.predicate expression results f.workItem st = some true then
          (next, f.netElement.split = some "v-wf:XOR")
        else (none, false)

/-- `create_work_item` along the flow at a place. -/
def State.createWorkItem (process next : Uri) (previous place : ℕ) (st : State) : State :=
  { st with
    items := st.items ++ [.new process next (some previous)]
    taken := st.taken ++ [(previous, place)] }

/-- Along the flows, given with their places, one after the other: the new work items. -/
def takeFlows (results : List Result) : List (Uri × ℕ) → State → State × List ℕ
  | [], st => (st, [])
  | (flow, place) :: flows, st =>
    match takeFlow sc f results flow st with
    | (none, true) => (st, [])
    | (none, false) => takeFlows results flows st
    | (some next, true) => (st.createWorkItem f.process next f.workItem place, [st.items.length])
    | (some next, false) =>
      let (st', workItemList) :=
        takeFlows results flows (st.createWorkItem f.process next f.workItem place)
      (st', st.items.length :: workItemList)

/-- The work item is completed. -/
def State.completeWorkItem (workItemList : List ℕ) (outVars : List Uri) (st : State) : State :=
  { st with
    items := st.items.set f.workItem
      { f.item with
        isCompleted := some true
        workItemList := if workItemList = [] then f.item.workItemList else some workItemList
        outVars := if outVars = [] then f.item.outVars else some outVars } }

/-- `task_output_vars` when `is_goto_to_next_task`. -/
def mapResults (results : List Result) (taskOutputVars : List Uri) (st : State) :
    Vars × List Uri :=
  match f.netElement.completedMapping with
  | none => (st.base.vars, taskOutputVars)
  | some mapping => sc.mapping mapping (some results) f.workItem st

/-- What is done when `is_goto_to_next_task`. -/
def gotoNextTask (results : List Result) (taskOutputVars : List Uri) (st : State) : State :=
  let mapped := mapResults sc f results taskOutputVars st
  let followed := takeFlows sc f results (f.netElement.hasFlow.getD []).zipIdx (st.putVars mapped.1)
  followed.1.completeWorkItem f followed.2 mapped.2

/-- The results are collected; where every order has one, the next work items are created. -/
def finishWorkOrder (taskOutputVars : List Uri) (st : State) : State :=
  match f.item.workOrderList with
  | none => st
  | some orders =>
    match collectResults uri document f.netElement st.base orders ⟨none, none⟩ with
    | none => st
    | some results =>
      if results.length = orders.length then gotoNextTask sc f results taskOutputVars st else st

/-- `prepare_work_order`. -/
def prepareWorkOrder (st : State) : State :=
  match findOrder document st with
  | none => st
  | some f =>
    if document.outVars = none then
      match startWorkOrder sc f uri document st with
      | (st, none) => st
      | (st, some (document, taskOutputVars)) => finishWorkOrder sc f uri document taskOutputVars st
    else finishWorkOrder sc f uri document [] st

end

end Veda.Docflow
