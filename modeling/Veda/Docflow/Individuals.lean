import Mathlib.Data.Nat.Notation

/-! # The individuals of a workflow

The individuals that `docflow.js` reads and writes, with the fields it uses of them. A field is
`none` where the individual does not have it; of a field that is read by `getUri` or `getFirstValue`
there is the first value only. Work items are known by their places in the list of all that were
put, so that the uri which `genUri` gives to a new one is the next place. -/

namespace Veda.Docflow

abbrev Uri := String

/-- `v-wf:Variable`. -/
structure Variable where
  variableName : Option String
  variableValue : Option (List Uri)
  deriving DecidableEq

/-- `v-wf:WorkOrder`. -/
structure WorkOrder where
  executor : Option Uri
  forWorkItem : Option ℕ
  useSubNet : Option Uri
  outVars : Option (List Uri)
  deriving DecidableEq

/-- `v-wf:WorkItem`. -/
structure WorkItem where
  forProcess : Option Uri
  forNetElement : Option Uri
  previousWorkItem : Option ℕ
  workOrderList : Option (List Uri)
  workItemList : Option (List ℕ)
  outVars : Option (List Uri)
  isCompleted : Option Bool
  isExecuted : Option Bool
  deriving DecidableEq

/-- The work item that `create_work_item` makes. -/
def WorkItem.new (process element : Uri) (previous : Option ℕ) : WorkItem where
  forProcess := some process
  forNetElement := some element
  previousWorkItem := previous
  workOrderList := none
  workItemList := none
  outVars := none
  isCompleted := none
  isExecuted := none

/-- `v-wf:Process`: whether `v-wf:isStopped` is true, and the others. -/
structure Process where
  instanceOf : Option Uri
  workItemList : Option (List ℕ)
  isStopped : Bool
  deriving DecidableEq

/-- What can be a type of an element of a net. -/
inductive ElementType where
  | flow
  | task
  | inputCondition
  | condition
  | outputCondition
  deriving DecidableEq

/-- An element of a net: its `rdf:type` and the fields of tasks, of conditions and of flows. -/
structure NetElement where
  type : List ElementType
  completedMapping : Option (List Uri)
  startDecisionTransform : Option Uri
  wosResultsMapping : Option (List Uri)
  hasFlow : Option (List Uri)
  split : Option Uri
  join : Option Uri
  flowsInto : Option Uri
  predicate : Option String
  deriving DecidableEq

/-- `v-wf:Net`. -/
structure Net where
  consistsOf : Option (List Uri)
  deriving DecidableEq

/-- The types of an executor that `prepare_work_order` asks for. -/
inductive ExecutorType where
  | appointment
  | position
  | codelet
  | net
  deriving DecidableEq

/-- Whom an order is for. -/
structure Executor where
  type : List ExecutorType
  script : Option String
  deriving DecidableEq

/-- The individuals that are not work items. -/
structure Base where
  workOrders : Uri → Option WorkOrder
  vars : Uri → Option Variable
  executors : Uri → Option Executor
  processes : Uri → Option Process
  nets : Uri → Option Net
  netElements : Uri → Option NetElement
  /-- Whether there is such a transform. -/
  transforms : Uri → Bool

end Veda.Docflow
