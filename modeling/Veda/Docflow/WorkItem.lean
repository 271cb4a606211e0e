import Veda.Docflow.Individuals

/-! # Work items

The model of the join in `prepare_work_item` of `docflow.js`, with the search in the tree of work
items in `docflow-util.js`: which messages of a work item go past the join. -/

namespace Veda.Docflow

section
variable (base : Base) (items : List WorkItem)

/-! ## The tree of work items -/

/-- `rsffiwit`: the work items below `workItemList` that are for an element and not completed, each
with its parent. A work item is created after its parent, so that the depth of the tree is at most
the number of work items. -/
def rsffiwit (compareValue : Uri) : ℕ → Option ℕ → List ℕ → List (Option ℕ × ℕ)
  | 0, _, _ => []
  | depth + 1, parent, workItemList => workItemList.flatMap fun w =>
    match items[w]? with
    | none => []
    | some item =>
      (if item.forNetElement = some compareValue ∧ item.isCompleted = none then [(parent, w)]
        else []) ++
      rsffiwit compareValue depth (some w) (item.workItemList.getD [])

/-- `find_in_work_item_tree` with the field `v-wf:forNetElement`. -/
def findInWorkItemTree (process : Process) (compareValue : Uri) : List (Option ℕ × ℕ) :=
  rsffiwit items compareValue (items.length + 1) none (process.workItemList.getD [])

/-! ## The scheme -/

/-- `in_flows`: the elements of the net that are flows into an element. -/
def inFlows (element : Uri) (consistsOf : List Uri) : List Uri :=
  consistsOf.filter fun uri =>
    match base.netElements uri with
    | none => false
    | some found => .flow ∈ found.type ∧ found.flowsInto = some element

/-- The flows of an element are noted in `task2flow`, if it is a task. -/
def noteFlows (task2flow : Uri → Option Uri) (uri : Uri) : Uri → Option Uri :=
  match base.netElements uri with
  | none => task2flow
  | some found =>
    if .flow ∈ found.type then task2flow
    else if .task ∈ found.type then fun flow =>
      if flow ∈ found.hasFlow.getD [] then some uri else task2flow flow
    else task2flow

def task2flow (consistsOf : List Uri) : Uri → Option Uri :=
  consistsOf.foldl (noteFlows base) fun _ => none

/-! ## The join -/

/-- The element that the parent of a work item is for. A process is for none. -/
def foundOutTask (parent : Option ℕ) : Option Uri :=
  parent.bind fun p => (items[p]?).bind (·.forNetElement)

/-- The found work items are gone through until one has a parent for the given element. There is
no result where one of them is being executed. -/
def scan (shemaOutTask : Option Uri) : List (Option ℕ × ℕ) → Option Bool
  | [] => some false
  | (parent, w) :: fne =>
    if (items[w]?).bind (·.isExecuted) ≠ none then none
    else if shemaOutTask = foundOutTask items parent then some true
    else scan shemaOutTask fne

/-- `and_join_count_complete`. -/
def andJoinCount (task2flow : Uri → Option Uri) (fne : List (Option ℕ × ℕ)) :
    List Uri → Option ℕ
  | [] => some 0
  | flow :: flows =>
    match scan items (task2flow flow) fne with
    | none => none
    | some found => (andJoinCount task2flow fne flows).map (· + if found then 1 else 0)

/-- Whether an AND join lets a work item pass. -/
def andJoin (process : Process) (net : Net) (element : Uri) : Bool :=
  let consistsOf := net.consistsOf.getD []
  let flows := inFlows base element consistsOf
  let fne := findInWorkItemTree items process element
  fne.length = flows.length &&
    andJoinCount items (task2flow base consistsOf) fne flows = some flows.length

/-- `prepare_work_item` up to the place where the work item is marked as executed: the work items
after that, or nothing where the handler ends before. -/
def prepareWorkItem (w : ℕ) (document : WorkItem) : Option (List WorkItem) := do
  let process ← document.forProcess.bind base.processes
  let net ← process.instanceOf.bind base.nets
  let forNetElement ← document.forNetElement
  let netElement ← base.netElements forNetElement
  guard (document.isCompleted ≠ some true)
  guard (netElement.join = some "v-wf:AND" → andJoin base items process net forNetElement)
  return items.set w { document with isExecuted := some true }

end

end Veda.Docflow
