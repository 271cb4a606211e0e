import Veda.Docflow.WorkOrder

/-! # A step of a workflow is taken once

Orders are delivered to `prepare_work_order` in any order and as often as they may be, and others
write what is not a work item in between. The steps that follow a work item are taken once as long
as no order of a completed work item is delivered when all its results are there. -/

namespace Veda.Docflow

open Veda.Run

/-! ## Runs -/

inductive Event where
  /-- A change of an order is delivered. -/
  | deliver (uri : Uri) (document : WorkOrder)
  /-- Others have written individuals. -/
  | others (base : Base)

def step (sc : Scripts) (e : Event) (st : State) : State :=
  match e with
  | .deliver uri document => prepareWorkOrder sc uri document st
  | .others base => { st with base }

/-- Along no flow of a work item two work items are created. -/
def TakenOnce (st : State) : Prop := st.taken.Nodup

/-- An order has no result: it has none in the store, or it is the delivered one, has none and
waits for a person or a subprocess. -/
def Awaited (f : Found) (uri : Uri) (document : WorkOrder) (base : Base) (order : Uri) : Prop :=
  if order = uri then
    document.outVars = none ∧ ∃ executor ∈ f.executor, .codelet ∉ executor.type
  else (base.workOrders order).bind (·.outVars) = none

/-- The work item of the delivered order is not completed, or one of its orders has no result. -/
def Timely (e : Event) (st : State) : Prop :=
  match e with
  | .deliver uri document => ∀ f ∈ findOrder document st, f.item.isCompleted = some true →
    ∀ orders ∈ f.item.workOrderList, ∃ order ∈ orders, Awaited f uri document st.base order
  | .others _ => True

instance (f : Found) (uri : Uri) (document : WorkOrder) (base : Base) (order : Uri) :
    Decidable (Awaited f uri document base order) :=
  inferInstanceAs (Decidable (if order = uri then
      document.outVars = none ∧ ∃ executor ∈ f.executor, .codelet ∉ executor.type
    else (base.workOrders order).bind (·.outVars) = none))

instance (e : Event) (st : State) : Decidable (Timely e st) :=
  match e with
  | .deliver uri document =>
    inferInstanceAs (Decidable (∀ f ∈ findOrder document st, f.item.isCompleted = some true →
      ∀ orders ∈ f.item.workOrderList, ∃ order ∈ orders, Awaited f uri document st.base order))
  | .others _ => .isTrue trivial

/-! ## What is found and collected -/

section
variable {sc : Scripts} {f : Found} {uri : Uri} {document : WorkOrder} {st : State}

theorem findOrder_item (h : findOrder document st = some f) :
    st.items[f.workItem]? = some f.item := by
  unfold findOrder guard at h
  simp only [bind, Option.bind_eq_some_iff, pure, Option.some.injEq] at h
  obtain ⟨executor, -, workItem, -, item, hitem, forProcess, -, process, -, -, -, forNetElement, -,
    netElement, -, rfl⟩ := h
  exact hitem

@[simp] theorem items_putVars (vars : Vars) : (st.putVars vars).items = st.items := rfl

@[simp] theorem taken_putVars (vars : Vars) : (st.putVars vars).taken = st.taken := rfl

@[simp] theorem items_putWorkOrder : (st.putWorkOrder uri document).items = st.items := rfl

@[simp] theorem taken_putWorkOrder : (st.putWorkOrder uri document).taken = st.taken := rfl

/-- Work items and steps stay, and of the orders only one may be written. -/
structure Kept (uri : Uri) (st st' : State) : Prop where
  items : st'.items = st.items
  taken : st'.taken = st.taken
  workOrders : ∀ order, order ≠ uri → st'.base.workOrders order = st.base.workOrders order

theorem Kept.refl : Kept uri st st := ⟨rfl, rfl, fun _ _ => rfl⟩

theorem Kept.putVars (vars : Vars) : Kept uri st (st.putVars vars) := ⟨rfl, rfl, fun _ _ => rfl⟩

theorem Kept.putWorkOrder (h : Kept uri st st') : Kept uri st (st'.putWorkOrder uri document) :=
  ⟨h.items, h.taken, fun order hne =>
    (Function.update_of_ne hne _ _).trans (h.workOrders order hne)⟩

theorem kept_createNewSubprocess : Kept uri st (createNewSubprocess uri document st) := by
  unfold createNewSubprocess
  split
  next => exact Kept.refl.putWorkOrder
  next =>
    split
    next => exact Kept.refl.putWorkOrder
    next => exact .refl

theorem kept_runCodelet (executor : Executor) :
    Kept uri st (runCodelet sc f uri document executor st).1 := by
  unfold runCodelet
  split
  next => exact .refl
  next =>
    split
    next => exact .putVars _
    next =>
      split
      next => exact .putVars _
      next => exact (Kept.putVars _).putWorkOrder

theorem kept_startWorkOrder : Kept uri st (startWorkOrder sc f uri document st).1 := by
  unfold startWorkOrder
  split
  next => exact (Kept.putVars _).putWorkOrder
  next executor hexecutor =>
    split
    next => exact kept_runCodelet executor
    next =>
      split
      next => exact .refl
      next =>
        split
        next => exact kept_createNewSubprocess
        next => exact .refl

/-- An order that waits for a person or a subprocess gets no results. -/
theorem outVars_startWorkOrder (hexecutor : f.executor = some executor)
    (hcodelet : .codelet ∉ executor.type)
    (h : (startWorkOrder sc f uri document st).2 = some (document', taskOutputVars)) :
    document' = document := by
  simp only [startWorkOrder, hexecutor, if_neg hcodelet] at h
  split at h
  next => exact absurd h nofun
  next => split at h <;> exact (congrArg Prod.fst (Option.some.inj h)).symm

theorem length_collectResults {netElement : NetElement} {base : Base} {orders : List Uri}
    {h : Hoisted} {results : List Result}
    (hresults : collectResults uri document netElement base orders h = some results) :
    results.length ≤ orders.length := by
  induction orders generalizing h results with
  | nil =>
    cases hresults
    exact Nat.le_refl 0
  | cons order orders ih =>
    simp only [collectResults] at hresults
    split at hresults
    next => exact absurd hresults nofun
    next =>
      split at hresults
      next => exact Nat.le_succ_of_le (ih hresults)
      next =>
        split at hresults
        next => exact Nat.le_succ_of_le (ih hresults)
        next =>
          obtain ⟨rest, hrest, rfl⟩ := Option.map_eq_some_iff.mp hresults
          exact Nat.succ_le_succ (ih hrest)

/-- Where an order has no result, there are fewer results than orders. -/
theorem length_collectResults_lt {netElement : NetElement} {base : Base} {orders : List Uri}
    {h : Hoisted} {results : List Result} (hmem : order ∈ orders)
    (hnone : (if order = uri then some document else base.workOrders order).bind (·.outVars) = none)
    (hresults : collectResults uri document netElement base orders h = some results) :
    results.length < orders.length := by
  induction orders generalizing h results with
  | nil => exact absurd hmem List.not_mem_nil
  | cons order' orders ih =>
    simp only [collectResults] at hresults
    split at hresults
    next => exact absurd hresults nofun
    next workOrder hfound =>
      split at hresults
      next => exact Nat.lt_succ_of_le (length_collectResults hresults)
      next outVars houtVars =>
        have hmem : order ∈ orders := by
          refine (List.mem_cons.mp hmem).resolve_left ?_
          rintro rfl
          rw [hfound, Option.bind_some, houtVars] at hnone
          exact absurd hnone nofun
        split at hresults
        next => exact Nat.lt_succ_of_lt (ih hmem hresults)
        next =>
          obtain ⟨rest, hrest, rfl⟩ := Option.map_eq_some_iff.mp hresults
          exact Nat.succ_lt_succ (ih hmem hrest)

/-! ## The flows -/

/-- What is created along flows: work items at the end, and for each of them the place of its
flow. -/
structure Follows (f : Found) (places : List ℕ) (st st' : State) : Prop where
  items : ∃ new : List WorkItem, st'.items = st.items ++ new
  taken : ∃ made : List ℕ, made.Sublist places ∧ st'.taken = st.taken ++ made.map (f.workItem, ·)

theorem follows_takeFlows (results : List Result) (flows : List (Uri × ℕ)) :
    Follows f (flows.map Prod.snd) st (takeFlows sc f results flows st).1 := by
  induction flows generalizing st with
  | nil => exact ⟨⟨[], (List.append_nil _).symm⟩, [], .slnil, (List.append_nil _).symm⟩
  | cons flow flows ih =>
    obtain ⟨flow, place⟩ := flow
    simp only [takeFlows]
    split
    next => exact ⟨⟨[], (List.append_nil _).symm⟩, [], List.nil_sublist _, (List.append_nil _).symm⟩
    next =>
      obtain ⟨hitems, made, hmade, htaken⟩ := @ih st
      exact ⟨hitems, made, hmade.cons place, htaken⟩
    next next _ => exact ⟨⟨_, rfl⟩, [place], (List.nil_sublist _).cons_cons place, rfl⟩
    next next _ =>
      obtain ⟨⟨new, hitems⟩, made, hmade, htaken⟩ :=
        @ih (st.createWorkItem f.process next f.workItem place)
      exact ⟨⟨_ :: new, hitems.trans (List.append_assoc _ [_] new)⟩, place :: made,
        hmade.cons_cons place, htaken.trans (List.append_assoc _ [_] _)⟩

theorem nodup_places {flows : List Uri} : (flows.zipIdx.map Prod.snd).Nodup := by
  rw [List.zipIdx_map_snd]
  exact List.nodup_range'

/-! ## The invariant -/

/-- A work item after which a step was taken is completed. -/
structure Inv (st : State) : Prop where
  nodup : st.taken.Nodup
  completed : ∀ t ∈ st.taken, (st.items[t.1]?).bind (·.isCompleted) = some true

theorem Inv.kept (h : Inv st) (hkept : Kept uri st st') : Inv st' := by
  refine ⟨hkept.taken ▸ h.nodup, fun t ht => ?_⟩
  rw [hkept.items]
  exact h.completed t (hkept.taken ▸ ht)

/-- After the step the work item is completed, and the others are as they were. -/
theorem items_gotoNextTask (hitem : st.items[f.workItem]? = some f.item) :
    ((gotoNextTask sc f results taskOutputVars st).items[f.workItem]?).bind (·.isCompleted) =
        some true ∧
      ∀ i, i < st.items.length → i ≠ f.workItem →
        (gotoNextTask sc f results taskOutputVars st).items[i]? = st.items[i]? := by
  have hbound : f.workItem < st.items.length := (List.getElem?_eq_some_iff.mp hitem).1
  obtain ⟨new, hnew⟩ := (@follows_takeFlows sc f
    (st.putVars (mapResults sc f results taskOutputVars st).1) results
    (f.netElement.hasFlow.getD []).zipIdx).items
  simp only [gotoNextTask, State.completeWorkItem, hnew, items_putVars]
  refine ⟨?_, fun i hi hne => ?_⟩
  · rw [List.getElem?_set_self (by rw [List.length_append]; omega)]
    rfl
  · rw [List.getElem?_set_ne hne.symm, List.getElem?_append_left hi]

/-- The step is noted once for each flow along which a work item was created. -/
theorem taken_gotoNextTask :
    ∃ made : List ℕ, made.Nodup ∧ (gotoNextTask sc f results taskOutputVars st).taken =
      st.taken ++ made.map (f.workItem, ·) := by
  obtain ⟨made, hmade, htaken⟩ := (@follows_takeFlows sc f
    (st.putVars (mapResults sc f results taskOutputVars st).1) results
    (f.netElement.hasFlow.getD []).zipIdx).taken
  exact ⟨made, nodup_places.sublist hmade, htaken⟩

/-- The step of a work item that is not completed. -/
theorem Inv.gotoNextTask (h : Inv st) (hitem : st.items[f.workItem]? = some f.item)
    (hnot : f.item.isCompleted ≠ some true) :
    Inv (gotoNextTask sc f results taskOutputVars st) := by
  obtain ⟨hself, hother⟩ := @items_gotoNextTask sc f st results taskOutputVars hitem
  obtain ⟨made, hmade, htaken⟩ := @taken_gotoNextTask sc f st results taskOutputVars
  have hfresh : ∀ t ∈ st.taken, t.1 ≠ f.workItem := by
    intro t ht heq
    have hcompleted := h.completed t ht
    rw [heq, hitem] at hcompleted
    exact hnot hcompleted
  refine ⟨?_, fun t ht => ?_⟩
  · rw [htaken]
    refine List.nodup_append.mpr ⟨h.nodup, ?_, fun t ht t' ht' => ?_⟩
    · exact hmade.map fun _ _ heq => congrArg Prod.snd heq
    · obtain ⟨place, -, rfl⟩ := List.mem_map.mp ht'
      rintro rfl
      exact hfresh _ ht rfl
  · rw [htaken] at ht
    obtain ht | ht := List.mem_append.mp ht
    · have hcompleted := h.completed t ht
      obtain ⟨item, hget, -⟩ := Option.bind_eq_some_iff.mp hcompleted
      rw [hother t.1 (List.getElem?_eq_some_iff.mp hget).1 (hfresh t ht)]
      exact hcompleted
    · obtain ⟨place, -, rfl⟩ := List.mem_map.mp ht
      exact hself

/-- The results are collected of a work item that is not completed, or has an order without a
result. -/
theorem Inv.finishWorkOrder (h : Inv st) (hitem : st.items[f.workItem]? = some f.item)
    (hnot : f.item.isCompleted = some true → ∀ orders ∈ f.item.workOrderList, ∃ order ∈ orders,
      (if order = uri then some document else st.base.workOrders order).bind (·.outVars) = none) :
    Inv (finishWorkOrder sc f uri document taskOutputVars st) := by
  unfold Docflow.finishWorkOrder
  split
  next => exact h
  next orders horders =>
    split
    next => exact h
    next results hresults =>
      split
      next hlength =>
        refine h.gotoNextTask hitem fun hcompleted => ?_
        obtain ⟨order, hmem, hnone⟩ := hnot hcompleted orders horders
        exact absurd hlength (Nat.ne_of_lt (length_collectResults_lt hmem hnone hresults))
      next => exact h

theorem Inv.prepareWorkOrder (h : Inv st) (htimely : Timely (.deliver uri document) st) :
    Inv (prepareWorkOrder sc uri document st) := by
  unfold Docflow.prepareWorkOrder
  split
  next => exact h
  next f hf =>
    have hitem := findOrder_item hf
    have hawaited := htimely f hf
    split
    next hnone =>
      have hkept := @kept_startWorkOrder sc f uri document st
      split
      next st' heq =>
        rw [heq] at hkept
        exact h.kept hkept
      next st' document' taskOutputVars heq =>
        rw [heq] at hkept
        refine (h.kept hkept).finishWorkOrder (hkept.items ▸ hitem)
          fun hcompleted orders horders => ?_
        obtain ⟨order, hmem, horder⟩ := hawaited hcompleted orders horders
        refine ⟨order, hmem, ?_⟩
        unfold Awaited at horder
        split at horder
        next heqUri =>
          obtain ⟨-, executor, hexecutor, hcodelet⟩ := horder
          rw [if_pos heqUri, outVars_startWorkOrder hexecutor hcodelet (congrArg Prod.snd heq)]
          exact hnone
        next hne =>
          rw [if_neg hne, hkept.workOrders order hne]
          exact horder
    next hsome =>
      refine h.finishWorkOrder hitem fun hcompleted orders horders => ?_
      obtain ⟨order, hmem, horder⟩ := hawaited hcompleted orders horders
      refine ⟨order, hmem, ?_⟩
      unfold Awaited at horder
      split at horder
      next => exact absurd horder.1 hsome
      next hne =>
        rw [if_neg hne]
        exact horder

theorem Inv.step (e : Event) (st : State) (h : Inv st) (htimely : Timely e st) :
    Inv (step sc e st) := by
  cases e with
  | deliver uri document => exact h.prepareWorkOrder htimely
  | others base => exact ⟨h.nodup, h.completed⟩

end

/-! ## The result -/

/-- The store before the first delivery. -/
def State.init (base : Base) (items : List WorkItem) : State := ⟨base, items, []⟩

theorem Inv.init (base : Base) (items : List WorkItem) : Inv (.init base items) :=
  ⟨List.nodup_nil, nofun⟩

/-- **Every step is taken once** in a run where no order of a completed work item is delivered when
all its results are there. -/
theorem taken_once (sc : Scripts) (base : Base) (items : List WorkItem) (es : List Event)
    (h : Along (step sc) Timely (.init base items) es) :
    Throughout (step sc) TakenOnce (.init base items) es :=
  h.throughout (.init base items) Inv.step fun _ h => h.nodup

/-- A task for two people, after which there is one more task. -/
def review : Uri → Option NetElement
  | "review" => some ⟨[.task], none, some "form", none, some ["flow"], none, none, none, none⟩
  | "flow" => some ⟨[.flow], none, none, none, none, none, none, some "publish", none⟩
  | "publish" => some ⟨[.task], none, none, none, none, none, none, none, none⟩
  | _ => none

/-- The order for a person. -/
def reviewOrder (executor : Uri) (outVars : Option (List Uri)) : WorkOrder :=
  ⟨some executor, some 0, none, outVars⟩

/-- The individuals when the two orders have some results. -/
def reviewBase (first second : Option (List Uri)) : Base where
  workOrders
    | "first" => some (reviewOrder "alice" first)
    | "second" => some (reviewOrder "bob" second)
    | _ => none
  vars uri := if uri = "agreed" then some ⟨some "result", some ["yes"]⟩ else none
  executors uri := if uri = "alice" ∨ uri = "bob" then some ⟨[.position], none⟩ else none
  processes uri := if uri = "process" then some ⟨none, some [0], false⟩ else none
  nets _ := none
  netElements := review
  transforms uri := uri = "form"

/-- The work item of the two orders. -/
def reviewItem : WorkItem :=
  { WorkItem.new "process" "review" none with workOrderList := some ["first", "second"] }

/-- There are no mappings, codelets or predicates. -/
def noScripts : Scripts where
  mapping _ _ _ st := (st.base.vars, [])
  codelet _ _ st := (st.base.vars, none)
  decisionForms _ _ _ := true
  predicate _ _ _ _ := none

/-- The orders are made, one person answers, then the other one, and the first message comes once
more. -/
def answeredInTurn : List Event :=
  [.deliver "first" (reviewOrder "alice" none), .deliver "second" (reviewOrder "bob" none),
    .others (reviewBase (some ["agreed"]) none),
    .deliver "first" (reviewOrder "alice" (some ["agreed"])),
    .others (reviewBase (some ["agreed"]) (some ["agreed"])),
    .deliver "second" (reviewOrder "bob" (some ["agreed"])),
    .deliver "first" (reviewOrder "alice" none)]

theorem taken_once_answeredInTurn :
    Throughout (step noScripts) TakenOnce (.init (reviewBase none none) [reviewItem])
      answeredInTurn ∧
    (run (step noScripts) (.init (reviewBase none none) [reviewItem]) answeredInTurn).taken =
      [(0, 0)] :=
  ⟨taken_once noScripts _ _ _ (by decide), by decide⟩

/-- Both people have answered before the first answer is delivered. -/
theorem not_taken_once :
    ¬ ∀ (sc : Scripts) (base : Base) (items : List WorkItem) (es : List Event),
      Throughout (step sc) TakenOnce (.init base items) es := by
  intro h
  have htwice := (h noScripts (reviewBase (some ["agreed"]) (some ["agreed"])) [reviewItem]
    [.deliver "first" (reviewOrder "alice" (some ["agreed"])),
      .deliver "second" (reviewOrder "bob" (some ["agreed"]))]).run
  exact absurd htwice (by unfold TakenOnce; decide)

end Veda.Docflow
