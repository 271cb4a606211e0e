import Mathlib.Data.List.Perm.Subperm
import Veda.Docflow.WorkItem
import Veda.Lib.Forest
import Veda.Lib.Run

/-! # An AND join is passed once

The work items of a process come into being one after the other, and the messages of those for an
element with an AND join are delivered to `prepare_work_item` in any order and as often as they may
be. -/

namespace Veda.Docflow

open Veda.Run Veda.Forest

/-! ## Runs -/

/-- A process in a net, with its one work item for the input condition, and an element of the net
that has an AND join. -/
structure JoinNet where
  base : Base
  uri : Uri
  process : Process
  instanceOf : Uri
  net : Net
  start : Uri
  element : Uri
  netElement : NetElement
  process_eq : base.processes uri = some process
  instanceOf_eq : process.instanceOf = some instanceOf
  workItemList_eq : process.workItemList = some [0]
  net_eq : base.nets instanceOf = some net
  netElement_eq : base.netElements element = some netElement
  join_eq : netElement.join = some "v-wf:AND"

/-- The work items, the messages about them, and those that have passed the join. -/
structure JoinState where
  items : List WorkItem
  messages : List (ℕ × WorkItem)
  passed : List ℕ

inductive JoinEvent where
  /-- A work item is completed, and work items are created for the elements that follow. -/
  | advance (p : ℕ) (elements : List Uri)
  /-- A message about a work item is delivered. -/
  | deliver (w : ℕ) (document : WorkItem)

namespace JoinNet
variable (j : JoinNet)

def consistsOf : List Uri := j.net.consistsOf.getD []

def init : JoinState :=
  let item := WorkItem.new j.uri j.start none
  ⟨[item], [(0, item)], []⟩

/-- The completed work item. -/
def completeItem (item : WorkItem) (n : ℕ) (elements : List Uri) : WorkItem :=
  { item with
    isCompleted := some true
    workItemList :=
      if elements = [] then item.workItemList else some (List.range' n elements.length) }

/-- The work items after one of them has gone on. -/
def advanced (items : List WorkItem) (p : ℕ) (item : WorkItem) (elements : List Uri) :
    List WorkItem :=
  items.set p (completeItem item items.length elements) ++
    elements.map (WorkItem.new j.uri · (some p))

/-- A work item for the element with the join does not go on before it is executed. -/
def step (e : JoinEvent) (st : JoinState) : JoinState :=
  match e with
  | .advance p elements =>
    match st.items[p]? with
    | none => st
    | some item =>
      if item.forNetElement = some j.element ∧ item.isExecuted = none then st
      else
        { st with
          items := j.advanced st.items p item elements
          messages := st.messages ++ (p, completeItem item st.items.length elements) ::
            ((elements.map (WorkItem.new j.uri · (some p))).zipIdx st.items.length).map Prod.swap }
  | .deliver w document =>
    if (w, document) ∈ st.messages ∧ document.forNetElement = some j.element then
      match prepareWorkItem j.base st.items w document with
      | none => st
      | some items => { st with items, passed := st.passed ++ [w] }
    else st

/-! ## What the join is for -/

end JoinNet

/-- A field of a work item. -/
def view (field : WorkItem → Option α) (items : List WorkItem) (w : ℕ) : Option α :=
  (items[w]?).bind field

namespace JoinNet
variable (j : JoinNet)

/-- A flow of the net into the element. -/
def IsInFlow (flow : Uri) : Prop :=
  flow ∈ j.consistsOf ∧ ∃ found, j.base.netElements flow = some found ∧ .flow ∈ found.type ∧
    found.flowsInto = some j.element

/-- An element of the net that has the flow. -/
def IsSource (flow source : Uri) : Prop :=
  source ∈ j.consistsOf ∧ ∃ found, j.base.netElements source = some found ∧ .flow ∉ found.type ∧
    flow ∈ found.hasFlow.getD []

/-- A work item for the element whose parent is for the source. -/
def IsBranch (items : List WorkItem) (w : ℕ) (source : Uri) : Prop :=
  view (·.forNetElement) items w = some j.element ∧
    foundOutTask items (view (·.previousWorkItem) items w) = some source

/-- For every flow there is a pending work item whose parent is for the source of the flow. -/
def Arrived (st : JoinState) : Prop :=
  ∀ flow, j.IsInFlow flow → ∃ source w, j.IsSource flow source ∧ j.IsBranch st.items w source ∧
    view (·.isCompleted) st.items w ≠ some true

/-- A work item passes the join when all branches have arrived and none has passed it. -/
def JoinsRight (e : JoinEvent) (st : JoinState) : Prop :=
  match e with
  | .deliver w document =>
    (w, document) ∈ st.messages → document.forNetElement = some j.element →
      ((prepareWorkItem j.base st.items w document).isSome ↔ j.Arrived st ∧ st.passed = [])
  | .advance _ _ => True

/-! ## The condition -/

/-- Every flow into the element comes from one task, and no two from the same. -/
structure OneTaskEach : Prop where
  start_ne : j.start ≠ j.element
  nodup : j.consistsOf.Nodup
  source : ∀ flow, j.IsInFlow flow → ∃ source found, j.IsSource flow source ∧
    j.base.netElements source = some found ∧ .task ∈ found.type ∧
      ∀ other, j.IsSource flow other → other = source
  inFlow : ∀ source flow flow', j.IsInFlow flow → j.IsInFlow flow' → j.IsSource flow source →
    j.IsSource flow' source → flow = flow'

/-- A work item is completed once, and a branch arrives once, from the source of a flow. -/
def OncePerBranch (e : JoinEvent) (st : JoinState) : Prop :=
  match e with
  | .advance p elements => view (·.isCompleted) st.items p = none ∧
    (j.element ∈ elements → elements.count j.element = 1 ∧
      ∃ source ∈ view (·.forNetElement) st.items p, ∃ flow ∈ j.consistsOf, j.IsInFlow flow ∧
        j.IsSource flow source ∧ ∀ w < st.items.length, ¬ j.IsBranch st.items w source)
  | .deliver _ _ => True

instance (flow : Uri) : Decidable (j.IsInFlow flow) :=
  inferInstanceAs (Decidable (flow ∈ j.consistsOf ∧ ∃ found ∈ j.base.netElements flow,
    .flow ∈ found.type ∧ found.flowsInto = some j.element))

instance (flow source : Uri) : Decidable (j.IsSource flow source) :=
  inferInstanceAs (Decidable (source ∈ j.consistsOf ∧ ∃ found ∈ j.base.netElements source,
    .flow ∉ found.type ∧ flow ∈ found.hasFlow.getD []))

instance (items : List WorkItem) (w : ℕ) (source : Uri) : Decidable (j.IsBranch items w source) :=
  inferInstanceAs (Decidable (_ ∧ _))

instance (e : JoinEvent) (st : JoinState) : Decidable (j.OncePerBranch e st) :=
  match e with
  | .advance p elements =>
    inferInstanceAs (Decidable (view (·.isCompleted) st.items p = none ∧
      (j.element ∈ elements → elements.count j.element = 1 ∧
        ∃ source ∈ view (·.forNetElement) st.items p, ∃ flow ∈ j.consistsOf, j.IsInFlow flow ∧
          j.IsSource flow source ∧ ∀ w < st.items.length, ¬ j.IsBranch st.items w source)))
  | .deliver _ _ => .isTrue trivial

end JoinNet

/-! ## The scheme -/

section
variable {base : Base} {flow u t : Uri} {consistsOf : List Uri} {init : Uri → Option Uri}

/-- A task that has a flow. -/
def TaskFlow (base : Base) (flow u : Uri) : Prop :=
  ∃ found, base.netElements u = some found ∧ .flow ∉ found.type ∧ .task ∈ found.type ∧
    flow ∈ found.hasFlow.getD []

theorem noteFlows_of_taskFlow (h : TaskFlow base flow u) :
    noteFlows base init u flow = some u := by
  obtain ⟨found, hfound, hflow, htask, hhas⟩ := h
  simp only [noteFlows, hfound, if_neg hflow, if_pos htask, if_pos hhas]

theorem noteFlows_of_not (h : ¬ TaskFlow base flow u) :
    noteFlows base init u flow = init flow := by
  cases hfound : base.netElements u with
  | none => simp only [noteFlows, hfound]
  | some found =>
    simp only [noteFlows, hfound]
    split
    next => rfl
    next hflow =>
      split
      next htask => exact if_neg fun hhas => h ⟨found, hfound, hflow, htask, hhas⟩
      next => rfl

theorem foldl_noteFlows_eq_some (h : consistsOf.foldl (noteFlows base) init flow = some t) :
    (t ∈ consistsOf ∧ TaskFlow base flow t) ∨ init flow = some t := by
  induction consistsOf generalizing init with
  | nil => exact .inr h
  | cons u consistsOf ih =>
    rcases ih h with ⟨hmem, ht⟩ | h
    · exact .inl ⟨List.mem_cons_of_mem u hmem, ht⟩
    · by_cases hu : TaskFlow base flow u
      · rw [noteFlows_of_taskFlow hu] at h
        cases h
        exact .inl ⟨List.mem_cons_self, hu⟩
      · exact .inr ((noteFlows_of_not hu).symm.trans h)

theorem foldl_noteFlows_ne_none
    (h : (∃ u ∈ consistsOf, TaskFlow base flow u) ∨ init flow ≠ none) :
    consistsOf.foldl (noteFlows base) init flow ≠ none := by
  induction consistsOf generalizing init with
  | nil => exact h.resolve_left (by simp)
  | cons u consistsOf ih =>
    refine ih ?_
    by_cases hu : TaskFlow base flow u
    · exact .inr (by rw [noteFlows_of_taskFlow hu]; exact Option.some_ne_none u)
    · rw [noteFlows_of_not hu]
      refine h.imp_left ?_
      rintro ⟨u', hmem, hu'⟩
      rcases List.mem_cons.mp hmem with rfl | hmem
      · exact absurd hu' hu
      · exact ⟨u', hmem, hu'⟩

/-- A flow that one task only has is noted for this task. -/
theorem task2flow_eq (hmem : t ∈ consistsOf) (ht : TaskFlow base flow t)
    (huniq : ∀ u ∈ consistsOf, TaskFlow base flow u → u = t) :
    task2flow base consistsOf flow = some t := by
  have hne : task2flow base consistsOf flow ≠ none :=
    foldl_noteFlows_ne_none (.inl ⟨t, hmem, ht⟩)
  obtain ⟨u, hu⟩ := Option.ne_none_iff_exists'.mp hne
  obtain ⟨hmem', hu'⟩ := (foldl_noteFlows_eq_some hu).resolve_right nofun
  exact hu.trans (congrArg some (huniq u hmem' hu'))

end

/-! ## The count -/

section
variable {items : List WorkItem} {m : Uri → Option Uri} {fne : List (Option ℕ × ℕ)}

theorem scan_eq_true (h : scan items s fne = some true) :
    ∃ x ∈ fne, s = foundOutTask items x.1 ∧ (items[x.2]?).bind (·.isExecuted) = none := by
  induction fne with
  | nil => exact absurd h nofun
  | cons x fne ih =>
    obtain ⟨parent, w⟩ := x
    simp only [scan] at h
    split at h
    next => exact absurd h nofun
    next hexecuted =>
      split at h
      next heq => exact ⟨_, List.mem_cons_self, heq, not_not.mp hexecuted⟩
      next =>
        obtain ⟨x, hmem, hx⟩ := ih h
        exact ⟨x, List.mem_cons_of_mem _ hmem, hx⟩

theorem scan_of_exists (hnone : ∀ x ∈ fne, (items[x.2]?).bind (·.isExecuted) = none)
    (h : ∃ x ∈ fne, s = foundOutTask items x.1) : scan items s fne = some true := by
  induction fne with
  | nil =>
    obtain ⟨x, hmem, -⟩ := h
    exact absurd hmem List.not_mem_nil
  | cons x fne ih =>
    obtain ⟨parent, w⟩ := x
    have hw := hnone _ List.mem_cons_self
    simp only [scan, hw, ne_eq, not_true_eq_false, if_false]
    split
    next => rfl
    next hne =>
      refine ih (fun x hx => hnone x (List.mem_cons_of_mem _ hx)) ?_
      obtain ⟨x, hmem, heq⟩ := h
      rcases List.mem_cons.mp hmem with rfl | hmem
      · exact absurd heq hne
      · exact ⟨x, hmem, heq⟩

theorem andJoinCount_le {flows : List Uri} {c : ℕ} (h : andJoinCount items m fne flows = some c) :
    c ≤ flows.length := by
  induction flows generalizing c with
  | nil =>
    cases h
    exact Nat.le_refl 0
  | cons flow flows ih =>
    simp only [andJoinCount] at h
    split at h
    next => exact absurd h nofun
    next found _ =>
      obtain ⟨c', hc', rfl⟩ := Option.map_eq_some_iff.mp h
      have hle := ih hc'
      simp only [List.length_cons]
      split <;> omega

/-- The count is complete when every flow has been found. -/
theorem andJoinCount_eq_length {flows : List Uri} :
    andJoinCount items m fne flows = some flows.length ↔
      ∀ flow ∈ flows, scan items (m flow) fne = some true := by
  induction flows with
  | nil => simp [andJoinCount]
  | cons flow flows ih =>
    rw [List.forall_mem_cons, ← ih]
    simp only [andJoinCount]
    split
    next hscan => simp [hscan]
    next found hscan =>
      rw [hscan, Option.map_eq_some_iff]
      constructor
      · rintro ⟨c, hc, hlen⟩
        have hle := andJoinCount_le hc
        simp only [List.length_cons] at hlen
        cases found with
        | false => simp at hlen; omega
        | true => exact ⟨rfl, by simp at hlen; rw [hc, hlen]⟩
      · rintro ⟨hfound, hc⟩
        cases hfound
        exact ⟨flows.length, hc, rfl⟩

end

/-! ## The tree -/

section
variable {items : List WorkItem} {element : Uri}

def childrenOf (items : List WorkItem) (w : ℕ) : List ℕ := (view (·.workItemList) items w).getD []

abbrev parentOf (items : List WorkItem) : ℕ → Option ℕ := view (·.previousWorkItem) items

/-- A work item for an element that is not completed. -/
def IsPending (items : List WorkItem) (element : Uri) (w : ℕ) : Prop :=
  view (·.forNetElement) items w = some element ∧ view (·.isCompleted) items w = none

instance : Decidable (IsPending items element w) := inferInstanceAs (Decidable (_ ∧ _))

/-- What `rsffiwit` finds is what a walk down visits and what is pending. -/
theorem rsffiwit_eq (depth : ℕ) (above : Option ℕ) (nodes : List ℕ) :
    rsffiwit items element depth above nodes =
      (visit (childrenOf items) depth above nodes).filter fun x => IsPending items element x.2 := by
  induction depth generalizing above nodes with
  | zero => rfl
  | succ depth ih =>
    simp only [rsffiwit, visit, List.filter_flatMap]
    congr 1
    funext w
    rw [List.filter_cons]
    cases hw : items[w]? with
    | none =>
      have hchildren : visit (childrenOf items) depth (some w) (childrenOf items w) = [] := by
        rw [show childrenOf items w = [] by simp [childrenOf, view, hw]]
        cases depth <;> rfl
      simp [IsPending, view, hw, hchildren]
    | some item =>
      simp only [ih, IsPending, view, hw, childrenOf, Option.bind_some, decide_eq_true_eq]
      split <;> rfl

theorem lt_of_view {field : WorkItem → Option α} (h : view field items w = some a) :
    w < items.length := by
  obtain ⟨item, hitem, -⟩ := Option.bind_eq_some_iff.mp h
  exact (List.getElem?_eq_some_iff.mp hitem).1

end

/-! ## The invariant -/

namespace JoinNet

/-- The work items are a tree. A work item for the element has come from the source of a flow, is
the only one from there, and is executed when it has passed. -/
structure Inv (j : JoinNet) (st : JoinState) : Prop where
  forest : IsForest (childrenOf st.items) (parentOf st.items)
  root : ∀ w, w < st.items.length → w ≠ 0 → parentOf st.items w ≠ none
  opened : ∀ w, view (·.isCompleted) st.items w = none → childrenOf st.items w = []
  process : ∀ w, w < st.items.length → view (·.forProcess) st.items w = some j.uri
  branch : ∀ w, view (·.forNetElement) st.items w = some j.element →
    ∃ source flow, j.IsBranch st.items w source ∧ j.IsInFlow flow ∧ j.IsSource flow source
  unique : ∀ w w' source, j.IsBranch st.items w source → j.IsBranch st.items w' source → w = w'
  executed : ∀ w, view (·.forNetElement) st.items w = some j.element →
    (view (·.isExecuted) st.items w ≠ none ↔ w ∈ st.passed)
  completed : ∀ w, view (·.forNetElement) st.items w = some j.element →
    view (·.isCompleted) st.items w ≠ none → view (·.isExecuted) st.items w ≠ none
  passed : ∀ w ∈ st.passed, view (·.forNetElement) st.items w = some j.element
  messages : ∀ w document, (w, document) ∈ st.messages → document.forProcess = some j.uri ∧
    (document.forNetElement = some j.element →
      view (·.forNetElement) st.items w = some j.element ∧
        (view (·.isExecuted) st.items w = none → st.items[w]? = some document))

section
variable {j : JoinNet} {st : JoinState} {flow source : Uri}

theorem mem_inFlows : flow ∈ inFlows j.base j.element j.consistsOf ↔ j.IsInFlow flow := by
  rw [inFlows, List.mem_filter, IsInFlow]
  refine and_congr_right fun _ => ?_
  cases j.base.netElements flow with
  | none => simp
  | some found => simp

theorem OneTaskEach.task2flow_eq (h : j.OneTaskEach) (hflow : j.IsInFlow flow)
    (hsource : j.IsSource flow source) :
    task2flow j.base j.consistsOf flow = some source := by
  obtain ⟨task, found, htask, hfound, htype, huniq⟩ := h.source flow hflow
  obtain rfl := huniq source hsource
  obtain ⟨hmem, found', hfound', hnot, hhas⟩ := htask
  cases hfound.symm.trans hfound'
  exact Docflow.task2flow_eq hmem ⟨found, hfound, hnot, htype, hhas⟩
    fun u hu ⟨other, hother, hflow', _, hhas'⟩ => huniq u ⟨hu, other, hother, hflow', hhas'⟩

theorem Inv.parentOf_root (h : Inv j st) : ∀ node ∈ [0], parentOf st.items node = none := by
  intro node hnode
  obtain rfl := List.mem_singleton.mp hnode
  cases hparent : parentOf st.items 0 with
  | none => rfl
  | some p => exact absurd (h.forest.lt hparent) (Nat.not_lt_zero p)

/-- Every work item is below the one for the input condition. -/
theorem Inv.below_root (h : Inv j st) :
    ∀ n, ∀ w ≤ n, w < st.items.length → Below (parentOf st.items) w 0 := by
  intro n
  induction n with
  | zero =>
    intro w hw _
    obtain rfl := Nat.le_zero.mp hw
    exact .refl
  | succ n ih =>
    intro w hw hwlt
    rcases eq_or_ne w 0 with rfl | hne
    · exact .refl
    · obtain ⟨p, hp⟩ := Option.ne_none_iff_exists'.mp (h.root w hwlt hne)
      have hpw := h.forest.lt hp
      exact .head hp (ih p (by omega) (by omega))

/-- What is found in the tree are the pending work items with their parents. -/
theorem Inv.mem_fne (h : Inv j st) {x : Option ℕ × ℕ} :
    x ∈ findInWorkItemTree st.items j.process j.element ↔
      x.1 = parentOf st.items x.2 ∧ IsPending st.items j.element x.2 := by
  rw [findInWorkItemTree, j.workItemList_eq, Option.getD_some, rsffiwit_eq, List.mem_filter,
    decide_eq_true_eq]
  constructor
  · rintro ⟨hvisit, hpending⟩
    exact ⟨h.forest.fst_of_mem_visit h.parentOf_root hvisit, hpending⟩
  · rintro ⟨hfst, hpending⟩
    refine ⟨?_, hpending⟩
    have hlt : x.2 < st.items.length := lt_of_view hpending.1
    have hmem := h.forest.mem_visit (h.below_root x.2 x.2 (Nat.le_refl _) hlt) List.mem_cons_self
      h.parentOf_root (by omega : x.2 < 0 + (st.items.length + 1))
    rw [← hfst] at hmem
    exact hmem

theorem Inv.nodup_fne (h : Inv j st) :
    (findInWorkItemTree st.items j.process j.element).Nodup := by
  rw [findInWorkItemTree, j.workItemList_eq, Option.getD_some, rsffiwit_eq]
  exact (h.forest.nodup_visit (List.nodup_singleton 0) h.parentOf_root).filter _

/-- What is found is a branch. -/
theorem Inv.fne_branch (h : Inv j st) {x : Option ℕ × ℕ}
    (hx : x ∈ findInWorkItemTree st.items j.process j.element) :
    ∃ source flow, j.IsBranch st.items x.2 source ∧ foundOutTask st.items x.1 = some source ∧
      j.IsInFlow flow ∧ j.IsSource flow source := by
  obtain ⟨hfst, hpending⟩ := h.mem_fne.mp hx
  obtain ⟨source, flow, hbranch, hflow, hsource⟩ := h.branch x.2 hpending.1
  exact ⟨source, flow, hbranch, hfst ▸ hbranch.2, hflow, hsource⟩

/-- As many work items are found as there are flows, when every branch has arrived. -/
theorem Inv.length_fne (h : Inv j st) (hnet : j.OneTaskEach)
    (harrived : ∀ flow, j.IsInFlow flow → ∃ x ∈ findInWorkItemTree st.items j.process j.element,
      task2flow j.base j.consistsOf flow = foundOutTask st.items x.1) :
    (findInWorkItemTree st.items j.process j.element).length =
      (inFlows j.base j.element j.consistsOf).length := by
  have hfound : ((findInWorkItemTree st.items j.process j.element).map
      fun x => foundOutTask st.items x.1).Nodup := by
    refine h.nodup_fne.map_on fun x hx y hy heq => ?_
    obtain ⟨source, -, hbranch, hsource, -⟩ := h.fne_branch hx
    obtain ⟨source', -, hbranch', hsource', -⟩ := h.fne_branch hy
    obtain rfl := Option.some.inj (hsource.symm.trans (heq.trans hsource'))
    have hw := h.unique x.2 y.2 source hbranch hbranch'
    refine Prod.ext ?_ hw
    rw [(h.mem_fne.mp hx).1, (h.mem_fne.mp hy).1, hw]
  have hflows : ((inFlows j.base j.element j.consistsOf).map
      (task2flow j.base j.consistsOf)).Nodup := by
    refine (hnet.nodup.filter _).map_on fun flow hflow flow' hflow' heq => ?_
    have hin := mem_inFlows.mp hflow
    have hin' := mem_inFlows.mp hflow'
    obtain ⟨source, -, hsource, -⟩ := hnet.source flow hin
    obtain ⟨source', -, hsource', -⟩ := hnet.source flow' hin'
    rw [hnet.task2flow_eq hin hsource, hnet.task2flow_eq hin' hsource'] at heq
    cases heq
    exact hnet.inFlow source flow flow' hin hin' hsource hsource'
  have hsub : (findInWorkItemTree st.items j.process j.element).map
      (fun x => foundOutTask st.items x.1) ⊆
        (inFlows j.base j.element j.consistsOf).map (task2flow j.base j.consistsOf) := by
    intro s hs
    obtain ⟨x, hx, rfl⟩ := List.mem_map.mp hs
    obtain ⟨source, flow, -, hsource, hflow, hissource⟩ := h.fne_branch hx
    exact List.mem_map.mpr ⟨flow, mem_inFlows.mpr hflow,
      (hnet.task2flow_eq hflow hissource).trans hsource.symm⟩
  have hsup : (inFlows j.base j.element j.consistsOf).map (task2flow j.base j.consistsOf) ⊆
      (findInWorkItemTree st.items j.process j.element).map
        fun x => foundOutTask st.items x.1 := by
    intro s hs
    obtain ⟨flow, hflow, rfl⟩ := List.mem_map.mp hs
    obtain ⟨x, hx, heq⟩ := harrived flow (mem_inFlows.mp hflow)
    exact List.mem_map.mpr ⟨x, hx, heq.symm⟩
  have hle := (List.subperm_of_subset hfound hsub).length_le
  have hge := (List.subperm_of_subset hflows hsup).length_le
  rw [List.length_map, List.length_map] at hle hge
  exact Nat.le_antisymm hle hge

/-! ## The join -/

/-- When the join lets pass. -/
theorem andJoin_eq_true :
    andJoin j.base st.items j.process j.net j.element = true ↔
      (findInWorkItemTree st.items j.process j.element).length =
          (inFlows j.base j.element j.consistsOf).length ∧
        ∀ flow, j.IsInFlow flow → scan st.items (task2flow j.base j.consistsOf flow)
          (findInWorkItemTree st.items j.process j.element) = some true := by
  rw [andJoin, Bool.and_eq_true, decide_eq_true_eq, decide_eq_true_eq]
  refine and_congr_right fun _ => andJoinCount_eq_length.trans ?_
  exact forall_congr' fun flow => imp_congr_left mem_inFlows

theorem prepareWorkItem_eq {items : List WorkItem} {document : WorkItem}
    (hprocess : document.forProcess = some j.uri)
    (helement : document.forNetElement = some j.element) :
    prepareWorkItem j.base items w document =
      if document.isCompleted ≠ some true ∧ andJoin j.base items j.process j.net j.element = true
      then some (items.set w { document with isExecuted := some true }) else none := by
  unfold prepareWorkItem guard
  simp only [hprocess, helement, Option.bind_some, j.process_eq, j.instanceOf_eq, j.net_eq,
    j.netElement_eq, j.join_eq, bind, pure, forall_const]
  split
  next hnot =>
    cases andJoin j.base items j.process j.net j.element with
    | false => simp
    | true => simp [hnot]
  next hcompleted => simp [not_not.mp hcompleted]

/-- When a message lets its work item pass. -/
theorem isSome_prepareWorkItem (hprocess : document.forProcess = some j.uri)
    (helement : document.forNetElement = some j.element) :
    (prepareWorkItem j.base st.items w document).isSome ↔ document.isCompleted ≠ some true ∧
      andJoin j.base st.items j.process j.net j.element = true := by
  rw [prepareWorkItem_eq hprocess helement]
  split
  next h => exact ⟨fun _ => h, fun _ => rfl⟩
  next h => exact ⟨nofun, fun h' => absurd h' h⟩

/-- When the join lets pass, all branches have arrived and none has passed before. -/
theorem Inv.arrived_of_andJoin (h : Inv j st) (hnet : j.OneTaskEach)
    (hjoin : andJoin j.base st.items j.process j.net j.element = true) :
    j.Arrived st ∧ st.passed = [] := by
  have hscan := (andJoin_eq_true.mp hjoin).2
  refine ⟨fun flow hflow => ?_, List.eq_nil_iff_forall_not_mem.mpr fun w hw => ?_⟩
  · obtain ⟨source, -, hsource, -⟩ := hnet.source flow hflow
    obtain ⟨x, hx, heq, -⟩ := scan_eq_true (hscan flow hflow)
    obtain ⟨source', -, hbranch, hfound, -⟩ := h.fne_branch hx
    rw [hnet.task2flow_eq hflow hsource, hfound] at heq
    cases heq
    refine ⟨source, x.2, hsource, hbranch, ?_⟩
    rw [(h.mem_fne.mp hx).2.2]
    nofun
  · -- The one that has passed is the only one from its source, so that it is found there.
    have helement := h.passed w hw
    obtain ⟨source, flow, hbranch, hflow, hsource⟩ := h.branch w helement
    obtain ⟨x, hx, heq, hnone⟩ := scan_eq_true (hscan flow hflow)
    obtain ⟨source', -, hbranch', hfound, -⟩ := h.fne_branch hx
    rw [hnet.task2flow_eq hflow hsource, hfound] at heq
    cases heq
    obtain rfl := h.unique x.2 w source hbranch' hbranch
    exact (h.executed x.2 helement).mpr hw hnone

/-- The join lets pass when all branches have arrived and none has passed before. -/
theorem Inv.andJoin_of_arrived (h : Inv j st) (hnet : j.OneTaskEach) (harrived : j.Arrived st)
    (hpassed : st.passed = []) :
    andJoin j.base st.items j.process j.net j.element = true := by
  have hfresh : ∀ w, view (·.forNetElement) st.items w = some j.element →
      view (·.isExecuted) st.items w = none := by
    intro w helement
    refine not_not.mp fun hexecuted => ?_
    exact absurd ((h.executed w helement).mp hexecuted) (hpassed ▸ List.not_mem_nil)
  have hfound : ∀ flow, j.IsInFlow flow →
      ∃ x ∈ findInWorkItemTree st.items j.process j.element,
        task2flow j.base j.consistsOf flow = foundOutTask st.items x.1 := by
    intro flow hflow
    obtain ⟨source, w, hsource, hbranch, -⟩ := harrived flow hflow
    have hpending : view (·.isCompleted) st.items w = none := not_not.mp fun hcompleted =>
      h.completed w hbranch.1 hcompleted (hfresh w hbranch.1)
    exact ⟨(parentOf st.items w, w), h.mem_fne.mpr ⟨rfl, hbranch.1, hpending⟩,
      (hnet.task2flow_eq hflow hsource).trans hbranch.2.symm⟩
  refine andJoin_eq_true.mpr ⟨h.length_fne hnet hfound, fun flow hflow => ?_⟩
  exact scan_of_exists (fun x hx => hfresh x.2 (h.mem_fne.mp hx).2.1) (hfound flow hflow)

theorem Inv.joinsRight (h : Inv j st) (hnet : j.OneTaskEach) (e : JoinEvent) :
    j.JoinsRight e st := by
  cases e with
  | advance p elements => exact trivial
  | deliver w document =>
    intro hmem helement
    obtain ⟨hprocess, hmessage⟩ := h.messages w document hmem
    obtain ⟨hview, hstored⟩ := hmessage helement
    rw [isSome_prepareWorkItem hprocess helement]
    constructor
    · rintro ⟨-, hjoin⟩
      exact h.arrived_of_andJoin hnet hjoin
    · rintro ⟨harrived, hpassed⟩
      refine ⟨fun hcompleted => ?_, h.andJoin_of_arrived hnet harrived hpassed⟩
      have hnone : view (·.isExecuted) st.items w = none := not_not.mp fun hexecuted =>
        absurd ((h.executed w hview).mp hexecuted) (hpassed ▸ List.not_mem_nil)
      have hview' : view (·.isCompleted) st.items w = some true := by
        rw [view, hstored hnone, Option.bind_some, hcompleted]
      exact h.completed w hview (hview' ▸ nofun) hnone

/-! ## The steps -/

theorem view_set {items : List WorkItem} {old new : WorkItem} {field : WorkItem → Option α}
    (hget : items[w]? = some old) (hfield : field new = field old) :
    view field (items.set w new) = view field items := by
  funext w'
  have hlt : w < items.length := (List.getElem?_eq_some_iff.mp hget).1
  rcases eq_or_ne w' w with rfl | hne
  · rw [view, view, List.getElem?_set_self hlt, hget, Option.bind_some, Option.bind_some, hfield]
  · rw [view, view, List.getElem?_set_ne hne.symm]

theorem foundOutTask_eq (items : List WorkItem) (parent : Option ℕ) :
    foundOutTask items parent = parent.bind (view (·.forNetElement) items) := rfl

/-- A work item that has not been executed passes. -/
theorem Inv.deliver (h : Inv j st) (hmem : (w, document) ∈ st.messages)
    (helement : document.forNetElement = some j.element) (hpassed : st.passed = []) :
    Inv j { st with
      items := st.items.set w { document with isExecuted := some true }
      passed := st.passed ++ [w] } := by
  obtain ⟨hview, hstored⟩ := (h.messages w document hmem).2 helement
  have hnone : view (·.isExecuted) st.items w = none := not_not.mp fun hexecuted =>
    absurd ((h.executed w hview).mp hexecuted) (hpassed ▸ List.not_mem_nil)
  have hget := hstored hnone
  have hlt : w < st.items.length := lt_of_view hview
  have hsame : ∀ {α : Type} (field : WorkItem → Option α),
      field { document with isExecuted := some true } = field document →
      view field (st.items.set w { document with isExecuted := some true }) =
        view field st.items := fun field hfield => view_set hget hfield
  have helements := hsame (·.forNetElement) rfl
  have hparents := hsame (·.previousWorkItem) rfl
  have hcompleted := hsame (·.isCompleted) rfl
  have hchildren : ∀ w', childrenOf (st.items.set w { document with isExecuted := some true }) w' =
      childrenOf st.items w' := fun w' => by
    rw [childrenOf, hsame (·.workItemList) rfl, childrenOf]
  have hbranch : ∀ w' source,
      j.IsBranch (st.items.set w { document with isExecuted := some true }) w' source ↔
        j.IsBranch st.items w' source := fun w' source => by
    rw [JoinNet.IsBranch, JoinNet.IsBranch, foundOutTask_eq, foundOutTask_eq, helements, hparents]
  have hexecuted : ∀ w', w' ≠ w →
      view (·.isExecuted) (st.items.set w { document with isExecuted := some true }) w' =
        view (·.isExecuted) st.items w' := fun w' hne => by
    rw [view, view, List.getElem?_set_ne hne.symm]
  have hself :
      view (·.isExecuted) (st.items.set w { document with isExecuted := some true }) w =
        some true := by
    rw [view, List.getElem?_set_self hlt, Option.bind_some]
  constructor <;> dsimp only
  case forest =>
    rw [parentOf, hparents, funext hchildren]
    exact h.forest
  case root =>
    rw [List.length_set, parentOf, hparents]
    exact h.root
  case opened =>
    intro w' hnone'
    rw [hchildren]
    exact h.opened w' (hcompleted ▸ hnone')
  case process =>
    rw [List.length_set, hsame (·.forProcess) rfl]
    exact h.process
  case branch =>
    intro w' hw'
    obtain ⟨source, flow, hbranch', hflow⟩ := h.branch w' (helements ▸ hw')
    exact ⟨source, flow, (hbranch w' source).mpr hbranch', hflow⟩
  case unique =>
    exact fun w' w'' source hw' hw'' =>
      h.unique w' w'' source ((hbranch w' source).mp hw') ((hbranch w'' source).mp hw'')
  case executed =>
    intro w' hw'
    rcases eq_or_ne w' w with rfl | hne
    · rw [hself]
      exact ⟨fun _ => List.mem_append_right _ List.mem_cons_self, fun _ => nofun⟩
    · rw [hexecuted w' hne, h.executed w' (helements ▸ hw'), List.mem_append, List.mem_singleton]
      exact ⟨.inl, fun hw => hw.resolve_right hne⟩
  case completed =>
    intro w' hw' hcompleted'
    rcases eq_or_ne w' w with rfl | hne
    · rw [hself]
      nofun
    · rw [hexecuted w' hne]
      exact h.completed w' (helements ▸ hw') (hcompleted ▸ hcompleted')
  case passed =>
    intro w' hw'
    rw [helements]
    rcases List.mem_append.mp hw' with hw' | hw'
    · exact h.passed w' hw'
    · exact List.mem_singleton.mp hw' ▸ hview
  case messages =>
    intro w' document' hmem'
    obtain ⟨hprocess', hmessage'⟩ := h.messages w' document' hmem'
    refine ⟨hprocess', fun helement' => ?_⟩
    obtain ⟨hview', hstored'⟩ := hmessage' helement'
    rw [helements]
    refine ⟨hview', fun hnone' => ?_⟩
    rcases eq_or_ne w' w with rfl | hne
    · rw [hself] at hnone'
      exact absurd hnone' nofun
    · rw [List.getElem?_set_ne hne.symm]
      exact hstored' ((hexecuted w' hne).symm.trans hnone')

/-- A place in a list that holds what occurs once. -/
theorem eq_of_count_le_one {l : List Uri} {a : Uri} {m n : ℕ} (hcount : l.count a ≤ 1)
    (hm : l[m]? = some a) (hn : l[n]? = some a) : m = n := by
  induction l generalizing m n with
  | nil => exact absurd hm nofun
  | cons b l ih =>
    have hrest : b = a → ∀ i : ℕ, l[i]? ≠ some a := by
      rintro rfl i hi
      have hpos := List.count_pos_iff.mpr (List.mem_of_getElem? hi)
      rw [List.count_cons_self] at hcount
      omega
    cases m with
    | zero =>
      cases n with
      | zero => rfl
      | succ n => exact absurd hn (hrest (Option.some.inj hm) n)
    | succ m =>
      cases n with
      | zero => exact absurd hm (hrest (Option.some.inj hn) m)
      | succ n =>
        have hle : l.count a ≤ 1 := Nat.le_trans List.count_le_count_cons hcount
        exact congrArg (· + 1) (ih hle hm hn)

section
variable {items : List WorkItem} {p : ℕ} {item : WorkItem} {elements : List Uri}

theorem getElem?_advanced_of_le (hle : items.length ≤ w) :
    (j.advanced items p item elements)[w]? =
      (elements[w - items.length]?).map (WorkItem.new j.uri · (some p)) := by
  rw [advanced, List.getElem?_append_right (by rwa [List.length_set]), List.length_set,
    List.getElem?_map]

theorem getElem?_advanced_of_ne (hlt : w < items.length) (hne : w ≠ p) :
    (j.advanced items p item elements)[w]? = items[w]? := by
  rw [advanced, List.getElem?_append_left (by rwa [List.length_set]), List.getElem?_set_ne hne.symm]

theorem getElem?_advanced_self (hlt : p < items.length) :
    (j.advanced items p item elements)[p]? = some (completeItem item items.length elements) := by
  rw [advanced, List.getElem?_append_left (by rwa [List.length_set]), List.getElem?_set_self hlt]

theorem length_advanced :
    (j.advanced items p item elements).length = items.length + elements.length := by
  rw [advanced, List.length_append, List.length_set, List.length_map]

/-- What the completion keeps of the work items that were there. -/
theorem view_advanced_of_lt {field : WorkItem → Option α} (hitem : items[p]? = some item)
    (hfield : field (completeItem item items.length elements) = field item)
    (hlt : w < items.length) :
    view field (j.advanced items p item elements) w = view field items w := by
  rcases eq_or_ne w p with rfl | hne
  · rw [view, view, getElem?_advanced_self hlt, hitem, Option.bind_some, Option.bind_some, hfield]
  · rw [view, view, getElem?_advanced_of_ne hlt hne]

theorem view_advanced_of_le (field : WorkItem → Option α) (hle : items.length ≤ w) :
    view field (j.advanced items p item elements) w =
      (elements[w - items.length]?).bind fun e => field (.new j.uri e (some p)) := by
  rw [view, getElem?_advanced_of_le hle, Option.bind_map]
  rfl

/-- The new work items become the children. -/
theorem Inv.forest_advanced (h : Inv j st) (hitem : st.items[p]? = some item)
    (hnone : item.isCompleted = none) :
    IsForest (childrenOf (j.advanced st.items p item elements))
      (parentOf (j.advanced st.items p item elements)) := by
  have hlt : p < st.items.length := (List.getElem?_eq_some_iff.mp hitem).1
  have hopened : childrenOf st.items p = [] :=
    h.opened p (by rw [view, hitem, Option.bind_some, hnone])
  have hold : ∀ w, st.items.length ≤ w → parentOf st.items w = none := fun w hw => by
    rw [parentOf, view, List.getElem?_eq_none hw]
    rfl
  have hchildren : childrenOf (j.advanced st.items p item elements) =
      Function.update (childrenOf st.items) p
        (List.range' st.items.length elements.length) := by
    funext w
    rcases eq_or_ne w p with rfl | hne
    · rw [Function.update_self, childrenOf, view, getElem?_advanced_self hlt, Option.bind_some,
        completeItem]
      split
      next hnil =>
        rw [childrenOf, view, hitem, Option.bind_some] at hopened
        rw [hopened, hnil]
        rfl
      next => rfl
    · rw [Function.update_of_ne hne, childrenOf, childrenOf]
      rcases Nat.lt_or_ge w st.items.length with hw | hw
      · rw [view, view, getElem?_advanced_of_ne hw hne]
      · rw [view_advanced_of_le _ hw, view, List.getElem?_eq_none hw]
        cases elements[w - st.items.length]? <;> rfl
  have hparents : parentOf (j.advanced st.items p item elements) = fun w =>
      if st.items.length ≤ w ∧ w < st.items.length + elements.length then some p
      else parentOf st.items w := by
    funext w
    rcases Nat.lt_or_ge w st.items.length with hw | hw
    · rw [if_neg (fun hle => absurd hle.1 (Nat.not_le.mpr hw))]
      exact view_advanced_of_lt hitem rfl hw
    · rw [parentOf, view_advanced_of_le _ hw]
      split
      next hbound =>
        rw [List.getElem?_eq_getElem (by omega : w - st.items.length < elements.length)]
        rfl
      next hbound =>
        rw [List.getElem?_eq_none (by omega : elements.length ≤ w - st.items.length)]
        exact (hold w hw).symm
  rw [hchildren, hparents]
  exact h.forest.extend hopened hlt hold

/-- A branch after a work item has gone on is one from before, or has just arrived. -/
theorem Inv.isBranch_advanced (h : Inv j st) (hitem : st.items[p]? = some item) :
    j.IsBranch (j.advanced st.items p item elements) w source ↔
      j.IsBranch st.items w source ∨ st.items.length ≤ w ∧
        elements[w - st.items.length]? = some j.element ∧
          view (·.forNetElement) st.items p = some source := by
  have hlt : p < st.items.length := (List.getElem?_eq_some_iff.mp hitem).1
  rw [JoinNet.IsBranch, foundOutTask_eq]
  rcases Nat.lt_or_ge w st.items.length with hw | hw
  · rw [view_advanced_of_lt hitem rfl hw, view_advanced_of_lt hitem rfl hw]
    refine Iff.trans (and_congr_right fun _ => ?_)
      (or_iff_left fun hle => absurd hle.1 (Nat.not_le.mpr hw)).symm
    rw [foundOutTask_eq]
    cases hparent : view (·.previousWorkItem) st.items w with
    | none => exact Iff.rfl
    | some q =>
      have hq := h.forest.lt hparent
      rw [Option.bind_some, Option.bind_some,
        view_advanced_of_lt hitem rfl (by omega : q < st.items.length)]
  · rw [view_advanced_of_le _ hw, view_advanced_of_le _ hw]
    have hno : ¬ j.IsBranch st.items w source := fun hbranch =>
      absurd (lt_of_view hbranch.1) (Nat.not_lt.mpr hw)
    rw [or_iff_right hno]
    cases elements[w - st.items.length]? with
    | none => simp
    | some e =>
      have hp : view (·.forNetElement) (j.advanced st.items p item elements) p =
          view (·.forNetElement) st.items p := view_advanced_of_lt hitem rfl hlt
      simp [WorkItem.new, hp, hw]

/-- A work item goes on. -/
theorem Inv.advance (h : Inv j st) (hitem : st.items[p]? = some item)
    (hgoes : ¬ (item.forNetElement = some j.element ∧ item.isExecuted = none))
    (hone : j.OncePerBranch (.advance p elements) st) :
    Inv j { st with
      items := j.advanced st.items p item elements
      messages := st.messages ++ (p, completeItem item st.items.length elements) ::
        ((elements.map (WorkItem.new j.uri · (some p))).zipIdx st.items.length).map
          Prod.swap } := by
  have hlt : p < st.items.length := (List.getElem?_eq_some_iff.mp hitem).1
  obtain ⟨hpending, harrives⟩ := hone
  have hpview : ∀ {α : Type} (field : WorkItem → Option α),
      view field st.items p = field item := fun field => by rw [view, hitem, Option.bind_some]
  have hguard : view (·.forNetElement) st.items p = some j.element →
      view (·.isExecuted) st.items p ≠ none := by
    rw [hpview, hpview]
    exact fun helement hnone => hgoes ⟨helement, hnone⟩
  have hpassed : ∀ w ∈ st.passed, w < st.items.length := fun w hw => lt_of_view (h.passed w hw)
  have hbranch : ∀ w source, j.IsBranch (j.advanced st.items p item elements) w source ↔
      j.IsBranch st.items w source ∨ st.items.length ≤ w ∧
        elements[w - st.items.length]? = some j.element ∧
          view (·.forNetElement) st.items p = some source :=
    fun w source => h.isBranch_advanced hitem
  have hmem : ∀ {w : ℕ}, elements[w]? = some j.element → j.element ∈ elements :=
    fun hget => List.mem_of_getElem? hget
  constructor <;> dsimp only
  case forest => exact h.forest_advanced hitem (by rw [← hpview (·.isCompleted), hpending])
  case root =>
    intro w hw hne
    rw [length_advanced] at hw
    rcases Nat.lt_or_ge w st.items.length with hlt' | hle
    · rw [parentOf, view_advanced_of_lt hitem rfl hlt']
      exact h.root w hlt' hne
    · rw [parentOf, view_advanced_of_le _ hle,
        List.getElem?_eq_getElem (by omega : w - st.items.length < elements.length)]
      nofun
  case opened =>
    intro w hnone
    rcases Nat.lt_or_ge w st.items.length with hlt' | hle
    · rcases eq_or_ne w p with rfl | hne
      · rw [view, getElem?_advanced_self hlt'] at hnone
        exact absurd hnone nofun
      · rw [view, getElem?_advanced_of_ne hlt' hne] at hnone
        rw [childrenOf, view, getElem?_advanced_of_ne hlt' hne]
        exact h.opened w hnone
    · rw [childrenOf, view_advanced_of_le _ hle]
      cases elements[w - st.items.length]? <;> rfl
  case process =>
    intro w hw
    rw [length_advanced] at hw
    rcases Nat.lt_or_ge w st.items.length with hlt' | hle
    · rw [view_advanced_of_lt hitem rfl hlt']
      exact h.process w hlt'
    · rw [view_advanced_of_le _ hle,
        List.getElem?_eq_getElem (by omega : w - st.items.length < elements.length)]
      rfl
  case branch =>
    intro w helement
    rcases Nat.lt_or_ge w st.items.length with hlt' | hle
    · rw [view_advanced_of_lt hitem rfl hlt'] at helement
      obtain ⟨source, flow, hold, hflow⟩ := h.branch w helement
      exact ⟨source, flow, (hbranch w source).mpr (.inl hold), hflow⟩
    · rw [view_advanced_of_le _ hle] at helement
      obtain ⟨e, hget, he⟩ := Option.bind_eq_some_iff.mp helement
      cases he
      obtain ⟨-, source, hsource, flow, -, hflow, hissource, -⟩ := harrives (hmem hget)
      exact ⟨source, flow, (hbranch w source).mpr (.inr ⟨hle, hget, hsource⟩), hflow, hissource⟩
  case unique =>
    intro w w' source hw hw'
    rcases (hbranch w source).mp hw with hw | ⟨hle, hget, hsource⟩ <;>
      rcases (hbranch w' source).mp hw' with hw' | ⟨hle', hget', hsource'⟩
    · exact h.unique w w' source hw hw'
    · obtain ⟨-, source', heq, -, -, -, -, hno⟩ := harrives (hmem hget')
      cases hsource'.symm.trans heq
      exact absurd hw (hno w (lt_of_view hw.1))
    · obtain ⟨-, source', heq, -, -, -, -, hno⟩ := harrives (hmem hget)
      cases hsource.symm.trans heq
      exact absurd hw' (hno w' (lt_of_view hw'.1))
    · have heq := eq_of_count_le_one (Nat.le_of_eq (harrives (hmem hget)).1) hget hget'
      omega
  case executed =>
    intro w helement
    rcases Nat.lt_or_ge w st.items.length with hlt' | hle
    · rw [view_advanced_of_lt hitem rfl hlt'] at helement ⊢
      exact h.executed w helement
    · rw [view_advanced_of_le _ hle]
      refine ⟨fun hne => absurd ?_ hne, fun hw => absurd (hpassed w hw) (Nat.not_lt.mpr hle)⟩
      cases elements[w - st.items.length]? <;> rfl
  case completed =>
    intro w helement hne
    rcases Nat.lt_or_ge w st.items.length with hlt' | hle
    · rw [view_advanced_of_lt hitem rfl hlt'] at helement ⊢
      rcases eq_or_ne w p with rfl | hwp
      · exact hguard helement
      · rw [view, getElem?_advanced_of_ne hlt' hwp] at hne
        exact h.completed w helement hne
    · rw [view_advanced_of_le _ hle] at hne
      refine absurd ?_ hne
      cases elements[w - st.items.length]? <;> rfl
  case passed =>
    intro w hw
    rw [view_advanced_of_lt hitem rfl (hpassed w hw)]
    exact h.passed w hw
  case messages =>
    intro w document hmessage
    rcases List.mem_append.mp hmessage with hmessage | hmessage
    · obtain ⟨hprocess, hstored⟩ := h.messages w document hmessage
      refine ⟨hprocess, fun helement => ?_⟩
      obtain ⟨hview, hstored⟩ := hstored helement
      have hlt' := lt_of_view hview
      rw [view_advanced_of_lt hitem rfl hlt', view_advanced_of_lt hitem rfl hlt']
      refine ⟨hview, fun hnone => ?_⟩
      have hne : w ≠ p := by
        rintro rfl
        exact hguard hview hnone
      rw [getElem?_advanced_of_ne hlt' hne]
      exact hstored hnone
    · rcases List.mem_cons.mp hmessage with heq | hmessage
      · cases heq
        refine ⟨(hpview (·.forProcess)).symm.trans (h.process p hlt), fun helement => ?_⟩
        have hview := (hpview (·.forNetElement)).trans helement
        rw [view_advanced_of_lt hitem rfl hlt, view_advanced_of_lt hitem rfl hlt]
        exact ⟨hview, fun hnone => absurd hnone (hguard hview)⟩
      · obtain ⟨⟨d, i⟩, hget, hswap⟩ := List.mem_map.mp hmessage
        obtain ⟨rfl, rfl⟩ := Prod.mk.inj hswap
        obtain ⟨hle, hget⟩ := List.mk_mem_zipIdx_iff_le_and_getElem?_sub.mp hget
        rw [List.getElem?_map] at hget
        have hstored : (j.advanced st.items p item elements)[i]? = some d :=
          (getElem?_advanced_of_le hle).trans hget
        obtain ⟨e, -, rfl⟩ := Option.map_eq_some_iff.mp hget
        refine ⟨rfl, fun helement => ⟨?_, fun _ => hstored⟩⟩
        rw [view, hstored]
        exact helement

end

theorem Inv.init (hnet : j.OneTaskEach) : Inv j j.init := by
  have helement : ∀ w, view (·.forNetElement) j.init.items w ≠ some j.element := by
    intro w hview
    obtain ⟨item, hitem, helement⟩ := Option.bind_eq_some_iff.mp hview
    obtain rfl := List.mem_singleton.mp (List.mem_of_getElem? hitem)
    exact hnet.start_ne (Option.some.inj helement)
  have hnone : ∀ {α : Type} (field : WorkItem → Option α) (w : ℕ),
      field (.new j.uri j.start none) = none → view field j.init.items w = none := by
    intro α field w hfield
    cases w with
    | zero => exact hfield
    | succ w => rfl
  constructor
  case forest =>
    refine ⟨fun {node above} hparent => ?_, fun {node above} => ?_, fun above => ?_⟩
    · exact absurd ((hnone _ node rfl).symm.trans hparent) nofun
    · rw [childrenOf, hnone _ above rfl, parentOf, hnone _ node rfl]
      exact ⟨nofun, nofun⟩
    · rw [childrenOf, hnone _ above rfl]
      exact List.nodup_nil
  case root =>
    intro w hw hne
    exact absurd (Nat.lt_one_iff.mp hw) hne
  case opened =>
    intro w _
    rw [childrenOf, hnone _ w rfl]
    rfl
  case process =>
    intro w hw
    obtain rfl := Nat.lt_one_iff.mp hw
    rfl
  case branch => exact fun w hw => absurd hw (helement w)
  case unique => exact fun w _ _ hw => absurd hw.1 (helement w)
  case executed => exact fun w hw => absurd hw (helement w)
  case completed => exact fun w hw => absurd hw (helement w)
  case passed => exact nofun
  case messages =>
    intro w document hmem
    obtain ⟨rfl, rfl⟩ := Prod.mk.inj (List.mem_singleton.mp hmem)
    exact ⟨rfl, fun hstart => absurd (Option.some.inj hstart) hnet.start_ne⟩

theorem Inv.step (e : JoinEvent) (h : Inv j st) (hnet : j.OneTaskEach)
    (hone : j.OncePerBranch e st) : Inv j (j.step e st) := by
  cases e with
  | advance p elements =>
    dsimp only [JoinNet.step]
    split
    next => exact h
    next item hitem =>
      split
      next => exact h
      next hgoes => exact h.advance hitem hgoes hone
  | deliver w document =>
    dsimp only [JoinNet.step]
    split
    next hdelivered =>
      obtain ⟨hmem, helement⟩ := hdelivered
      rw [prepareWorkItem_eq (h.messages w document hmem).1 helement]
      split
      next => exact h
      next items hpasses =>
        split at hpasses
        next hjoin =>
          cases hpasses
          exact h.deliver hmem helement (h.arrived_of_andJoin hnet hjoin.2).2
        next => exact absurd hpasses nofun
    next => exact h

/-- **An AND join is passed exactly when all branches have arrived**, by one of their work items, in
a net where every flow into the element comes from a task of its own and in a run where every
branch arrives once. -/
theorem joins_right (j : JoinNet) (hnet : j.OneTaskEach) (es : List JoinEvent)
    (h : Along j.step j.OncePerBranch j.init es) : Along j.step j.JoinsRight j.init es :=
  h.of_invariant (Inv.init hnet) (fun e _ h hone => h.step e hnet hone)
    fun e _ h _ => h.joinsRight hnet e

end

/-- Work is prepared, then two tasks are done side by side, then comes the element with the
join. -/
def sideBySide : Uri → Option NetElement
  | "start" => some
    ⟨[.inputCondition], none, none, none, some ["to a", "to b"], none, none, none, none⟩
  | "to a" => some ⟨[.flow], none, none, none, none, none, none, some "a", none⟩
  | "to b" => some ⟨[.flow], none, none, none, none, none, none, some "b", none⟩
  | "a" => some ⟨[.task], none, none, none, some ["from a"], none, none, none, none⟩
  | "b" => some ⟨[.task], none, none, none, some ["from b"], none, none, none, none⟩
  | "from a" => some ⟨[.flow], none, none, none, none, none, none, some "end", none⟩
  | "from b" => some ⟨[.flow], none, none, none, none, none, none, some "end", none⟩
  | "end" => some ⟨[.task], none, none, none, none, none, some "v-wf:AND", none, none⟩
  | _ => none

/-- A process in a net of elements, with the join at `end`. -/
def ofElements (consistsOf : List Uri) (netElements : Uri → Option NetElement)
    (netElement : NetElement) (h : netElements "end" = some netElement)
    (hjoin : netElement.join = some "v-wf:AND") : JoinNet where
  base :=
    { workOrders := fun _ => none
      vars := fun _ => none
      executors := fun _ => none
      processes := fun _ => some ⟨some "net", some [0], false⟩
      nets := fun _ => some ⟨some consistsOf⟩
      netElements
      transforms := fun _ => false }
  uri := "process"
  process := ⟨some "net", some [0], false⟩
  instanceOf := "net"
  net := ⟨some consistsOf⟩
  start := "start"
  element := "end"
  netElement
  process_eq := rfl
  instanceOf_eq := rfl
  workItemList_eq := rfl
  net_eq := rfl
  netElement_eq := h
  join_eq := hjoin

def sideBySideNet : JoinNet :=
  ofElements ["start", "to a", "to b", "a", "b", "from a", "from b", "end"] sideBySide _ rfl rfl

/-- The message about a new work item for the element with the join. -/
def arrival (p : ℕ) : WorkItem := .new "process" "end" (some p)

/-- One branch arrives and is delivered, then the other one, and both are delivered once more. -/
def bothArrive : List JoinEvent :=
  [.advance 0 ["a", "b"], .advance 1 ["end"], .deliver 3 (arrival 1), .advance 2 ["end"],
    .deliver 4 (arrival 2), .deliver 3 (arrival 1), .deliver 4 (arrival 2)]

theorem oneTaskEach_sideBySideNet : sideBySideNet.OneTaskEach where
  start_ne := by decide
  nodup := by decide
  source := by
    have hsource : ∀ flow ∈ sideBySideNet.consistsOf, sideBySideNet.IsInFlow flow →
        ∃ source ∈ sideBySideNet.consistsOf, ∃ found ∈ sideBySideNet.base.netElements source,
          sideBySideNet.IsSource flow source ∧ .task ∈ found.type ∧
            ∀ other ∈ sideBySideNet.consistsOf, sideBySideNet.IsSource flow other →
              other = source := by
      decide
    intro flow hflow
    obtain ⟨source, -, found, hfound, hissource, htask, huniq⟩ := hsource flow hflow.1 hflow
    exact ⟨source, found, hissource, hfound, htask, fun other hother => huniq other hother.1 hother⟩
  inFlow := by
    have hinFlow : ∀ source ∈ sideBySideNet.consistsOf, ∀ flow ∈ sideBySideNet.consistsOf,
        ∀ flow' ∈ sideBySideNet.consistsOf, sideBySideNet.IsInFlow flow →
          sideBySideNet.IsInFlow flow' → sideBySideNet.IsSource flow source →
            sideBySideNet.IsSource flow' source → flow = flow' := by
      decide
    exact fun source flow flow' h h' hs hs' => hinFlow source hs.1 flow h.1 flow' h'.1 h h' hs hs'

theorem joins_right_sideBySideNet :
    Along sideBySideNet.step sideBySideNet.JoinsRight sideBySideNet.init bothArrive ∧
      (run sideBySideNet.step sideBySideNet.init bothArrive).passed = [4] :=
  ⟨joins_right sideBySideNet oneTaskEach_sideBySideNet bothArrive (by decide), by decide⟩

/-- Work is prepared in a condition, and its flow goes to the element with the join. -/
def fromCondition : Uri → Option NetElement
  | "start" => some ⟨[.inputCondition], none, none, none, some ["flow"], none, none, none, none⟩
  | "flow" => some ⟨[.flow], none, none, none, none, none, none, some "end", none⟩
  | "end" => some ⟨[.task], none, none, none, none, none, some "v-wf:AND", none, none⟩
  | _ => none

def fromConditionNet : JoinNet := ofElements ["start", "flow", "end"] fromCondition _ rfl rfl

/-- A branch from a condition has arrived, but it does not pass. -/
theorem not_joins_right :
    ¬ ∀ (j : JoinNet) (es : List JoinEvent), Along j.step j.JoinsRight j.init es := by
  intro h
  have hdelivered := (h fromConditionNet [.advance 0 ["end"], .deliver 1 (arrival 0)]).2.1
    (by decide) (by decide)
  have harrived : fromConditionNet.Arrived
      (fromConditionNet.step (.advance 0 ["end"]) fromConditionNet.init) := by
    have hall : ∀ flow ∈ fromConditionNet.consistsOf, fromConditionNet.IsInFlow flow →
        fromConditionNet.IsSource flow "start" := by
      decide
    exact fun flow hflow => ⟨"start", 1, hall flow hflow.1 hflow, by decide, by decide⟩
  exact absurd (hdelivered.mpr ⟨harrived, rfl⟩) (by decide)

end JoinNet

end Veda.Docflow
