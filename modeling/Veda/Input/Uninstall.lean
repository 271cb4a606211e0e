import Mathlib.Data.List.Dedup
import Veda.Input.RemovalOrder
import Veda.Input.UserModulesTool

/-! # Uninstalling user modules

`uninstall_user_module`, with `get_installed_modules` and `uninstall`, of `user_modules_tool.d`,
where all operations on the storage succeed. A module is uninstalled by the walk of
`Veda.Input.Removal` (`visit_sim`), and from this follows what is left of it and of what it needs
(`uninstalls_orderly`). -/

namespace Veda.Input.Uninstall

/-- The individual of a module. -/
structure ModuleRecord where
  uri : String
  /-- What `v-s:dependency` has. -/
  dependency : List String
  deleted : Bool

structure DefinedIndividual where
  uid : String
  isDefinedBy : String

/-- The individuals of the modules, and those that are defined by them. -/
structure Store where
  modules : List ModuleRecord
  individuals : List DefinedIndividual
  nodup : (modules.map (·.uri)).Nodup
  uri_ne : ∀ r ∈ modules, r.uri ≠ ""

/-- The order in which the map of the dependencies of a module is iterated. -/
structure MapOrder where
  order : String → List String → List String
  perm : ∀ uri keys, (order uri keys).Perm keys

/-- What the query for `v-s:Module` finds. -/
def Store.installed (s : Store) : List ModuleRecord := s.modules.filter fun r => !r.deleted

def Store.uris (s : Store) : List String := s.installed.map (·.uri)

/-- The keys of `dependencies`. -/
def Store.dependencies (s : Store) (r : ModuleRecord) : List String :=
  (r.dependency.filter fun dep => dep ∈ s.uris).dedup

def getInstalledModules (order : MapOrder) (s : Store) : List Installed :=
  s.installed.map fun r => ⟨r.uri, order.order r.uri (s.dependencies r)⟩

/-- Every individual that is defined by the module is removed. -/
def Store.removeIndividuals (s : Store) (moduleId : String) : Store :=
  { s with individuals := s.individuals.filter fun i =>
      i.uid ∉ (s.individuals.filter fun i => i.isDefinedBy = moduleId).map (·.uid) }

def ModuleRecord.deactivate (moduleId : String) (r : ModuleRecord) : ModuleRecord :=
  if r.uri = moduleId then { r with deleted := true } else r

@[simp] theorem ModuleRecord.deactivate_uri (moduleId : String) (r : ModuleRecord) :
    (r.deactivate moduleId).uri = r.uri := by
  unfold deactivate
  split <;> rfl

theorem map_deactivate_uri (moduleId : String) (modules : List ModuleRecord) :
    (modules.map (·.deactivate moduleId)).map (·.uri) = modules.map (·.uri) := by
  rw [List.map_map]
  exact List.map_congr_left fun r _ => r.deactivate_uri moduleId

/-- `v-s:deleted` is set. -/
def Store.deactivate (s : Store) (moduleId : String) : Store where
  modules := s.modules.map (·.deactivate moduleId)
  individuals := s.individuals
  nodup := by
    rw [map_deactivate_uri]
    exact s.nodup
  uri_ne r hr := by
    obtain ⟨r', hr', rfl⟩ := List.mem_map.1 hr
    rw [ModuleRecord.deactivate_uri]
    exact s.uri_ne r' hr'

/-- The storage, `tmp_installed_modules`, and `operation_result` of the modules that
`get_installed_modules` has found. -/
structure State where
  storage : Store
  tmpInstalledModules : List Installed
  operationResult : String → OperationResult

def State.setResult (st : State) (uri : String) (result : OperationResult) : State :=
  { st with operationResult := Function.update st.operationResult uri result }

theorem State.setResult_self (st : State) (uri : String) (result : OperationResult) :
    (st.setResult uri result).operationResult uri = result := Function.update_self ..

theorem State.setResult_of_ne (st : State) {uri dep : String} (result : OperationResult)
    (h : dep ≠ uri) : (st.setResult uri result).operationResult dep = st.operationResult dep :=
  Function.update_of_ne h ..

/-- What a module is looked for in. -/
def State.table (order : MapOrder) (st : State) : List Installed :=
  if st.tmpInstalledModules.length = 0 then getInstalledModules order st.storage
  else st.tmpInstalledModules

/-- `uninstall` of one module, up to the `finally` block. `prev_module_name` has no effect there, as
`module_id` is still empty when it is asked for. -/
def uninstallOwn (order : MapOrder) (root uri : String) (st : State) : State :=
  if uri = "" then st.setResult uri .ok
  else if st.operationResult uri ≠ .foundAnotherVersion ∧ st.operationResult uri ≠ .none then
    st.setResult uri .ok
  else
    let st := { st with tmpInstalledModules := st.table order }
    -- The version that is needed makes no difference.
    if st.tmpInstalledModules.any fun im => im.uri ≠ root && uri ∈ im.dependencies then
      st.setResult uri .fail
    else
      let st := { st with storage := st.storage.removeIndividuals uri }
      if st.storage.modules.any (·.uri = uri) then
        { st with
          storage := st.storage.deactivate uri
          tmpInstalledModules := st.tmpInstalledModules.filter (·.uri ≠ uri) }.setResult uri .ok
      else st.setResult uri .ok

/-- The loop over the dependencies in the `finally` block. -/
def uninstallAll (uninstall : String → State → Option State) : List String → State → Option State
  | [], st => some st
  | dep :: deps, st =>
    match uninstall dep st with
    | none => none
    | some st => if st.operationResult dep = .fail then some st else uninstallAll uninstall deps st

/-- `uninstall`. It has no result where the fuel does not suffice. -/
def uninstall (order : MapOrder) (root : String) (dependencies : String → List String) :
    ℕ → String → State → Option State
  | 0, _, _ => none
  | fuel + 1, uri, st =>
    let st := uninstallOwn order root uri st
    if st.operationResult uri = .ok then
      uninstallAll (uninstall order root dependencies fuel) (dependencies uri) st
    else some st

def dependenciesOf (modules : List Installed) (uri : String) : List String :=
  match modules.find? (·.uri = uri) with
  | none => []
  | some im => im.dependencies

/-- `uninstall_user_module`: whether it was a success, and what is in the storage then. -/
def uninstallUserModule (order : MapOrder) (fuel : ℕ) (moduleId : String) (s : Store) :
    Option (Bool × Store) :=
  let installedModules := getInstalledModules order s
  match installedModules.find? (·.uri = moduleId) with
  | none => some (false, s)
  | some _ =>
    match uninstall order moduleId (dependenciesOf installedModules) fuel moduleId
        { storage := s, tmpInstalledModules := [], operationResult := fun _ => .none } with
    | none => none
    | some st => some (st.operationResult moduleId = .ok, st.storage)

/-! ## The modules of a store -/

variable {order : MapOrder} {s : Store} {b x y root moduleId : String}

/-- Both modules are installed, and the first has the second as a dependency. -/
def Store.Needs (s : Store) (b x : String) : Prop :=
  ∃ r ∈ s.installed, r.uri = b ∧ x ∈ r.dependency ∧ x ∈ s.uris

theorem Store.mem_uris : x ∈ s.uris ↔ ∃ r ∈ s.installed, r.uri = x := List.mem_map

theorem Store.Needs.left (h : s.Needs b x) : b ∈ s.uris := by
  obtain ⟨r, hr, hb, -⟩ := h
  exact Store.mem_uris.2 ⟨r, hr, hb⟩

theorem Store.Needs.right (h : s.Needs b x) : x ∈ s.uris := h.choose_spec.2.2.2

theorem Store.uris_nodup (s : Store) : s.uris.Nodup :=
  s.nodup.sublist (s.modules.filter_sublist.map _)

theorem Store.uri_ne_of_mem (h : x ∈ s.uris) : x ≠ "" := by
  obtain ⟨r, hr, rfl⟩ := mem_uris.1 h
  exact s.uri_ne r (List.mem_of_mem_filter hr)

theorem Store.mem_dependencies {r : ModuleRecord} :
    x ∈ s.dependencies r ↔ x ∈ r.dependency ∧ x ∈ s.uris := by
  simp [dependencies]

theorem mem_getInstalledModules {im : Installed} : im ∈ getInstalledModules order s ↔
    ∃ r ∈ s.installed, (⟨r.uri, order.order r.uri (s.dependencies r)⟩ : Installed) = im :=
  List.mem_map

/-- Who needs a module can be read off the table of the modules. -/
theorem needs_iff (order : MapOrder) : s.Needs b x ↔
    ∃ im ∈ getInstalledModules order s, im.uri = b ∧ x ∈ im.dependencies := by
  constructor
  · rintro ⟨r, hr, hb, hx⟩
    refine ⟨_, mem_getInstalledModules.2 ⟨r, hr, rfl⟩, hb, ?_⟩
    exact (order.perm r.uri _).mem_iff.2 (Store.mem_dependencies.2 hx)
  · rintro ⟨im, him, hb, hx⟩
    obtain ⟨r, hr, rfl⟩ := mem_getInstalledModules.1 him
    exact ⟨r, hr, hb, Store.mem_dependencies.1 ((order.perm r.uri _).mem_iff.1 hx)⟩

theorem mem_uris_iff (order : MapOrder) :
    x ∈ s.uris ↔ ∃ im ∈ getInstalledModules order s, im.uri = x := by
  constructor
  · intro hx
    obtain ⟨r, hr, hrx⟩ := Store.mem_uris.1 hx
    exact ⟨_, mem_getInstalledModules.2 ⟨r, hr, rfl⟩, hrx⟩
  · rintro ⟨im, him, rfl⟩
    obtain ⟨r, hr, rfl⟩ := mem_getInstalledModules.1 him
    exact Store.mem_uris.2 ⟨r, hr, rfl⟩

/-- The map of the dependencies of an installed module. -/
theorem dependenciesOf_of_mem {r : ModuleRecord} (hr : r ∈ s.installed) :
    dependenciesOf (getInstalledModules order s) r.uri = order.order r.uri (s.dependencies r) := by
  cases hf : (getInstalledModules order s).find? (·.uri = r.uri) with
  | none =>
    have hn := List.find?_eq_none.1 hf _ (mem_getInstalledModules.2 ⟨r, hr, rfl⟩)
    simp at hn
  | some im =>
    obtain ⟨r', hr', rfl⟩ := mem_getInstalledModules.1 (List.mem_of_find?_eq_some hf)
    have hu : r'.uri = r.uri := by simpa using List.find?_some hf
    have := List.inj_on_of_nodup_map s.uris_nodup hr' hr hu
    rw [dependenciesOf, hf, this]

theorem dependenciesOf_of_not_mem (h : x ∉ s.uris) :
    dependenciesOf (getInstalledModules order s) x = [] := by
  have hf : (getInstalledModules order s).find? (·.uri = x) = none :=
    List.find?_eq_none.2 fun im him hx =>
      h ((mem_uris_iff order).2 ⟨im, him, of_decide_eq_true hx⟩)
  rw [dependenciesOf, hf]

/-- The walk goes from a module to what it needs. -/
theorem lists_dependenciesOf (order : MapOrder) (s : Store) :
    Removal.Lists s.Needs (dependenciesOf (getInstalledModules order s)) := by
  have hcases : ∀ b, b ∉ s.uris ∨ ∃ r ∈ s.installed, r.uri = b := fun b =>
    (em (b ∈ s.uris)).symm.imp_right Store.mem_uris.1
  constructor
  · intro b x
    obtain hb | ⟨r, hr, rfl⟩ := hcases b
    · rw [dependenciesOf_of_not_mem hb]
      exact iff_of_false List.not_mem_nil fun h => hb h.left
    · rw [dependenciesOf_of_mem hr, (order.perm ..).mem_iff, Store.mem_dependencies]
      refine ⟨fun h => ⟨r, hr, rfl, h⟩, ?_⟩
      rintro ⟨r', hr', hu, h⟩
      rwa [← List.inj_on_of_nodup_map s.uris_nodup hr' hr hu]
  · intro b
    obtain hb | ⟨r, hr, rfl⟩ := hcases b
    · rw [dependenciesOf_of_not_mem hb]
      exact .nil
    · rw [dependenciesOf_of_mem hr]
      exact (order.perm ..).nodup_iff.2 (List.nodup_dedup _)

/-- Each way to list what the modules need is that of some order of the maps. -/
theorem exists_order {below : String → List String} (hl : Removal.Lists s.Needs below) :
    ∃ order, dependenciesOf (getInstalledModules order s) = below := by
  refine ⟨⟨fun uri keys => if (below uri).Perm keys then below uri else keys, fun uri keys => ?_⟩,
    funext fun b => ?_⟩
  · split_ifs with h
    · exact h
    · exact .refl _
  · by_cases hb : b ∈ s.uris
    · obtain ⟨r, hr, rfl⟩ := Store.mem_uris.1 hb
      rw [dependenciesOf_of_mem hr]
      refine if_pos ((List.perm_ext_iff_of_nodup (hl.nodup _) (List.nodup_dedup _)).2 fun x => ?_)
      rw [hl.mem, ← (lists_dependenciesOf ⟨fun _ keys => keys, fun _ _ => .refl _⟩ s).mem,
        dependenciesOf_of_mem hr]
      rfl
    · rw [dependenciesOf_of_not_mem hb]
      exact (List.eq_nil_iff_forall_not_mem.2 fun x hx => hb (hl.mem.1 hx).left).symm

/-! ## The walk -/

/-- How a module was left. -/
def resultOf : Option Bool → OperationResult
  | none => .none
  | some true => .ok
  | some false => .fail

/-- What the storage and the table of the modules have when some modules are gone. -/
structure Refines (order : MapOrder) (s : Store) (st : State) (t : Removal.State String) :
    Prop where
  uris : ∀ x, x ∈ st.storage.uris ↔ x ∈ s.uris ∧ x ∉ t.gone
  records : st.storage.modules.map (·.uri) = s.modules.map (·.uri)
  table : ∀ im, im ∈ st.table order ↔ im ∈ getInstalledModules order s ∧ im.uri ∉ t.gone
  individuals : ∀ i ∈ st.storage.individuals, i.isDefinedBy ∉ t.gone
  result : ∀ x, st.operationResult x = resultOf (t.result x)

variable {st : State} {t : Removal.State String}

theorem Refines.init : Refines order s
    { storage := s, tmpInstalledModules := [], operationResult := fun _ => .none } .init where
  uris _ := (and_iff_left fun h => h.elim).symm
  records := rfl
  table _ := (and_iff_left fun h => h.elim).symm
  individuals _ _ h := h.elim
  result _ := rfl

theorem State.table_eq (order : MapOrder) (st : State) :
    State.table order { st with tmpInstalledModules := st.table order } = st.table order := by
  by_cases h : (st.table order).length = 0
  · by_cases h' : st.tmpInstalledModules.length = 0
    · have ht : st.table order = getInstalledModules order st.storage := if_pos h'
      exact (if_pos h).trans ht.symm
    · have ht : st.table order = st.tmpInstalledModules := if_neg h'
      exact absurd (ht ▸ h) h'
  · exact if_neg h

theorem Refines.setResult {result : OperationResult} {ok : Bool}
    (h : Refines order s st t) (hr : resultOf (some ok) = result) :
    Refines order s (st.setResult x result) (t.setResult x ok) where
  uris := h.uris
  records := h.records
  table := h.table
  individuals := h.individuals
  result y := by
    rcases eq_or_ne y x with rfl | hne
    · rw [Removal.setResult_self, State.setResult_self, hr]
    · rw [Removal.setResult_of_ne hne, State.setResult_of_ne st result hne, h.result]

/-- The table is kept where it was filled. -/
theorem Refines.fill (h : Refines order s st t) :
    Refines order s { st with tmpInstalledModules := st.table order } t :=
  { h with table := fun im => by rw [State.table_eq, h.table] }

theorem Store.mem_uris_deactivate : y ∈ (s.deactivate x).uris ↔ y ∈ s.uris ∧ y ≠ x := by
  simp only [mem_uris, installed, deactivate, List.mem_filter, List.mem_map]
  constructor
  · rintro ⟨_, ⟨⟨r, hr, rfl⟩, hd⟩, hy⟩
    by_cases hx : r.uri = x
    · simp [ModuleRecord.deactivate, hx] at hd
    · have : r.deactivate x = r := if_neg hx
      rw [this] at hd hy
      exact ⟨⟨r, ⟨hr, hd⟩, hy⟩, hy ▸ hx⟩
  · rintro ⟨⟨r, ⟨hr, hd⟩, rfl⟩, hne⟩
    have : r.deactivate x = r := if_neg hne
    exact ⟨r, ⟨⟨r, hr, this⟩, hd⟩, rfl⟩

/-- Where `tmp_installed_modules` has the modules that are left, a query for an empty one finds no
others. -/
theorem State.mem_table {gone : Set String}
    (huris : ∀ y, y ∈ st.storage.uris ↔ y ∈ s.uris ∧ y ∉ gone)
    (htmp : ∀ im, im ∈ st.tmpInstalledModules ↔
      im ∈ getInstalledModules order s ∧ im.uri ∉ gone) (im : Installed) :
    im ∈ st.table order ↔ im ∈ getInstalledModules order s ∧ im.uri ∉ gone := by
  by_cases hn : st.tmpInstalledModules.length = 0
  · have hnil := List.eq_nil_of_length_eq_zero hn
    have hnone : ∀ im, ¬(im ∈ getInstalledModules order s ∧ im.uri ∉ gone) := fun im him => by
      simpa [hnil] using (htmp im).2 him
    have ht : st.table order = getInstalledModules order st.storage := if_pos hn
    refine iff_of_false (fun him => ?_) (hnone im)
    have hu := (huris im.uri).1 ((mem_uris_iff order).2 ⟨im, ht ▸ him, rfl⟩)
    obtain ⟨im', him', hu'⟩ := (mem_uris_iff order).1 hu.1
    exact hnone im' ⟨him', hu' ▸ hu.2⟩
  · have ht : st.table order = st.tmpInstalledModules := if_neg hn
    rw [ht, htmp]

/-- What is left when a module is removed. -/
theorem Refines.remove (h : Refines order s st t) :
    Refines order s { st with
      storage := (st.storage.removeIndividuals x).deactivate x
      tmpInstalledModules := (st.table order).filter (·.uri ≠ x) }
      { t with gone := insert x t.gone } := by
  have huris : ∀ y, y ∈ ((st.storage.removeIndividuals x).deactivate x).uris ↔
      y ∈ s.uris ∧ y ∉ insert x t.gone := by
    intro y
    have hy : y ∈ (st.storage.removeIndividuals x).uris ↔ y ∈ s.uris ∧ y ∉ t.gone := h.uris y
    rw [Store.mem_uris_deactivate, hy, Set.mem_insert_iff, not_or, and_assoc, and_comm (a := y ∉ _)]
  refine ⟨huris, ?_, State.mem_table huris fun im => ?_, fun i hi => ?_, h.result⟩
  · rw [← h.records]
    exact map_deactivate_uri x st.storage.modules
  · simp [h.table, not_or, and_assoc, and_comm]
  · obtain ⟨hi, hf⟩ := List.mem_filter.1 hi
    rintro (hx | hg)
    · refine of_decide_eq_true hf (List.mem_map.2 ⟨i, ?_, rfl⟩)
      exact List.mem_filter.2 ⟨hi, decide_eq_true hx⟩
    · exact h.individuals i hi hg

theorem resultOf_ne (ok : Bool) :
    resultOf (some ok) ≠ .foundAnotherVersion ∧ resultOf (some ok) ≠ .none := by
  cases ok <;> decide

/-- Uninstalling one module enters it. -/
theorem Refines.enter (h : Refines order s st t) (hx : x ∈ s.uris)
    (hroot : ∀ b, s.Needs b x → b ∉ t.gone → b ≠ root) :
    Refines order s (uninstallOwn order root x st) (Removal.enter s.Needs x t) := by
  have hne := Store.uri_ne_of_mem hx
  cases hr : t.result x with
  | some ok =>
    have hv : st.operationResult x ≠ .foundAnotherVersion ∧ st.operationResult x ≠ .none := by
      rw [h.result, hr]
      exact resultOf_ne ok
    rw [Removal.enter_visited (by simp [hr]), uninstallOwn, if_neg hne, if_pos hv]
    exact h.setResult rfl
  | none =>
    have hv : st.operationResult x = .none := by rw [h.result, hr, resultOf]
    have hf := h.fill
    rw [uninstallOwn, if_neg hne, if_neg (by simp [hv])]
    by_cases hb : ∃ b, s.Needs b x ∧ b ∉ t.gone
    · obtain ⟨b, hb, hg⟩ := hb
      obtain ⟨im, him, rfl, hdep⟩ := (needs_iff order).1 hb
      rw [Removal.enter_kept hr hb hg, if_pos]
      · exact hf.setResult rfl
      · refine List.any_eq_true.2 ⟨im, (h.table im).2 ⟨him, hg⟩, ?_⟩
        simp [hroot im.uri hb hg, hdep]
    · push Not at hb
      have hrec : ((st.storage.removeIndividuals x).modules.any (·.uri = x)) = true := by
        have hm : x ∈ st.storage.modules.map (·.uri) := by
          rw [h.records]
          exact (s.modules.filter_sublist.map _).mem hx
        obtain ⟨r, hr, hu⟩ := List.mem_map.1 hm
        exact List.any_eq_true.2 ⟨r, hr, decide_eq_true hu⟩
      rw [Removal.enter_removed hr hb, if_neg, if_pos hrec]
      · exact h.remove.setResult rfl
      · intro hany
        obtain ⟨im, him, hdep⟩ := List.any_eq_true.1 hany
        obtain ⟨him, hg⟩ := (h.table im).1 him
        simp only [Bool.and_eq_true, decide_eq_true_eq] at hdep
        exact hg (hb _ ((needs_iff order).2 ⟨im, him, rfl, hdep.2⟩))

/-- `uninstall` as a walk. -/
def uninstallWalk (order : MapOrder) (root : String) (dependencies : String → List String) :
    Walk String State where
  enter := uninstallOwn order root
  descends uri st := st.operationResult uri = .ok
  stops dep st := st.operationResult dep = .fail
  below := dependencies

theorem uninstall_eq (order : MapOrder) (root : String) (dependencies : String → List String)
    (fuel : ℕ) : uninstall order root dependencies fuel =
      (uninstallWalk order root dependencies).visit fuel := by
  have hall : ∀ f deps st,
      uninstallAll f deps st = (uninstallWalk order root dependencies).loop f deps st := by
    intro f deps
    induction deps with
    | nil => exact fun _ => rfl
    | cons dep deps ih =>
      intro st
      simp only [uninstallAll, Walk.loop, ih]
      cases f dep st with
      | none => rfl
      | some st => simp [uninstallWalk]
  induction fuel with
  | zero => rfl
  | succ fuel ih =>
    funext uri st
    simp only [uninstall, Walk.visit, hall, ih]
    simp [uninstallWalk]

theorem resultOf_ok (r : Option Bool) : (r == some true) = decide (resultOf r = .ok) := by
  rcases r with _ | _ | _ <;> rfl

theorem resultOf_fail (r : Option Bool) : (r == some false) = decide (resultOf r = .fail) := by
  rcases r with _ | _ | _ <;> rfl

/-- Uninstalling a module that no installed module needs is the walk that removes it. -/
theorem visit_sim (order : MapOrder) (hroot : ∀ b, ¬s.Needs b root) (hx : root ∈ s.uris)
    (fuel : ℕ) : Option.Rel (fun st t => Refines order s st t ∧ root ∈ t.gone)
      (uninstall order root (dependenciesOf (getInstalledModules order s)) fuel root
        { storage := s, tmpInstalledModules := [], operationResult := fun _ => .none })
      ((Removal.walk s.Needs (dependenciesOf (getInstalledModules order s))).visit fuel root
        .init) := by
  have hl := lists_dependenciesOf order s
  rw [uninstall_eq]
  refine Walk.visit_sim (V := (· ∈ s.uris)) (fun _ _ _ hy => (hl.mem.1 hy).right) (fun _ _ => rfl)
    (fun x st t hx h => ⟨?_, ?_⟩) (fun x st t _ h => ?_) (fun x st t _ h => ?_) hx ⟨?_, ?_⟩
  · exact h.1.enter hx fun b _ hg hb => hg (hb ▸ h.2)
  · obtain hg | ⟨-, -, hg⟩ := Removal.enter_cases s.Needs x t
    · exact hg ▸ h.2
    · exact hg ▸ .inr h.2
  · simp [uninstallWalk, h.1.result, resultOf_ok]
  · simp [uninstallWalk, h.1.result, resultOf_fail]
  · exact Refines.init.enter hx fun b hb => absurd hb (hroot b)
  · rw [Removal.walk_enter, Removal.enter_removed rfl fun b hb => absurd hb (hroot b)]
    exact .inl rfl

/-! ## What is left -/

/-- The module is gone, and the individuals of what is gone are gone too; no module that is still
installed needs one that is gone; and what the module needed, directly or not, is gone unless
another module that is still installed needs it. -/
structure Clean (s : Store) (m : String) (s' : Store) : Prop where
  removed : m ∉ s'.uris
  individuals : ∀ x ∈ s.uris, x ∉ s'.uris → ∀ i ∈ s'.individuals, i.isDefinedBy ≠ x
  closed : ∀ b x, s.Needs b x → b ∈ s'.uris → x ∈ s'.uris
  unneeded : ∀ x, Relation.TransGen s.Needs m x → x ∈ s'.uris →
    ∃ b, b ≠ x ∧ s.Needs b x ∧ b ∈ s'.uris

/-- In every order of the maps the module is uninstalled with what is not needed any more. -/
def Uninstalls (s : Store) (m : String) : Prop :=
  ∀ order, ∃ fuel ok s', uninstallUserModule order fuel m s = some (ok, s') ∧ Clean s m s'

variable {m : String} {s' : Store} {fuel : ℕ}

theorem Refines.mem_uris_iff (h : Refines order s st t) (hx : x ∈ s.uris) :
    x ∈ st.storage.uris ↔ x ∉ t.gone := by
  rw [h.uris, and_iff_right hx]

theorem Store.mem_uris_of_trans (h : Relation.TransGen s.Needs b x) : x ∈ s.uris := by
  cases h with
  | single h => exact h.right
  | tail _ h => exact h.right

theorem Refines.clean_iff (h : Refines order s st t) (hm : m ∈ s.uris) :
    Clean s m st.storage ↔ Removal.Clean s.Needs m t := by
  have hu : ∀ {x}, x ∈ s.uris → (x ∈ st.storage.uris ↔ x ∉ t.gone) := fun hx => h.mem_uris_iff hx
  constructor
  · intro hc
    refine ⟨not_not.1 fun hg => hc.removed ((hu hm).2 hg), fun b x hb hx => ?_, fun x hx hg => ?_⟩
    · by_contra hbg
      exact (hu hb.right).1 (hc.closed b x hb ((hu hb.left).2 hbg)) hx
    · obtain ⟨b, hne, hb, hbu⟩ := hc.unneeded x hx ((hu (Store.mem_uris_of_trans hx)).2 hg)
      exact ⟨b, hne, hb, (hu hb.left).1 hbu⟩
  · intro hc
    refine ⟨fun hmu => (hu hm).1 hmu hc.removed, fun x hx hxu i hi hix => ?_, fun b x hb hbu => ?_,
      fun x hx hxu => ?_⟩
    · exact h.individuals i hi (hix ▸ not_not.1 fun hg => hxu ((hu hx).2 hg))
    · exact (hu hb.right).2 fun hx => (hu hb.left).1 hbu (hc.closed b x hb hx)
    · obtain ⟨b, hne, hb, hg⟩ := hc.unneeded x hx ((hu (Store.mem_uris_of_trans hx)).1 hxu)
      exact ⟨b, hne, hb, (hu hb.left).2 hg⟩

/-- What `uninstall_user_module` does with a module that is installed. -/
theorem uninstallUserModule_eq (hm : m ∈ s.uris) : uninstallUserModule order fuel m s =
    (uninstall order m (dependenciesOf (getInstalledModules order s)) fuel m
      { storage := s, tmpInstalledModules := [], operationResult := fun _ => .none }).map
      fun st => (decide (st.operationResult m = .ok), st.storage) := by
  obtain ⟨im, him, hu⟩ := (mem_uris_iff order).1 hm
  have hf : ((getInstalledModules order s).find? (·.uri = m)).isSome :=
    List.find?_isSome.2 ⟨im, him, decide_eq_true hu⟩
  obtain ⟨im', hf⟩ := Option.isSome_iff_exists.1 hf
  rw [uninstallUserModule, hf]
  cases uninstall order m (dependenciesOf (getInstalledModules order s)) fuel m
    { storage := s, tmpInstalledModules := [], operationResult := fun _ => .none } <;> rfl

/-- What is left does not depend on the fuel. -/
theorem uninstallUserModule_inj {fuel' : ℕ} {p q : Bool × Store} (hm : m ∈ s.uris)
    (hp : uninstallUserModule order fuel m s = some p)
    (hq : uninstallUserModule order fuel' m s = some q) : p = q := by
  rw [uninstallUserModule_eq hm, Option.map_eq_some_iff] at hp hq
  obtain ⟨st, hst, rfl⟩ := hp
  obtain ⟨st', hst', rfl⟩ := hq
  rw [uninstall_eq] at hst hst'
  rw [Walk.visit_inj hst hst']

/-- Uninstalling ends clean where the walk does. -/
theorem uninstalls_iff (hm : m ∈ s.uris) (hroot : ∀ b, ¬s.Needs b m) :
    Uninstalls s m ↔ ∀ below, Removal.Lists s.Needs below →
      (Removal.walk s.Needs below).Ends m .init (Removal.Clean s.Needs m) := by
  constructor
  · intro h below hl
    obtain ⟨order, rfl⟩ := exists_order hl
    obtain ⟨fuel, ok, s', hrun, hc⟩ := h order
    rw [uninstallUserModule_eq hm, Option.map_eq_some_iff] at hrun
    obtain ⟨st, hst, heq⟩ := hrun
    obtain ⟨-, rfl⟩ := Prod.mk.inj heq
    have hsim := visit_sim order hroot hm fuel
    rw [hst] at hsim
    generalize hv : (Removal.walk s.Needs _).visit fuel m .init = r at hsim
    cases hsim with
    | some hr => exact ⟨fuel, _, hv, (hr.1.clean_iff hm).1 hc⟩
  · intro h order
    obtain ⟨fuel, t, hv, hc⟩ := h _ (lists_dependenciesOf order s)
    have hsim := visit_sim order hroot hm fuel
    rw [hv] at hsim
    generalize hst : uninstall order m _ fuel m _ = r at hsim
    cases hsim with
    | @some st _ hr =>
      refine ⟨fuel, decide (st.operationResult m = .ok), st.storage, ?_, (hr.1.clean_iff hm).2 hc⟩
      rw [uninstallUserModule_eq hm, hst]
      rfl

/-- A module is uninstalled as it should be in every order of the maps if everything that goes with
it is needed once, no module that goes needs both modules that go and modules that stay, and no
module from which there is a way to a cycle is needed by two of those that go; and only if the first
two hold, and no more modules that go need one of some modules than there are of these, when each
of these needs one of them. -/
theorem uninstalls_orderly (hm : m ∈ s.uris) (hroot : ∀ b, ¬s.Needs b m) :
    (Removal.Single s.Needs m ∧ Removal.Unmixed s.Needs m ∧ Removal.Once s.Needs m →
      Uninstalls s m) ∧
    (Uninstalls s m →
      Removal.Single s.Needs m ∧ Removal.Unmixed s.Needs m ∧ Removal.Sparse s.Needs m) := by
  rw [uninstalls_iff hm hroot]
  constructor
  · rintro ⟨hsingle, hunmixed, honce⟩ below hl
    exact Removal.ends_clean hroot hl ⟨hsingle, hunmixed, honce⟩ s.uris.toFinset
      fun a x h => List.mem_toFinset.2 h.left
  · intro h
    have hl := lists_dependenciesOf ⟨fun _ keys => keys, fun _ _ => .refl _⟩ s
    exact ⟨Removal.single_of_clean hroot hl h, Removal.unmixed_of_clean hroot hl h,
      Removal.sparse_of_clean hl h⟩

/-- `m` needs `x` and `y`. -/
def twoDependencies : Store where
  modules := [⟨"m", ["x", "y"], false⟩, ⟨"x", [], false⟩, ⟨"y", [], false⟩]
  individuals := [⟨"x-image", "x"⟩]
  nodup := by decide
  uri_ne := by decide

theorem uninstalls_orderly_two_dependencies : Uninstalls twoDependencies "m" := by
  have hneeds : ∀ b x, twoDependencies.Needs b x → b = "m" ∧ x ≠ "m" := by
    rintro b x ⟨r, hr, rfl, hx, -⟩
    change r ∈ [⟨"m", ["x", "y"], false⟩, ⟨"x", [], false⟩, ⟨"y", [], false⟩] at hr
    simp only [List.mem_cons, List.not_mem_nil, or_false] at hr
    rcases hr with rfl | rfl | rfl
    · refine ⟨rfl, ?_⟩
      rintro rfl
      simp at hx
    · simp at hx
    · simp at hx
  refine (uninstalls_orderly (by decide) fun b hb => (hneeds b "m" hb).2 rfl).1
    ⟨fun a b x _ ha hb => ?_, fun a x y _ _ hy _ => ?_, fun a b x _ _ ha hb _ => ?_⟩
  · rw [(hneeds a x ha).1, (hneeds b x hb).1]
  · refine .dep .root ((hneeds a y hy).1 ▸ hy) fun b hb _ => ?_
    rw [(hneeds b y hb).1]
    exact .root
  · rw [(hneeds a x ha).1, (hneeds b x hb).1]

/-- `m` needs `x` and `y`, and `z` needs `x` too. -/
def sharedDependency : Store where
  modules := [⟨"m", ["x", "y"], false⟩, ⟨"x", [], false⟩, ⟨"y", [], false⟩, ⟨"z", ["x"], false⟩]
  individuals := []
  nodup := by decide
  uri_ne := by decide

/-- The maps in the order in which the dependencies were entered. -/
def entered : MapOrder := ⟨fun _ keys => keys, fun _ _ => .refl _⟩

/-- `x` is in use, and `y` is left with it. -/
theorem not_uninstalls_shared_dependency : "m" ∈ sharedDependency.uris ∧
    (∀ b, ¬sharedDependency.Needs b "m") ∧ ¬Uninstalls sharedDependency "m" := by
  have hneeds : ∀ b x, sharedDependency.Needs b x → x ≠ "m" ∧ (x = "y" → b = "m") := by
    rintro b x ⟨r, hr, rfl, hx, -⟩
    change r ∈ [⟨"m", ["x", "y"], false⟩, ⟨"x", [], false⟩, ⟨"y", [], false⟩,
      ⟨"z", ["x"], false⟩] at hr
    simp only [List.mem_cons, List.not_mem_nil, or_false] at hr
    rcases hr with rfl | rfl | rfl | rfl
    · refine ⟨?_, fun _ => rfl⟩
      rintro rfl
      simp at hx
    · simp at hx
    · simp at hx
    · rw [List.mem_singleton.1 hx]
      decide
  have hm : "m" ∈ sharedDependency.uris := by decide
  refine ⟨hm, fun b hb => (hneeds b "m" hb).1 rfl, fun h => ?_⟩
  obtain ⟨fuel, ok, s', hrun, hc⟩ := h entered
  obtain ⟨p, hrun', huris⟩ := Option.map_eq_some_iff.1 (show
    (uninstallUserModule entered 2 "m" sharedDependency).map (·.2.uris) = some ["x", "y", "z"] by
      decide)
  obtain rfl := uninstallUserModule_inj hm hrun hrun'
  have hmy : sharedDependency.Needs "m" "y" :=
    ⟨⟨"m", ["x", "y"], false⟩, by simp [Store.installed, sharedDependency], rfl, by simp, by decide⟩
  obtain ⟨b, -, hb, hbu⟩ := hc.unneeded "y" (.single hmy) (huris ▸ by decide)
  rw [(hneeds b "y" hb).2 rfl, huris] at hbu
  exact absurd hbu (by decide)

end Veda.Input.Uninstall
