import Mathlib.Logic.Function.Basic
import Mathlib.Data.List.TakeWhile

/-! # The rollback of an installation

The model of `install` and `store_module_individ` in `user_modules_tool.d`, with what the storage
holds. The dependencies are installed first; when an individual of a module is not accepted, the
individuals of this module that were put are removed. `stored` is what the storage makes of an
individual that is put over what was there (it counts the updates). -/

namespace Veda.Input.Rollback

variable {α : Type}

/-! ## The model -/

/-- An individual of a module, and whether the storage accepts it. -/
structure Entry (α : Type) where
  uid : String
  content : α
  accepted : Bool

/-- A module, as `install` finds it. -/
structure UserModule (α : Type) where
  uri : String
  /-- `operation_result == OperationResult.FOUND_EQUAL_VERSION`. -/
  foundEqualVersion : Bool
  /-- In the order in which the keys come. -/
  moduleIndividuals : List (Entry α)
  /-- The image where it could be copied, and whether the storage accepts it. -/
  image : Option (α × Bool)
  /-- The record of the module, with a link to the image or without one. -/
  record : Bool → α
  recordAccepted : Bool

/-- A module with its dependencies. -/
inductive UserModuleInfo (α : Type) where
  | mk (own : UserModule α) (dependencies : List (UserModuleInfo α))

abbrev Storage (α : Type) := String → Option α

def remove (storage : Storage α) (uid : String) : Storage α := Function.update storage uid none

section
variable (stored : Option α → α → α) (isGone : α → Bool)

def put (storage : Storage α) (uid : String) (content : α) : Storage α :=
  Function.update storage uid (some (stored (storage uid) content))

/-- `store_module_individ`. -/
def storeModuleIndivid (m : UserModule α) (storage : Storage α) : Storage α :=
  let (storage, hasImage) :=
    match m.image with
    | some (content, true) => (put stored storage (m.uri ++ "-image") content, true)
    | _ => (storage, false)
  if m.recordAccepted then put stored storage m.uri (m.record hasImage) else storage

/-- The loop over the individuals: what was put, and whether all were accepted. -/
def putIndividuals : List (Entry α) → Storage α → List String → Storage α × List String × Bool
  | [], storage, installed => (storage, installed, true)
  | entry :: entries, storage, installed =>
    if entry.accepted then
      putIndividuals entries (put stored storage entry.uid entry.content) (installed ++ [entry.uid])
    else (storage, installed, false)

/-- The record of a module is not there, cannot be read or is deleted. -/
def recordGone (m : UserModule α) (storage : Storage α) : Bool := (storage m.uri).all isGone

/-- `install` without the dependencies. -/
def installOwn (m : UserModule α) (storage : Storage α) : Storage α × Bool :=
  if m.foundEqualVersion then
    (if recordGone isGone m storage then storeModuleIndivid stored m storage else storage, true)
  else
    match putIndividuals stored m.moduleIndividuals storage [] with
    | (storage, _, true) => (storeModuleIndivid stored m storage, true)
    | (storage, installed, false) => (installed.foldl remove storage, false)

mutual

/-- `install`. -/
def UserModuleInfo.install : UserModuleInfo α → Storage α → Storage α × Bool
  | .mk own dependencies, storage =>
    match installAll dependencies storage with
    | (storage, true) => installOwn stored isGone own storage
    | (storage, false) => (storage, false)

/-- The loop over the dependencies. -/
def installAll : List (UserModuleInfo α) → Storage α → Storage α × Bool
  | [], storage => (storage, true)
  | dep :: deps, storage =>
    match dep.install storage with
    | (storage, true) => installAll deps storage
    | (storage, false) => (storage, false)

end

/-! ## The property and the condition -/

/-- When installation fails, the storage is as it was. -/
def LeavesNoTrace (im : UserModuleInfo α) (storage : Storage α) : Prop :=
  (im.install stored isGone storage).2 = false → (im.install stored isGone storage).1 = storage

mutual

/-- The modules of a tree in the order of their installation. -/
def UserModuleInfo.modules : UserModuleInfo α → List (UserModule α)
  | .mk own dependencies => modulesAll dependencies ++ [own]

def modulesAll : List (UserModuleInfo α) → List (UserModule α)
  | [] => []
  | dep :: deps => dep.modules ++ modulesAll deps

end

/-- An individual of the module is not accepted. -/
def UserModule.Fails (m : UserModule α) : Prop :=
  m.foundEqualVersion = false ∧ ∃ entry ∈ m.moduleIndividuals, entry.accepted = false

instance (m : UserModule α) : Decidable m.Fails := inferInstanceAs (Decidable (_ ∧ _))

/-- What is put before the first individual that is not accepted. -/
def UserModule.accepted (m : UserModule α) : List (Entry α) :=
  m.moduleIndividuals.takeWhile (·.accepted)

/-- All individuals of a list are put. -/
def putAll (entries : List (Entry α)) (storage : Storage α) : Storage α :=
  entries.foldl (fun storage entry => put stored storage entry.uid entry.content) storage

/-- What a module that does not fail puts: its individuals, unless it is there already, and its
record. -/
def completed (m : UserModule α) (storage : Storage α) : Storage α :=
  if m.foundEqualVersion then
    if recordGone isGone m storage then storeModuleIndivid stored m storage else storage
  else storeModuleIndivid stored m (putAll stored m.moduleIndividuals storage)

/-- For the first module that fails: none of its individuals that were put was there before, and all
others are as they were after the modules before it were installed. -/
def NothingToRestore (im : UserModuleInfo α) (storage : Storage α) : Prop :=
  ∀ before m after, im.modules = before ++ m :: after → (∀ b ∈ before, ¬b.Fails) → m.Fails →
    ∀ uid, if uid ∈ m.accepted.map (·.uid) then storage uid = none
      else before.foldl (fun storage b => completed stored isGone b storage) storage uid =
        storage uid

end

/-! ## One module -/

section
variable {stored : Option α → α → α} {isGone : α → Bool} {storage : Storage α} {m : UserModule α}
  {entries : List (Entry α)} {installed : List String} {uid : String}

@[simp] theorem putAll_cons (entry : Entry α) : putAll stored (entry :: entries) storage =
    putAll stored entries (put stored storage entry.uid entry.content) := rfl

theorem put_of_ne {content : α} {uid' : String} (h : uid ≠ uid') :
    put stored storage uid' content uid = storage uid := Function.update_of_ne h ..

theorem putIndividuals_eq : putIndividuals stored entries storage installed =
    (putAll stored (entries.takeWhile (·.accepted)) storage,
      installed ++ (entries.takeWhile (·.accepted)).map (·.uid),
      entries.all (·.accepted)) := by
  induction entries generalizing storage installed with
  | nil => simp [putIndividuals, putAll]
  | cons entry entries ih =>
    simp only [putIndividuals, List.takeWhile_cons, List.all_cons]
    cases entry.accepted with
    | true => simp [ih]
    | false => simp [putAll]

theorem all_accepted_iff : m.moduleIndividuals.all (·.accepted) = false ↔
    ∃ entry ∈ m.moduleIndividuals, entry.accepted = false := by
  simp

theorem installOwn_of_not_fails (h : ¬m.Fails) :
    installOwn stored isGone m storage = (completed stored isGone m storage, true) := by
  unfold installOwn completed
  split
  next => rfl
  next hequal =>
    have hall : m.moduleIndividuals.all (·.accepted) = true := by
      rw [← Bool.not_eq_false, all_accepted_iff]
      exact fun hfail => h ⟨Bool.not_eq_true _ ▸ hequal, hfail⟩
    have htake : m.moduleIndividuals.takeWhile (·.accepted) = m.moduleIndividuals :=
      List.takeWhile_eq_self_iff.mpr (List.all_eq_true.mp hall)
    rw [putIndividuals_eq, hall, htake]

theorem foldl_remove {uids : List String} :
    uids.foldl remove storage uid = if uid ∈ uids then none else storage uid := by
  induction uids generalizing storage with
  | nil => simp
  | cons uid' uids ih =>
    rw [List.foldl_cons, ih]
    by_cases hmem : uid ∈ uids
    · simp [hmem]
    · rcases eq_or_ne uid uid' with rfl | hne
      · simp [remove]
      · simp [hmem, hne, remove]

theorem putAll_of_notMem (h : uid ∉ entries.map (·.uid)) :
    putAll stored entries storage uid = storage uid := by
  induction entries generalizing storage with
  | nil => rfl
  | cons entry entries ih =>
    rw [List.map_cons, List.mem_cons, not_or] at h
    rw [putAll_cons, ih h.2, put_of_ne h.1]

/-- What was put of a module that fails is removed, and nothing else is changed. -/
theorem installOwn_of_fails (h : m.Fails) : (installOwn stored isGone m storage).2 = false ∧
    ∀ uid, (installOwn stored isGone m storage).1 uid =
      if uid ∈ m.accepted.map (·.uid) then none else storage uid := by
  obtain ⟨hequal, hfail⟩ := h
  have hall := all_accepted_iff.mpr hfail
  have heq : installOwn stored isGone m storage =
      ((m.accepted.map (·.uid)).foldl remove (putAll stored m.accepted storage), false) := by
    rw [installOwn, hequal, if_neg nofun, putIndividuals_eq, hall, List.nil_append,
      UserModule.accepted]
  refine ⟨by rw [heq], fun uid => ?_⟩
  rw [heq]
  refine foldl_remove.trans ?_
  split
  next => rfl
  next hmem => exact putAll_of_notMem hmem

/-! ## The modules of a tree -/

variable {ms before after : List (UserModule α)}

variable (stored isGone) in
/-- The modules one after the other, up to one that fails. -/
def installModules : List (UserModule α) → Storage α → Storage α × Bool
  | [], storage => (storage, true)
  | m :: ms, storage =>
    match installOwn stored isGone m storage with
    | (storage, true) => installModules ms storage
    | (storage, false) => (storage, false)

theorem installModules_append {ms' : List (UserModule α)} :
    installModules stored isGone (ms ++ ms') storage =
      match installModules stored isGone ms storage with
      | (storage, true) => installModules stored isGone ms' storage
      | (storage, false) => (storage, false) := by
  induction ms generalizing storage with
  | nil => rfl
  | cons m ms ih =>
    simp only [List.cons_append, installModules]
    split
    next => exact ih
    next => rfl

theorem installModules_singleton :
    installModules stored isGone [m] storage = installOwn stored isGone m storage := by
  simp only [installModules]
  split
  next h => exact h.symm
  next h => exact h.symm

mutual

theorem install_eq : ∀ (im : UserModuleInfo α) (storage : Storage α),
    im.install stored isGone storage = installModules stored isGone im.modules storage
  | .mk own dependencies, storage => by
    simp only [UserModuleInfo.install, UserModuleInfo.modules, installModules_append,
      installModules_singleton, installAll_eq dependencies storage]

theorem installAll_eq : ∀ (deps : List (UserModuleInfo α)) (storage : Storage α),
    installAll stored isGone deps storage = installModules stored isGone (modulesAll deps) storage
  | [], _ => rfl
  | dep :: deps, storage => by
    simp only [installAll, modulesAll, installModules_append, install_eq dep storage]
    split
    next storage' _ => exact installAll_eq deps storage'
    next => rfl

end

/-- Modules that do not fail are all installed. -/
theorem installModules_of_not_fails (h : ∀ b ∈ before, ¬b.Fails) :
    installModules stored isGone (before ++ after) storage =
      installModules stored isGone after
        (before.foldl (fun storage b => completed stored isGone b storage) storage) := by
  induction before generalizing storage with
  | nil => rfl
  | cons b before ih =>
    rw [List.cons_append, installModules, installOwn_of_not_fails (h b List.mem_cons_self),
      List.foldl_cons]
    exact ih fun b hb => h b (List.mem_cons_of_mem _ hb)

/-- The first module that fails ends the installation. -/
theorem installModules_of_fails (hbefore : ∀ b ∈ before, ¬b.Fails) (hm : m.Fails) :
    (installModules stored isGone (before ++ m :: after) storage).2 = false ∧
      ∀ uid, (installModules stored isGone (before ++ m :: after) storage).1 uid =
        if uid ∈ m.accepted.map (·.uid) then none
        else before.foldl (fun storage b => completed stored isGone b storage) storage uid := by
  rw [installModules_of_not_fails hbefore, installModules]
  generalize before.foldl (fun storage b => completed stored isGone b storage) storage = storage'
  obtain ⟨hfalse, huids⟩ := @installOwn_of_fails α stored isGone storage' m hm
  split
  next h => exact absurd (hfalse.symm.trans (congrArg Prod.snd h)) nofun
  next storage'' h =>
    rw [h] at huids
    exact ⟨rfl, huids⟩

/-- Where some module fails, there is a first one. -/
theorem exists_first_fails (h : ∃ m ∈ ms, m.Fails) :
    ∃ before m after, ms = before ++ m :: after ∧ (∀ b ∈ before, ¬b.Fails) ∧ m.Fails := by
  induction ms with
  | nil => exact absurd h nofun
  | cons m ms ih =>
    by_cases hm : m.Fails
    · exact ⟨[], m, ms, rfl, nofun, hm⟩
    · obtain ⟨m', hmem, hm'⟩ := h
      have hmem : m' ∈ ms := (List.mem_cons.mp hmem).resolve_left fun heq => hm (heq ▸ hm')
      obtain ⟨before, first, after, rfl, hbefore, hfirst⟩ := ih ⟨m', hmem, hm'⟩
      exact ⟨m :: before, first, after, rfl, List.forall_mem_cons.mpr ⟨hm, hbefore⟩, hfirst⟩

end

/-- **A failed installation leaves no trace** exactly when there is nothing to restore. -/
theorem leavesNoTrace_iff (stored : Option α → α → α) (isGone : α → Bool)
    (im : UserModuleInfo α) (storage : Storage α) :
    LeavesNoTrace stored isGone im storage ↔ NothingToRestore stored isGone im storage := by
  rw [LeavesNoTrace, install_eq]
  constructor
  · intro h before m after heq hbefore hm uid
    obtain ⟨hfalse, huids⟩ :=
      @installModules_of_fails α stored isGone storage m before after hbefore hm
    rw [heq] at h
    have huid := (huids uid).symm.trans (congrFun (h hfalse) uid)
    split
    next hmem => rw [← huid, if_pos hmem]
    next hmem => rw [← huid, if_neg hmem]
  · intro h hfalse
    by_cases hfails : ∃ m ∈ im.modules, m.Fails
    · obtain ⟨before, m, after, heq, hbefore, hm⟩ := exists_first_fails hfails
      obtain ⟨-, huids⟩ :=
        @installModules_of_fails α stored isGone storage m before after hbefore hm
      rw [heq]
      ext1 uid
      have huid := h before m after heq hbefore hm uid
      rw [huids uid]
      split
      next hmem => rw [if_pos hmem] at huid; exact huid.symm
      next hmem => rw [if_neg hmem] at huid; exact huid
    · -- no module fails
      have hall : ∀ b ∈ im.modules, ¬b.Fails := fun b hb hfail => hfails ⟨b, hb, hfail⟩
      have htrue := @installModules_of_not_fails α stored isGone storage im.modules [] hall
      rw [List.append_nil] at htrue
      rw [htrue] at hfalse
      exact absurd hfalse nofun

/-- A module with two individuals, of which the second is not accepted. -/
def refused : UserModule String where
  uri := "d:module"
  foundEqualVersion := false
  moduleIndividuals := [⟨"d:a", "new", true⟩, ⟨"d:b", "new", false⟩]
  image := none
  record := fun _ => "record"
  recordAccepted := true

/-- The first one was there before, and is removed. -/
theorem not_leavesNoTrace : ¬ ∀ (stored : Option String → String → String)
    (isGone : String → Bool) (im : UserModuleInfo String) (storage : Storage String),
    LeavesNoTrace stored isGone im storage := by
  intro h
  have hsame := h (fun _ content => content) (fun _ => false) (.mk refused [])
    (Function.update (fun _ => none) "d:a" (some "old")) (by decide)
  exact absurd (congrFun hsame "d:a") (by decide)

end Veda.Input.Rollback
