import Veda.Input.UserModulesTool

/-! # What is stored of a broken tree of modules

A failure of a dependency does not reach the root of the tree, so that installation goes on. -/

namespace Veda.Input

/-! ## The property -/

mutual

/-- Some module of the tree has the result. -/
def UserModuleInfo.Has (result : OperationResult) : UserModuleInfo → Prop
  | .mk _ own dependencies => own = result ∨ HasAny result dependencies

def HasAny (result : OperationResult) : List UserModuleInfo → Prop
  | [] => False
  | dep :: deps => dep.Has result ∨ HasAny result deps

end

/-- `get_and_unpack` of some module of the tree ends in `FAIL`, or `check` of one in
`FOUND_INVALID_VERSION`. -/
def Broken (storage : Storage) (m : Module) : Prop :=
  ∃ im, getAndUnpack m = some im ∧ (im.Has .fail ∨ (im.check storage).Has .foundInvalidVersion)

/-- Nothing is stored of a broken tree. -/
def InstallsSound (storage : Storage) (m : Module) : Prop :=
  Broken storage m → installUserModule storage m = []

/-! ## The condition -/

/-- A dependency is named that is not described. -/
def Deps.isMissing : Deps → Bool
  | .nil => false
  | .missing => true
  | .cons _ deps => deps.isMissing

/-- `get_and_unpack` of the module itself ends in `FAIL`. -/
def Module.failsItself : Module → Prop
  | .mk download _ deps =>
    download.fetch = .fail ∨ ∃ uri, download.fetch = .done uri ∧ deps.isMissing

/-- The module is there in another version that cannot be uninstalled. -/
def Module.cannotReplace (storage : Storage) : Module → Prop
  | .mk download info _ => ∃ uri, download.fetch = .done uri ∧
    checkOwn storage { info with uri } .ok = .foundAnotherVersion ∧ uri ≠ "" ∧
      (Info.isUsed { info with uri } uri = true ∨ false ∈ info.removals ∨
        info.deactivated = some false)

/-- What installation asks the storage to store. -/
structure Put where
  uid : String
  /-- Installation ends where an individual is not accepted, but not so for a record. -/
  individual : Bool
  accepted : Bool

def Info.recordPuts (info : Info) : List Put :=
  info.image.toList.map (⟨info.uri ++ "-image", false, ·⟩) ++
    [⟨info.uri, false, info.recordAccepted⟩]

mutual

/-- What there is to store of a tree, in the order of installation. -/
def UserModuleInfo.puts : UserModuleInfo → List Put
  | .mk info result dependencies => putsAll dependencies ++
    if result = .foundEqualVersion then if info.recordGone then info.recordPuts else []
    else info.individuals.map (fun indv => ⟨indv.uid, true, indv.accepted⟩) ++ info.recordPuts

def putsAll : List UserModuleInfo → List Put
  | [] => []
  | dep :: deps => dep.puts ++ putsAll deps

end

/-- The storage accepts nothing up to the first individual that it does not accept. -/
def RefusesAll (storage : Storage) (m : Module) : Prop :=
  ∀ im, getAndUnpack m = some im →
    ∀ put ∈ ((im.check storage).uninstall im.info.uri).puts.takeWhile
      (fun put => put.accepted || !put.individual), put.accepted = false

/-! ## Fetching, checking and uninstalling the root -/

theorem snd_getDependencies : ∀ {deps : Deps} {dependencies : List UserModuleInfo} {found : Bool},
    getDependencies deps = some (dependencies, found) → found = !deps.isMissing
  | .nil, _, _, h | .missing, _, _, h => by
    cases h
    rfl
  | .cons dep deps, _, _, h => by
    simp only [getDependencies] at h
    split at h
    next => exact absurd h nofun
    next =>
      split at h
      next => exact absurd h nofun
      next _ _ hdeps =>
        cases h
        exact @snd_getDependencies deps _ _ hdeps

@[simp] theorem info_check (storage : Storage) (im : UserModuleInfo) :
    (im.check storage).info = im.info := by
  cases im
  rfl

@[simp] theorem operationResult_check (storage : Storage) (im : UserModuleInfo) :
    (im.check storage).operationResult = checkOwn storage im.info im.operationResult := by
  cases im
  rfl

theorem operationResult_uninstall (root : String) (im : UserModuleInfo) :
    (im.uninstall root).operationResult = uninstallOwn root im.info im.operationResult := by
  obtain ⟨info, result, dependencies⟩ := im
  simp only [UserModuleInfo.uninstall]
  split
  next h => exact h.symm
  next => rfl

/-- A module that was fetched is uninstalled, unless it is there in another version that cannot
be. -/
theorem uninstallOwn_eq_ok {info : Info} (hresult : result ≠ .none) :
    uninstallOwn info.uri info result = .ok ↔ ¬ (result = .foundAnotherVersion ∧ info.uri ≠ "" ∧
      (info.isUsed info.uri = true ∨ false ∈ info.removals ∨ info.deactivated = some false)) := by
  unfold uninstallOwn
  split
  next huri => simp [huri]
  next huri =>
    split
    next hother => simp [hother.1]
    next hanother =>
      have hanother : result = .foundAnotherVersion := not_not.mp fun hne => hanother ⟨hne, hresult⟩
      split
      next hused => simp [hanother, huri, hused]
      next hused =>
        split
        next hremoved => simp [hanother, huri, hremoved]
        next hremoved =>
          split
          next hdeactivated => simp [hanother, huri, hdeactivated]
          next hdeactivated => simp [hused, hremoved, hdeactivated]

theorem checkIndividuals_ne_none {storage : Storage} {uri : String} {indvs : List ModuleIndividual}
    {hashes : List String} : checkIndividuals storage uri indvs hashes ≠ .error .none := by
  induction indvs generalizing hashes with
  | nil => exact nofun
  | cons indv indvs ih =>
    simp only [checkIndividuals]
    split
    next =>
      split
      next =>
        split
        next => exact nofun
        next => exact ih
      next =>
        split
        next => exact nofun
        next => exact ih
    next => exact ih
    next => exact ih
    next => exact nofun

theorem checkOwn_ne_none {storage : Storage} {info : Info} (hresult : result ≠ .none) :
    checkOwn storage info result ≠ .none := by
  unfold checkOwn
  split
  next result' h =>
    rintro rfl
    exact checkIndividuals_ne_none h
  next =>
    split
    next => split <;> exact nofun
    next => exact hresult

/-! ## Installing -/

/-- The puts are carried out up to the first individual that is not accepted. -/
def carryOut : List Put → List String × Bool
  | [] => ([], true)
  | put :: puts =>
    if put.accepted then (put.uid :: (carryOut puts).1, (carryOut puts).2)
    else if put.individual then ([], false)
    else carryOut puts

theorem carryOut_append (puts puts' : List Put) :
    carryOut (puts ++ puts') = if (carryOut puts).2 then
      ((carryOut puts).1 ++ (carryOut puts').1, (carryOut puts').2) else carryOut puts := by
  induction puts with
  | nil => rfl
  | cons put puts ih =>
    simp only [List.cons_append, carryOut]
    split
    next =>
      rw [ih]
      split <;> rfl
    next =>
      split
      next => rfl
      next => exact ih

/-- Nothing is stored when nothing is accepted up to the first individual that is not. -/
theorem carryOut_eq_nil {puts : List Put} :
    (carryOut puts).1 = [] ↔
      ∀ put ∈ puts.takeWhile (fun put => put.accepted || !put.individual),
        put.accepted = false := by
  induction puts with
  | nil => simp [carryOut]
  | cons put puts ih =>
    simp only [carryOut, List.takeWhile_cons]
    cases haccepted : put.accepted with
    | true => simp [haccepted]
    | false =>
      cases hindividual : put.individual with
      | true => simp
      | false => simpa [haccepted] using ih

theorem carryOut_recordPuts (info : Info) :
    carryOut info.recordPuts = (info.storeModuleIndivid, true) := by
  cases himage : info.image with
  | none =>
    cases hrecord : info.recordAccepted <;>
      simp [Info.recordPuts, Info.storeModuleIndivid, carryOut, himage, hrecord]
  | some image =>
    cases image <;> cases hrecord : info.recordAccepted <;>
      simp [Info.recordPuts, Info.storeModuleIndivid, carryOut, himage, hrecord]

theorem carryOut_individuals (indvs : List ModuleIndividual) :
    carryOut (indvs.map fun indv => ⟨indv.uid, true, indv.accepted⟩) = storeIndividuals indvs := by
  induction indvs with
  | nil => rfl
  | cons indv indvs ih =>
    simp only [List.map_cons, carryOut, storeIndividuals, ih]
    rfl

mutual

/-- Installation carries the puts out. -/
theorem install_eq : ∀ im : UserModuleInfo, im.install = carryOut im.puts
  | .mk info result dependencies => by
    simp only [UserModuleInfo.install, UserModuleInfo.puts, carryOut_append,
      ← installAll_eq dependencies]
    split
    next stored hdeps => simp [hdeps]
    next stored hdeps =>
      simp only [hdeps, if_true]
      split
      next =>
        split
        next => simp [carryOut_recordPuts]
        next => simp [carryOut]
      next =>
        simp only [carryOut_append, carryOut_individuals, carryOut_recordPuts]
        split
        next indvs hindvs => simp [hindvs]
        next indvs hindvs => simp [hindvs]

theorem installAll_eq : ∀ deps : List UserModuleInfo, installAll deps = carryOut (putsAll deps)
  | [] => rfl
  | dep :: deps => by
    simp only [installAll, putsAll, carryOut_append, ← install_eq dep, ← installAll_eq deps]
    split
    next stored hdep => simp [hdep]
    next stored hdep => simp [hdep]

end

/-! ## The result -/

/-- What `get_and_unpack` of a module ends with. -/
theorem operationResult_getAndUnpack {m : Module} {im : UserModuleInfo}
    (h : getAndUnpack m = some im) :
    (m.failsItself ∧ im.operationResult = .fail) ∨
      (¬ m.failsItself ∧ im.operationResult = .ok) := by
  obtain ⟨download, info, deps⟩ := m
  simp only [getAndUnpack] at h
  split at h
  next => exact absurd h nofun
  next hfetch =>
    cases h
    exact .inl ⟨.inl hfetch, rfl⟩
  next uri hfetch =>
    split at h
    next => exact absurd h nofun
    next dependencies found hdeps =>
      have hfound := snd_getDependencies hdeps
      cases h
      cases hmissing : deps.isMissing with
      | true =>
        rw [hmissing] at hfound
        exact .inl ⟨.inr ⟨uri, hfetch, hmissing⟩, by rw [hfound]; rfl⟩
      | false =>
        rw [hmissing] at hfound
        refine .inr ⟨?_, by rw [hfound]; rfl⟩
        rintro (hfail | ⟨_, -, htrue⟩)
        · exact absurd (hfetch.symm.trans hfail) nofun
        · exact absurd (hmissing.symm.trans htrue) nofun

/-- Whether the root of a fetched tree is uninstalled. -/
theorem uninstall_eq_ok {storage : Storage} {m : Module} {im : UserModuleInfo}
    (h : getAndUnpack m = some im) (hok : im.operationResult = .ok) :
    ((im.check storage).uninstall im.info.uri).operationResult = .ok ↔
      ¬ m.cannotReplace storage := by
  have hne : OperationResult.ok ≠ .none := nofun
  rw [operationResult_uninstall, operationResult_check, info_check, hok,
    uninstallOwn_eq_ok (checkOwn_ne_none hne), not_iff_not]
  obtain ⟨download, info, deps⟩ := m
  simp only [getAndUnpack] at h
  split at h
  next => exact absurd h nofun
  next =>
    cases h
    exact absurd hok nofun
  next uri hfetch =>
    split at h
    next => exact absurd h nofun
    next dependencies found hdeps =>
      cases h
      constructor
      · exact fun hstays => ⟨uri, hfetch, hstays⟩
      · rintro ⟨uri', hfetch', hstays⟩
        cases hfetch.symm.trans hfetch'
        exact hstays

/-- What is stored of a tree. -/
theorem installUserModule_eq_nil (storage : Storage) (m : Module) :
    installUserModule storage m = [] ↔ getAndUnpack m = none ∨ m.failsItself ∨
      m.cannotReplace storage ∨ RefusesAll storage m := by
  unfold installUserModule
  cases h : getAndUnpack m with
  | none => simp
  | some im =>
    rcases operationResult_getAndUnpack h with ⟨hfails, hresult⟩ | ⟨hnot, hresult⟩
    · simp [hresult, hfails]
    · have hreplace : ((im.check storage).uninstall im.info.uri).operationResult = .ok ↔
          ¬ m.cannotReplace storage := uninstall_eq_ok h hresult
      have hrefuses : RefusesAll storage m ↔
          ((im.check storage).uninstall im.info.uri).install.1 = [] := by
        rw [install_eq, carryOut_eq_nil, RefusesAll]
        refine ⟨fun hall => hall im h, fun hall im' h' => ?_⟩
        cases h.symm.trans h'
        exact hall
      simp only [hresult, if_true, hrefuses, hnot, false_or, reduceCtorEq]
      split
      next hok => simp [hreplace.mp hok]
      next hfail => simp [not_not.mp (mt hreplace.mpr hfail)]

/-- **Nothing is stored of a broken tree** exactly when it is not broken, the root fails itself or
cannot replace another version, or the storage accepts nothing. -/
theorem installsSound_iff (storage : Storage) (m : Module) :
    InstallsSound storage m ↔ ¬ Broken storage m ∨ m.failsItself ∨ m.cannotReplace storage ∨
      RefusesAll storage m := by
  rw [InstallsSound, installUserModule_eq_nil, imp_iff_not_or]
  refine or_congr_right' fun hbroken => or_iff_right ?_
  obtain ⟨im, him, -⟩ := not_not.mp hbroken
  rw [him]
  exact nofun

/-- A module at github with one release, whose archive can be unpacked or not. -/
def released (uri : String) (unzipped : Bool) : Download where
  uri := uri
  url := "https://github.com/veda/" ++ uri
  host := .github
  path := ["", "veda", uri]
  moduleVersion := none
  throws := false
  folderMade := true
  releases := some [⟨"v1", "zip", "2019-01-01"⟩]
  unzipped := unzipped
  unpacked := some "folder"
  root := some uri

/-- A module with one individual, that nothing knows of yet. -/
def newInfo (uid : String) : Info where
  uri := ""
  individuals := [⟨uid, "0", true⟩]
  hashes := ["0"]
  installed := []
  removals := []
  deactivated := none
  recordGone := true
  image := none
  recordAccepted := true

def emptyStorage : Storage := ⟨fun _ => .notFound, fun _ => false⟩

/-- The archive of the dependency cannot be unpacked. -/
theorem not_installsSound :
    ¬ ∀ (storage : Storage) (m : Module), InstallsSound storage m := by
  intro h
  have hnil := h emptyStorage (.mk (released "main" true) (newInfo "d:main")
    (.cons (.mk (released "dep" false) (newInfo "d:dep") .nil) .nil))
    ⟨_, rfl, .inl (.inr (.inl (.inl rfl)))⟩
  exact absurd hnil (by decide)

end Veda.Input
