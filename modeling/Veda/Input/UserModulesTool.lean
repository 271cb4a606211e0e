import Mathlib.Data.List.Basic

/-! # Installation of user modules

The model of `UserModuleInfo` and `install_user_module` in `user_modules_tool.d`: a module is
fetched with its dependencies, the tree is checked against the storage, what another version has
stored is removed, and the individuals are stored. What comes from outside (downloads, archives, the
storage) is given with each module as what happens there. -/

namespace Veda.Input

inductive OperationResult where
  | ok
  | foundInvalidVersion
  | foundAnotherVersion
  | foundEqualVersion
  | fail
  | none
  deriving DecidableEq

/-! ## Fetching -/

inductive Host where
  | bitbucket
  | github
  | other
  deriving DecidableEq

/-- An entry of `releases.json`. -/
structure Release where
  tagName : String
  zipballUrl : String
  publishedAt : String

/-- What `get_and_unpack` starts from and what it meets on the way to `module.ttl`. -/
structure Download where
  uri : String
  url : String
  host : Host
  /-- The path of the url, split at `/`. -/
  path : List String
  moduleVersion : Option String
  /-- Something throws what is not caught in `get_and_unpack`. -/
  throws : Bool
  /-- The temporary folder could be made. -/
  folderMade : Bool
  /-- The releases, where the file could be read and parsed. -/
  releases : Option (List Release)
  /-- `unzip` has ended with 0. -/
  unzipped : Bool
  /-- The folder that `unzip` has made. -/
  unpacked : Option String
  /-- The individual of `module.ttl` with the path of the url. -/
  root : Option String

/-- How a part of a function ends. -/
inductive Outcome (α : Type) where
  | throws
  | fail
  | done (value : α)
  deriving DecidableEq

/-- What comes before the first `.zip`. -/
def beforeZip : List Char → Option (List Char)
  | [] => none
  | c :: cs =>
    if ".zip".toList.isPrefixOf (c :: cs) then some [] else (beforeZip cs).map (c :: ·)

/-- What follows `releases/tag`; it is out of range where nothing does. -/
def releaseTag : List String → Outcome (Option String)
  | [] => .done none
  | part :: parts =>
    match part, parts with
    | "releases", ["tag"] => .throws
    | "releases", "tag" :: tag :: _ => .done (some tag)
    | _, _ => releaseTag parts

/-- The tag of the release with the last date. -/
def lastRelease (releases : List Release) : Option String :=
  (releases.foldl (fun last release =>
    match last with
    | none => some release
    | some last => if release.publishedAt < last.publishedAt then some last else some release)
    none).map (·.tagName)

/-- `ver` and `ver_2_url`. -/
def Download.version (d : Download) : Outcome (Option String × List (String × String)) :=
  match d.host with
  | .bitbucket =>
    match d.path with
    | [_, _, _, "get", archive] =>
      match beforeZip archive.toList with
      | some (c :: cs) => .done (some (String.ofList (c :: cs)), [(String.ofList (c :: cs), d.url)])
      | _ => .done (d.moduleVersion, [])
    | _ => .fail
  | .github =>
    if d.path.length ≠ 3 ∧ d.path.length ≠ 6 then .fail
    else
      match releaseTag d.path with
      | .throws => .throws
      | .fail => .fail
      | .done tag =>
        if d.folderMade = false then .fail
        else
          match d.releases with
          | none => .fail
          | some releases =>
            .done ((tag.or d.moduleVersion).or (lastRelease releases),
              releases.map fun release => (release.tagName, release.zipballUrl))
  | .other => .done (d.moduleVersion, [])

/-- `get_and_unpack` up to the root individual of `module.ttl`: its uri. -/
def Download.fetch (d : Download) : Outcome String :=
  if d.throws then .throws
  else
    match d.version with
    | .throws => .throws
    | .fail => .fail
    | .done (none, _) => .fail
    | .done (some ver, ver2url) =>
      match ver2url.reverse.find? (·.1 = ver), d.unzipped, d.unpacked, d.root with
      | some _, true, some _, some root => .done root
      | _, _, _, _ => .fail

/-! ## Modules -/

/-- An individual of a module, with its hash and whether the storage accepts it. -/
structure ModuleIndividual where
  uid : String
  hash : String
  accepted : Bool

/-- A module that is installed, with the uris of its dependencies. -/
structure Installed where
  uri : String
  dependencies : List String

/-- What a module has in its archive, and what happens to it in the storage. -/
structure Info where
  uri : String
  individuals : List ModuleIndividual
  /-- `total_hash_indv_file`. -/
  hashes : List String
  /-- `tmp_installed_modules` when the module is uninstalled. -/
  installed : List Installed
  /-- Whether each individual that is defined by the module could be removed. -/
  removals : List Bool
  /-- Whether the record of the module could be set to deleted, where there is one. -/
  deactivated : Option Bool
  /-- There is no record of the module, or it is deleted. -/
  recordGone : Bool
  /-- Whether the storage accepts the image, where it could be copied. -/
  image : Option Bool
  /-- Whether the storage accepts the record of the module. -/
  recordAccepted : Bool

/-- What does not come from the archive is as it was, when nothing is unpacked. -/
def Info.empty (info : Info) (uri : String) : Info :=
  { info with uri, individuals := [], hashes := [] }

mutual

/-- A module with its dependencies. -/
inductive Module where
  | mk (download : Download) (info : Info) (deps : Deps)

/-- The dependencies that `module.ttl` names, one after the other, up to one that it does not
describe. -/
inductive Deps where
  | nil
  | missing
  | cons (dep : Module) (deps : Deps)

end

/-- `UserModuleInfo`: what is known of a module, its `operation_result` and its `dependencies`. -/
inductive UserModuleInfo where
  | mk (info : Info) (operationResult : OperationResult) (dependencies : List UserModuleInfo)

namespace UserModuleInfo

def info : UserModuleInfo → Info
  | mk info _ _ => info

def operationResult : UserModuleInfo → OperationResult
  | mk _ operationResult _ => operationResult

end UserModuleInfo

mutual

/-- `get_and_unpack`. There is nothing where an exception goes through. What a dependency ends with
is noted in the loop, but overwritten after it. -/
def getAndUnpack : Module → Option UserModuleInfo
  | .mk download info deps =>
    match download.fetch with
    | .throws => none
    | .fail => some (.mk (info.empty download.uri) .fail [])
    | .done uri =>
      match getDependencies deps with
      | none => none
      | some (dependencies, found) =>
        some (.mk { info with uri } (if found then .ok else .fail) dependencies)

/-- The loop over the dependencies, and whether all of them were found in `module.ttl`. -/
def getDependencies : Deps → Option (List UserModuleInfo × Bool)
  | .nil => some ([], true)
  | .missing => some ([], false)
  | .cons dep deps =>
    match getAndUnpack dep with
    | none => none
    | some duim =>
      match getDependencies deps with
      | none => none
      | some (dependencies, found) => some (duim :: dependencies, found)

end

/-! ## Checking -/

/-- What the storage has for a uri. -/
inductive Lookup where
  | found (hash isDefinedBy : String)
  | notFound
  | unprocessableEntity
  | error

structure Storage where
  get : String → Lookup
  /-- There is such an individual and it is a module. -/
  isModule : String → Bool

/-- The loop over the individuals of a module: `total_hash_indv_storage`, or the result that breaks
it. -/
def checkIndividuals (storage : Storage) (uri : String) :
    List ModuleIndividual → List String → Except OperationResult (List String)
  | [], hashes => .ok hashes
  | indv :: indvs, hashes =>
    match storage.get indv.uid with
    | .found hash isDefinedBy =>
      if isDefinedBy ≠ uri then
        if storage.isModule isDefinedBy then .error .foundAnotherVersion
        else checkIndividuals storage uri indvs (hashes ++ [hash])
      else if hash ≠ indv.hash then .error .foundAnotherVersion
      else checkIndividuals storage uri indvs (hashes ++ [hash])
    | .notFound | .unprocessableEntity => checkIndividuals storage uri indvs hashes
    | .error => .error .foundInvalidVersion

/-- `check` of one module. -/
def checkOwn (storage : Storage) (info : Info) (result : OperationResult) : OperationResult :=
  match checkIndividuals storage info.uri info.individuals [] with
  | .error result => result
  | .ok hashes =>
    if hashes ≠ [] ∧ info.hashes ≠ [] then
      if info.hashes.isPerm hashes then .foundEqualVersion else .foundAnotherVersion
    else result

mutual

def UserModuleInfo.check (storage : Storage) : UserModuleInfo → UserModuleInfo
  | .mk info result dependencies =>
    .mk info (checkOwn storage info result) (checkAll storage dependencies)

def checkAll (storage : Storage) : List UserModuleInfo → List UserModuleInfo
  | [] => []
  | dep :: deps => dep.check storage :: checkAll storage deps

end

/-! ## Uninstalling -/

/-- A module other than the root is installed and has the module as a dependency. -/
def Info.isUsed (info : Info) (root : String) : Bool :=
  info.installed.any fun im => im.uri ≠ root && info.uri ∈ im.dependencies

/-- `uninstall` of one module. `prev_module_name` has no effect there, as `module_id` is still empty
when it is asked for. -/
def uninstallOwn (root : String) (info : Info) (result : OperationResult) : OperationResult :=
  if info.uri = "" then .ok
  else if result ≠ .foundAnotherVersion ∧ result ≠ .none then .ok
  else if info.isUsed root then .fail
  else if false ∈ info.removals then .fail
  else if info.deactivated = some false then .fail
  else .ok

mutual

/-- `uninstall`: the dependencies come last, and only after a success. -/
def UserModuleInfo.uninstall (root : String) : UserModuleInfo → UserModuleInfo
  | .mk info result dependencies =>
    if uninstallOwn root info result = .ok then .mk info .ok (uninstallAll root dependencies)
    else .mk info (uninstallOwn root info result) dependencies

def uninstallAll (root : String) : List UserModuleInfo → List UserModuleInfo
  | [] => []
  | dep :: deps =>
    if (dep.uninstall root).operationResult = .fail then dep.uninstall root :: deps
    else dep.uninstall root :: uninstallAll root deps

end

/-! ## Installing -/

/-- What `store_module_individ` stores. -/
def Info.storeModuleIndivid (info : Info) : List String :=
  (if info.image = some true then [info.uri ++ "-image"] else []) ++
    if info.recordAccepted then [info.uri] else []

/-- The individuals of a module are stored up to the first that is not accepted. -/
def storeIndividuals : List ModuleIndividual → List String × Bool
  | [] => ([], true)
  | indv :: indvs =>
    if indv.accepted then (indv.uid :: (storeIndividuals indvs).1, (storeIndividuals indvs).2)
    else ([], false)

mutual

/-- `install`: what is stored, and whether it was a success. -/
def UserModuleInfo.install : UserModuleInfo → List String × Bool
  | .mk info result dependencies =>
    match installAll dependencies with
    | (stored, false) => (stored, false)
    | (stored, true) =>
      if result = .foundEqualVersion then
        (stored ++ if info.recordGone then info.storeModuleIndivid else [], true)
      else
        match storeIndividuals info.individuals with
        | (indvs, false) => (stored ++ indvs, false)
        | (indvs, true) => (stored ++ indvs ++ info.storeModuleIndivid, true)

def installAll : List UserModuleInfo → List String × Bool
  | [] => ([], true)
  | dep :: deps =>
    match dep.install with
    | (stored, false) => (stored, false)
    | (stored, true) => (stored ++ (installAll deps).1, (installAll deps).2)

end

/-- `install_user_module`: the uris of what is stored. -/
def installUserModule (storage : Storage) (m : Module) : List String :=
  match getAndUnpack m with
  | none => []
  | some im =>
    if im.operationResult = .ok then
      let im := (im.check storage).uninstall im.info.uri
      if im.operationResult = .ok then im.install.1 else []
    else []

end Veda.Input
