import Veda.Authorization.Index

/-! # The decision procedure of `authorization.rs`

The functions keep the source's control flow: a `for` loop with `continue` and `return` is a
`Step.loop` over its body, a `Result` is an `Except Int`, and the mutable `azc` and `trace`
arguments are one state record. The recursion of `prepare_obj_group` and `get_resource_groups`
is on `left = 33 - level`, the number of levels that may still be entered, so that the test
`level > 32` is `left = 0`. -/

namespace Veda.Authorization

/-- `struct Trace`. -/
structure Trace where
  acl : String := ""
  isAcl : Bool := false
  group : String := ""
  isGroup : Bool := false
  info : String := ""
  isInfo : Bool := false
  strNum : UInt32 := 0

/-- None of the trace flags is set. -/
def Trace.off (t : Trace) : Bool := !t.isInfo && !t.isGroup && !t.isAcl

/-- `struct AzContext`, with the `trace` argument that accompanies it. `deep` is a ghost: it
records that a walk was called at a level above 32, and nothing reads it. -/
structure AzContext where
  uri : String
  userUri : String
  requestAccess : Access
  calcRightRes : Access
  isNeedExclusiveAz : Bool
  isFoundExclusiveAz : Bool
  walkedGroupsS : StrMap (Access × Char)
  treeGroupsS : StrMap String
  walkedGroupsO : StrMap Access
  treeGroupsO : StrMap String
  subjectGroups : StrMap Right
  checkedGroups : StrMap Access
  trace : Trace
  deep : Bool

/-- What a function of the source leaves behind: its result and the state. -/
abbrev Outcome := Except Int Bool × AzContext

/-! ## Tracing -/

def accessToPrettyString (src : Access) : String :=
  let bit (b : Access) (s : String) : String := if src &&& b = b then s else ""
  bit 1 "C " ++ bit 2 "R " ++ bit 4 "U " ++ bit 8 "D " ++
    bit 16 "!C " ++ bit 32 "!R " ++ bit 64 "!U " ++ bit 128 "!D "

/-- `ACCESS_LIST_PREDICATES` at an element of `ACCESS_LIST`. -/
def accessPredicate (access : Access) : String :=
  ["", "v-s:canCreate", "v-s:canRead", "", "v-s:canUpdate", "", "", "", "v-s:canDelete"].getD
    access.toNat ""

def printToTraceAcl (text : String) (azc : AzContext) : AzContext :=
  { azc with trace := { azc.trace with acl := azc.trace.acl ++ text } }

def printToTraceGroup (text : String) (azc : AzContext) : AzContext :=
  { azc with trace := { azc.trace with group := azc.trace.group ++ text } }

def printToTraceInfo (text : String) (azc : AzContext) : AzContext :=
  let n := azc.trace.strNum + 1
  { azc with
    trace := { azc.trace with strNum := n, info := azc.trace.info ++ (toString n ++ " " ++ text) } }

theorem keys_erase_length_lt {m : StrMap β} (h : m.lookup el = some v) :
    (m.erase el).keys.length < m.keys.length := by
  have hmem : el ∈ m.keys := AList.mem_keys.mpr (AList.lookup_isSome.mp (by simp [h]))
  rw [AList.keys_erase]
  have := List.length_erase_of_mem hmem
  have := List.length_pos_of_mem hmem
  omega

/-- `get_path`: the path to `el`, which takes the visited links out of the map. -/
def getPath (mopc : StrMap String) (el : String) : String × StrMap String :=
  match _h : mopc.lookup el with
  | some parent =>
    let (prev, mopc) := getPath (mopc.erase el) parent
    (prev ++ "->" ++ el, mopc)
  | none => ("", mopc)
termination_by mopc.keys.length
decreasing_by exact keys_erase_length_lt _h

/-- The lines of the `info` trace about a permission that added a right. -/
def traceFoundPermission (requestAccess calcBits permissionAccess : Access)
    (objectGroupId subjId filterValue : String) (azc : AzContext) : AzContext :=
  let fLogStr := if filterValue.isEmpty then "" else ", with filter " ++ filterValue
  let azc := printToTraceInfo ("found permission S:[" ++ subjId ++ "], O:[" ++ objectGroupId ++
    "], access=" ++ accessToPrettyString permissionAccess ++ " " ++ fLogStr ++ "\n") azc
  let azc := printToTraceInfo ("access: request=" ++ accessToPrettyString requestAccess ++
    ", calc=" ++ accessToPrettyString calcBits ++
    ", total=" ++ accessToPrettyString azc.calcRightRes ++ "\n") azc
  let (oPath, treeO) := getPath azc.treeGroupsO objectGroupId
  let azc := printToTraceInfo ("O-PATH" ++ oPath ++ "\n") { azc with treeGroupsO := treeO }
  let (sPath, treeS) := getPath azc.treeGroupsS subjId
  printToTraceInfo ("S-PATH" ++ sPath ++ "\n") { azc with treeGroupsS := treeS }

/-! ## One object group -/

/-- The grant bits of a permission, less the bits it denies. -/
def permissionAccess (access : Access) : Access :=
  if access > 15 then (((access &&& 0xF0) >>> 4) ^^^ 0x0F) &&& access else access

/-- The body of the loop over `ACCESS_LIST`. -/
def accessStep (requestAccess restrictionAccess permission : Access)
    (objectGroupId subjId filterValue : String) (access : Access) (azc : AzContext) :
    Step AzContext (Except Int Bool) :=
  if requestAccess &&& access &&& restrictionAccess ≠ 0 then
    let calcBits := access &&& permission
    if calcBits > 0 then
      let prevRes := azc.calcRightRes
      let azc := { azc with calcRightRes := azc.calcRightRes ||| calcBits }
      if azc.calcRightRes &&& requestAccess = requestAccess ∧ azc.trace.off then
        .done (.ok true) azc
      else
        let azc :=
          if azc.trace.isInfo ∧ prevRes ≠ azc.calcRightRes then
            traceFoundPermission requestAccess calcBits permission objectGroupId subjId
              filterValue azc
          else azc
        let azc :=
          if azc.trace.isAcl then
            printToTraceAcl
              (objectGroupId ++ ";" ++ subjId ++ ";" ++ accessPredicate access ++ "\n") azc
          else azc
        .next azc
    else .next azc
  else .next azc

/-- The body of the loop over the permissions of an object group. -/
def permissionStep (requestAccess objectGroupAccess : Access)
    (objectGroupId filterValue : String) (permission : Right) (azc : AzContext) :
    Step AzContext (Except Int Bool) :=
  if permission.id ∈ azc.subjectGroups then
    Step.loop (accessStep requestAccess objectGroupAccess (permissionAccess permission.access)
      objectGroupId permission.id filterValue) accessList azc
  else .next azc

/-- The end of `authorize_obj_group`. -/
def finishObjGroup (requestAccess : Access) (azc : AzContext) : Outcome :=
  if azc.calcRightRes &&& requestAccess = requestAccess ∧ azc.trace.off then (.ok true, azc)
  else (.ok false, azc)

/-- The part of `authorize_obj_group` that reads the permissions of the group. -/
def lookPermissions (requestAccess : Access) (objectGroupId : String)
    (objectGroupAccess : Access) (filterValue : String) (db : Database) (azc : AzContext) :
    Outcome :=
  let aclKey :=
    if filterValue.isEmpty then permissionPrefix ++ objectGroupId
    else permissionPrefix ++ filterValue ++ objectGroupId
  match getFromDb aclKey db with
  | .ok str =>
    match Step.loop (permissionStep requestAccess objectGroupAccess objectGroupId filterValue)
        (elements str) azc with
    | .done r azc => (r, azc)
    | .next azc => finishObjGroup requestAccess azc
  | .error e => if e < 0 then (.error e, azc) else finishObjGroup requestAccess azc

/-- `authorize_obj_group`. -/
def authorizeObjGroup (requestAccess : Access) (objectGroupId : String)
    (objectGroupAccess : Access) (filterValue : String) (db : Database) (azc : AzContext) :
    Outcome :=
  if azc.trace.off then
    let leftToCheck := (azc.calcRightRes ^^^ requestAccess) &&& requestAccess
    if leftToCheck &&& objectGroupAccess = 0 then (.ok false, azc)
    else if azc.checkedGroups.lookup objectGroupId = some objectGroupAccess then (.ok false, azc)
    else
      lookPermissions requestAccess objectGroupId objectGroupAccess filterValue db
        { azc with checkedGroups := azc.checkedGroups.insert objectGroupId objectGroupAccess }
  else
    lookPermissions requestAccess objectGroupId objectGroupAccess filterValue db
      (if azc.trace.isGroup then printToTraceGroup (objectGroupId ++ "\n") azc else azc)

/-! ## The walk over the object groups -/

/-- The exclusive-authorization tests of `prepare_obj_group` on one group. The second flag says
that a group of the record so far contains `_group`. -/
def exclusiveTests (need : Bool) (subjectGroups : StrMap Right) (uri groupId : String)
    (isTop isLast found isContainSuffixGroup : Bool) : Bool × Bool :=
  if need && !found then
    let isContainSuffixGroup := isContainSuffixGroup || (isTop && containsStr groupId "_group")
    let found := isTop && isLast && !isContainSuffixGroup
    let found := found || (isTop && containsStr groupId "cfg:TTLResourcesGroup")
    let found := found || ((isTop || containsStr uri "_group") &&
      (subjectGroups.lookup groupId).any (·.marker = mIsExclusive))
    (found, isContainSuffixGroup)
  else (found, isContainSuffixGroup)

/-- The group was walked before with all the rights of this visit. -/
def alreadyWalkedO (walked : Option Access) (newAccess : Access) : Bool :=
  walked.any fun preur => preur &&& newAccess = newAccess

/-- Note that a group is walked from `uri`. -/
def markO (uri : String) (group : Right) (newAccess : Access) (azc : AzContext) : AzContext :=
  let azc := { azc with
    walkedGroupsO := azc.walkedGroupsO.insert group.id
      (newAccess ||| (azc.walkedGroupsO.lookup group.id).getD 0) }
  if azc.trace.isInfo then { azc with treeGroupsO := azc.treeGroupsO.insert group.id uri }
  else azc

/-- `try!` on the recursive call of `prepare_obj_group`, whose answer is dropped. -/
def descend (o : Outcome) (suffix : Bool) : Step (AzContext × Bool) (Except Int Bool) :=
  match o with
  | (.error e, azc) => .done (.error e) (azc, suffix)
  | (.ok _, azc) => .next (azc, suffix)

/-- The part of the loop of `prepare_obj_group` that evaluates a group and walks into it. -/
def enterGroup (walk : String → Access → AzContext → Outcome) (requestAccess : Access)
    (group : String) (newAccess : Access) (filterValue : String) (db : Database)
    (suffix : Bool) (azc : AzContext) : Step (AzContext × Bool) (Except Int Bool) :=
  match authorizeObjGroup requestAccess group newAccess filterValue db azc with
  | (.ok true, azc) =>
    if azc.isNeedExclusiveAz = false ∨ azc.isFoundExclusiveAz then .done (.ok true) (azc, suffix)
    else descend (walk group newAccess azc) suffix
  | (.ok false, azc) => descend (walk group newAccess azc) suffix
  | (.error e, azc) =>
    if e < 0 then .done (.error e) (azc, suffix)
    else descend (walk group newAccess azc) suffix

/-- The body of the loop of `prepare_obj_group`. `walk` is the recursive call. -/
def objGroupStep (walk : String → Access → AzContext → Outcome) (requestAccess : Access)
    (uri : String) (access : Access) (filterValue : String) (isTop : Bool) (len : Nat)
    (db : Database) (el : Right × Nat) (st : AzContext × Bool) :
    Step (AzContext × Bool) (Except Int Bool) :=
  let (group, idx) := el
  if group.id = "" then .next st
  else
    let newAccess := group.access &&& access
    let (found, suffix) := exclusiveTests st.1.isNeedExclusiveAz st.1.subjectGroups uri group.id
      isTop (idx = len - 1) st.1.isFoundExclusiveAz st.2
    let azc := { st.1 with isFoundExclusiveAz := found }
    if group.marker = mIsExclusive then .next (azc, suffix)
    else if alreadyWalkedO (azc.walkedGroupsO.lookup group.id) newAccess then .next (azc, suffix)
    else
      let azc := markO uri group newAccess azc
      if uri = group.id then .next (azc, suffix)
      else enterGroup walk requestAccess group.id newAccess filterValue db suffix azc

/-- `prepare_obj_group` at level `33 - left`. -/
def prepareObjGroup (requestAccess : Access) (filterValue : String) (db : Database) :
    Nat → String → Access → AzContext → Outcome
  | 0, _, _, azc => (.ok false, { azc with deep := true })
  | left + 1, uri, access, azc =>
    match getFromDb (membershipPrefix ++ uri) db with
    | .ok groupsStr =>
      let groupsSet := elements groupsStr
      match Step.loop (objGroupStep (prepareObjGroup requestAccess filterValue db left)
          requestAccess uri access filterValue (left = 32) groupsSet.length db)
          groupsSet.zipIdx (azc, false) with
      | .done r (azc, _) => (r, azc)
      | .next (azc, _) =>
        (.ok false,
          if groupsSet.length = 0 then { azc with isFoundExclusiveAz := true } else azc)
    | .error e =>
      if e < 0 then (.error e, azc)
      else (.ok false, if left = 32 then { azc with isFoundExclusiveAz := true } else azc)

/-! ## The walk over the subject groups -/

/-- The group was last walked with the same marker and all the rights of this visit. -/
def alreadyWalkedS (walked : Option (Access × Char)) (newAccess : Access) (marker : Char) : Bool :=
  walked.any fun w => w.1 &&& newAccess = newAccess ∧ marker = w.2

/-- Note that a group is walked from `uri`. -/
def markS (uri : String) (group : Right) (newAccess : Access) (azc : AzContext) : AzContext :=
  let azc := { azc with
    walkedGroupsS := azc.walkedGroupsS.insert group.id
      (newAccess ||| ((azc.walkedGroupsS.lookup group.id).map Prod.fst).getD 0, group.marker) }
  if azc.trace.isInfo then { azc with treeGroupsS := azc.treeGroupsS.insert group.id uri }
  else azc

/-- The marker of a group in the results: the first one that is not empty. -/
def newGroupMarker (prev : Option Right) (marker : Char) : Char :=
  match prev with
  | some val => if val.marker = noMarker then marker else val.marker
  | none => marker

/-- The body of the loop of `get_resource_groups`. The results of the source are the field
`subjectGroups`, its out-parameter `out_f_is_exclusive` is `isNeedExclusiveAz`. -/
def resourceGroupStep (walk : String → Access → Bool → AzContext → Outcome) (uri : String)
    (access : Access) (level : Nat) (ignoreExclusive : Bool) (group : Right) (azc : AzContext) :
    Step AzContext (Except Int Bool) :=
  if group.id = "" then .next azc
  else
    let newAccess := group.access &&& access
    if alreadyWalkedS (azc.walkedGroupsS.lookup group.id) newAccess group.marker then .next azc
    else
      let azc := markS uri group newAccess azc
      if uri = group.id then .next azc
      else
        let tIgnoreExclusive := ignoreExclusive || group.marker = mIgnoreExclusive
        match walk group.id 15 tIgnoreExclusive azc with
        | (.error e, azc) =>
          if e < 0 then .done (.error e) azc
          else .next (finishGroup level ignoreExclusive group newAccess azc)
        | (.ok _, azc) => .next (finishGroup level ignoreExclusive group newAccess azc)
where
  /-- What follows the recursive call: the exclusive flag and the entry of the results. -/
  finishGroup (level : Nat) (ignoreExclusive : Bool) (group : Right) (newAccess : Access)
      (azc : AzContext) : AzContext :=
    let azc :=
      if ignoreExclusive = false ∧ group.marker = mIsExclusive then
        let azc :=
          if azc.trace.isInfo then
            let (path, tree) := getPath azc.treeGroupsS group.id
            printToTraceInfo ("FOUND EXCLUSIVE RESTRICTIONS, PATH=" ++ path ++ " \n")
              { azc with treeGroupsS := tree }
          else azc
        { azc with isNeedExclusiveAz := true }
      else azc
    { azc with
      subjectGroups := azc.subjectGroups.insert group.id
        { id := group.id
          access := newAccess
          marker := newGroupMarker (azc.subjectGroups.lookup group.id) group.marker
          isDeleted := group.isDeleted
          level := level } }

/-- `get_resource_groups` at level `33 - left`. -/
def getResourceGroups (db : Database) : Nat → String → Access → Bool → AzContext → Outcome
  | 0, _, _, _, azc => (.ok true, { azc with deep := true })
  | left + 1, uri, access, ignoreExclusive, azc =>
    match getFromDb (membershipPrefix ++ uri) db with
    | .ok groupsStr =>
      match Step.loop (resourceGroupStep (getResourceGroups db left) uri access (32 - left)
          ignoreExclusive) (elements groupsStr) azc with
      | .done r azc => (r, azc)
      | .next azc => (.ok false, azc)
    | .error e => if e < 0 then (.error e, azc) else (.ok false, azc)

/-! ## The decision -/

/-- `final_check`. -/
def finalCheck (azc : AzContext) : Bool × AzContext :=
  let res := !azc.isNeedExclusiveAz || azc.isFoundExclusiveAz
  let azc :=
    if azc.trace.isInfo ∧ res then
      printToTraceInfo ("result: uri=" ++ azc.uri ++ ", user=" ++ azc.userUri ++ ", request=" ++
        accessToPrettyString azc.requestAccess ++ ", answer=" ++
        accessToPrettyString azc.calcRightRes ++ "\n\n") azc
    else azc
  (res, azc)

/-- The filter of an object and the rights the filter leaves to unfiltered permissions. A
record without elements is itself taken as the filter. -/
def readFilter (db : Database) (uri : String) : Except Int (String × Access) :=
  match getFromDb (filterPrefix ++ uri) db with
  | .ok data =>
    if data.utf8ByteSize < 3 then .ok ("", 0)
    else
      match elements data with
      | el :: _ => .ok (el.id, el.access)
      | [] => .ok (data, 0)
  | .error e => if e = 0 then .ok ("", 0) else .error e

def allResourcesGroup : String := "v-s:AllResourcesGroup"

/-- The three evaluations of a pass: all resources, the object itself, its groups. -/
def passAll (request : Access) (filter : String) (db : Database) (azc : AzContext) : Outcome :=
  authorizeObjGroup request allResourcesGroup 15 filter db azc

@[inherit_doc passAll]
def passUri (request : Access) (uri filter : String) (db : Database) (azc : AzContext) : Outcome :=
  authorizeObjGroup request uri 15 filter db azc

@[inherit_doc passAll]
def passGroups (request : Access) (uri filter : String) (db : Database) (azc : AzContext) :
    Outcome :=
  prepareObjGroup request filter db 33 uri 15 azc

/-- One evaluation of a pass: run it and, when `leave` says so, try to answer. -/
def passStep (call : (AzContext → Outcome) × (Bool → AzContext → Bool)) (azc : AzContext) :
    Step AzContext (Except Int Access) :=
  match call.1 azc with
  | (.error e, azc) => .done (.error e) azc
  | (.ok res, azc) =>
    if call.2 res azc then
      match finalCheck azc with
      | (true, azc) => .done (.ok azc.calcRightRes) azc
      | (false, azc) => .next azc
    else .next azc

/-- The first pass without tracing. -/
def fastPass (request requestT : Access) (uri filterValue : String) (db : Database) :
    List ((AzContext → Outcome) × (Bool → AzContext → Bool)) :=
  let leave res (azc : AzContext) := res && (filterValue.isEmpty || request = azc.calcRightRes)
  [(passAll requestT "" db, leave), (passUri requestT uri "" db, leave),
    (passGroups requestT uri "" db, leave)]

/-- The second pass without tracing, under the filter. -/
def fastFilterPass (request : Access) (uri filterValue : String) (db : Database) :
    List ((AzContext → Outcome) × (Bool → AzContext → Bool)) :=
  let leave res (_ : AzContext) := res
  [(passAll request filterValue db, leave), (passUri request uri filterValue db, leave),
    (passGroups request uri filterValue db, leave)]

/-- The first pass with tracing. -/
def tracePass (request requestT : Access) (uri filterValue : String) (db : Database) :
    List ((AzContext → Outcome) × (Bool → AzContext → Bool)) :=
  let leave res (azc : AzContext) :=
    res && !(filterValue.isEmpty || request = azc.calcRightRes)
  [(passAll requestT "" db, leave), (passUri requestT uri "" db, leave),
    (passGroups requestT uri "" db, fun res _ => !res)]

/-- The second pass with tracing, under the filter. -/
def traceFilterPass (request : Access) (uri filterValue : String) (db : Database) :
    List ((AzContext → Outcome) × (Bool → AzContext → Bool)) :=
  let leave res (_ : AzContext) := !res
  [(passAll request filterValue db, leave), (passUri request uri filterValue db, leave),
    (passGroups request uri filterValue db, leave)]

/-- The end of `_authorize`. -/
def finish (azc : AzContext) : Except Int Access × AzContext :=
  match finalCheck azc with
  | (true, azc) => (.ok azc.calcRightRes, azc)
  | (false, azc) =>
    let azc := if azc.trace.isAcl then { azc with trace := { azc.trace with acl := "" } } else azc
    let azc :=
      if azc.trace.isInfo then
        printToTraceInfo ("result: uri=" ++ azc.uri ++ ", user=" ++ azc.userUri ++
          ", request=" ++ accessToPrettyString azc.requestAccess ++ ", answer=" ++
          accessToPrettyString 0 ++ "\n\n") azc
      else azc
    (.ok 0, azc)

/-- `_authorize` from the second pass on. -/
def evaluateFilter (request : Access) (uri filterValue : String) (db : Database)
    (azc : AzContext) : Except Int Access × AzContext :=
  let azc :=
    if azc.trace.isInfo then printToTraceInfo ("USE FILTER: [" ++ filterValue ++ "]\n") azc
    else azc
  let azc := { azc with checkedGroups := ∅, walkedGroupsO := ∅ }
  let pass := if azc.trace.off then fastFilterPass else traceFilterPass
  match Step.loop passStep (pass request uri filterValue db) azc with
  | .done r azc => (r, azc)
  | .next azc => finish azc

/-- The two passes of `_authorize` and its end. -/
def evaluate (request requestT : Access) (uri filterValue : String) (db : Database)
    (azc : AzContext) : Except Int Access × AzContext :=
  let pass := if azc.trace.off then fastPass else tracePass
  match Step.loop passStep (pass request requestT uri filterValue db) azc with
  | .done r azc => (r, azc)
  | .next azc =>
    if filterValue.isEmpty then finish azc else evaluateFilter request uri filterValue db azc

/-- The context `_authorize` starts from. -/
def initContext (uri userUri : String) (request : Access) (trace : Trace) : AzContext where
  uri := uri
  userUri := userUri
  requestAccess := request
  calcRightRes := 0
  isNeedExclusiveAz := false
  isFoundExclusiveAz := false
  walkedGroupsS := ∅
  treeGroupsS := ∅
  walkedGroupsO := ∅
  treeGroupsO := ∅
  subjectGroups := ∅
  checkedGroups := ∅
  trace := trace
  deep := false

/-- The subject groups of the user, and the user. -/
def readSubject (userUri : String) (db : Database) (azc : AzContext) : Outcome :=
  match getResourceGroups db 33 userUri 15 false azc with
  | (.error e, azc) => (.error e, azc)
  | (.ok r, azc) =>
    (.ok r, { azc with
      subjectGroups := azc.subjectGroups.insert userUri
        { id := userUri, access := 15, marker := noMarker, isDeleted := false, level := 0 } })

/-- `_authorize` on an open read transaction. -/
def authorize (uri userUri : String) (request : Access) (trace : Trace) (db : Database) :
    Except Int Access × AzContext :=
  let azc := initContext uri userUri request trace
  match readFilter db uri with
  | .error e => (.error e, azc)
  | .ok (filterValue, filterAllowAccessToOther) =>
    let azc :=
      if azc.trace.isInfo then
        printToTraceInfo ("authorize uri=" ++ uri ++ ", user=" ++ userUri ++
          ", request_access=" ++ accessToPrettyString request ++ "\n") azc
      else azc
    match readSubject userUri db azc with
    | (.error e, azc) => (.error e, azc)
    | (.ok _, azc) =>
      let requestT :=
        if filterValue.isEmpty then request else request &&& filterAllowAccessToOther
      evaluate request requestT uri filterValue db azc

end Veda.Authorization
