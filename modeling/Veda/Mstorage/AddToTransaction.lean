import Veda.Authorization.Index
import Veda.Mstorage.StorageManager

/-! # Changing an individual

The model of `add_to_transaction` in `mstorage.d` for a transaction with autocommit, with the
functions it calls: `set_map_of_type`, `indv_apply_cmd` and `prepare_event`. -/

namespace Veda.Mstorage

open Onto
open Authorization (StrMap Access)

/-- `acl_client.authorize` on an object, a user and a request. -/
abbrev Acl := String → String → Access → Access

def canCreate : Access := 1
def canUpdate : Access := 4
def canDelete : Access := 8

/-- `NEW_TYPE` and `EXISTS_TYPE`. -/
inductive TypeInfo where
  | newType
  | existsType
  deriving DecidableEq

/-- `MapResource`: the classes by their text, with the info byte of the value. -/
abbrev MapResource := StrMap (Resource × TypeInfo)

/-- `set_map_of_type`. -/
def setMapOfType (indv : Individual) (rdfType : MapResource) : MapResource :=
  (indv.getResources "rdf:type").foldl
    (fun rdfType rs => rdfType.insert rs.getString (rs, .newType)) rdfType

/-- The loop that marks the classes of `types` as known before. -/
def markExisting (types : Resources) (rdfType : MapResource) : MapResource :=
  types.foldl
    (fun rdfType rs =>
      match rdfType.lookup rs.getString with
      | some (rr, _) => rdfType.insert rs.getString (rr, .existsType)
      | none => rdfType)
    rdfType

/-- `indv_apply_cmd` for one predicate. -/
def applyPredicate (cmd : IndvOp) (indv prevIndv : Individual) (predicate : String) :
    Individual :=
  match cmd with
  | .addIn => prevIndv.addUniqueResources predicate (indv.getResources predicate)
  | .setIn => prevIndv.setResources predicate (indv.getResources predicate)
  | .removeFrom => prevIndv.removeResources predicate (indv.getResources predicate)
  | _ => prevIndv

/-- `indv_apply_cmd`. -/
def indvApplyCmd (cmd : IndvOp) (prevIndv indv : Individual) : Individual :=
  indv.resources.keys.foldl (applyPredicate cmd indv) prevIndv

/-- `deserialize` into an individual that has values already: what is read is added to them. -/
def deserializeInto (indv prev : Individual) : Individual :=
  prev.resources.keys.foldl
    (fun i predicate =>
      i.setResources predicate (i.getResources predicate ++ prev.getResources predicate))
    { indv with uri := prev.uri }

/-- `update_counter++` on a `long`. -/
def nextCounter (counter : Int) : Int := (counter + 1).bmod 0x10000000000000000

/-- The classes of access-control individuals. -/
def aclTypes : List String := ["v-s:PermissionStatement", "v-s:Membership", "v-s:PermissionFilter"]

def owlTags : List String :=
  ["rdf:Property", "owl:Restriction", "owl:ObjectProperty", "owl:DatatypeProperty", "owl:Class",
    "rdfs:Class"]

/-- `anyExists`. -/
def anyExists (rdfType : MapResource) (objects : List String) : Bool :=
  objects.any fun object => (rdfType.lookup object).isSome

/-- A message to `acl_preparer`: the states before and after, and the operation id. -/
structure AclMessage where
  prevBinobj : Option BinObj
  newBinobj : Option BinObj
  opId : Nat
  deriving DecidableEq

/-- The surroundings of a call. -/
structure Env where
  acl : Acl
  systicketUserUri : String
  /-- The serialized individual is longer than `max_size_of_individual`. -/
  isTooLarge : Individual → Bool
  /-- The database fails to store, or to remove. -/
  putFails : Bool
  removeFails : Bool

/-- The arguments of a call. -/
structure Request where
  /-- The user of the ticket, if there is a ticket. -/
  ticket : Option String
  cmd : IndvOp
  indv : Individual
  assignedSubsystems : BitVec 64
  eventId : String
  optFreeze : OptFreeze
  /-- `opt_request = YES`. -/
  optRequest : Bool

/-- What a call leaves behind: the code, the manager and the messages to `acl_preparer`. -/
structure Response where
  result : ResultCode
  opId : Int
  manager : Manager
  messages : List AclMessage

/-- A call that returns before it stores anything. -/
def Response.refuse (result : ResultCode) (m : Manager) : Response := ⟨result, -1, m, []⟩

/-- The check of the rights on an individual that is stored already. -/
def mayChange (env : Env) (userUri : String) (indv : Individual) : Bool :=
  if indv.isExists "v-s:deleted" true then env.acl indv.uri userUri canDelete = canDelete
  else env.acl indv.uri userUri canUpdate = canUpdate

/-- The check of the right to create the new classes. -/
def mayCreate (env : Env) (userUri : String) (rdfType : MapResource) : Bool :=
  rdfType.entries.all fun e => e.2.2 ≠ .newType || env.acl e.1 userUri canCreate = canCreate

/-- `prepare_event`. -/
def prepareEvent (rdfType : MapResource) (assignedSubsystems : BitVec 64)
    (prevBinobj newBinobj : Option BinObj) (opId : Nat) : List AclMessage :=
  if assignedTo assignedSubsystems subsystemAcl ∧ anyExists rdfType aclTypes then
    [⟨prevBinobj, newBinobj, opId⟩]
  else []

/-- The previous state as `find` and `deserialize` give it; `none` when it cannot be read. -/
def readPrev (storage : Storage) (uri : String) : Option (Option Individual) :=
  match storage uri with
  | none => some none
  | some obj => obj.deserialize.map some

/-- An item of the transaction. -/
def Request.item (r : Request) (userUri : String) (rdfType : MapResource) (cmd : IndvOp)
    (uri : String) (prevState newState : Option BinObj) (counter : Int) : TransactionItem where
  cmd := cmd
  userUri := userUri
  uri := uri
  prevBinobj := prevState
  newBinobj := newState
  updateCounter := counter
  eventId := r.eventId
  isAclElement := anyExists rdfType aclTypes
  isOnto := anyExists rdfType owlTags
  assignedSubsystems := r.assignedSubsystems

/-- The end of `add_to_transaction`: the event of a successful change. -/
def finishCall (r : Request) (rdfType : MapResource) (prevState newState : Option BinObj)
    (rc : ResultCode) (m : Manager) : Response where
  result := rc
  opId := m.opId
  manager := m
  messages :=
    if rc = .ok then prepareEvent rdfType r.assignedSubsystems prevState newState m.opId else []

/-- The individual that a command other than `REMOVE` stores. -/
def newIndividual (cmd : IndvOp) (prevIndv indv : Individual) : Individual :=
  let indv := if cmd = .put then indv else indvApplyCmd cmd prevIndv indv
  indv.setResources "v-s:updateCounter"
    [.integer (nextCounter (prevIndv.getFirstInteger "v-s:updateCounter" 0))]

/-- The branch of the commands other than `REMOVE`. -/
def putIndividual (env : Env) (r : Request) (userUri : String) (rdfType : MapResource)
    (prev : Option Individual) (m : Manager) : Response :=
  let prevState := m.storage r.indv.uri
  let prevIndv := prev.getD .init
  let counter := nextCounter (prevIndv.getFirstInteger "v-s:updateCounter" 0)
  let indv := newIndividual r.cmd prevIndv r.indv
  if env.isTooLarge indv then .refuse .sizeTooLarge m
  else
    let newState := some (BinObj.serialize indv)
    let (rc, m) := m.save (r.item userUri rdfType .put indv.uri prevState newState counter)
      r.optFreeze env.putFails
    finishCall r rdfType prevState newState rc m

/-- The state of a removed individual. -/
def deletedIndividual (prevIndv : Individual) : Individual :=
  prevIndv.setResources "v-s:deleted" [.boolean true]

/-- The branch of `REMOVE`: the individual is stored with `v-s:deleted` and then removed. -/
def removeIndividual (env : Env) (r : Request) (userUri : String) (rdfType : MapResource)
    (prev : Option Individual) (m : Manager) : Response :=
  let prevState := m.storage r.indv.uri
  match prev with
  | some prevIndv =>
    let rdfType := setMapOfType (deserializeInto r.indv prevIndv) rdfType
    let counter := nextCounter (prevIndv.getFirstInteger "v-s:updateCounter" 0)
    let deleted := deletedIndividual prevIndv
    if env.isTooLarge deleted then .refuse .sizeTooLarge m
    else
      let newState := some (BinObj.serialize deleted)
      let (rc, m) := m.save
        (r.item userUri rdfType .put prevIndv.uri prevState newState counter) r.optFreeze
        env.putFails
      if rc = .ok then
        let (rc, m) := m.save
          (r.item userUri rdfType .remove prevIndv.uri prevState none counter) r.optFreeze
          env.removeFails
        finishCall r rdfType prevState newState rc m
      else finishCall r rdfType prevState newState rc m
  | none =>
    let (rc, m) := m.save
      (r.item userUri rdfType .remove r.indv.uri prevState none (nextCounter 0)) r.optFreeze
      env.removeFails
    finishCall r rdfType prevState none rc m

/-- The classes with their info bytes as the check for new classes sees them. For a stored
individual the classes of the request itself are marked, not those of the stored state. -/
def checkedTypes (indv : Individual) (prev : Option Individual) (rdfType : MapResource) :
    MapResource :=
  if prev.isSome then markExisting (indv.getResources "rdf:type") rdfType else rdfType

/-- `add_to_transaction` with autocommit. -/
def addToTransaction (env : Env) (r : Request) (m : Manager) : Response :=
  match r.ticket with
  | none => .refuse .authenticationFailed m
  | some userUri =>
    let optRequest := r.optRequest && userUri ≠ env.systicketUserUri
    if r.indv.uri.utf8ByteSize < 2 then .refuse .invalidIdentifier m
    else if r.cmd ≠ .remove ∧ r.indv.resources.keys = [] then .refuse .noContent m
    else
      let rdfType := setMapOfType r.indv ∅
      match readPrev m.storage r.indv.uri with
      | none => .refuse .unprocessableEntity m
      | some prev =>
        if r.cmd = .remove then removeIndividual env r userUri rdfType prev m
        else if optRequest then
          if prev.isSome ∧ !mayChange env userUri r.indv then .refuse .notAuthorized m
          else
            let rdfType := checkedTypes r.indv prev rdfType
            if !mayCreate env userUri rdfType then .refuse .notAuthorized m
            else putIndividual env r userUri rdfType prev m
        else putIndividual env r userUri rdfType prev m

/-! ## The classes of a request -/

section
variable {indv : Individual} {rdfType : MapResource}

theorem mem_foldl_insert (l : Resources) (rdfType : MapResource) :
    c ∈ l.foldl (fun rdfType rs => rdfType.insert rs.getString (rs, TypeInfo.newType)) rdfType ↔
      c ∈ l.map Resource.getString ∨ c ∈ rdfType := by
  induction l generalizing rdfType with
  | nil => simp
  | cons rs l ih =>
    rw [List.foldl_cons, ih, AList.mem_insert, List.map_cons, List.mem_cons]
    tauto

theorem mem_setMapOfType : c ∈ setMapOfType indv rdfType ↔ c ∈ indv.types ∨ c ∈ rdfType :=
  mem_foldl_insert _ _

theorem mem_setMapOfType_empty : c ∈ setMapOfType indv ∅ ↔ c ∈ indv.types := by
  rw [mem_setMapOfType, or_iff_left (AList.notMem_empty c)]

/-- Every class in the map has the info byte `info`. -/
def AllInfo (info : TypeInfo) (rdfType : MapResource) : Prop :=
  ∀ c v, rdfType.lookup c = some v → v.2 = info

theorem setMapOfType_info (h : AllInfo .newType rdfType) :
    AllInfo .newType (setMapOfType indv rdfType) := by
  refine List.foldlRecOn (motive := AllInfo .newType) _ _ h fun rdfType h rs _ c v hv => ?_
  by_cases hc : c = rs.getString
  · subst hc
    rw [AList.lookup_insert, Option.some.injEq] at hv
    rw [← hv]
  · rw [AList.lookup_insert_ne hc] at hv
    exact h c v hv

theorem mem_markExisting (types : Resources) (rdfType : MapResource) :
    c ∈ markExisting types rdfType ↔ c ∈ rdfType := by
  unfold markExisting
  induction types generalizing rdfType with
  | nil => rfl
  | cons rs types ih =>
    rw [List.foldl_cons, ih]
    split
    · next rr info hrr =>
      have hmem : rs.getString ∈ rdfType := AList.lookup_isSome.mp (by rw [hrr]; rfl)
      rw [AList.mem_insert]
      exact ⟨fun h => h.elim (· ▸ hmem) id, .inr⟩
    · rfl

/-- After the loop the classes of `types` are marked, and so are those marked before. -/
theorem markExisting_info (types : Resources) (rdfType : MapResource)
    (h : ∀ c v, rdfType.lookup c = some v → c ∈ types.map Resource.getString ∨ v.2 = .existsType) :
    AllInfo .existsType (markExisting types rdfType) := by
  unfold markExisting
  induction types generalizing rdfType with
  | nil => exact fun c v hv => (h c v hv).resolve_left (by simp)
  | cons rs types ih =>
    rw [List.foldl_cons]
    refine ih _ fun c v hv => ?_
    by_cases hc : c = rs.getString
    · subst hc
      split at hv
      · rw [AList.lookup_insert, Option.some.injEq] at hv
        exact .inr (by rw [← hv])
      · next hnone => rw [hnone] at hv; cases hv
    · have hv' : rdfType.lookup c = some v := by
        split at hv
        · rwa [AList.lookup_insert_ne hc] at hv
        · exact hv
      refine (h c v hv').imp_left fun hmem => ?_
      rw [List.map_cons, List.mem_cons] at hmem
      exact hmem.resolve_left hc

theorem mayCreate_iff : mayCreate env userUri rdfType = true ↔
    ∀ c v, rdfType.lookup c = some v → v.2 = .newType →
      env.acl c userUri canCreate = canCreate := by
  unfold mayCreate
  rw [List.all_eq_true]
  constructor
  · intro h c v hv hinfo
    have := h ⟨c, v⟩ (AList.mem_lookup_iff.mp hv)
    simpa [hinfo] using this
  · rintro h ⟨c, v⟩ hmem
    have := h c v (AList.mem_lookup_iff.mpr hmem)
    by_cases hinfo : v.2 = .newType
    · simp [this hinfo]
    · simp [hinfo]

/-- All classes of an individual that is not stored yet are checked. -/
theorem mayCreate_new : mayCreate env userUri (setMapOfType indv ∅) = true ↔
    ∀ c ∈ indv.types, env.acl c userUri canCreate = canCreate := by
  rw [mayCreate_iff]
  have hinfo : AllInfo .newType (setMapOfType indv ∅) :=
    setMapOfType_info fun c v hv => by cases hv
  constructor
  · intro h c hc
    obtain ⟨v, hv⟩ := Option.isSome_iff_exists.mp
      (AList.lookup_isSome.mpr (mem_setMapOfType_empty.mpr hc))
    exact h c v hv (hinfo c v hv)
  · intro h c v hv _
    exact h c (mem_setMapOfType_empty.mp (AList.lookup_isSome.mp (by rw [hv]; rfl)))

/-- No class of an individual that is stored already is checked. -/
theorem mayCreate_stored : mayCreate env userUri
    (markExisting (indv.getResources "rdf:type") (setMapOfType indv ∅)) = true := by
  have hinfo := markExisting_info (indv.getResources "rdf:type") (setMapOfType indv ∅)
    fun c v hv => .inl (mem_setMapOfType_empty.mp (AList.lookup_isSome.mp (by rw [hv]; rfl)))
  refine mayCreate_iff.mpr fun c v hv hnew => ?_
  rw [hinfo c v hv] at hnew
  cases hnew

theorem mem_checkedTypes : c ∈ checkedTypes indv prev (setMapOfType indv ∅) ↔ c ∈ indv.types := by
  unfold checkedTypes
  split
  · rw [mem_markExisting, mem_setMapOfType_empty]
  · exact mem_setMapOfType_empty

theorem anyExists_iff : anyExists rdfType objects = true ↔ ∃ c ∈ objects, c ∈ rdfType := by
  simp [anyExists, AList.lookup_isSome]

end

/-! ## The stored individual -/

theorem indvApplyCmd_uri (cmd : IndvOp) (prevIndv indv : Individual) :
    (indvApplyCmd cmd prevIndv indv).uri = prevIndv.uri := by
  refine List.foldlRecOn (motive := fun i : Individual => i.uri = prevIndv.uri) _ _ rfl
    fun i h p _ => ?_
  cases cmd with
  | put => exact h
  | addIn => exact h
  | setIn => exact h
  | removeFrom =>
    simp only [applyPredicate, Individual.removeResources]
    split <;> exact h
  | remove => exact h

theorem newIndividual_uri (cmd : IndvOp) (prevIndv indv : Individual) :
    (newIndividual cmd prevIndv indv).uri = if cmd = .put then indv.uri else prevIndv.uri := by
  unfold newIndividual
  dsimp only
  split
  · rfl
  · exact indvApplyCmd_uri cmd prevIndv indv

theorem newIndividual_types (cmd : IndvOp) (prevIndv indv : Individual) :
    (newIndividual cmd prevIndv indv).types =
      (if cmd = .put then indv else indvApplyCmd cmd prevIndv indv).types := by
  unfold newIndividual Individual.types Individual.texts
  dsimp only
  rw [Individual.getResources_setResources_ne (by decide)]

/-- The classes of a stored state. -/
def storedTypes : Option BinObj → List String
  | some (.individual indv) => indv.types
  | _ => []

/-- The values that a command makes of the stored ones and those of the request. -/
def applyResources (cmd : IndvOp) (rss inRss : Resources) : Resources :=
  match cmd with
  | .addIn => rss ++ inRss.filter fun inRs => !rss.any inRs.beq
  | .setIn => inRss
  | .removeFrom => rss.filter fun rs => !inRss.any (·.beq rs)
  | _ => rss

theorem getResources_indvApplyCmd (cmd : IndvOp) (prevIndv indv : Individual) (p : String) :
    (indvApplyCmd cmd prevIndv indv).getResources p =
      if p ∈ indv.resources.keys then
        applyResources cmd (prevIndv.getResources p) (indv.getResources p)
      else prevIndv.getResources p := by
  refine Individual.getResources_foldl (g := fun rss => applyResources cmd rss (indv.getResources p))
    (fun i => ?_) (fun i q hq => ?_) _ indv.resources.nodupKeys _
  · cases cmd with
    | addIn => exact Individual.getResources_addUniqueResources_self
    | setIn => exact Individual.getResources_setResources_self
    | removeFrom => exact Individual.getResources_removeResources_self
    | put => rfl
    | remove => rfl
  · cases cmd with
    | addIn => exact Individual.getResources_addUniqueResources_ne hq
    | setIn => exact Individual.getResources_setResources_ne hq
    | removeFrom => exact Individual.getResources_removeResources_ne hq
    | put => rfl
    | remove => rfl

section
variable {cmd : IndvOp} {prevIndv indv : Individual}

/-- All commands but `REMOVE_FROM` store the classes of the request. -/
theorem mem_types_newIndividual_of_mem (hcmd : cmd = .put ∨ cmd = .addIn ∨ cmd = .setIn)
    (h : c ∈ indv.types) : c ∈ (newIndividual cmd prevIndv indv).types := by
  rw [newIndividual_types]
  rcases hcmd with rfl | rfl | rfl
  · exact h
  all_goals
    obtain ⟨rs, hrs, rfl⟩ := List.mem_map.mp h
    have hkey : "rdf:type" ∈ indv.resources.keys := by
      by_contra hkey
      rw [Individual.getResources_of_notMem_keys hkey] at hrs
      cases hrs
    rw [if_neg (by decide), Individual.types, Individual.texts, getResources_indvApplyCmd,
      if_pos hkey]
  · -- a class that is not added is there already
    by_cases hany : (prevIndv.getResources "rdf:type").any rs.beq = true
    · obtain ⟨old, hold, hbeq⟩ := List.any_eq_true.mp hany
      rw [Resource.getString_of_beq hbeq]
      exact List.mem_map_of_mem (List.mem_append_left _ hold)
    · refine List.mem_map_of_mem (List.mem_append_right _ (List.mem_filter.mpr ⟨hrs, ?_⟩))
      simpa using hany
  · exact List.mem_map_of_mem hrs

/-- A class of the stored individual comes from the request or from the previous state. -/
theorem mem_types_of_newIndividual (h : c ∈ (newIndividual cmd prevIndv indv).types) :
    cmd ≠ .removeFrom ∧ c ∈ indv.types ∨ c ∈ prevIndv.types := by
  rw [newIndividual_types] at h
  by_cases hput : cmd = .put
  · rw [if_pos hput] at h
    exact .inl ⟨by simp [hput], h⟩
  rw [if_neg hput, Individual.types, Individual.texts, getResources_indvApplyCmd] at h
  split at h
  · obtain ⟨rs, hrs, rfl⟩ := List.mem_map.mp h
    cases cmd with
    | addIn =>
      rcases List.mem_append.mp hrs with hold | hnew
      · exact .inr (List.mem_map_of_mem hold)
      · exact .inl ⟨by decide, List.mem_map_of_mem (List.mem_filter.mp hnew).1⟩
    | setIn => exact .inl ⟨by decide, List.mem_map_of_mem hrs⟩
    | removeFrom => exact .inr (List.mem_map_of_mem (List.mem_filter.mp hrs).1)
    | put => exact .inr (List.mem_map_of_mem hrs)
    | remove => exact .inr (List.mem_map_of_mem hrs)
  · exact .inr h

end

/-- The classes of an individual that another one is read into. -/
theorem mem_types_deserializeInto {indv prev : Individual} :
    c ∈ (deserializeInto indv prev).types ↔ c ∈ prev.types ∨ c ∈ indv.types := by
  have hfold : (deserializeInto indv prev).getResources "rdf:type" =
      indv.getResources "rdf:type" ++ prev.getResources "rdf:type" := by
    refine (Individual.getResources_foldl (p := "rdf:type")
      (g := (· ++ prev.getResources "rdf:type"))
      (fun i => Individual.getResources_setResources_self)
      (fun i q hq => Individual.getResources_setResources_ne hq) _ prev.resources.nodupKeys
      _).trans ?_
    split
    · rfl
    · next hkey =>
      rw [Individual.getResources_of_notMem_keys hkey, List.append_nil]
      rfl
  rw [Individual.types, Individual.texts, hfold, List.map_append, List.mem_append, or_comm]
  rfl

/-! ## The ways a call can go -/

theorem readPrev_none (h : storage uri = none) : readPrev storage uri = some none := by
  simp [readPrev, h]

theorem readPrev_eq_some_none (h : readPrev storage uri = some none) : storage uri = none := by
  unfold readPrev at h
  split at h
  · assumption
  · simp at h

theorem readPrev_eq_some_some (h : readPrev storage uri = some (some p)) :
    storage uri = some (.individual p) := by
  unfold readPrev at h
  split at h
  · cases h
  · next obj hs =>
    have hobj : obj.deserialize = some p := by simpa using h
    rw [hs, BinObj.eq_of_deserialize hobj]

/-- The classes of the previous state are those of what is read. -/
theorem storedTypes_of_readPrev (h : readPrev storage uri = some prev) :
    storedTypes (storage uri) = (prev.map Individual.types).getD [] := by
  cases prev with
  | none => rw [readPrev_eq_some_none h]; rfl
  | some p => rw [readPrev_eq_some_some h]; rfl

/-- The checks of a command other than `REMOVE`. -/
structure Permitted (env : Env) (r : Request) (userUri : String) (prev : Option Individual) :
    Prop where
  change : prev.isSome = true → mayChange env userUri r.indv = true
  create : prev = none → ∀ c ∈ r.indv.types, env.acl c userUri canCreate = canCreate

/-- The call is refused before anything is stored. -/
def Refused (m : Manager) (resp : Response) : Prop :=
  resp.result ≠ .ok ∧ resp.manager = m ∧ resp.messages = []

/-- A call with a ticket is refused, or it runs one of the two branches. -/
theorem addToTransaction_cases (env : Env) (r : Request) (m : Manager)
    (hticket : r.ticket = some userUri) :
    Refused m (addToTransaction env r m) ∨
    2 ≤ r.indv.uri.utf8ByteSize ∧ ∃ prev, readPrev m.storage r.indv.uri = some prev ∧
      (r.cmd = .remove ∧ addToTransaction env r m =
          removeIndividual env r userUri (setMapOfType r.indv ∅) prev m ∨
        r.cmd ≠ .remove ∧ r.indv.resources.keys ≠ [] ∧
          (r.optRequest = true → userUri ≠ env.systicketUserUri →
            Permitted env r userUri prev) ∧
          ∃ rdfType, (∀ c, c ∈ rdfType ↔ c ∈ r.indv.types) ∧ addToTransaction env r m =
            putIndividual env r userUri rdfType prev m) := by
  have hrefuse : ∀ rc, rc ≠ .ok → Refused m (.refuse rc m) := fun rc h => ⟨h, rfl, rfl⟩
  unfold addToTransaction
  rw [hticket]
  dsimp only
  split
  · exact .inl (hrefuse _ (by decide))
  next hlen =>
  split
  · exact .inl (hrefuse _ (by decide))
  next hempty =>
  cases hprev : readPrev m.storage r.indv.uri with
  | none => exact .inl (hrefuse _ (by decide))
  | some prev =>
    dsimp only
    split
    · next hcmd => exact .inr ⟨by omega, prev, rfl, .inl ⟨hcmd, rfl⟩⟩
    next hcmd =>
    have hkeys : r.indv.resources.keys ≠ [] := fun h => hempty ⟨hcmd, h⟩
    split
    · split
      · exact .inl (hrefuse _ (by decide))
      next hchange =>
      split
      · exact .inl (hrefuse _ (by decide))
      next hcreate =>
      refine .inr ⟨by omega, prev, rfl, .inr ⟨hcmd, hkeys, fun _ _ => ⟨fun hs => ?_, ?_⟩, _,
        fun c => mem_checkedTypes, rfl⟩⟩
      · simpa [hs] using hchange
      · rintro rfl
        exact mayCreate_new.mp (by simpa [checkedTypes] using hcreate)
    · next hopt =>
      refine .inr ⟨by omega, prev, rfl, .inr ⟨hcmd, hkeys, fun hreq hsys => ?_, _,
        fun c => mem_setMapOfType_empty, rfl⟩⟩
      exact absurd (by simp [hreq, hsys]) hopt

/-- A permitted request is carried out. -/
theorem addToTransaction_put (env : Env) (r : Request) (m : Manager)
    (hticket : r.ticket = some userUri) (hlen : 2 ≤ r.indv.uri.utf8ByteSize)
    (hcmd : r.cmd ≠ .remove) (hkeys : r.indv.resources.keys ≠ [])
    (hprev : readPrev m.storage r.indv.uri = some prev) (hperm : Permitted env r userUri prev) :
    ∃ rdfType, (∀ c, c ∈ rdfType ↔ c ∈ r.indv.types) ∧ addToTransaction env r m =
      putIndividual env r userUri rdfType prev m := by
  have hchange : ¬(prev.isSome = true ∧ (!mayChange env userUri r.indv) = true) := by
    rintro ⟨hs, hc⟩
    simp [hperm.change hs] at hc
  unfold addToTransaction
  rw [hticket]
  dsimp only
  rw [if_neg (by omega), if_neg (by simp [hkeys]), hprev]
  dsimp only
  rw [if_neg hcmd]
  have hcreate : mayCreate env userUri (checkedTypes r.indv prev (setMapOfType r.indv ∅)) =
      true := by
    cases prev with
    | none => exact mayCreate_new.mpr (hperm.create rfl)
    | some p => exact mayCreate_stored
  split
  · rw [if_neg (by simp [hcreate])]
    exact ⟨_, fun c => mem_checkedTypes, rfl⟩
  · exact ⟨_, fun c => mem_setMapOfType_empty, rfl⟩

/-- `REMOVE` asks for no right. -/
theorem addToTransaction_remove (env : Env) (r : Request) (m : Manager)
    (hticket : r.ticket = some userUri) (hlen : 2 ≤ r.indv.uri.utf8ByteSize)
    (hcmd : r.cmd = .remove) (hprev : readPrev m.storage r.indv.uri = some prev) :
    addToTransaction env r m =
      removeIndividual env r userUri (setMapOfType r.indv ∅) prev m := by
  unfold addToTransaction
  rw [hticket]
  dsimp only
  rw [if_neg (by omega), if_neg (by simp [hcmd]), hprev]
  dsimp only
  rw [if_pos hcmd]

/-! ## Calls in which nothing fails -/

/-- Nothing is too large, and the database does not fail. -/
structure Env.Healthy (env : Env) : Prop where
  fits : ∀ indv, env.isTooLarge indv = false
  put : env.putFails = false
  remove : env.removeFails = false

/-- The manager takes requests, and no reply is left over. -/
structure Manager.Idle (m : Manager) : Prop where
  isFreeze : m.isFreeze = false
  replies : m.replies = []

/-- Surroundings in which nothing fails. -/
def healthyEnv (acl : Acl) (systicketUserUri : String) : Env where
  acl := acl
  systicketUserUri := systicketUserUri
  isTooLarge _ := false
  putFails := false
  removeFails := false

/-- An ACL that grants the requests of `granted` and nothing else. -/
def onlyGrants (granted : Access → Bool) : Acl := fun _ _ request =>
  if granted request then request else 0

/-- A storage with one individual. -/
def oneStored (indv : Individual) : Storage := fun uri =>
  if uri = indv.uri then some (.individual indv) else none

/-- An individual of one class. -/
def individualOf (uri type : String) : Individual := ⟨uri, AList.singleton "rdf:type" [.uri type]⟩

/-- A manager that has done nothing yet. -/
def idleManager (storage : Storage) : Manager where
  storage := storage
  isFreeze := false
  opId := 0
  flow := []
  replies := []

theorem healthyEnv_healthy (acl : Acl) (user : String) : (healthyEnv acl user).Healthy :=
  ⟨fun _ => rfl, rfl, rfl⟩

@[simp] theorem idleManager_storage (storage : Storage) :
    (idleManager storage).storage = storage := rfl

theorem idleManager_idle (storage : Storage) : (idleManager storage).Idle := ⟨rfl, rfl⟩

/-- A user uri other than the given one. -/
theorem exists_other_user (user : String) : ∃ other : String, user ≠ other := by
  by_cases h : user = ""
  · exact ⟨"a", by rw [h]; decide⟩
  · exact ⟨"", h⟩

section
variable {env : Env} {r : Request} {m : Manager} {userUri : String} {rdfType : MapResource}

/-- The storage after a state was stored under a key, if the request is meant for the storage. -/
def stored (assigned : BitVec 64) (storage : Storage) (uri : String) (obj : Option BinObj) :
    Storage :=
  if assignedTo assigned subsystemStorage then Function.update storage uri obj else storage

theorem Manager.Idle.save_put (ti : TransactionItem) (f : OptFreeze) (h : m.Idle)
    (hcmd : ti.cmd = .put) (hobj : ti.newBinobj = some obj)
    (huri : assignedTo ti.assignedSubsystems subsystemStorage = true → ti.uri ≠ "") :
    (m.save ti f false).1 = .ok ∧ (m.save ti f false).2.Idle ∧
      (m.save ti f false).2.storage =
        stored ti.assignedSubsystems m.storage ti.uri (some obj) := by
  obtain ⟨hrc, hfreeze, hreplies⟩ := Manager.save_reply ti f false h.isFreeze h.replies
  refine ⟨hrc.trans (Manager.reply_eq_ok.mpr fun hass => ?_), ⟨hfreeze, hreplies⟩, ?_⟩
  · simp [Manager.apply, hcmd, hobj, huri hass]
  · rw [Manager.save_storage]
    unfold stored
    split
    · next hass => exact Manager.changed_put hcmd hobj (huri hass) hass
    · next hass => exact Manager.changed_of_not_assigned (by simpa using hass)

theorem Manager.Idle.save_remove (ti : TransactionItem) (f : OptFreeze) (h : m.Idle)
    (hcmd : ti.cmd = .remove)
    (huri : assignedTo ti.assignedSubsystems subsystemStorage = true →
      ti.uri ≠ "" ∧ m.storage ti.uri ≠ none) :
    (m.save ti f false).1 = .ok ∧ (m.save ti f false).2.Idle ∧
      (m.save ti f false).2.storage = stored ti.assignedSubsystems m.storage ti.uri none := by
  obtain ⟨hrc, hfreeze, hreplies⟩ := Manager.save_reply ti f false h.isFreeze h.replies
  refine ⟨hrc.trans (Manager.reply_eq_ok.mpr fun hass => ?_), ⟨hfreeze, hreplies⟩, ?_⟩
  · simp [Manager.apply, hcmd, huri hass]
  · rw [Manager.save_storage]
    unfold stored
    split
    · next hass => simp [Manager.changed, Manager.apply, hcmd, huri hass, hass]
    · next hass => exact Manager.changed_of_not_assigned (by simpa using hass)

theorem putIndividual_healthy (r : Request) (userUri : String) (rdfType : MapResource)
    (prev : Option Individual) (henv : env.Healthy) (hm : m.Idle)
    (huri : assignedTo r.assignedSubsystems subsystemStorage = true →
      (newIndividual r.cmd (prev.getD .init) r.indv).uri ≠ "") :
    (putIndividual env r userUri rdfType prev m).result = .ok ∧
      (putIndividual env r userUri rdfType prev m).manager.storage =
        stored r.assignedSubsystems m.storage (newIndividual r.cmd (prev.getD .init) r.indv).uri
          (some (BinObj.serialize (newIndividual r.cmd (prev.getD .init) r.indv))) := by
  unfold putIndividual
  simp only [henv.fits, Bool.false_eq_true, if_false, finishCall, henv.put]
  obtain ⟨hrc, -, hst⟩ := hm.save_put (r.item userUri rdfType .put
    (newIndividual r.cmd (prev.getD .init) r.indv).uri (m.storage r.indv.uri)
    (some (BinObj.serialize (newIndividual r.cmd (prev.getD .init) r.indv)))
    (nextCounter ((prev.getD .init).getFirstInteger "v-s:updateCounter" 0)))
    r.optFreeze rfl rfl huri
  exact ⟨hrc, hst⟩

theorem removeIndividual_healthy (r : Request) (userUri : String) (rdfType : MapResource)
    (henv : env.Healthy) (hm : m.Idle)
    (huri : assignedTo r.assignedSubsystems subsystemStorage = true → p.uri ≠ "") :
    (removeIndividual env r userUri rdfType (some p) m).result = .ok ∧
      (removeIndividual env r userUri rdfType (some p) m).manager.storage =
        stored r.assignedSubsystems m.storage p.uri none := by
  unfold removeIndividual
  simp only [henv.fits, Bool.false_eq_true, if_false, finishCall, henv.put, henv.remove]
  generalize setMapOfType (deserializeInto r.indv p) rdfType = types
  generalize hti : r.item userUri types .put p.uri _ _ _ = ti
  have hass : ti.assignedSubsystems = r.assignedSubsystems := by rw [← hti]; rfl
  have htiuri : ti.uri = p.uri := by rw [← hti]; rfl
  have hobj : ti.newBinobj = some (BinObj.serialize (deletedIndividual p)) := by rw [← hti]; rfl
  obtain ⟨hrc, hidle, hst⟩ := hm.save_put ti r.optFreeze (by rw [← hti]; rfl) hobj
    (by rw [hass, htiuri]; exact huri)
  rw [hass, htiuri] at hst
  rw [if_pos hrc]
  generalize (m.save ti r.optFreeze false).2 = m₁ at hidle hst ⊢
  obtain ⟨hrc₂, -, hst₂⟩ := hidle.save_remove
    (r.item userUri types .remove p.uri (m.storage r.indv.uri) none
      (nextCounter (p.getFirstInteger "v-s:updateCounter" 0))) r.optFreeze rfl
    (fun (ha : assignedTo r.assignedSubsystems subsystemStorage = true) => by
      refine ⟨huri ha, ?_⟩
      rw [hst, stored, if_pos ha]
      simp [Request.item])
  refine ⟨hrc₂, hst₂.trans ?_⟩
  rw [hst]
  unfold stored Request.item
  split
  · exact Function.update_idem _ _ _
  · rfl

end

end Veda.Mstorage
