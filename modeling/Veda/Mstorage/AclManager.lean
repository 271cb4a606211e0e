import Veda.Authorization.RightSet
import Veda.Onto.Individual

/-! # The ACL indexer

The model of `acl_manager.d`: a statement about permissions or memberships is turned into entries
of the records of the index. `AclState` adds to the index the latest state of each individual, and
the results say when the index agrees with these states along a run of calls. -/

namespace Veda.Acl

open Onto
open Authorization (AclIndex Access noMarker mIsExclusive mIgnoreExclusive permissionPrefix
  filterPrefix membershipPrefix)

/-! ## The calls -/

/-- The predicates of the four rights, with the bits of a grant and of a denial. -/
def accessPredicates : List (String × Access × Access) :=
  [("v-s:canCreate", 1, 16), ("v-s:canRead", 2, 32), ("v-s:canUpdate", 4, 64),
    ("v-s:canDelete", 8, 128)]

/-- The access of a statement. -/
def statementAccess (ind : Individual) (defaultAccess : Access) : Access :=
  let access := accessPredicates.foldl
    (fun access (predicate, can, cant) =>
      let value := ind.getFirstResource predicate
      if value = .init then access
      else if value.beqBool true then access ||| can
      else access ||| cant) 0
  if access = 0 then defaultAccess else access

/-- The marker of a statement. -/
def statementMarker (ind : Individual) : Char :=
  if ind.getFirstBoolean "v-s:isExclusive" false then mIsExclusive
  else if ind.getFirstBoolean "v-s:ignoreExclusive" false then mIgnoreExclusive
  else noMarker

/-- The key of the record for a resource. -/
def recordKey (useFilter : Resource) (keyPrefix : String) (rs : Resource) : String :=
  if useFilter ≠ .init then keyPrefix ++ useFilter.uriOf ++ rs.uriOf else keyPrefix ++ rs.uriOf

/-- The orders in which the associative arrays of a call yield their keys, by the pass and the
position of the resource. -/
structure Order where
  keys : Nat → Nat → RightSet → List String
  perm : ∀ i j rs, (keys i j rs).Perm rs.data.keys

/-- The change of the entry for `mb`. -/
def RightSet.touch (access : Access) (marker : Char) (isDeleted : Bool) (rs : RightSet)
    (mb : Resource) : RightSet :=
  match rs.data.lookup mb.uriOf with
  | some rr =>
    rs.put { rr with isDeleted := isDeleted, access := rr.access ||| access, marker := marker }
  | none => rs.put { id := mb.uriOf, access := access, marker := marker, isDeleted := isDeleted }

/-- The record under a key; `none` is the exception of a record that cannot be parsed. -/
def readRecord (m : AclIndex) (key : String) : Option RightSet :=
  match m key with
  | some data => rightsFromString data .empty
  | none => some .empty

/-- `update_right_set`. The flag tells that no exception stopped it. -/
def updateRightSet (keys : Nat → RightSet → List String) (inSet : Resources) (marker : Char)
    (isDeleted : Bool) (useFilter : Resource) (keyPrefix : String) (access : Access) :
    List (Resource × Nat) → AclIndex → Bool × AclIndex
  | [], m => (true, m)
  | (rs, i) :: resources, m =>
    let key := recordKey useFilter keyPrefix rs
    match readRecord m key with
    | none => (false, m)
    | some set =>
      let set := inSet.foldl (RightSet.touch access marker isDeleted) set
      updateRightSet keys inSet marker isDeleted useFilter keyPrefix access resources
        (Function.update m key (some (set.record (keys i set))))

/-- A call of `update_right_set` for the statement `newInd`. -/
def updatePass (order : Order) (newInd : Individual) (keyPrefix : String) (access : Access)
    (i : Nat) (resources inSet : Resources) (isDeleted : Bool) (m : AclIndex) : Bool × AclIndex :=
  updateRightSet (order.keys i) inSet (statementMarker newInd) isDeleted
    (newInd.getFirstResource "v-s:useFilter") keyPrefix access resources.zipIdx m

/-- What follows a call that was not stopped by an exception. -/
def andThen (o : Bool × AclIndex) (next : AclIndex → Bool × AclIndex) : Bool × AclIndex :=
  if o.1 then next o.2 else o

/-- `prepare_right_set`. -/
def prepareRightSet (order : Order) (prevInd newInd : Individual) (pResource pInSet : String)
    (keyPrefix : String) (defaultAccess : Access) (m : AclIndex) : Bool × AclIndex :=
  let isDeleted := newInd.isExists "v-s:deleted" true
  let access := statementAccess newInd defaultAccess
  let resource := newInd.getResources pResource
  let inSet := newInd.getResources pInSet
  let removedResource := getDisappeared (prevInd.getResources pResource) resource
  let removedInSet := getDisappeared (prevInd.getResources pInSet) inSet
  let pass := updatePass order newInd keyPrefix access
  andThen (pass 0 resource inSet isDeleted m) fun m =>
  andThen (if removedResource.length > 0 then pass 1 removedResource inSet true m
    else (true, m)) fun m =>
  if removedInSet.length > 0 then pass 2 resource removedInSet true m else (true, m)

/-- The individuals that the indexer handles. -/
inductive Kind where
  | permissionStatement
  | membership
  | permissionFilter
  deriving DecidableEq

namespace Kind

def pResource : Kind → String
  | .membership => "v-s:resource"
  | _ => "v-s:permissionObject"

def pInSet : Kind → String
  | .permissionStatement => "v-s:permissionSubject"
  | .membership => "v-s:memberOf"
  | .permissionFilter => "v-s:resource"

def keyPrefix : Kind → String
  | .permissionStatement => permissionPrefix
  | .membership => membershipPrefix
  | .permissionFilter => filterPrefix

def defaultAccess : Kind → Access
  | .membership => 15
  | _ => 0

end Kind

/-- `prepare_permission_statement`, `prepare_membership` and `prepare_permission_filter`. -/
def prepare (kind : Kind) (order : Order) (prevInd newInd : Individual) (m : AclIndex) :
    Bool × AclIndex :=
  prepareRightSet order prevInd newInd kind.pResource kind.pInSet kind.keyPrefix
    kind.defaultAccess m

/-! ## Runs -/

/-- A call for the individual `uri`. -/
structure Call where
  kind : Kind
  uri : String
  newInd : Individual
  order : Order

/-- The index, with the latest state of each individual and how it was handled. -/
structure AclState where
  index : AclIndex
  latest : String → Option (Kind × Individual)

def AclState.init : AclState := ⟨fun _ => none, fun _ => none⟩

/-- The state that a call passes as the previous one. -/
def AclState.prevInd (st : AclState) (uri : String) : Individual :=
  ((st.latest uri).map (·.2)).getD .init

def AclState.step (st : AclState) (c : Call) : AclState where
  index := (prepare c.kind c.order (st.prevInd c.uri) c.newInd st.index).2
  latest := Function.update st.latest c.uri (some (c.kind, c.newInd))

def AclState.run (st : AclState) (calls : List Call) : AclState := calls.foldl step st

/-- What a record of the index says of an id. -/
def indexAccess (m : AclIndex) (key s : String) : Option Access :=
  (readRecord m key).bind (·.accessAt s)

/-- The statement lists a resource of the key and the id. -/
def Lists (kind : Kind) (ind : Individual) (key s : String) : Prop :=
  (∃ rs ∈ ind.getResources kind.pResource,
      recordKey (ind.getFirstResource "v-s:useFilter") kind.keyPrefix rs = key) ∧
    ∃ mb ∈ ind.getResources kind.pInSet, mb.uriOf = s

/-- The latest state of the individual `uri` is not deleted and lists the key and the id, with
the access `access`. -/
def AclState.Gives (st : AclState) (uri key s : String) (access : Access) : Prop :=
  ∃ kind ind, st.latest uri = some (kind, ind) ∧ ind.isExists "v-s:deleted" true = false ∧
    Lists kind ind key s ∧ access = statementAccess ind kind.defaultAccess

/-- The index agrees with the latest states: there is an entry exactly for what one of them
lists, and its access is the union of theirs. -/
def AclState.Agrees (st : AclState) : Prop :=
  ∀ key s,
    ((indexAccess st.index key s).isSome ↔ ∃ uri access, st.Gives uri key s access) ∧
    ∀ access, indexAccess st.index key s = some access →
      ∀ i, access.getLsbD i ↔ ∃ uri access', st.Gives uri key s access' ∧ access'.getLsbD i

/-! ## What a pass does to the index -/

section
variable {rs : RightSet} {access : Access} {marker : Char} {isDeleted : Bool} {m : AclIndex}

theorem RightSet.lookup_touch (rs : RightSet) (mb : Resource) (s : String) :
    (rs.touch access marker isDeleted mb).data.lookup s =
      if s = mb.uriOf then
        some ⟨s, ((rs.data.lookup s).map Right.access).getD 0 ||| access, marker, isDeleted⟩
      else rs.data.lookup s := by
  by_cases hs : s = mb.uriOf
  · subst hs
    rw [if_pos rfl, touch]
    split
    · next rr hrr =>
      have hid := rs.id_eq _ rr hrr
      simp [lookup_put, hid, hrr]
    · next hnone => simp [lookup_put, hnone]
  · rw [if_neg hs, touch]
    split
    · next rr hrr =>
      have hid := rs.id_eq _ rr hrr
      rw [lookup_put, if_neg fun h => hs (h.trans hid)]
    · rw [lookup_put, if_neg hs]

/-- The entries after all members of `inSet` were touched. -/
theorem RightSet.lookup_foldl_touch (access : Access) (marker : Char) (isDeleted : Bool)
    (inSet : Resources) (rs : RightSet) (s : String) :
    ((∃ mb ∈ inSet, mb.uriOf = s) →
      (inSet.foldl (touch access marker isDeleted) rs).data.lookup s =
        some ⟨s, ((rs.data.lookup s).map Right.access).getD 0 ||| access, marker, isDeleted⟩) ∧
    ((¬∃ mb ∈ inSet, mb.uriOf = s) →
      (inSet.foldl (touch access marker isDeleted) rs).data.lookup s = rs.data.lookup s) := by
  induction inSet generalizing rs with
  | nil => simp
  | cons mb inSet ih =>
    rw [List.foldl_cons]
    obtain ⟨hin, hout⟩ := ih (rs.touch access marker isDeleted mb)
    rw [lookup_touch] at hin hout
    simp only [List.exists_mem_cons_iff]
    by_cases hmb : mb.uriOf = s
    · rw [if_pos hmb.symm] at hin hout
      refine ⟨fun _ => ?_, fun h => absurd (.inl hmb) h⟩
      by_cases hrest : ∃ mb' ∈ inSet, mb'.uriOf = s
      · rw [hin hrest]
        simp [BitVec.or_assoc]
      · exact hout hrest
    · rw [if_neg (Ne.symm hmb)] at hin hout
      exact ⟨fun h => hin (h.resolve_left hmb), fun h => hout fun h' => h (.inr h')⟩

theorem PlainMarker.statementMarker (ind : Individual) : PlainMarker (statementMarker ind) := by
  unfold Acl.statementMarker
  split
  · exact .inr (.inl rfl)
  split
  · exact .inr (.inr rfl)
  · exact .inl rfl

theorem RightSet.Clean.accessAt_eq (h : rs.Clean) (s : String) :
    rs.accessAt s = (rs.data.lookup s).map Right.access := by
  unfold accessAt
  cases hr : rs.data.lookup s with
  | none => rfl
  | some r => simp [(h s r hr).2]

/-- The entries that are written after a pass over the members of `inSet` can be read. -/
theorem RightSet.Clean.foldl_touch (access : Access) (h : rs.Clean) (hm : PlainMarker marker)
    (inSet : Resources)
    (hids : isDeleted = false → ∀ mb ∈ inSet, WritableId mb.uriOf) :
    ∀ r ∈ (inSet.foldl (touch access marker isDeleted) rs).live, r.Readable := by
  intro r hr
  obtain ⟨hlook, hdel⟩ := mem_live.mp hr
  obtain ⟨hin, hout⟩ := lookup_foldl_touch access marker isDeleted inSet rs r.id
  by_cases hmem : ∃ mb ∈ inSet, mb.uriOf = r.id
  · rw [hin hmem, Option.some.injEq] at hlook
    have hdeleted : isDeleted = false := by rw [← hdel, ← hlook]
    obtain ⟨mb, hmb, hid⟩ := hmem
    have hmarker : r.marker = marker := by rw [← hlook]
    exact ⟨hid ▸ hids hdeleted mb hmb, hmarker ▸ hm.ne_separator, fun _ => hmarker ▸ hm⟩
  · rw [hout hmem] at hlook
    exact (h r.id r hlook).1

/-- Every record can be read, and its entries can be written again. -/
def IndexOk (m : AclIndex) : Prop := ∀ key, ∃ rs, readRecord m key = some rs ∧ rs.Clean

/-- What a change of the index by `update_right_set` does: the entries that it hits are erased,
or get the access in addition to theirs. -/
structure Updates (hit : String → String → Prop) (isDeleted : Bool) (access : Access)
    (m m' : AclIndex) : Prop where
  ok : IndexOk m'
  erased : ∀ key s, isDeleted = true → hit key s → indexAccess m' key s = none
  merged : ∀ key s, isDeleted = false → hit key s →
    indexAccess m' key s = some ((indexAccess m key s).getD 0 ||| access)
  kept : ∀ key s, ¬hit key s → indexAccess m' key s = indexAccess m key s

theorem readRecord_update_self (m : AclIndex) (key data : String) :
    readRecord (Function.update m key (some data)) key = rightsFromString data .empty := by
  rw [readRecord, Function.update_self]

theorem readRecord_update_ne (m : AclIndex) (data : String) (h : key' ≠ key) :
    readRecord (Function.update m key (some data)) key' = readRecord m key' := by
  rw [readRecord, readRecord, Function.update_of_ne h]

/-- One record is read, changed and stored. -/
theorem updates_record (access : Access) (hm : IndexOk m) (hread : readRecord m key = some rs)
    (hmarker : PlainMarker marker) (inSet : Resources)
    (hids : isDeleted = false → ∀ mb ∈ inSet, WritableId mb.uriOf)
    (hkeys : keys.Perm (inSet.foldl (RightSet.touch access marker isDeleted) rs).data.keys) :
    Updates (fun key' s => key = key' ∧ ∃ mb ∈ inSet, mb.uriOf = s) isDeleted access m
      (Function.update m key
        (some ((inSet.foldl (RightSet.touch access marker isDeleted) rs).record keys))) := by
  obtain ⟨rs₀, hrs₀, hclean⟩ := hm key
  cases hread.symm.trans hrs₀
  obtain ⟨rs', hrs', hclean', hsame⟩ := RightSet.rightsFromString_record hkeys
    (hclean.foldl_touch access hmarker inSet hids)
  rw [← readRecord_update_self m key] at hrs'
  have hold : ∀ s, indexAccess m key s = (rs.data.lookup s).map Right.access := fun s => by
    rw [indexAccess, hread, Option.bind_some, hclean.accessAt_eq]
  have hnew : ∀ s, indexAccess (Function.update m key
      (some ((inSet.foldl (RightSet.touch access marker isDeleted) rs).record keys))) key s =
        (inSet.foldl (RightSet.touch access marker isDeleted) rs).accessAt s := fun s => by
    rw [indexAccess, hrs', Option.bind_some, hsame]
  refine ⟨fun key' => ?_, ?_, ?_, ?_⟩
  · by_cases hkey : key' = key
    · exact ⟨rs', hkey ▸ hrs', hclean'⟩
    · rw [readRecord_update_ne m _ hkey]
      exact hm key'
  · rintro key' s hdel ⟨rfl, hmem⟩
    rw [hnew, RightSet.accessAt, (RightSet.lookup_foldl_touch _ _ _ inSet rs s).1 hmem]
    simp [hdel]
  · rintro key' s hdel ⟨rfl, hmem⟩
    rw [hnew, RightSet.accessAt, (RightSet.lookup_foldl_touch _ _ _ inSet rs s).1 hmem, hold]
    simp [hdel]
  · intro key' s hhit
    by_cases hkey : key' = key
    · subst hkey
      have hmem : ¬∃ mb ∈ inSet, mb.uriOf = s := fun h => hhit ⟨rfl, h⟩
      rw [hnew, RightSet.accessAt, (RightSet.lookup_foldl_touch _ _ _ inSet rs s).2 hmem,
        ← RightSet.accessAt, hclean.accessAt_eq, hold]
    · rw [indexAccess, readRecord_update_ne m _ hkey, indexAccess]

/-- Changes with the same access one after the other. -/
theorem Updates.trans (h₁ : Updates hit₁ isDeleted access m m₁)
    (h₂ : Updates hit₂ isDeleted access m₁ m₂)
    (hhit : ∀ key s, hit key s ↔ hit₁ key s ∨ hit₂ key s) : Updates hit isDeleted access m m₂ := by
  refine ⟨h₂.ok, fun key s hdel h => ?_, fun key s hdel h => ?_, fun key s h => ?_⟩
  · by_cases h2 : hit₂ key s
    · exact h₂.erased key s hdel h2
    · rw [h₂.kept key s h2]
      exact h₁.erased key s hdel (((hhit key s).mp h).resolve_right h2)
  · by_cases h2 : hit₂ key s
    · rw [h₂.merged key s hdel h2]
      by_cases h1 : hit₁ key s
      · rw [h₁.merged key s hdel h1]
        simp [BitVec.or_assoc]
      · rw [h₁.kept key s h1]
    · rw [h₂.kept key s h2]
      exact h₁.merged key s hdel (((hhit key s).mp h).resolve_right h2)
  · rw [hhit, not_or] at h
    rw [h₂.kept key s h.2, h₁.kept key s h.1]

theorem updates_refl (hm : IndexOk m) : Updates (fun _ _ => False) isDeleted access m m :=
  ⟨hm, fun _ _ _ h => h.elim, fun _ _ _ h => h.elim, fun _ _ _ => rfl⟩

/-- `update_right_set` hits the listed members in the records of the resources. -/
theorem updateRightSet_updates (access : Access) (hm : IndexOk m)
    (hmarker : PlainMarker marker) (inSet : Resources)
    (hids : isDeleted = false → ∀ mb ∈ inSet, WritableId mb.uriOf)
    (keys : Nat → RightSet → List String) (hkeys : ∀ i rs, (keys i rs).Perm rs.data.keys)
    (useFilter : Resource) (keyPrefix : String) (resources : List (Resource × Nat)) :
    (updateRightSet keys inSet marker isDeleted useFilter keyPrefix access resources m).1 = true ∧
    Updates (fun key s => (∃ rs ∈ resources, recordKey useFilter keyPrefix rs.1 = key) ∧
        ∃ mb ∈ inSet, mb.uriOf = s) isDeleted access m
      (updateRightSet keys inSet marker isDeleted useFilter keyPrefix access resources m).2 := by
  induction resources generalizing m with
  | nil => exact ⟨rfl, by simpa [updateRightSet] using updates_refl hm⟩
  | cons e resources ih =>
    obtain ⟨rs, i⟩ := e
    obtain ⟨set, hset, -⟩ := hm (recordKey useFilter keyPrefix rs)
    have hfirst := updates_record access hm hset hmarker inSet hids (hkeys i _)
    obtain ⟨hok, hrest⟩ := ih hfirst.ok
    simp only [updateRightSet, hset]
    refine ⟨hok, hfirst.trans hrest fun key s => ?_⟩
    simp only [List.exists_mem_cons_iff, or_and_right]

end

/-! ## What a call does to the index -/

/-- The state is not deleted. -/
def Live (ind : Individual) : Prop := ind.isExists "v-s:deleted" true = false

/-- A key of one of the resources, and one of the members. -/
def Pairs (kind : Kind) (newInd : Individual) (resources inSet : Resources) (key s : String) :
    Prop :=
  (∃ rs ∈ resources,
      recordKey (newInd.getFirstResource "v-s:useFilter") kind.keyPrefix rs = key) ∧
    ∃ mb ∈ inSet, mb.uriOf = s

/-- The entries that a call erases: all that a deleted state lists, those of removed resources
with the present members, and those of the present resources with removed members. -/
def Erases (kind : Kind) (prevInd newInd : Individual) (key s : String) : Prop :=
  ¬Live newInd ∧ Lists kind newInd key s ∨
    Pairs kind newInd
      (getDisappeared (prevInd.getResources kind.pResource) (newInd.getResources kind.pResource))
      (newInd.getResources kind.pInSet) key s ∨
    Pairs kind newInd (newInd.getResources kind.pResource)
      (getDisappeared (prevInd.getResources kind.pInSet) (newInd.getResources kind.pInSet)) key s

section
variable {m : AclIndex} (kind : Kind) (prevInd newInd : Individual) (access : Access)

/-- A pass of a call. -/
theorem updatePass_updates (hm : IndexOk m) (order : Order) (i : Nat)
    (resources inSet : Resources) (isDeleted : Bool)
    (hids : isDeleted = false → ∀ mb ∈ inSet, WritableId mb.uriOf) :
    ∃ m', updatePass order newInd kind.keyPrefix access i resources inSet isDeleted m =
        (true, m') ∧
      Updates (Pairs kind newInd resources inSet) isDeleted access m m' := by
  obtain ⟨hok, hupd⟩ := updateRightSet_updates access hm
    (PlainMarker.statementMarker newInd) inSet hids (order.keys i) (order.perm i)
    (newInd.getFirstResource "v-s:useFilter") kind.keyPrefix resources.zipIdx
  have hhit : (fun key s => (∃ rs ∈ resources.zipIdx, recordKey
      (newInd.getFirstResource "v-s:useFilter") kind.keyPrefix rs.1 = key) ∧
        ∃ mb ∈ inSet, mb.uriOf = s) = Pairs kind newInd resources inSet := by
    funext key s
    refine propext (and_congr_left fun _ => ⟨?_, ?_⟩)
    · rintro ⟨rs, hrs, h⟩
      exact ⟨rs.1, List.fst_mem_of_mem_zipIdx hrs, h⟩
    · rintro ⟨rs, hrs, h⟩
      obtain ⟨n, hn⟩ := List.mem_iff_getElem?.mp hrs
      exact ⟨(rs, n), List.mk_mem_zipIdx_iff_getElem?.mpr hn, h⟩
  exact ⟨_, Prod.ext hok rfl, hhit ▸ hupd⟩

/-- A pass that erases, and is left out if it has nothing to do. -/
theorem erasingPass_updates (hm : IndexOk m) (order : Order) (i : Nat)
    (resources inSet removed : Resources)
    (hremoved : removed = [] → resources = [] ∨ inSet = []) :
    ∃ m', (if removed.length > 0 then
          updatePass order newInd kind.keyPrefix access i resources inSet true m
        else (true, m)) = (true, m') ∧
      Updates (Pairs kind newInd resources inSet) true access m m' := by
  split
  · exact updatePass_updates kind newInd access hm order i resources inSet true fun h => by cases h
  · next hlen =>
    have hhit : Pairs kind newInd resources inSet = fun _ _ => False := by
      funext key s
      refine propext ⟨fun hpairs => ?_, False.elim⟩
      rcases hremoved (by simpa using hlen) with rfl | rfl
      · obtain ⟨⟨rs, hrs, -⟩, -⟩ := hpairs
        cases hrs
      · obtain ⟨-, mb, hmb, -⟩ := hpairs
        cases hmb
    exact ⟨m, rfl, hhit ▸ updates_refl hm⟩

/-- The index after a call. -/
structure Prepared (kind : Kind) (prevInd newInd : Individual) (m m' : AclIndex) : Prop where
  ok : IndexOk m'
  erased : ∀ key s, Erases kind prevInd newInd key s → indexAccess m' key s = none
  merged : ∀ key s, ¬Erases kind prevInd newInd key s → Live newInd → Lists kind newInd key s →
    indexAccess m' key s =
      some ((indexAccess m key s).getD 0 ||| statementAccess newInd kind.defaultAccess)
  kept : ∀ key s, ¬Erases kind prevInd newInd key s → ¬(Live newInd ∧ Lists kind newInd key s) →
    indexAccess m' key s = indexAccess m key s

theorem prepare_prepared (hm : IndexOk m) (order : Order)
    (hids : ∀ mb ∈ newInd.getResources kind.pInSet, WritableId mb.uriOf) :
    Prepared kind prevInd newInd m (prepare kind order prevInd newInd m).2 := by
  obtain ⟨m₁, hm₁, h₁⟩ := updatePass_updates kind newInd
    (statementAccess newInd kind.defaultAccess) hm order 0
    (newInd.getResources kind.pResource) (newInd.getResources kind.pInSet)
    (newInd.isExists "v-s:deleted" true) fun _ => hids
  unfold prepare prepareRightSet
  dsimp only
  rw [hm₁, andThen, if_pos rfl]
  obtain ⟨m₂, hm₂, h₂⟩ := erasingPass_updates kind newInd
    (statementAccess newInd kind.defaultAccess) h₁.ok order 1
    (getDisappeared (prevInd.getResources kind.pResource) (newInd.getResources kind.pResource))
    (newInd.getResources kind.pInSet) _ .inl
  rw [hm₂, andThen, if_pos rfl]
  obtain ⟨m₃, hm₃, h₃⟩ := erasingPass_updates kind newInd
    (statementAccess newInd kind.defaultAccess) h₂.ok order 2
    (newInd.getResources kind.pResource)
    (getDisappeared (prevInd.getResources kind.pInSet) (newInd.getResources kind.pInSet))
    _ .inr
  rw [hm₃]
  refine ⟨h₃.ok, fun key s he => ?_, fun key s he hlive hlists => ?_, fun key s he hnew => ?_⟩
  · by_cases hp₃ : Pairs kind newInd (newInd.getResources kind.pResource)
      (getDisappeared (prevInd.getResources kind.pInSet) (newInd.getResources kind.pInSet)) key s
    · exact h₃.erased key s rfl hp₃
    rw [h₃.kept key s hp₃]
    rcases he with ⟨hdel, hlists⟩ | hp₂ | hp
    · by_cases hp₂ : Pairs kind newInd (getDisappeared (prevInd.getResources kind.pResource)
        (newInd.getResources kind.pResource)) (newInd.getResources kind.pInSet) key s
      · exact h₂.erased key s rfl hp₂
      · rw [h₂.kept key s hp₂]
        exact h₁.erased key s (by simpa [Live] using hdel) hlists
    · exact h₂.erased key s rfl hp₂
    · exact absurd hp hp₃
  · rw [h₃.kept key s fun h => he (.inr (.inr h)), h₂.kept key s fun h => he (.inr (.inl h))]
    exact h₁.merged key s hlive hlists
  · rw [h₃.kept key s fun h => he (.inr (.inr h)), h₂.kept key s fun h => he (.inr (.inl h))]
    refine h₁.kept key s fun hlists => ?_
    by_cases hlive : Live newInd
    · exact hnew ⟨hlive, hlists⟩
    · exact he (.inl ⟨hlive, hlists⟩)

end

/-! ## Runs in which the index agrees with the statements -/

namespace AclState

/-- After the call the entry for `s` should get `access` from the new state, or from another
individual. -/
def GivenAfter (st : AclState) (c : Call) (key s : String) (access : Access) : Prop :=
  Live c.newInd ∧ Lists c.kind c.newInd key s ∧
      access = statementAccess c.newInd c.kind.defaultAccess ∨
    ∃ uri ≠ c.uri, st.Gives uri key s access

/-- The condition on a call. The ids can be written. What the call erases is listed by no other
individual, and not by the new state either. What the previous state gave, and the call does not
erase, is given by the new state or by other individuals. -/
structure Meets (st : AclState) (c : Call) : Prop where
  ids : ∀ mb ∈ c.newInd.getResources c.kind.pInSet, WritableId mb.uriOf
  erased : ∀ key s, Erases c.kind (st.prevInd c.uri) c.newInd key s →
    ¬∃ access, st.GivenAfter c key s access
  kept : ∀ key s access, st.Gives c.uri key s access →
    ¬Erases c.kind (st.prevInd c.uri) c.newInd key s →
    (∃ access', st.GivenAfter c key s access') ∧
      ∀ i, access.getLsbD i → ∃ access', st.GivenAfter c key s access' ∧ access'.getLsbD i

section
variable {st : AclState} {c : Call}

theorem gives_step : (∃ uri, (st.step c).Gives uri key s access) ↔
    st.GivenAfter c key s access := by
  constructor
  · rintro ⟨uri, kind, ind, hlatest, hlive, hlists, rfl⟩
    by_cases huri : uri = c.uri
    · subst huri
      simp only [step, Function.update_self, Option.some.injEq, Prod.mk.injEq] at hlatest
      obtain ⟨rfl, rfl⟩ := hlatest
      exact .inl ⟨hlive, hlists, rfl⟩
    · simp only [step, Function.update_of_ne huri] at hlatest
      exact .inr ⟨uri, huri, kind, ind, hlatest, hlive, hlists, rfl⟩
  · rintro (⟨hlive, hlists, rfl⟩ | ⟨uri, huri, kind, ind, hlatest, h⟩)
    · exact ⟨c.uri, c.kind, c.newInd, Function.update_self _ _ _, hlive, hlists, rfl⟩
    · exact ⟨uri, kind, ind, (Function.update_of_ne huri _ _).trans hlatest, h⟩

/-- A bit of what the index says is given by some individual. -/
theorem Agrees.bit (h : st.Agrees) (key s : String) (i : Nat) :
    ((indexAccess st.index key s).getD 0).getLsbD i ↔
      ∃ uri access, st.Gives uri key s access ∧ access.getLsbD i := by
  cases heq : indexAccess st.index key s with
  | none =>
    have hnone := (h key s).1
    rw [heq] at hnone
    refine iff_of_false (by simp) ?_
    rintro ⟨uri, access, hgives, -⟩
    exact absurd (hnone.mpr ⟨uri, access, hgives⟩) (by simp)
  | some access => exact (h key s).2 access heq i

/-- What was given before the call and is not erased is given after it, and conversely. -/
theorem Meets.bit (h : st.Meets c) (hkept : ¬Erases c.kind (st.prevInd c.uri) c.newInd key s)
    (i : Nat) (hgives : ∃ uri access, st.Gives uri key s access ∧ access.getLsbD i) :
    ∃ access, st.GivenAfter c key s access ∧ access.getLsbD i := by
  obtain ⟨uri, access, hgives, hi⟩ := hgives
  by_cases huri : uri = c.uri
  · exact (h.kept key s access (huri ▸ hgives) hkept).2 i hi
  · exact ⟨access, .inr ⟨uri, huri, hgives⟩, hi⟩

theorem step_agrees (hok : IndexOk st.index) (hag : st.Agrees) (h : st.Meets c) :
    IndexOk (st.step c).index ∧ (st.step c).Agrees := by
  have hprep := prepare_prepared c.kind (st.prevInd c.uri) c.newInd hok c.order h.ids
  refine ⟨hprep.ok, fun key s => ?_⟩
  have hgiven : ∀ P : Access → Prop, (∃ uri access, (st.step c).Gives uri key s access ∧ P access) ↔
      ∃ access, st.GivenAfter c key s access ∧ P access := by
    intro P
    rw [exists_comm]
    simp only [exists_and_right, gives_step]
  have hsome := hgiven fun _ => True
  simp only [and_true] at hsome
  rw [hsome]
  simp only [hgiven]
  by_cases he : Erases c.kind (st.prevInd c.uri) c.newInd key s
  · have hnone := hprep.erased key s he
    rw [show (st.step c).index = (prepare c.kind c.order (st.prevInd c.uri) c.newInd st.index).2
      from rfl, hnone]
    exact ⟨by simpa using h.erased key s he, by simp⟩
  by_cases hnew : Live c.newInd ∧ Lists c.kind c.newInd key s
  · have hmerged := hprep.merged key s he hnew.1 hnew.2
    rw [show (st.step c).index = (prepare c.kind c.order (st.prevInd c.uri) c.newInd st.index).2
      from rfl, hmerged]
    refine ⟨by simpa using ⟨_, .inl ⟨hnew.1, hnew.2, rfl⟩⟩, fun access hacc i => ?_⟩
    cases hacc
    rw [BitVec.getLsbD_or, Bool.or_eq_true, hag.bit]
    constructor
    · rintro (hold | hi)
      · exact h.bit he i hold
      · exact ⟨_, .inl ⟨hnew.1, hnew.2, rfl⟩, hi⟩
    · rintro ⟨access, ⟨-, -, rfl⟩ | ⟨uri, huri, hgives⟩, hi⟩
      · exact .inr hi
      · exact .inl ⟨uri, access, hgives, hi⟩
  · have hsame := hprep.kept key s he hnew
    rw [show (st.step c).index = (prepare c.kind c.order (st.prevInd c.uri) c.newInd st.index).2
      from rfl, hsame]
    refine ⟨(hag key s).1.trans ⟨?_, ?_⟩, fun access hacc i => ?_⟩
    · rintro ⟨uri, access, hgives⟩
      by_cases huri : uri = c.uri
      · exact (h.kept key s access (huri ▸ hgives) he).1
      · exact ⟨access, .inr ⟨uri, huri, hgives⟩⟩
    · rintro ⟨access, ⟨hlive, hlists, -⟩ | ⟨uri, huri, hgives⟩⟩
      · exact absurd ⟨hlive, hlists⟩ hnew
      · exact ⟨uri, access, hgives⟩
    · rw [(hag key s).2 access hacc i]
      refine ⟨h.bit he i, ?_⟩
      rintro ⟨access', ⟨hlive, hlists, -⟩ | ⟨uri, huri, hgives⟩, hi⟩
      · exact absurd ⟨hlive, hlists⟩ hnew
      · exact ⟨uri, access', hgives, hi⟩

end

/-- All calls of a run meet the condition. -/
def RunMeets : AclState → List Call → Prop
  | _, [] => True
  | st, c :: calls => st.Meets c ∧ RunMeets (st.step c) calls

theorem init_indexOk : IndexOk init.index := fun _ => ⟨.empty, rfl, RightSet.clean_empty⟩

theorem init_agrees : init.Agrees := by
  refine fun key s => ⟨?_, fun access h => ?_⟩
  · refine iff_of_false (by simp [indexAccess, readRecord, init, RightSet.accessAt, RightSet.empty])
      ?_
    rintro ⟨uri, access, kind, ind, hlatest, -⟩
    cases hlatest
  · simp [indexAccess, readRecord, init, RightSet.accessAt, RightSet.empty] at h

theorem run_agrees_of {st : AclState} (hok : IndexOk st.index) (hag : st.Agrees)
    (h : st.RunMeets calls) (done : List Call) (hdone : done <+: calls) : (st.run done).Agrees := by
  induction calls generalizing st done with
  | nil =>
    obtain rfl := List.prefix_nil.mp hdone
    exact hag
  | cons c calls ih =>
    cases done with
    | nil => exact hag
    | cons c' done =>
      obtain ⟨rfl, hrest⟩ := List.cons_prefix_cons.mp hdone
      obtain ⟨hok', hag'⟩ := step_agrees hok hag h.1
      exact ih hok' hag' h.2 done hrest

/-- In a run whose calls meet the condition, the index agrees with the statements all the time. -/
theorem run_agrees (calls : List Call) (h : init.RunMeets calls) (done : List Call)
    (hdone : done <+: calls) : (init.run done).Agrees :=
  run_agrees_of init_indexOk init_agrees h done hdone

/-- The first statement of an individual does no harm. -/
theorem Meets.of_first {st : AclState} {c : Call} (hfirst : st.latest c.uri = none)
    (hlive : Live c.newInd)
    (hids : ∀ mb ∈ c.newInd.getResources c.kind.pInSet, WritableId mb.uriOf) : st.Meets c := by
  refine ⟨hids, fun key s he => ?_, fun key s access hgives => ?_⟩
  · have hprev : st.prevInd c.uri = .init := by simp [prevInd, hfirst]
    rw [hprev] at he
    rcases he with ⟨hdel, -⟩ | ⟨⟨rs, hrs, -⟩, -⟩ | ⟨-, mb, hmb, -⟩
    · exact absurd hlive hdel
    · cases hrs
    · cases hmb
  · obtain ⟨kind, ind, hlatest, -⟩ := hgives
    rw [hfirst] at hlatest
    cases hlatest

end AclState

/-- An order of the keys. -/
def Order.plain : Order := ⟨fun _ _ rs => rs.data.keys, fun _ _ _ => .refl _⟩

/-- A permission statement on `d:o` for `d:s`. -/
def permissionOn (uri : String) (rights : List String) : Call where
  kind := .permissionStatement
  uri := uri
  newInd := rights.foldl (fun ind right => ind.setResources right [.boolean true])
    ⟨uri, (AList.singleton "v-s:permissionSubject" [.uri "d:s"]).insert "v-s:permissionObject"
      [.uri "d:o"]⟩
  order := .plain

theorem run_agrees_two_statements :
    (AclState.init.run [permissionOn "d:p" ["v-s:canRead"],
      permissionOn "d:q" ["v-s:canUpdate"]]).Agrees := by
  have hids : ∀ uri rights, ∀ mb ∈ (permissionOn uri [rights]).newInd.getResources
      "v-s:permissionSubject", rights ≠ "v-s:permissionSubject" → WritableId mb.uriOf := by
    intro uri right mb hmb hne
    have hmb' : mb ∈ [Resource.uri "d:s"] := by
      rwa [permissionOn, List.foldl_cons, List.foldl_nil,
        Individual.getResources_setResources_ne hne] at hmb
    cases List.mem_singleton.mp hmb'
    exact ⟨by decide, by decide⟩
  refine AclState.run_agrees [_, _] ⟨?_, ?_, trivial⟩ _ (List.prefix_refl _)
  · exact .of_first rfl rfl fun mb hmb => hids _ _ mb hmb (by decide)
  · exact .of_first rfl rfl fun mb hmb => hids _ _ mb hmb (by decide)

/-- The right to update was taken from the statement and stays in the index. -/
theorem not_agrees_narrowed :
    ¬(AclState.init.run [permissionOn "d:p" ["v-s:canRead", "v-s:canUpdate"],
      permissionOn "d:p" ["v-s:canRead"]]).Agrees := by
  intro h
  obtain ⟨uri, access, ⟨kind, ind, hlatest, -, -, rfl⟩, hbit⟩ :=
    ((h "Pd:o" "d:s").2 6 (by decide) 2).mp (by decide)
  by_cases huri : uri = "d:p"
  · subst huri
    cases hlatest
    exact absurd hbit (by decide)
  · simp [AclState.run, AclState.step, AclState.init, permissionOn, huri] at hlatest

end Veda.Acl
