import Veda.Mstorage.AddToTransaction

/-! # What the ACL indexer hears of a change

`prepare_event` sends the states before and after a change to `acl_preparer`. It looks at the
classes of the request, while the indexer needs every change of an individual that was, or has
become, an access-control individual. -/

namespace Veda.Mstorage

open Onto

/-- One of the classes is that of an access-control individual. -/
def HasAclType (types : List String) : Prop := ∃ c ∈ aclTypes, c ∈ types

instance (types : List String) : Decidable (HasAclType types) :=
  inferInstanceAs (Decidable (∃ c ∈ aclTypes, c ∈ types))

/-- The state that a call gives to the storage: for `REMOVE` the one that is marked as deleted. -/
def newState (r : Request) (prev : Option Individual) : Option BinObj :=
  if r.cmd = .remove then prev.map (BinObj.serialize ∘ deletedIndividual)
  else some (.serialize (newIndividual r.cmd (prev.getD .init) r.indv))

/-- After a successful call `acl_preparer` has got the previous and the new state if one of them
is an access-control individual, and else nothing. -/
def Notified (env : Env) (r : Request) (m : Manager) : Prop :=
  (addToTransaction env r m).result = .ok → ∀ prev,
    readPrev m.storage r.indv.uri = some prev →
    (addToTransaction env r m).messages =
      if HasAclType (storedTypes (m.storage r.indv.uri)) ∨
          HasAclType (storedTypes (newState r prev)) then
        [⟨m.storage r.indv.uri, newState r prev, (addToTransaction env r m).manager.opId⟩]
      else []

/-- What `prepare_event` looks at: the classes of the request and, for `REMOVE`, those of the
stored state. -/
def LooksAcl (storage : Storage) (r : Request) : Prop :=
  HasAclType r.indv.types ∨ r.cmd = .remove ∧ HasAclType (storedTypes (storage r.indv.uri))

instance (storage : Storage) (r : Request) : Decidable (LooksAcl storage r) :=
  inferInstanceAs (Decidable (_ ∨ _))

section
variable {env : Env} {r : Request} {m : Manager} {userUri : String} {rdfType : MapResource}
variable {prev : Option Individual}

/-- The event of a successful command other than `REMOVE`. -/
theorem putIndividual_messages (hcmd : r.cmd ≠ .remove)
    (hass : assignedTo r.assignedSubsystems subsystemAcl = true)
    (hok : (putIndividual env r userUri rdfType prev m).result = .ok) :
    (putIndividual env r userUri rdfType prev m).messages =
      if anyExists rdfType aclTypes then
        [⟨m.storage r.indv.uri, newState r prev,
          (putIndividual env r userUri rdfType prev m).manager.opId⟩]
      else [] := by
  unfold putIndividual at hok ⊢
  dsimp only at hok ⊢
  split at hok
  · cases hok
  · next hsize =>
    rw [if_neg hsize]
    simp only [finishCall] at hok ⊢
    rw [if_pos hok, prepareEvent, newState, if_neg hcmd]
    simp [hass]

/-- The classes that a `REMOVE` looks at. -/
def removedTypes (r : Request) (prev : Option Individual) : MapResource :=
  match prev with
  | some p => setMapOfType (deserializeInto r.indv p) (setMapOfType r.indv ∅)
  | none => setMapOfType r.indv ∅

/-- The event of a successful `REMOVE`. -/
theorem removeIndividual_messages (hcmd : r.cmd = .remove)
    (hass : assignedTo r.assignedSubsystems subsystemAcl = true)
    (hok : (removeIndividual env r userUri (setMapOfType r.indv ∅) prev m).result = .ok) :
    (removeIndividual env r userUri (setMapOfType r.indv ∅) prev m).messages =
      if anyExists (removedTypes r prev) aclTypes then
        [⟨m.storage r.indv.uri, newState r prev,
          (removeIndividual env r userUri (setMapOfType r.indv ∅) prev m).manager.opId⟩]
      else [] := by
  cases prev with
  | none =>
    unfold removeIndividual at hok ⊢
    simp only [finishCall] at hok ⊢
    rw [if_pos hok, prepareEvent, newState, if_pos hcmd]
    simp only [hass, true_and]
    rfl
  | some p =>
    unfold removeIndividual at hok ⊢
    dsimp only at hok ⊢
    split at hok
    · cases hok
    next hsize =>
    rw [if_neg hsize]
    split at hok
    · next hput =>
      rw [if_pos hput]
      simp only [finishCall] at hok ⊢
      rw [if_pos hok, prepareEvent, newState, if_pos hcmd]
      simp only [hass, true_and]
      rfl
    · next hput => exact absurd hok hput

theorem anyExists_removedTypes (hprev : readPrev m.storage r.indv.uri = some prev)
    (hcmd : r.cmd = .remove) :
    anyExists (removedTypes r prev) aclTypes = true ↔ LooksAcl m.storage r := by
  have hmem : ∀ c, c ∈ removedTypes r prev ↔
      c ∈ r.indv.types ∨ c ∈ storedTypes (m.storage r.indv.uri) := by
    intro c
    rw [storedTypes_of_readPrev hprev]
    cases prev with
    | none => simp [removedTypes, mem_setMapOfType_empty]
    | some p =>
      simp only [removedTypes, mem_setMapOfType, mem_types_deserializeInto, Option.map_some,
        Option.getD_some, AList.notMem_empty]
      tauto
  rw [anyExists_iff, LooksAcl, HasAclType, HasAclType]
  simp only [hmem, hcmd, and_or_left, exists_or, true_and]

/-- The event of a successful call. -/
theorem addToTransaction_messages (hass : assignedTo r.assignedSubsystems subsystemAcl = true)
    (hok : (addToTransaction env r m).result = .ok)
    (hprev : readPrev m.storage r.indv.uri = some prev) :
    (addToTransaction env r m).messages =
      if LooksAcl m.storage r then
        [⟨m.storage r.indv.uri, newState r prev, (addToTransaction env r m).manager.opId⟩]
      else [] := by
  cases hticket : r.ticket with
  | none => simp [addToTransaction, hticket, Response.refuse] at hok
  | some userUri =>
  rcases addToTransaction_cases env r m hticket with hrefused | ⟨-, prev', hprev', hcase⟩
  · exact absurd hok hrefused.1
  cases hprev.symm.trans hprev'
  rcases hcase with ⟨hcmd, heq⟩ | ⟨hcmd, -, -, rdfType, hmem, heq⟩
  · rw [heq] at hok ⊢
    rw [removeIndividual_messages hcmd hass hok]
    simp only [anyExists_removedTypes hprev hcmd]
  · rw [heq] at hok ⊢
    have hlooks : anyExists rdfType aclTypes = true ↔ LooksAcl m.storage r := by
      rw [anyExists_iff, LooksAcl]
      simp [hmem, hcmd, HasAclType]
    rw [putIndividual_messages hcmd hass hok]
    simp only [hlooks]

end

/-! ## Requests of which the indexer hears what it needs -/

/-- The request passes the checks that do not depend on rights. -/
structure Feasible (storage : Storage) (r : Request) : Prop where
  ticket : r.ticket ≠ none
  uri : 2 ≤ r.indv.uri.utf8ByteSize
  content : r.cmd = .remove ∨ r.indv.resources.keys ≠ []
  read : readPrev storage r.indv.uri ≠ none

/-- The classes of the request tell as much as those of the states: the request names an
access-control class if the stored state has one, and does not name one that it takes away from,
or removes with, an individual without any. -/
def Heard (storage : Storage) (r : Request) : Prop :=
  match r.cmd with
  | .put | .addIn | .setIn =>
    HasAclType (storedTypes (storage r.indv.uri)) → HasAclType r.indv.types
  | .removeFrom => HasAclType r.indv.types ↔ HasAclType (storedTypes (storage r.indv.uri))
  | .remove => HasAclType r.indv.types → HasAclType (storedTypes (storage r.indv.uri))

section
variable {storage : Storage} {r : Request} {prev : Option Individual}

theorem HasAclType.mono (h : HasAclType types) (hsub : ∀ c ∈ types, c ∈ types') :
    HasAclType types' := by
  obtain ⟨c, hc, hmem⟩ := h
  exact ⟨c, hc, hsub c hmem⟩

theorem storedTypes_newState_remove (hcmd : r.cmd = .remove)
    (hprev : readPrev storage r.indv.uri = some prev) :
    storedTypes (newState r prev) = storedTypes (storage r.indv.uri) := by
  rw [newState, if_pos hcmd, storedTypes_of_readPrev hprev]
  cases prev with
  | none => rfl
  | some p =>
    simp only [Option.map_some, Function.comp_apply, BinObj.serialize, storedTypes,
      Option.getD_some, deletedIndividual, Individual.types, Individual.texts]
    rw [Individual.getResources_setResources_ne (by decide)]

/-- The classes of the new state come from the request or from the stored state. -/
theorem mem_types_of_newState (hcmd : r.cmd ≠ .remove)
    (hprev : readPrev storage r.indv.uri = some prev) (h : c ∈ storedTypes (newState r prev)) :
    r.cmd ≠ .removeFrom ∧ c ∈ r.indv.types ∨ c ∈ storedTypes (storage r.indv.uri) := by
  rw [newState, if_neg hcmd] at h
  rw [storedTypes_of_readPrev hprev]
  refine (mem_types_of_newIndividual h).imp_right fun hc => ?_
  cases prev with
  | none => exact hc
  | some p => exact hc

theorem heard_iff (hprev : readPrev storage r.indv.uri = some prev) :
    Heard storage r ↔ (LooksAcl storage r ↔
      HasAclType (storedTypes (storage r.indv.uri)) ∨
        HasAclType (storedTypes (newState r prev))) := by
  -- the commands that store the classes of the request
  have hstores : r.cmd = .put ∨ r.cmd = .addIn ∨ r.cmd = .setIn →
      ((HasAclType (storedTypes (storage r.indv.uri)) → HasAclType r.indv.types) ↔
        (LooksAcl storage r ↔ HasAclType (storedTypes (storage r.indv.uri)) ∨
          HasAclType (storedTypes (newState r prev)))) := by
    intro hcmd
    have hne : r.cmd ≠ .remove := by rcases hcmd with h | h | h <;> simp [h]
    have hnew : HasAclType r.indv.types → HasAclType (storedTypes (newState r prev)) := fun h =>
      h.mono fun c hc => by
        rw [newState, if_neg hne]
        exact mem_types_newIndividual_of_mem hcmd hc
    have hold : HasAclType (storedTypes (newState r prev)) →
        HasAclType r.indv.types ∨ HasAclType (storedTypes (storage r.indv.uri)) := by
      rintro ⟨c, hc, hmem⟩
      exact (mem_types_of_newState hne hprev hmem).imp (fun h => ⟨c, hc, h.2⟩) fun h => ⟨c, hc, h⟩
    simp only [LooksAcl, hne, false_and, or_false]
    tauto
  cases hcmd : r.cmd with
  | put => simpa [Heard, hcmd] using hstores (.inl hcmd)
  | addIn => simpa [Heard, hcmd] using hstores (.inr (.inl hcmd))
  | setIn => simpa [Heard, hcmd] using hstores (.inr (.inr hcmd))
  | removeFrom =>
    have hold : HasAclType (storedTypes (newState r prev)) →
        HasAclType (storedTypes (storage r.indv.uri)) := fun h => h.mono fun c hc =>
      (mem_types_of_newState (by simp [hcmd]) hprev hc).resolve_left fun hc => hc.1 hcmd
    simp only [Heard, hcmd, LooksAcl, reduceCtorEq, false_and, or_false]
    tauto
  | remove =>
    simp only [Heard, hcmd, LooksAcl, storedTypes_newState_remove hcmd hprev, true_and, or_self]
    tauto

/-- A manager with replies left over, so that every request seems to succeed. -/
def staleManager (storage : Storage) : Manager :=
  { idleManager storage with replies := [.ok, .ok] }

/-- A feasible request succeeds in some surroundings. -/
theorem Feasible.succeeds (h : Feasible storage r) :
    (addToTransaction (healthyEnv (onlyGrants fun _ => true) "") r (staleManager storage)).result =
      .ok := by
  obtain ⟨userUri, hticket⟩ := Option.ne_none_iff_exists'.mp h.ticket
  obtain ⟨prev, hprev⟩ := Option.ne_none_iff_exists'.mp h.read
  have hreplies : (staleManager storage).replies = [.ok, .ok] := rfl
  have hfirst : ∀ ti f, ((staleManager storage).save ti f false).1 = .ok := fun ti f =>
    (Manager.save_stale ti f false hreplies).1
  by_cases hcmd : r.cmd = .remove
  · rw [addToTransaction_remove _ r (staleManager storage) hticket h.uri hcmd hprev]
    cases prev with
    | none => exact hfirst _ _
    | some p =>
      unfold removeIndividual
      simp only [healthyEnv, Bool.false_eq_true, if_false, finishCall, hfirst, if_true]
      obtain ⟨later, hlater⟩ := (Manager.save_stale _ r.optFreeze false hreplies).2
      exact (Manager.save_stale _ _ _ hlater).1
  · obtain ⟨rdfType, -, heq⟩ := addToTransaction_put
      (healthyEnv (onlyGrants fun _ => true) "") r (staleManager storage) hticket h.uri hcmd
      (h.content.resolve_left hcmd) hprev
      ⟨fun _ => by simp [mayChange, healthyEnv, onlyGrants],
        fun _ c _ => by simp [healthyEnv, onlyGrants]⟩
    rw [heq]
    exact hfirst _ _

end

theorem feasible_of_ok {env : Env} {r : Request} {m : Manager}
    (hok : (addToTransaction env r m).result = .ok) : Feasible m.storage r := by
  cases hticket : r.ticket with
  | none => simp [addToTransaction, hticket, Response.refuse] at hok
  | some userUri =>
  rcases addToTransaction_cases env r m hticket with hrefused | ⟨hlen, prev, hprev, hcase⟩
  · exact absurd hok hrefused.1
  · exact ⟨by simp [hticket], hlen, hcase.imp And.left fun h => h.2.1, by simp [hprev]⟩

/-- The requests of which the indexer always hears what it needs. -/
theorem notified_iff (r : Request) (storage : Storage)
    (hass : assignedTo r.assignedSubsystems subsystemAcl = true) :
    (∀ env m, m.storage = storage → Notified env r m) ↔
      (Feasible storage r → Heard storage r) := by
  constructor
  · intro hall hfeasible
    obtain ⟨prev, hprev⟩ := Option.ne_none_iff_exists'.mp hfeasible.read
    have hok := hfeasible.succeeds
    have hmsg := hall _ (staleManager storage) rfl hok prev hprev
    rw [addToTransaction_messages hass hok hprev] at hmsg
    rw [heard_iff hprev]
    -- one message on one side is one message on the other
    split at hmsg
    · next hlooks =>
      split at hmsg
      · next hacl => exact iff_of_true hlooks hacl
      · cases hmsg
    · next hlooks =>
      split at hmsg
      · cases hmsg
      · next hacl => exact iff_of_false hlooks hacl
  · rintro h env m rfl hok prev hprev
    have hheard := (heard_iff hprev).mp (h (feasible_of_ok hok))
    rw [addToTransaction_messages hass hok hprev]
    simp only [hheard]

/-- A permission statement is replaced by a document. -/
def demotionRequest : Request where
  ticket := some "u"
  cmd := .put
  indv := individualOf "d:a" "v-s:Document"
  assignedSubsystems := allModules
  eventId := ""
  optFreeze := .none
  optRequest := true

theorem notified_iff_demotionRequest :
    (∀ env m, m.storage = oneStored (individualOf "d:a" "v-s:PermissionStatement") →
      Notified env demotionRequest m) ↔
      (Feasible (oneStored (individualOf "d:a" "v-s:PermissionStatement")) demotionRequest →
        Heard (oneStored (individualOf "d:a" "v-s:PermissionStatement")) demotionRequest) :=
  notified_iff demotionRequest _ (by decide)

/-- The indexer does not hear that the permission statement is gone. -/
theorem not_notified_demotionRequest :
    ¬Notified (healthyEnv (onlyGrants fun _ => true) "cfg:VedaSystem") demotionRequest
      (idleManager (oneStored (individualOf "d:a" "v-s:PermissionStatement"))) := by
  intro h
  have hmsg := h (by decide) (some (individualOf "d:a" "v-s:PermissionStatement")) rfl
  rw [if_pos (.inl (by decide))] at hmsg
  exact absurd (congrArg List.length hmsg) (by decide)

end Veda.Mstorage
