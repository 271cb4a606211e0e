import Veda.Mstorage.AddToTransaction

/-! # Rights behind a change

What `add_to_transaction` asks of the ACL before it changes an individual. Two properties are
stated for one call and compared with the requests for which every call has them, whatever the
ACL, the state of the manager and the failures of the database. -/

namespace Veda.Mstorage

open Onto
open Authorization (Access)

/-! ## What a call leaves under the uri of its request -/

section
variable {env : Env} {r : Request} {m : Manager} {userUri : String} {rdfType : MapResource}

theorem putIndividual_storage (env : Env) (r : Request) (m : Manager) (userUri : String)
    (rdfType : MapResource) (prev : Option Individual) :
    (putIndividual env r userUri rdfType prev m).manager.storage r.indv.uri =
        m.storage r.indv.uri ∨
      (putIndividual env r userUri rdfType prev m).manager.storage r.indv.uri =
          some (BinObj.serialize (newIndividual r.cmd (prev.getD .init) r.indv)) ∧
        (newIndividual r.cmd (prev.getD .init) r.indv).uri = r.indv.uri ∧
        assignedTo r.assignedSubsystems subsystemStorage = true := by
  unfold putIndividual
  dsimp only
  split
  · exact .inl rfl
  · generalize hti : r.item userUri rdfType .put _ _ _ _ = ti
    have huri : ti.uri = (newIndividual r.cmd (prev.getD .init) r.indv).uri := by
      rw [← hti]
      rfl
    have hsave : ∀ rc m', m.save ti r.optFreeze env.putFails = (rc, m') →
        m'.storage = m.changed ti env.putFails := fun rc m' h => by
      rw [← Manager.save_storage m ti r.optFreeze env.putFails, h]
    generalize m.save ti r.optFreeze env.putFails = o at hsave ⊢
    obtain ⟨rc, m'⟩ := o
    simp only [finishCall]
    rw [hsave rc m' rfl]
    by_cases h : r.indv.uri = ti.uri
    · rw [h]
      refine (Manager.changed_put_or m env.putFails (by rw [← hti]; rfl)
        (by rw [← hti]; rfl)).imp_right fun hnew => ⟨hnew.1, huri.symm, ?_⟩
      rw [← hti] at hnew
      exact hnew.2.2
    · exact .inl (Manager.changed_of_ne h)

theorem removeIndividual_storage (hprev : readPrev m.storage r.indv.uri = some prev) :
    (removeIndividual env r userUri rdfType prev m).manager.storage r.indv.uri =
        m.storage r.indv.uri ∨
      assignedTo r.assignedSubsystems subsystemStorage = true ∧
        ∃ p, prev = some p ∧ p.uri = r.indv.uri := by
  cases prev with
  | none =>
    refine .inl ?_
    unfold removeIndividual
    dsimp only [finishCall]
    rw [Manager.save_storage, Manager.changed_remove_none rfl (readPrev_eq_some_none hprev)]
  | some p =>
    by_cases h : assignedTo r.assignedSubsystems subsystemStorage = true ∧ p.uri = r.indv.uri
    · exact .inr ⟨h.1, p, rfl, h.2⟩
    · refine .inl ?_
      unfold removeIndividual
      dsimp only [finishCall]
      split
      · rfl
      split
      · dsimp only
        rw [Manager.save_storage_of_not _ _ _ _ h, Manager.save_storage_of_not _ _ _ _ h]
      · exact Manager.save_storage_of_not _ _ _ _ h

end

/-! ## No write without a right -/

/-- If the call changes what the storage holds for the uri, the user had the right to: to delete
for `REMOVE` and for an individual marked as deleted, else to update what was stored, and to
create one of the classes of what was not. -/
def WriteAuthorized (env : Env) (r : Request) (userUri : String) (m : Manager) : Prop :=
  (addToTransaction env r m).manager.storage r.indv.uri ≠ m.storage r.indv.uri →
    (r.cmd = .remove ∨ r.indv.isExists "v-s:deleted" true = true →
      env.acl r.indv.uri userUri canDelete = canDelete) ∧
    (¬(r.cmd = .remove ∨ r.indv.isExists "v-s:deleted" true = true) →
      m.storage r.indv.uri ≠ none → env.acl r.indv.uri userUri canUpdate = canUpdate) ∧
    (m.storage r.indv.uri = none → ∃ c ∈ r.indv.types, env.acl c userUri canCreate = canCreate)

/-- Requests that no check stands in the way of: the removal of an individual, and the first
`PUT` of one that is marked as deleted or has no class. -/
def Unchecked (storage : Storage) (r : Request) : Prop :=
  assignedTo r.assignedSubsystems subsystemStorage = true ∧ 2 ≤ r.indv.uri.utf8ByteSize ∧
    (r.cmd = .remove ∧
        (∃ p, readPrev storage r.indv.uri = some (some p) ∧ p.uri = r.indv.uri) ∨
      r.cmd = .put ∧ storage r.indv.uri = none ∧ r.indv.resources.keys ≠ [] ∧
        (r.indv.isExists "v-s:deleted" true = true ∨ r.indv.types = []))

theorem writeAuthorized_of_not_unchecked {env : Env} {r : Request} {m : Manager}
    (hticket : r.ticket = some userUri) (hopt : r.optRequest = true)
    (hsys : userUri ≠ env.systicketUserUri) (h : ¬Unchecked m.storage r) :
    WriteAuthorized env r userUri m := by
  intro hchange
  rcases addToTransaction_cases env r m hticket with hrefused | ⟨hlen, prev, hprev, hcase⟩
  · exact absurd (by rw [hrefused.2.1]) hchange
  rcases hcase with ⟨hcmd, heq⟩ | ⟨hcmd, hkeys, hperm, rdfType, -, heq⟩
  · rw [heq] at hchange
    obtain ⟨hass, p, rfl, huri⟩ := (removeIndividual_storage hprev).resolve_left hchange
    exact absurd ⟨hass, hlen, .inl ⟨hcmd, p, hprev, huri⟩⟩ h
  · rw [heq] at hchange
    obtain ⟨-, huri, hass⟩ := (putIndividual_storage _ _ _ _ _ prev).resolve_left hchange
    have hperm := hperm hopt hsys
    cases prev with
    | none =>
      -- a new individual comes with `PUT`, and its classes were checked
      have hnone := readPrev_eq_some_none hprev
      have hput : r.cmd = .put := by
        by_contra hput
        rw [newIndividual_uri, if_neg hput] at huri
        rw [← huri] at hlen
        exact absurd hlen (by decide)
      have hgood : ¬(r.indv.isExists "v-s:deleted" true = true ∨ r.indv.types = []) := fun hbad =>
        h ⟨hass, hlen, .inr ⟨hput, hnone, hkeys, hbad⟩⟩
      refine ⟨fun hdel => ?_, fun _ hsome => absurd hnone hsome, fun _ => ?_⟩
      · exact absurd (hdel.resolve_left hcmd) fun hd => hgood (.inl hd)
      · obtain ⟨c, hc⟩ := List.exists_mem_of_ne_nil _ fun hn => hgood (.inr hn)
        exact ⟨c, hc, hperm.create rfl c hc⟩
    | some p =>
      have hmay := hperm.change rfl
      have hsome := readPrev_eq_some_some hprev
      refine ⟨fun hdel => ?_, fun hndel _ => ?_, fun hnone => absurd hnone (by simp [hsome])⟩
      · simpa [mayChange, hdel.resolve_left hcmd] using hmay
      · have hd : r.indv.isExists "v-s:deleted" true = false := by
          simpa using fun hd => hndel (.inr hd)
        simpa [mayChange, hd] using hmay

theorem ne_empty_of_size {s : String} (h : 2 ≤ s.utf8ByteSize) : s ≠ "" := by
  rintro rfl
  exact absurd h (by decide)

/-- The requests that are safe against every ACL. -/
theorem writeAuthorized_iff (r : Request) (userUri : String) (storage : Storage)
    (hticket : r.ticket = some userUri) (hopt : r.optRequest = true) :
    (∀ env m, userUri ≠ env.systicketUserUri → m.storage = storage →
      WriteAuthorized env r userUri m) ↔ ¬Unchecked storage r := by
  constructor
  · rintro hall ⟨hass, hlen, hcase⟩
    obtain ⟨sys, hsys⟩ := exists_other_user userUri
    have huri := ne_empty_of_size hlen
    rcases hcase with ⟨hcmd, p, hp, hpuri⟩ | ⟨hcmd, hnone, hkeys, hbad⟩
    · -- a removal against an ACL that grants nothing
      have henv := healthyEnv_healthy (onlyGrants fun _ => false) sys
      have heq := addToTransaction_remove (healthyEnv (onlyGrants fun _ => false) sys) r
        (idleManager storage) hticket hlen hcmd hp
      have hst := (removeIndividual_healthy r userUri (setMapOfType r.indv ∅) henv
        (idleManager_idle storage) fun _ => hpuri.symm ▸ huri).2
      have := hall (healthyEnv (onlyGrants fun _ => false) sys) (idleManager storage) hsys rfl
        (by rw [heq, hst, stored, if_pos hass, hpuri]; simp [readPrev_eq_some_some hp])
      exact absurd (this.1 (.inl hcmd)) (by simp [healthyEnv, onlyGrants, canDelete])
    · -- a first `PUT` against an ACL that grants only to create
      have henv := healthyEnv_healthy (onlyGrants (· = canCreate)) sys
      obtain ⟨rdfType, -, heq⟩ := addToTransaction_put
        (healthyEnv (onlyGrants (· = canCreate)) sys) r (idleManager storage) hticket hlen
        (by simp [hcmd]) hkeys (readPrev_none hnone)
        ⟨by simp, fun _ c _ => by simp [healthyEnv, onlyGrants]⟩
      have hnewuri : (newIndividual r.cmd ((none : Option Individual).getD .init) r.indv).uri =
          r.indv.uri := by
        rw [newIndividual_uri, if_pos hcmd]
      have hst := (putIndividual_healthy r userUri rdfType none henv (idleManager_idle storage)
        fun _ => hnewuri.symm ▸ huri).2
      have := hall (healthyEnv (onlyGrants (· = canCreate)) sys) (idleManager storage) hsys rfl
        (by rw [heq, hst, stored, if_pos hass, hnewuri]; simp [hnone])
      rcases hbad with hdel | htypes
      · exact absurd (this.1 (.inr hdel)) (by simp [healthyEnv, onlyGrants, canCreate, canDelete])
      · obtain ⟨c, hc, -⟩ := this.2.2 hnone
        simp [htypes] at hc
  · intro h env m hsys hst
    exact writeAuthorized_of_not_unchecked hticket hopt hsys (hst ▸ h)

/-- A storage with one document. -/
def oneDocument : Storage := oneStored (individualOf "d:a" "v-s:Document")

/-- The removal of an individual that is stored. -/
def removalRequest : Request where
  ticket := some "u"
  cmd := .remove
  indv := ⟨"d:a", ∅⟩
  assignedSubsystems := allModules
  eventId := ""
  optFreeze := .none
  optRequest := true

theorem writeAuthorized_iff_removalRequest :
    (∀ env m, "u" ≠ env.systicketUserUri → m.storage = oneDocument →
      WriteAuthorized env removalRequest "u" m) ↔
      ¬Unchecked oneDocument removalRequest :=
  writeAuthorized_iff removalRequest "u" oneDocument rfl rfl

/-- A user without any right removes an individual. -/
theorem not_writeAuthorized_removalRequest :
    ¬WriteAuthorized (healthyEnv (onlyGrants fun _ => false) "cfg:VedaSystem") removalRequest "u"
      (idleManager oneDocument) := by
  intro h
  have hchange : (addToTransaction (healthyEnv (onlyGrants fun _ => false) "cfg:VedaSystem")
      removalRequest (idleManager oneDocument)).manager.storage "d:a" = none := by
    decide
  exact absurd ((h (by rw [show removalRequest.indv.uri = "d:a" from rfl, hchange]; decide)).1
    (.inl rfl)) (by decide)

/-! ## The right to create new classes -/

/-- Each class that the stored state gains in the call was granted to the user. -/
def CreationAuthorized (env : Env) (r : Request) (userUri : String) (m : Manager) : Prop :=
  ∀ c ∈ storedTypes ((addToTransaction env r m).manager.storage r.indv.uri),
    c ∉ storedTypes (m.storage r.indv.uri) → env.acl c userUri canCreate = canCreate

/-- The request gives a stored individual a class that it does not have. -/
def GainsClass (storage : Storage) (r : Request) : Prop :=
  assignedTo r.assignedSubsystems subsystemStorage = true ∧ 2 ≤ r.indv.uri.utf8ByteSize ∧
    ∃ p, readPrev storage r.indv.uri = some (some p) ∧ (r.cmd = .put ∨ p.uri = r.indv.uri) ∧
      ∃ c ∈ r.indv.types, c ∉ p.types

theorem creationAuthorized_of_not_gainsClass {env : Env} {r : Request} {m : Manager}
    (hticket : r.ticket = some userUri) (hopt : r.optRequest = true)
    (hsys : userUri ≠ env.systicketUserUri) (hcmd : r.cmd ≠ .remove)
    (h : ¬GainsClass m.storage r) : CreationAuthorized env r userUri m := by
  intro c hc hnew
  rcases addToTransaction_cases env r m hticket with hrefused | ⟨hlen, prev, hprev, hcase⟩
  · rw [hrefused.2.1] at hc
    exact absurd hc hnew
  rcases hcase with ⟨hrem, -⟩ | ⟨-, hkeys, hperm, rdfType, -, heq⟩
  · exact absurd hrem hcmd
  rw [heq] at hc
  rcases putIndividual_storage env r m userUri rdfType prev with hsame | ⟨hst, huri, hass⟩
  · rw [hsame] at hc
    exact absurd hc hnew
  rw [hst] at hc
  cases prev with
  | none =>
    have hput : r.cmd = .put := by
      by_contra hput
      rw [newIndividual_uri, if_neg hput] at huri
      exact ne_empty_of_size hlen huri.symm
    have hmem : c ∈ r.indv.types := by
      rw [hput] at hc
      exact newIndividual_types .put .init r.indv ▸ hc
    exact (hperm hopt hsys).create rfl c hmem
  | some p =>
    rw [storedTypes_of_readPrev hprev] at hnew
    refine absurd ⟨hass, hlen, p, hprev, ?_, c, ?_, hnew⟩ h
    · by_cases hput : r.cmd = .put
      · exact .inl hput
      · rw [newIndividual_uri, if_neg hput] at huri
        exact .inr huri
    · exact ((mem_types_of_newIndividual hc).resolve_right hnew).2

/-- The requests whose new classes are always granted. -/
theorem creationAuthorized_iff (r : Request) (userUri : String) (storage : Storage)
    (hticket : r.ticket = some userUri) (hopt : r.optRequest = true)
    (hcmd : r.cmd = .put ∨ r.cmd = .addIn ∨ r.cmd = .setIn) :
    (∀ env m, userUri ≠ env.systicketUserUri → m.storage = storage →
      CreationAuthorized env r userUri m) ↔ ¬GainsClass storage r := by
  have hrem : r.cmd ≠ .remove := by
    rcases hcmd with h | h | h <;> rw [h] <;> decide
  constructor
  · rintro hall ⟨hass, hlen, p, hp, huri, c, hc, hnew⟩
    have hkeys : r.indv.resources.keys ≠ [] := fun hkeys => by
      rw [Individual.types, Individual.texts,
        Individual.getResources_of_notMem_keys (by simp [hkeys])] at hc
      cases hc
    obtain ⟨sys, hsys⟩ := exists_other_user userUri
    -- an ACL that grants everything but to create
    have henv := healthyEnv_healthy (onlyGrants (· ≠ canCreate)) sys
    obtain ⟨rdfType, -, heq⟩ := addToTransaction_put
      (healthyEnv (onlyGrants (· ≠ canCreate)) sys) r (idleManager storage) hticket hlen hrem
      hkeys hp
      ⟨fun _ => by simp [mayChange, healthyEnv, onlyGrants, canCreate, canDelete, canUpdate],
        fun hn => by cases hn⟩
    have hnewuri : (newIndividual r.cmd ((some p).getD .init) r.indv).uri = r.indv.uri := by
      rw [newIndividual_uri, Option.getD_some]
      split
      · rfl
      · next hput => exact huri.resolve_left hput
    have hst := (putIndividual_healthy r userUri rdfType (some p) henv (idleManager_idle storage)
      fun _ => hnewuri.symm ▸ ne_empty_of_size hlen).2
    rw [stored, if_pos hass, hnewuri] at hst
    have := hall (healthyEnv (onlyGrants (· ≠ canCreate)) sys) (idleManager storage) hsys rfl c
      (by rw [heq, hst, Function.update_self]; exact mem_types_newIndividual_of_mem hcmd hc)
      (by rw [idleManager_storage, storedTypes_of_readPrev hp]; exact hnew)
    exact absurd this (by simp [healthyEnv, onlyGrants, canCreate])
  · intro h env m hsys hst
    exact creationAuthorized_of_not_gainsClass hticket hopt hsys hrem (hst ▸ h)

/-- A document becomes a permission statement. -/
def promotionRequest : Request where
  ticket := some "u"
  cmd := .addIn
  indv := individualOf "d:a" "v-s:PermissionStatement"
  assignedSubsystems := allModules
  eventId := ""
  optFreeze := .none
  optRequest := true

theorem creationAuthorized_iff_promotionRequest :
    (∀ env m, "u" ≠ env.systicketUserUri → m.storage = oneDocument →
      CreationAuthorized env promotionRequest "u" m) ↔
      ¬GainsClass oneDocument promotionRequest :=
  creationAuthorized_iff promotionRequest "u" oneDocument rfl rfl (.inr (.inl rfl))

/-- A user who may only update makes a permission statement. -/
theorem not_creationAuthorized_promotionRequest :
    ¬CreationAuthorized (healthyEnv (onlyGrants (· = canUpdate)) "cfg:VedaSystem")
      promotionRequest "u" (idleManager oneDocument) := by
  intro h
  have hgained : "v-s:PermissionStatement" ∈ storedTypes
      ((addToTransaction (healthyEnv (onlyGrants (· = canUpdate)) "cfg:VedaSystem")
        promotionRequest (idleManager oneDocument)).manager.storage "d:a") := by
    decide
  exact absurd (h _ hgained (by decide)) (by decide)

end Veda.Mstorage
