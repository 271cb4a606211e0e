import Veda.Core.Commit

/-! # The server of a client

The server that a client talks to is `mstorage`. `changed` says what a request does to the storage
when it is carried out, and `addToTransaction_of_ok` that `mstorage` does just that when it
answers `Ok`. -/

namespace Veda.Core

open Onto Mstorage

/-- What a request that is carried out makes of the storage. A state that cannot be read is left
as it is. -/
def changed (cmd : IndvOp) (indv : Individual) (storage : Storage) : Storage :=
  match readPrev storage indv.uri with
  | none => storage
  | some prev =>
    if cmd = .remove then
      match prev with
      | some prevIndv => Function.update storage prevIndv.uri none
      | none => storage
    else
      let new := newIndividual cmd (prev.getD .init) indv
      Function.update storage new.uri (some (.serialize new))

/-- What is stored of an individual that has arrived can be read again. -/
theorem deserialize_stored (indv : Individual) (counter : Resource) :
    (BinObj.serialize ((transferred indv).setResources updateCounter [counter])).deserialize =
      some ((transferred indv).setResources updateCounter [counter]) := by
  apply BinObj.deserialize_individual
  intro p
  rw [Individual.setResources]
  by_cases hp : p = updateCounter
  · rw [hp, AList.lookup_insert]
    exact fun h => List.cons_ne_nil _ _ (Option.some.inj h)
  · rw [AList.lookup_insert_ne hp, lookup_transferred]
    split
    · exact (Option.some_ne_none _).symm
    · next h => exact h

/-- The request that `update` sends. -/
def request (userOf : String → Option String) (item : TransactionItem) (indv : Individual) :
    Request where
  ticket := userOf item.ticketId
  cmd := item.cmd
  indv := indv
  assignedSubsystems := item.assignedSubsystems
  eventId := item.eventId
  optFreeze := .none
  optRequest := true

/-- `mstorage`; `userOf` gives the user of a ticket. -/
def mstorage (env : Env) (userOf : String → Option String) : Server Manager where
  update item indv m :=
    let resp := addToTransaction env (request userOf item indv) m
    (resp.result, resp.manager)
  getIndividual uri m := (readPrev m.storage uri).join

/-! ## A request that is answered `Ok` -/

variable {env : Env} {r : Request} {m : Manager} {userUri : String} {rdfType : MapResource}

/-- An idle manager that answers `Ok` has stored the item, and is idle again. -/
theorem save_of_ok (ti : Mstorage.TransactionItem) (f : OptFreeze) (fails : Bool) (hm : m.Idle)
    (hass : assignedTo ti.assignedSubsystems subsystemStorage = true)
    (hok : (m.save ti f fails).1 = .ok) :
    (m.save ti f fails).2.Idle ∧ (m.apply ti fails).1 = .ok ∧ (m.save ti f fails).2.storage =
      Function.update m.storage ti.uri (if ti.cmd = .remove then none else ti.newBinobj) := by
  obtain ⟨hrc, hfreeze, hreplies⟩ := Manager.save_reply ti f fails hm.isFreeze hm.replies
  have happly := Manager.reply_eq_ok.mp (hrc.symm.trans hok) hass
  refine ⟨⟨hfreeze, hreplies⟩, happly, ?_⟩
  rw [Manager.save_storage, Manager.changed, if_pos hass, Manager.apply_of_ok happly]

theorem putIndividual_of_ok {prev : Option Individual} (hm : m.Idle)
    (hass : assignedTo r.assignedSubsystems subsystemStorage = true)
    (hok : (putIndividual env r userUri rdfType prev m).result = .ok) :
    (putIndividual env r userUri rdfType prev m).manager.Idle ∧
      (putIndividual env r userUri rdfType prev m).manager.storage =
        Function.update m.storage (newIndividual r.cmd (prev.getD .init) r.indv).uri
          (some (.serialize (newIndividual r.cmd (prev.getD .init) r.indv))) := by
  unfold putIndividual at hok ⊢
  dsimp only at hok ⊢
  split at hok
  · exact ResultCode.noConfusion hok
  · next hfits =>
    rw [if_neg hfits]
    obtain ⟨hidle, _, hst⟩ := save_of_ok _ _ _ hm hass hok
    exact ⟨hidle, hst⟩

/-- There is nothing to remove, and the database says so. -/
theorem removeIndividual_none (hm : m.Idle) (hprev : readPrev m.storage r.indv.uri = some none)
    (hass : assignedTo r.assignedSubsystems subsystemStorage = true) :
    (removeIndividual env r userUri rdfType none m).result ≠ .ok := by
  intro hok
  unfold removeIndividual at hok
  obtain ⟨_, happly, _⟩ := save_of_ok _ _ _ hm hass hok
  exact Manager.apply_remove_of_none rfl (readPrev_eq_some_none hprev) happly

theorem removeIndividual_some {prevIndv : Individual} (hm : m.Idle)
    (hass : assignedTo r.assignedSubsystems subsystemStorage = true)
    (hok : (removeIndividual env r userUri rdfType (some prevIndv) m).result = .ok) :
    (removeIndividual env r userUri rdfType (some prevIndv) m).manager.Idle ∧
      (removeIndividual env r userUri rdfType (some prevIndv) m).manager.storage =
        Function.update m.storage prevIndv.uri none := by
  unfold removeIndividual at hok ⊢
  dsimp only at hok ⊢
  split at hok
  · exact ResultCode.noConfusion hok
  next hfits =>
  rw [if_neg hfits]
  split at hok
  · next hput =>
    rw [if_pos hput]
    obtain ⟨hidle, _, hst⟩ := save_of_ok _ _ _ hm hass hput
    obtain ⟨hidle', _, hst'⟩ := save_of_ok _ _ _ hidle hass hok
    refine ⟨hidle', hst'.trans ?_⟩
    rw [hst]
    exact Function.update_idem _ _ _
  · next hput => exact absurd hok hput

/-- `mstorage` does what it reports: an answer `Ok` means that the request is carried out. -/
theorem addToTransaction_of_ok (hm : m.Idle)
    (hass : assignedTo r.assignedSubsystems subsystemStorage = true)
    (hok : (addToTransaction env r m).result = .ok) :
    (addToTransaction env r m).manager.Idle ∧
      (r.cmd = .remove ∨ r.indv.resources.keys ≠ []) ∧
      readPrev m.storage r.indv.uri ≠ none ∧
      (r.cmd = .remove → m.storage r.indv.uri ≠ none) ∧
      (addToTransaction env r m).manager.storage = changed r.cmd r.indv m.storage := by
  cases hticket : r.ticket with
  | none =>
    rw [addToTransaction, hticket] at hok
    exact ResultCode.noConfusion hok
  | some userUri =>
    obtain hrefused | ⟨_, prev, hprev, hbranch⟩ := addToTransaction_cases env r m hticket
    · exact absurd hok hrefused.1
    have hreadable : readPrev m.storage r.indv.uri ≠ none := by simp [hprev]
    obtain ⟨hcmd, heq⟩ | ⟨hcmd, hkeys, _, rdfType, _, heq⟩ := hbranch
    · rw [heq] at hok ⊢
      cases prev with
      | none => exact absurd hok (removeIndividual_none hm hprev hass)
      | some prevIndv =>
        obtain ⟨hidle, hst⟩ := removeIndividual_some hm hass hok
        refine ⟨hidle, .inl hcmd, hreadable, ?_, ?_⟩
        · intro _ hnone
          rw [readPrev_none hnone] at hprev
          exact absurd hprev (by simp)
        · rw [changed, hprev]
          dsimp only
          rw [if_pos hcmd]
          exact hst
    · rw [heq] at hok ⊢
      obtain ⟨hidle, hst⟩ := putIndividual_of_ok hm hass hok
      refine ⟨hidle, .inr hkeys, hreadable, fun h => absurd h hcmd, ?_⟩
      rw [changed, hprev]
      dsimp only
      rw [if_neg hcmd]
      exact hst

/-! ## Other answers -/

/-- An idle manager answers `Ok` or `FailStore`, and is idle again. -/
theorem save_answers (ti : Mstorage.TransactionItem) (f : OptFreeze) (fails : Bool) (hm : m.Idle) :
    ((m.save ti f fails).1 = .ok ∨ (m.save ti f fails).1 = .failStore) ∧
      (m.save ti f fails).2.Idle := by
  obtain ⟨hrc, hfreeze, hreplies⟩ := Manager.save_reply ti f fails hm.isFreeze hm.replies
  refine ⟨?_, hfreeze, hreplies⟩
  rw [hrc, Manager.reply]
  split
  · exact .inr rfl
  · exact .inl rfl

/-- The answers that leave no doubt about a request that reached the branches. -/
def Decided (rc : ResultCode) : Prop := rc ≠ .noContent ∧ rc ≠ .internalServerError

theorem decided_of_save {rc : ResultCode} (h : rc = .ok ∨ rc = .failStore) : Decided rc := by
  obtain rfl | rfl := h
  · simp [Decided]
  · simp [Decided]

theorem decided_sizeTooLarge : Decided .sizeTooLarge := by simp [Decided]

theorem putIndividual_decided (hm : m.Idle) (prev : Option Individual) :
    Decided (putIndividual env r userUri rdfType prev m).result := by
  unfold putIndividual
  dsimp only
  split
  · exact decided_sizeTooLarge
  · exact decided_of_save (save_answers _ _ _ hm).1

theorem removeIndividual_decided (hm : m.Idle) (prev : Option Individual) :
    Decided (removeIndividual env r userUri rdfType prev m).result := by
  unfold removeIndividual
  dsimp only
  split
  · split
    · exact decided_sizeTooLarge
    split
    · exact decided_of_save (save_answers _ _ _ (save_answers _ _ _ hm).2).1
    · exact decided_of_save (save_answers _ _ _ hm).1
  · exact decided_of_save (save_answers _ _ _ hm).1

/-- `mstorage` never leaves open what became of a request, and answers `NoContent` only where it
leaves everything as it is. -/
theorem addToTransaction_decided (env : Env) (r : Request) (hm : m.Idle) :
    (addToTransaction env r m).result ≠ .internalServerError ∧
      ((addToTransaction env r m).result = .noContent →
        (r.cmd ≠ .remove ∧ r.indv.resources.keys = []) ∧
          (addToTransaction env r m).manager = m) := by
  have hdecided : ∀ {resp : Response}, Decided resp.result → resp.result ≠ .internalServerError ∧
      (resp.result = .noContent → (r.cmd ≠ .remove ∧ r.indv.resources.keys = []) ∧
        resp.manager = m) :=
    fun h => ⟨h.2, fun hno => absurd hno h.1⟩
  have hunauthorized : Decided (Response.refuse .notAuthorized m).result := by
    simp [Decided, Response.refuse]
  unfold addToTransaction
  split
  · exact hdecided (by simp [Decided, Response.refuse])
  dsimp only
  split
  · exact hdecided (by simp [Decided, Response.refuse])
  split
  · next hempty =>
    refine ⟨by simp [Response.refuse], fun _ => ⟨hempty, rfl⟩⟩
  split
  · exact hdecided (by simp [Decided, Response.refuse])
  split
  · exact hdecided (removeIndividual_decided hm _)
  split
  · split
    · exact hdecided hunauthorized
    split
    · exact hdecided hunauthorized
    · exact hdecided (putIndividual_decided hm _)
  · exact hdecided (putIndividual_decided hm _)

/-! ## One item at `mstorage` -/

/-- What `mstorage` has done with an item after which a commit goes on. -/
structure Stored (item : TransactionItem) (indv : Individual) (m m' : Manager) : Prop where
  idle : m'.Idle
  storage : m'.storage =
    if item.HasContent indv then changed item.cmd (transferred indv) m.storage else m.storage
  readable : item.HasContent indv → readPrev m.storage indv.uri ≠ none
  removes : item.cmd = .remove → m.storage indv.uri ≠ none

theorem storeItem_mstorage {userOf : String → Option String} {item : TransactionItem}
    {indv : Individual} {m' : Manager} (hm : m.Idle)
    (hass : assignedTo item.assignedSubsystems subsystemStorage = true)
    (h : storeItem (mstorage env userOf) item indv m = (rc, m'))
    (hgoes : rc = .ok ∨ rc = .noContent) : Stored item indv m m' := by
  by_cases huri : indv.uri.utf8ByteSize < 2
  · rw [storeItem_of_short huri] at h
    rw [← (Prod.mk.inj h).1] at hgoes
    simp at hgoes
  have hnothing : ¬item.HasContent indv → Stored item indv m m := by
    intro hc
    refine ⟨hm, (if_neg hc).symm, fun h => absurd h hc, fun h => absurd (.inl h) hc⟩
  by_cases hempty : item.cmd ≠ .remove ∧ indv.resources.keys = []
  · have hupdate : update (mstorage env userOf) item indv m = (.noContent, m) := by
      rw [update, if_neg huri, if_pos hempty]
    rw [storeItem_of_update hupdate (by simp)] at h
    rw [← (Prod.mk.inj h).2]
    apply hnothing
    rintro (hcmd | hkeys)
    · exact hempty.1 hcmd
    · exact hkeys (transferred_keys_of_nil hempty.2)
  generalize hr : request userOf item (transferred indv) = r at *
  obtain ⟨hanswered, hno⟩ := addToTransaction_decided env r hm
  have hupdate : update (mstorage env userOf) item indv m =
      ((addToTransaction env r m).result, (addToTransaction env r m).manager) := by
    rw [update, if_neg huri, if_neg hempty, ← hr]
    rfl
  rw [storeItem_of_update hupdate hanswered] at h
  obtain ⟨rfl, rfl⟩ := Prod.mk.inj h
  have hcmd : r.cmd = item.cmd := by rw [← hr]; rfl
  have hindv : r.indv = transferred indv := by rw [← hr]; rfl
  have hstorage : assignedTo r.assignedSubsystems subsystemStorage = true := by
    rw [← hr]; exact hass
  obtain hok | hno' := hgoes
  · obtain ⟨hidle, hcontent, hreadable, hremoves, hst⟩ := addToTransaction_of_ok hm hstorage hok
    rw [hcmd, hindv] at hcontent hremoves hst
    rw [hindv] at hreadable
    refine ⟨hidle, ?_, fun _ => hreadable, hremoves⟩
    rw [hst, if_pos (show item.HasContent indv from hcontent)]
  · obtain ⟨⟨hput, hkeys⟩, hsame⟩ := hno hno'
    rw [hsame]
    apply hnothing
    rintro (hremove | hvalues)
    · exact hput (hcmd.trans hremove)
    · exact hvalues (hindv ▸ hkeys)

/-! ## Individuals under their own uri -/

/-- Every individual is stored under its own uri. -/
def Keyed (storage : Storage) : Prop :=
  ∀ uri indv, storage uri = some (.individual indv) → indv.uri = uri

/-- A database of individuals. -/
structure Database where
  storage : Storage
  keyed : Keyed storage

theorem Keyed.update {storage : Storage} (h : Keyed storage) (indv : Individual) :
    Keyed (Function.update storage indv.uri (some (.serialize indv))) := by
  intro uri i hi
  by_cases huri : uri = indv.uri
  · rw [huri, Function.update_self] at hi
    rw [huri, BinObj.individual.inj (Option.some.inj hi)]
  · rw [Function.update_of_ne huri] at hi
    exact h uri i hi

theorem Keyed.remove {storage : Storage} (h : Keyed storage) (key : String) :
    Keyed (Function.update storage key none) := by
  intro uri i hi
  by_cases huri : uri = key
  · rw [huri, Function.update_self] at hi
    exact absurd hi.symm (Option.some_ne_none _)
  · rw [Function.update_of_ne huri] at hi
    exact h uri i hi

theorem Keyed.changed {storage : Storage} (h : Keyed storage) (cmd : IndvOp) (indv : Individual) :
    Keyed (changed cmd indv storage) := by
  unfold Core.changed
  split
  · exact h
  split
  · split
    · exact h.remove _
    · exact h
  · exact h.update _

/-- A save keeps it, where the item has the uri of its individual. -/
theorem Keyed.save (h : Keyed m.storage) (ti : Mstorage.TransactionItem) (f : OptFreeze)
    (fails : Bool) (hti : ∀ obj, ti.newBinobj = some obj →
      ∃ indv : Individual, obj = .serialize indv ∧ indv.uri = ti.uri) :
    Keyed (m.save ti f fails).2.storage := by
  rw [Manager.save_storage, Manager.changed]
  split
  · unfold Manager.apply
    split
    · split
      · exact h
      split
      · exact h
      · exact h.remove _
    · next obj hobj _ =>
      split
      · exact h
      split
      · exact h
      · obtain ⟨indv, rfl, huri⟩ := hti obj hobj
        rw [← huri]
        exact h.update indv
    · exact h
  · exact h

/-- Every request to `mstorage` keeps it. -/
theorem addToTransaction_keyed (env : Env) (r : Request) (h : Keyed m.storage) :
    Keyed (addToTransaction env r m).manager.storage := by
  cases hticket : r.ticket with
  | none =>
    rw [addToTransaction, hticket]
    exact h
  | some userUri =>
    obtain ⟨_, hsame, _⟩ | ⟨_, prev, _, ⟨_, heq⟩ | ⟨_, _, _, rdfType, _, heq⟩⟩ :=
      addToTransaction_cases env r m hticket
    · rw [hsame]
      exact h
    · rw [heq]
      unfold removeIndividual
      cases prev with
      | none => exact h.save _ _ _ fun obj hobj => absurd hobj.symm (Option.some_ne_none obj)
      | some prevIndv =>
        have hput : ∀ ti : Mstorage.TransactionItem, ti.uri = prevIndv.uri →
            ti.newBinobj = some (.serialize (deletedIndividual prevIndv)) →
            Keyed (m.save ti r.optFreeze env.putFails).2.storage := by
          intro ti huri hbinobj
          refine h.save ti _ _ fun obj hobj => ?_
          exact ⟨_, (Option.some.inj (hbinobj.symm.trans hobj)).symm, huri.symm⟩
        dsimp only
        split
        · exact h
        split
        · refine Keyed.save (hput _ rfl rfl) _ _ _ fun obj hobj => ?_
          exact absurd hobj.symm (Option.some_ne_none obj)
        · exact hput _ rfl rfl
    · rw [heq]
      unfold putIndividual
      dsimp only
      split
      · exact h
      · refine h.save _ _ _ fun obj hobj => ?_
        exact ⟨_, (Option.some.inj hobj).symm, rfl⟩

end Veda.Core
