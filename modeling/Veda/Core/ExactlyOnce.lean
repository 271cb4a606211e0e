import Veda.Core.Server

/-! # What a commit tells after failures

A server whose requests may fail, or be carried out with the reply lost. A commit that reports `Ok`
is right about every such server exactly where the counters tell whether an item was stored
(`exactlyOnce_iff`). -/

namespace Veda.Core

open Onto Mstorage

/-- The answer to a request that is not carried out. -/
abbrev Failure := { rc : ResultCode // rc ≠ .ok ∧ rc ≠ .noContent }

/-- What becomes of a request. -/
inductive Outcome where
  | fails (rc : Failure)
  | lost
  | succeeds

/-- A server that treats its requests as `outcomes` says, and carries out all further ones. -/
structure Faulty where
  storage : Storage
  outcomes : List Outcome
  /-- The items that were carried out, the oldest first. -/
  log : List TransactionItem

/-- The server stores nothing where nothing arrives. -/
def Faulty.carryOut (item : TransactionItem) (indv : Individual) (s : Faulty) :
    ResultCode × Faulty :=
  if item.cmd ≠ .remove ∧ indv.resources.keys = [] then (.noContent, s)
  else (.ok, { s with
    storage := changed item.cmd indv s.storage
    log := s.log ++ [item] })

def faulty : Server Faulty where
  update item indv s :=
    match s.outcomes with
    | [] => s.carryOut item indv
    | .succeeds :: outcomes => { s with outcomes := outcomes }.carryOut item indv
    | .lost :: outcomes =>
      (.internalServerError, ({ s with outcomes := outcomes }.carryOut item indv).2)
    | .fails rc :: outcomes => (rc, { s with outcomes := outcomes })
  getIndividual uri s := (readPrev s.storage uri).join

/-- The counter under a uri; there is none that is `-1`. -/
def counterIn (uri : String) (storage : Storage) : Int :=
  (((readPrev storage uri).join).getD .init).getFirstInteger updateCounter (-1)

/-- The items with content, in their order. -/
def contents : List TransactionItem → List String → List TransactionItem
  | [], _ => []
  | item :: items, uri2exists =>
    if item.isInit then contents items uri2exists
    else
      let rest := contents items (item.uri :: uri2exists)
      if item.HasContent (item.prepared uri2exists) then item :: rest else rest

/-- Every commit that reports `Ok` has carried out every item with content once, in order. -/
def ExactlyOnce (queue : List TransactionItem) (storage : Storage) : Prop :=
  ∀ outcomes s, commit faulty queue ⟨storage, outcomes, []⟩ = (.ok, s) → s.log = contents queue []

/-! ## When the counters tell -/

/-- The counter of the item is not the one in the storage, and the item makes it the one in the
storage. -/
structure Tells (item : TransactionItem) (indv : Individual) (storage : Storage) : Prop where
  before : counterIn item.uri storage ≠ indv.getFirstInteger updateCounter (-1)
  after : counterIn item.uri (changed item.cmd (transferred indv) storage) =
    indv.getFirstInteger updateCounter (-1)

/-- The counter tells of every item with content. -/
def Told : List TransactionItem → List String → Storage → Prop
  | [], _, _ => True
  | item :: items, uri2exists, storage =>
    if item.isInit then Told items uri2exists storage
    else
      let indv := item.prepared uri2exists
      if item.HasContent indv then
        Tells item indv storage ∧
          Told items (item.uri :: uri2exists) (changed item.cmd (transferred indv) storage)
      else Told items (item.uri :: uri2exists) storage

/-- The counter that a `PUT` leaves: one more than the stored one. -/
theorem counterIn_changed_put {storage : Storage} {prev : Option Individual} (indv : Individual)
    (hprev : readPrev storage indv.uri = some prev) :
    counterIn indv.uri (changed .put (transferred indv) storage) =
      nextCounter ((prev.getD .init).getFirstInteger updateCounter 0) := by
  have hchanged : changed .put (transferred indv) storage indv.uri =
      some (.serialize (newIndividual .put (prev.getD .init) (transferred indv))) := by
    rw [changed, transferred_uri, hprev]
    exact Function.update_self _ _ _
  rw [counterIn, readPrev, hchanged]
  have hread : (BinObj.serialize (newIndividual .put (prev.getD .init)
      (transferred indv))).deserialize = _ := deserialize_stored indv _
  dsimp only
  rw [hread]
  simp [Individual.getFirstInteger, updateCounter]

/-- So the counter tells of a `PUT` where it is not the stored one but the one after it. -/
theorem tells_put_iff {item : TransactionItem} {indv : Individual} {storage : Storage}
    {prev : Option Individual} (hcmd : item.cmd = .put) (huri : item.uri = indv.uri)
    (hprev : readPrev storage indv.uri = some prev) : Tells item indv storage ↔
      (prev.getD .init).getFirstInteger updateCounter (-1) ≠
          indv.getFirstInteger updateCounter (-1) ∧
        nextCounter ((prev.getD .init).getFirstInteger updateCounter 0) =
          indv.getFirstInteger updateCounter (-1) := by
  have hbefore : counterIn item.uri storage =
      (prev.getD .init).getFirstInteger updateCounter (-1) := by
    rw [counterIn, huri, hprev]
    rfl
  have hafter := counterIn_changed_put indv hprev
  rw [← huri, ← hcmd] at hafter
  constructor
  · intro h
    exact ⟨hbefore ▸ h.before, hafter ▸ h.after⟩
  · rintro ⟨hne, heq⟩
    exact ⟨hbefore ▸ hne, hafter.trans heq⟩

/-! ## One request -/

variable {item : TransactionItem} {indv : Individual} {storage : Storage} {s s' : Faulty}

/-- A request for an item with content reaches the server. -/
theorem update_of_hasContent (huri : ¬indv.uri.utf8ByteSize < 2) (hc : item.HasContent indv)
    (s : Faulty) : update faulty item indv s = faulty.update item (transferred indv) s := by
  have hempty : ¬(item.cmd ≠ .remove ∧ indv.resources.keys = []) := by
    rintro ⟨hcmd, hkeys⟩
    obtain hremove | hvalues := hc
    · exact hcmd hremove
    · exact hvalues (transferred_keys_of_nil hkeys)
  rw [update, if_neg huri, if_neg hempty]

/-- The state in which an item with content is carried out. -/
def Faulty.done (item : TransactionItem) (indv : Individual) (s : Faulty) : Faulty where
  storage := changed item.cmd (transferred indv) s.storage
  outcomes := s.outcomes
  log := s.log ++ [item]

theorem carryOut_of_hasContent (hc : item.HasContent indv) (s : Faulty) :
    s.carryOut item (transferred indv) = (.ok, s.done item indv) := by
  have hempty : ¬(item.cmd ≠ .remove ∧ (transferred indv).resources.keys = []) := by
    rintro ⟨hcmd, hkeys⟩
    exact hc.elim hcmd fun hvalues => hvalues hkeys
  rw [Faulty.carryOut, if_neg hempty]
  rfl

theorem carryOut_of_not_hasContent (hc : ¬item.HasContent indv) (s : Faulty) :
    s.carryOut item (transferred indv) = (.noContent, s) := by
  obtain ⟨hcmd, hkeys⟩ := not_or.mp hc
  rw [Faulty.carryOut, if_pos ⟨hcmd, not_not.mp hkeys⟩]

/-- The same storage and the same log; only outcomes were used up. -/
def Untouched (s s' : Faulty) : Prop := s'.storage = s.storage ∧ s'.log = s.log

theorem Untouched.refl (s : Faulty) : Untouched s s := ⟨rfl, rfl⟩

theorem Untouched.trans {s₁ s₂ s₃ : Faulty} (h : Untouched s₁ s₂) (h' : Untouched s₂ s₃) :
    Untouched s₁ s₃ := ⟨h'.1.trans h.1, h'.2.trans h.2⟩

theorem Untouched.done (h : Untouched s s') (item : TransactionItem) (indv : Individual) :
    Untouched (s.done item indv) (s'.done item indv) := by
  unfold Faulty.done
  rw [Untouched, h.1, h.2]
  exact ⟨rfl, rfl⟩

/-- A request is not carried out and not answered `Ok`, or it is carried out and answered `Ok` or
by an error that leaves its fate open. -/
theorem update_cases (huri : ¬indv.uri.utf8ByteSize < 2) (hc : item.HasContent indv) (s : Faulty) :
    (update faulty item indv s).1 ≠ .noContent ∧
      ((update faulty item indv s).1 ≠ .ok ∧ Untouched s (update faulty item indv s).2 ∨
        ((update faulty item indv s).1 = .ok ∨
            (update faulty item indv s).1 = .internalServerError) ∧
          Untouched (s.done item indv) (update faulty item indv s).2) := by
  rw [update_of_hasContent huri hc]
  obtain ⟨storage, outcomes, log⟩ := s
  cases outcomes with
  | nil =>
    have heq : faulty.update item (transferred indv) ⟨storage, [], log⟩ = _ :=
      carryOut_of_hasContent hc _
    rw [heq]
    exact ⟨fun h => ResultCode.noConfusion h, .inr ⟨.inl rfl, rfl, rfl⟩⟩
  | cons outcome outcomes =>
    cases outcome with
    | fails rc => exact ⟨rc.2.2, .inl ⟨rc.2.1, rfl, rfl⟩⟩
    | lost =>
      have heq : faulty.update item (transferred indv) ⟨storage, .lost :: outcomes, log⟩ =
          (.internalServerError, (Faulty.mk storage outcomes log).done item indv) :=
        congrArg (fun answer : ResultCode × Faulty => (ResultCode.internalServerError, answer.2))
          (carryOut_of_hasContent hc _)
      rw [heq]
      exact ⟨fun h => ResultCode.noConfusion h, .inr ⟨.inr rfl, rfl, rfl⟩⟩
    | succeeds =>
      have heq : faulty.update item (transferred indv) ⟨storage, .succeeds :: outcomes, log⟩ = _ :=
        carryOut_of_hasContent hc ⟨storage, outcomes, log⟩
      rw [heq]
      exact ⟨fun h => ResultCode.noConfusion h, .inr ⟨.inl rfl, rfl, rfl⟩⟩

/-- Without content nothing is carried out. -/
theorem update_of_not_hasContent (hc : ¬item.HasContent indv) (s : Faulty) :
    Untouched s (update faulty item indv s).2 := by
  unfold update
  split
  · exact Untouched.refl s
  split
  · exact Untouched.refl s
  obtain ⟨storage, outcomes, log⟩ := s
  have hcarry : ∀ s : Faulty, s.carryOut item (transferred indv) = (.noContent, s) :=
    carryOut_of_not_hasContent hc
  cases outcomes with
  | nil =>
    have heq : faulty.update item (transferred indv) ⟨storage, [], log⟩ = _ := hcarry _
    rw [heq]
    exact Untouched.refl _
  | cons outcome outcomes =>
    cases outcome with
    | fails rc => exact ⟨rfl, rfl⟩
    | lost =>
      have heq : (faulty.update item (transferred indv) ⟨storage, .lost :: outcomes, log⟩).2 =
          ⟨storage, outcomes, log⟩ := congrArg Prod.snd (hcarry _)
      rw [heq]
      exact ⟨rfl, rfl⟩
    | succeeds =>
      have heq : faulty.update item (transferred indv) ⟨storage, .succeeds :: outcomes, log⟩ =
          _ := hcarry ⟨storage, outcomes, log⟩
      rw [heq]
      exact ⟨rfl, rfl⟩

/-! ## One item -/

/-- An item without content leaves everything as it is. -/
theorem storeItem_of_not_hasContent (hc : ¬item.HasContent indv) (s : Faulty) :
    Untouched s (storeItem faulty item indv s).2 := by
  have hrepeat : ∀ attempts s, Untouched s (repeatStore faulty item indv attempts s).2 := by
    intro attempts
    induction attempts with
    | zero => exact Untouched.refl
    | succ attempts ih =>
      intro s
      unfold repeatStore
      split
      · exact Untouched.refl s
      have hupdate := update_of_not_hasContent hc s
      generalize update faulty item indv s = answer at hupdate
      obtain ⟨rc, s'⟩ := answer
      dsimp only
      split
      · exact hupdate.trans (ih s')
      · exact hupdate
  unfold storeItem
  have hupdate := update_of_not_hasContent hc s
  generalize update faulty item indv s = answer at hupdate
  obtain ⟨rc, s'⟩ := answer
  dsimp only
  split
  · exact hupdate.trans (hrepeat 10 s')
  · exact hupdate

/-- What an item has become of where an answer is relied on: it is carried out once if the answer
is `Ok`, and the answer is not `NoContent`. -/
def Right (item : TransactionItem) (indv : Individual) (s : Faulty)
    (answer : ResultCode × Faulty) : Prop :=
  answer.1 ≠ .noContent ∧ (answer.1 = .ok → Untouched (s.done item indv) answer.2)

/-- The counter tells that the item is stored. -/
theorem repeatStore_done (ht : Tells item indv s.storage)
    (h : Untouched (s.done item indv) s') (attempts : Nat) :
    Right item indv s (repeatStore faulty item indv attempts s') := by
  cases attempts with
  | zero => exact ⟨fun h => ResultCode.noConfusion h, fun h => ResultCode.noConfusion h⟩
  | succ attempts =>
    have hafter : storedCounter faulty item.uri s' = indv.getFirstInteger updateCounter (-1) := by
      have hcounter : storedCounter faulty item.uri s' = counterIn item.uri s'.storage := rfl
      rw [hcounter, h.1]
      exact ht.after
    rw [repeatStore, if_pos hafter]
    exact ⟨fun h => ResultCode.noConfusion h, fun _ => h⟩

/-- The counter tells that the item is not stored, until it is. -/
theorem repeatStore_undone (huri : ¬indv.uri.utf8ByteSize < 2) (hc : item.HasContent indv)
    (ht : Tells item indv s.storage) (h : Untouched s s') (attempts : Nat) :
    Right item indv s (repeatStore faulty item indv attempts s') := by
  induction attempts generalizing s' with
  | zero => exact ⟨fun h => ResultCode.noConfusion h, fun h => ResultCode.noConfusion h⟩
  | succ attempts ih =>
    have hbefore : storedCounter faulty item.uri s' ≠ indv.getFirstInteger updateCounter (-1) := by
      have hcounter : storedCounter faulty item.uri s' = counterIn item.uri s'.storage := rfl
      rw [hcounter, h.1]
      exact ht.before
    rw [repeatStore, if_neg hbefore]
    obtain ⟨hcontent, hcase⟩ := update_cases huri hc s'
    generalize update faulty item indv s' = answer at hcontent hcase
    obtain ⟨rc, s''⟩ := answer
    dsimp only at hcontent hcase ⊢
    by_cases hrc : rc = .internalServerError
    · rw [if_pos hrc]
      obtain ⟨_, hun⟩ | ⟨_, hdone⟩ := hcase
      · exact ih (h.trans hun)
      · exact repeatStore_done ht ((h.done item indv).trans hdone) attempts
    · rw [if_neg hrc]
      refine ⟨hcontent, fun hok => ?_⟩
      obtain ⟨hne, _⟩ | ⟨_, hdone⟩ := hcase
      · exact absurd hok hne
      · exact (h.done item indv).trans hdone

/-- Where the counter tells, an answer can be relied on. -/
theorem storeItem_of_tells (huri : ¬indv.uri.utf8ByteSize < 2) (hc : item.HasContent indv)
    (ht : Tells item indv s.storage) : Right item indv s (storeItem faulty item indv s) := by
  obtain ⟨hcontent, hcase⟩ := update_cases huri hc s
  unfold storeItem
  generalize update faulty item indv s = answer at hcontent hcase
  obtain ⟨rc, s'⟩ := answer
  dsimp only at hcontent hcase ⊢
  by_cases hrc : rc = .internalServerError
  · rw [if_pos hrc]
    obtain ⟨_, hun⟩ | ⟨_, hdone⟩ := hcase
    · exact repeatStore_undone huri hc ht hun 10
    · exact repeatStore_done ht hdone 10
  · rw [if_neg hrc]
    refine ⟨hcontent, fun hok => ?_⟩
    obtain ⟨hne, _⟩ | ⟨_, hdone⟩ := hcase
    · exact absurd hok hne
    · exact hdone

/-! ## The queue -/

section
variable {items : List TransactionItem} {uri2exists : List String}

/-- Where the counters tell, a commit that reports `Ok` has carried out all contents once. -/
theorem log_of_told (h : Told items uri2exists s.storage)
    (hok : commitQueue faulty items uri2exists s = (.ok, s')) :
    s'.log = s.log ++ contents items uri2exists := by
  induction items generalizing uri2exists s with
  | nil =>
    rw [← (Prod.mk.inj hok).2]
    exact (List.append_nil _).symm
  | cons item items ih =>
    obtain ⟨hvalid, ⟨hinit, hrest⟩ | ⟨hinit, rc, s₁, hstore, hgoes, hrest⟩⟩ :=
      commitQueue_cons_ok hok
    · rw [Told, if_pos hinit] at h
      rw [contents, if_pos hinit]
      exact ih h hrest
    have huri : ¬(item.prepared uri2exists).uri.utf8ByteSize < 2 := by
      rw [prepared_uri]
      exact fun hshort => hvalid ⟨hinit, .inr hshort⟩
    rw [Told, if_neg hinit] at h
    rw [contents, if_neg hinit]
    dsimp only at h ⊢
    by_cases hc : item.HasContent (item.prepared uri2exists)
    · rw [if_pos hc] at h ⊢
      obtain ⟨hcontent, hdone⟩ := storeItem_of_tells huri hc h.1
      rw [hstore] at hcontent hdone
      obtain ⟨hstorage, hlog⟩ := hdone (hgoes.resolve_right hcontent)
      have hrest := ih (s := s₁) (by rw [hstorage]; exact h.2) hrest
      rw [hrest, hlog, Faulty.done, List.append_assoc, List.singleton_append]
    · rw [if_neg hc] at h ⊢
      have hun := storeItem_of_not_hasContent hc s
      rw [hstore] at hun
      have hrest := ih (s := s₁) (by rw [hun.1]; exact h) hrest
      rw [hrest, hun.2]

/-! ## Servers that mislead -/

theorem storeItem_succeeds (huri : ¬indv.uri.utf8ByteSize < 2) (hc : item.HasContent indv)
    (storage : Storage) (outcomes : List Outcome) (log : List TransactionItem) :
    storeItem faulty item indv ⟨storage, .succeeds :: outcomes, log⟩ =
      (.ok, (Faulty.mk storage outcomes log).done item indv) := by
  apply storeItem_of_update
  · rw [update_of_hasContent huri hc]
    exact carryOut_of_hasContent hc ⟨storage, outcomes, log⟩
  · exact fun h => ResultCode.noConfusion h

/-- A server that does not fail any more. -/
theorem storeItem_healthy (huri : ¬indv.uri.utf8ByteSize < 2) (hc : item.HasContent indv)
    (storage : Storage) (log : List TransactionItem) :
    storeItem faulty item indv ⟨storage, [], log⟩ =
      (.ok, (Faulty.mk storage [] log).done item indv) := by
  apply storeItem_of_update
  · rw [update_of_hasContent huri hc]
    exact carryOut_of_hasContent hc ⟨storage, [], log⟩
  · exact fun h => ResultCode.noConfusion h

/-- An item without content is answered by `NoContent`, by the client itself or by a server that
answers. -/
theorem exists_noContent (huri : ¬indv.uri.utf8ByteSize < 2) (hc : ¬item.HasContent indv)
    (storage : Storage) (outcomes : List Outcome) (log : List TransactionItem) :
    ∃ first, (outcomes = [] → first = []) ∧
      storeItem faulty item indv ⟨storage, first ++ outcomes, log⟩ =
        (.noContent, ⟨storage, outcomes, log⟩) := by
  have hne : ResultCode.noContent ≠ .internalServerError := fun h => ResultCode.noConfusion h
  have hcarry := carryOut_of_not_hasContent hc ⟨storage, outcomes, log⟩
  by_cases hkeys : indv.resources.keys = []
  · refine ⟨[], fun _ => rfl, storeItem_of_update ?_ hne⟩
    rw [update, if_neg huri, if_pos ⟨(not_or.mp hc).1, hkeys⟩]
    rfl
  have hsent : ∀ s, update faulty item indv s = faulty.update item (transferred indv) s := by
    intro s
    rw [update, if_neg huri, if_neg fun hempty => hkeys hempty.2]
  cases outcomes with
  | nil =>
    refine ⟨[], fun _ => rfl, storeItem_of_update ?_ hne⟩
    rw [hsent]
    exact hcarry
  | cons outcome outcomes =>
    refine ⟨[.succeeds], fun h => absurd h (List.cons_ne_nil _ _), storeItem_of_update ?_ hne⟩
    rw [hsent]
    exact hcarry

/-- The item is taken as stored because its counter is in the storage already. -/
theorem storeItem_dropped (huri : ¬indv.uri.utf8ByteSize < 2) (hc : item.HasContent indv)
    (hbefore : counterIn item.uri storage = indv.getFirstInteger updateCounter (-1))
    (log : List TransactionItem) :
    ∃ outcomes, storeItem faulty item indv ⟨storage, outcomes, log⟩ =
      (.ok, ⟨storage, [], log⟩) := by
  have hfailure : ResultCode.internalServerError ≠ .ok ∧
      ResultCode.internalServerError ≠ .noContent :=
    ⟨fun h => ResultCode.noConfusion h, fun h => ResultCode.noConfusion h⟩
  refine ⟨[.fails ⟨.internalServerError, hfailure⟩], ?_⟩
  have hupdate : update faulty item indv
      ⟨storage, [.fails ⟨.internalServerError, hfailure⟩], log⟩ =
        (.internalServerError, ⟨storage, [], log⟩) := by
    rw [update_of_hasContent huri hc]
    rfl
  rw [storeItem, hupdate]
  dsimp only
  rw [if_pos rfl, repeatStore]
  exact if_pos hbefore

/-- The item is sent again because its counter is not in the storage. -/
theorem storeItem_doubled (huri : ¬indv.uri.utf8ByteSize < 2) (hc : item.HasContent indv)
    (hafter : counterIn item.uri (changed item.cmd (transferred indv) storage) ≠
      indv.getFirstInteger updateCounter (-1)) (log : List TransactionItem) :
    ∃ outcomes storage', storeItem faulty item indv ⟨storage, outcomes, log⟩ =
      (.ok, ⟨storage', [], log ++ [item] ++ [item]⟩) := by
  have hupdate : update faulty item indv ⟨storage, [.lost], log⟩ =
      (.internalServerError, (Faulty.mk storage [] log).done item indv) := by
    rw [update_of_hasContent huri hc]
    exact congrArg (fun answer : ResultCode × Faulty =>
      (ResultCode.internalServerError, answer.2)) (carryOut_of_hasContent hc _)
  have hagain : update faulty item indv ((Faulty.mk storage [] log).done item indv) =
      (.ok, ((Faulty.mk storage [] log).done item indv).done item indv) := by
    rw [update_of_hasContent huri hc]
    exact carryOut_of_hasContent hc _
  have hcounter : storedCounter faulty item.uri ((Faulty.mk storage [] log).done item indv) ≠
      indv.getFirstInteger updateCounter (-1) := hafter
  refine ⟨[.lost], (((Faulty.mk storage [] log).done item indv).done item indv).storage, ?_⟩
  rw [storeItem, hupdate]
  dsimp only
  rw [if_pos rfl, repeatStore, if_neg hcounter, hagain]
  rfl

/-- A commit at a server that does not fail. -/
theorem commitQueue_healthy (hvalid : ∀ item ∈ items, ¬item.Invalid) (uri2exists : List String)
    (storage : Storage) (log : List TransactionItem) :
    ∃ s', commitQueue faulty items uri2exists ⟨storage, [], log⟩ = (.ok, s') ∧
      s'.log = log ++ contents items uri2exists := by
  induction items generalizing uri2exists storage log with
  | nil => exact ⟨_, rfl, (List.append_nil _).symm⟩
  | cons item items ih =>
    have hrest : ∀ item ∈ items, ¬item.Invalid :=
      fun item hitem => hvalid item (List.mem_cons_of_mem _ hitem)
    by_cases hinit : item.isInit
    · rw [commitQueue_of_isInit hinit, contents, if_pos hinit]
      exact ih hrest uri2exists storage log
    obtain ⟨hrc, huri⟩ := not_or.mp (not_and.mp (hvalid item List.mem_cons_self) hinit)
    rw [← prepared_uri item uri2exists] at huri
    rw [contents, if_neg hinit]
    dsimp only
    by_cases hc : item.HasContent (item.prepared uri2exists)
    · rw [if_pos hc, commitQueue_of_store hinit (not_not.mp hrc)
        (storeItem_healthy huri hc storage log) (.inl rfl)]
      obtain ⟨s', hs', hlog⟩ := ih hrest (item.uri :: uri2exists)
        (changed item.cmd (transferred (item.prepared uri2exists)) storage) (log ++ [item])
      refine ⟨s', hs', ?_⟩
      rw [hlog, List.append_assoc, List.singleton_append]
    · obtain ⟨first, hfirst, hstore⟩ := exists_noContent huri hc storage [] log
      rw [hfirst rfl, List.append_nil] at hstore
      rw [if_neg hc, commitQueue_of_store hinit (not_not.mp hrc) hstore (.inr rfl)]
      exact ih hrest (item.uri :: uri2exists) storage log

/-- Where a counter does not tell, a server misleads the commit about one item and does not fail
again. -/
theorem exists_misled (log : List TransactionItem) (hvalid : ∀ item ∈ items, ¬item.Invalid)
    (h : ¬Told items uri2exists storage) :
    ∃ outcomes s', commitQueue faulty items uri2exists ⟨storage, outcomes, log⟩ = (.ok, s') ∧
      s'.log.length ≠ (log ++ contents items uri2exists).length := by
  induction items generalizing uri2exists storage log with
  | nil => exact absurd trivial h
  | cons item items ih =>
    have hrest : ∀ item ∈ items, ¬item.Invalid :=
      fun item hitem => hvalid item (List.mem_cons_of_mem _ hitem)
    by_cases hinit : item.isInit
    · rw [Told, if_pos hinit] at h
      obtain ⟨outcomes, s', hs', hlen⟩ := ih log hrest h
      refine ⟨outcomes, s', ?_, ?_⟩
      · rw [commitQueue_of_isInit hinit]
        exact hs'
      · rw [contents, if_pos hinit]
        exact hlen
    obtain ⟨hrc, huri⟩ := not_or.mp (not_and.mp (hvalid item List.mem_cons_self) hinit)
    rw [← prepared_uri item uri2exists] at huri
    have hrc := not_not.mp hrc
    rw [Told, if_neg hinit] at h
    rw [contents, if_neg hinit]
    dsimp only at h ⊢
    by_cases hc : item.HasContent (item.prepared uri2exists)
    · rw [if_pos hc] at h ⊢
      by_cases hbefore : counterIn item.uri storage =
          (item.prepared uri2exists).getFirstInteger updateCounter (-1)
      · obtain ⟨outcomes, hstore⟩ := storeItem_dropped huri hc hbefore log
        obtain ⟨s', hs', hlog⟩ := commitQueue_healthy hrest (item.uri :: uri2exists) storage log
        refine ⟨outcomes, s', ?_, ?_⟩
        · rw [commitQueue_of_store hinit hrc hstore (.inl rfl)]
          exact hs'
        · simp [hlog]
      by_cases hafter : counterIn item.uri
          (changed item.cmd (transferred (item.prepared uri2exists)) storage) =
            (item.prepared uri2exists).getFirstInteger updateCounter (-1)
      · have htold := not_and.mp h ⟨hbefore, hafter⟩
        obtain ⟨outcomes, s', hs', hlen⟩ := ih (log ++ [item]) hrest htold
        refine ⟨.succeeds :: outcomes, s', ?_, ?_⟩
        · rw [commitQueue_of_store hinit hrc (storeItem_succeeds huri hc storage outcomes log)
            (.inl rfl)]
          exact hs'
        · rw [List.append_assoc, List.singleton_append] at hlen
          exact hlen
      · obtain ⟨outcomes, storage', hstore⟩ := storeItem_doubled huri hc hafter log
        obtain ⟨s', hs', hlog⟩ := commitQueue_healthy hrest (item.uri :: uri2exists) storage'
          (log ++ [item] ++ [item])
        refine ⟨outcomes, s', ?_, ?_⟩
        · rw [commitQueue_of_store hinit hrc hstore (.inl rfl)]
          exact hs'
        · simp [hlog]
    · rw [if_neg hc] at h ⊢
      obtain ⟨outcomes, s', hs', hlen⟩ := ih log hrest h
      obtain ⟨first, _, hstore⟩ := exists_noContent huri hc storage outcomes log
      refine ⟨first ++ outcomes, s', ?_, hlen⟩
      rw [commitQueue_of_store hinit hrc hstore (.inr rfl)]
      exact hs'

end

/-- A commit that reports `Ok` is right about every server exactly where some item makes it fail in
any case, or the counters tell of all items with content. -/
theorem exactlyOnce_iff (queue : List TransactionItem) (storage : Storage) :
    ExactlyOnce queue storage ↔ (∃ item ∈ queue, item.Invalid) ∨ Told queue [] storage := by
  constructor
  · intro h
    by_contra hnot
    obtain ⟨hvalid, htold⟩ := not_or.mp hnot
    have hvalid : ∀ item ∈ queue, ¬item.Invalid :=
      fun item hitem hinvalid => hvalid ⟨item, hitem, hinvalid⟩
    obtain ⟨outcomes, s, hs, hlen⟩ := exists_misled [] hvalid htold
    exact hlen (congrArg List.length (h outcomes s hs))
  · rintro (⟨item, hitem, hinvalid⟩ | htold) outcomes s hs
    · exact absurd hinvalid (not_invalid_of_ok hs item hitem)
    · exact log_of_told htold hs

/-- An individual is written back with the counter that it was read with. -/
def writtenBack (counter : Int) : TransactionItem where
  cmd := .put
  ticketId := ""
  eventId := ""
  uri := "d:a"
  newBinobj := none
  newIndv := ⟨"d:a", AList.singleton updateCounter [.integer counter]⟩
  status := .ok
  assignedSubsystems := allModules
  rc := .ok

/-- A request that fails before it is carried out is reported as stored. -/
theorem not_exactlyOnce_writtenBack :
    ¬ExactlyOnce [writtenBack 1] (oneStored (writtenBack 1).newIndv) := by
  intro h
  have hfailure : ResultCode.internalServerError ≠ .ok ∧
      ResultCode.internalServerError ≠ .noContent := by decide
  have hlog := h [.fails ⟨.internalServerError, hfailure⟩]
    ⟨oneStored (writtenBack 1).newIndv, [], []⟩ rfl
  exact absurd hlog.symm (List.cons_ne_nil _ _)

end Veda.Core
