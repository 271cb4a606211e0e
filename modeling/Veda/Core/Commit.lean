import Veda.Mstorage.AddToTransaction

/-! # A transaction of a client

The model of `commit` and `update` in `thread_context.d`, for a transaction with autocommit: the
items of the queue are sent to the storage server one by one, and an item whose fate is unknown is
sent again until a counter that is read back tells that it was stored. -/

namespace Veda.Core

open Onto Mstorage

/-- `struct TransactionItem`, the fields that a client fills in and reads. -/
structure TransactionItem where
  cmd : IndvOp
  ticketId : String
  eventId : String
  uri : String
  /-- What the script passed; `none` is the empty text. -/
  newBinobj : Option BinObj
  newIndv : Individual
  /-- The status of `new_indv`. -/
  status : ResultCode
  assignedSubsystems : BitVec 64
  rc : ResultCode

/-- The storage server as a client sees it: requests to update and reads. -/
structure Server (σ : Type) where
  update : TransactionItem → Individual → σ → ResultCode × σ
  getIndividual : String → σ → Option Individual

def updateCounter : String := "v-s:updateCounter"

/-- What arrives of an individual that is sent as JSON: `json_to_individual` leaves out the
predicates without values. -/
def transferred (indv : Individual) : Individual where
  uri := indv.uri
  resources := indv.resources.keys.foldl
    (fun resources p => if resources.lookup p = some [] then resources.erase p else resources)
    indv.resources

/-! ## What arrives -/

theorem lookup_foldl_erase (p : String) (predicates : List String)
    (resources : AList fun _ : String => Resources) :
    (predicates.foldl
      (fun resources p => if resources.lookup p = some [] then resources.erase p else resources)
      resources).lookup p =
        if p ∈ predicates ∧ resources.lookup p = some [] then none else resources.lookup p := by
  induction predicates generalizing resources with
  | nil => simp
  | cons q predicates ih =>
    rw [List.foldl_cons, ih]
    by_cases hq : resources.lookup q = some []
    · rw [if_pos hq]
      by_cases hpq : p = q
      · subst hpq
        simp [hq]
      · rw [AList.lookup_erase_ne hpq]
        simp [hpq]
    · rw [if_neg hq]
      by_cases hpq : p = q
      · subst hpq
        simp [hq]
      · simp [hpq]

theorem lookup_transferred (indv : Individual) (p : String) :
    (transferred indv).resources.lookup p =
      if indv.resources.lookup p = some [] then none else indv.resources.lookup p := by
  rw [transferred, lookup_foldl_erase]
  by_cases h : indv.resources.lookup p = some []
  · have hkey : p ∈ indv.resources.keys := by
      rw [← AList.mem_keys, ← AList.lookup_isSome, h]
      rfl
    rw [if_pos h, if_pos ⟨hkey, h⟩]
  · rw [if_neg h, if_neg fun hc => h hc.2]

@[simp] theorem transferred_uri (indv : Individual) : (transferred indv).uri = indv.uri := rfl

/-- All values arrive. -/
@[simp] theorem getResources_transferred (indv : Individual) (p : String) :
    (transferred indv).getResources p = indv.getResources p := by
  rw [Individual.getResources, Individual.getResources, lookup_transferred]
  split
  · next h => rw [h]; rfl
  · rfl

theorem transferred_keys_of_nil {indv : Individual} (h : indv.resources.keys = []) :
    (transferred indv).resources.keys = [] := by
  rw [transferred, h]
  exact h

section
variable {σ : Type} (server : Server σ)

/-- `update`. -/
def update (item : TransactionItem) (indv : Individual) (s : σ) : ResultCode × σ :=
  if indv.uri.utf8ByteSize < 2 then (.invalidIdentifier, s)
  else if item.cmd ≠ .remove ∧ indv.resources.keys = [] then (.noContent, s)
  else server.update item (transferred indv) s

/-- The counter of what is stored under a uri. -/
def storedCounter (uri : String) (s : σ) : Int :=
  ((server.getIndividual uri s).getD .init).getFirstInteger updateCounter (-1)

/-- The attempts that follow `InternalServerError`. A counter in the storage that is the same as
the one of the item is taken as a sign that the item is stored. -/
def repeatStore (item : TransactionItem) (indv : Individual) : Nat → σ → ResultCode × σ
  | 0, s => (.internalServerError, s)
  | attempts + 1, s =>
    if storedCounter server item.uri s = indv.getFirstInteger updateCounter (-1) then (.ok, s)
    else
      match update server item indv s with
      | (rc, s) => if rc = .internalServerError then repeatStore item indv attempts s else (rc, s)

/-- The calls of `update` for one item. -/
def storeItem (item : TransactionItem) (indv : Individual) (s : σ) : ResultCode × σ :=
  match update server item indv s with
  | (rc, s) => if rc = .internalServerError then repeatStore server item indv 10 s else (rc, s)

/-- An item that is passed over: `new_indv` is `Individual.init`. -/
def TransactionItem.isInit (item : TransactionItem) : Prop :=
  item.cmd ≠ .remove ∧ item.newIndv = .init ∧ item.status = .zero

instance (item : TransactionItem) : Decidable item.isInit := inferInstanceAs (Decidable (_ ∧ _))

/-- The individual that is sent. Where the transaction has changed the same uri before and the
item has no counter, it gets one. -/
def TransactionItem.prepared (item : TransactionItem) (uri2exists : List String) : Individual :=
  if item.uri ∈ uri2exists ∧ item.newIndv.getResources updateCounter = [] then
    item.newIndv.setResources updateCounter [.integer (-1)]
  else item.newIndv

/-- The loop of `commit`. -/
def commitQueue : List TransactionItem → List String → σ → ResultCode × σ
  | [], _, s => (.ok, s)
  | item :: items, uri2exists, s =>
    if item.isInit then commitQueue items uri2exists s
    else if item.rc ≠ .ok then (item.rc, s)
    else
      match storeItem server item (item.prepared uri2exists) s with
      | (rc, s) =>
        if rc = .ok ∨ rc = .noContent then commitQueue items (item.uri :: uri2exists) s
        else (rc, s)

/-- `commit`. -/
def commit (queue : List TransactionItem) (s : σ) : ResultCode × σ :=
  commitQueue server queue [] s

/-- The item has content: the server gets something to carry out. -/
def TransactionItem.HasContent (item : TransactionItem) (indv : Individual) : Prop :=
  item.cmd = .remove ∨ (transferred indv).resources.keys ≠ []

instance (item : TransactionItem) (indv : Individual) : Decidable (item.HasContent indv) :=
  inferInstanceAs (Decidable (_ ∨ _))

/-- An item that makes every commit fail. -/
def TransactionItem.Invalid (item : TransactionItem) : Prop :=
  ¬item.isInit ∧ (item.rc ≠ .ok ∨ item.newIndv.uri.utf8ByteSize < 2)

/-! ## A commit item by item -/

theorem prepared_uri (item : TransactionItem) (uri2exists : List String) :
    (item.prepared uri2exists).uri = item.newIndv.uri := by
  unfold TransactionItem.prepared
  split <;> rfl

variable {server} {item : TransactionItem} {items : List TransactionItem}
  {uri2exists : List String} {s s' : σ}

theorem commitQueue_of_isInit (h : item.isInit) :
    commitQueue server (item :: items) uri2exists s = commitQueue server items uri2exists s :=
  if_pos h

theorem commitQueue_of_store (hinit : ¬item.isInit) (hrc : item.rc = .ok)
    (hstore : storeItem server item (item.prepared uri2exists) s = (rc, s'))
    (hgoes : rc = .ok ∨ rc = .noContent) :
    commitQueue server (item :: items) uri2exists s =
      commitQueue server items (item.uri :: uri2exists) s' := by
  rw [commitQueue, if_neg hinit, if_neg (not_not.mpr hrc), hstore]
  exact if_pos hgoes

theorem storeItem_of_update {indv : Individual} (h : update server item indv s = (rc, s'))
    (hrc : rc ≠ .internalServerError) : storeItem server item indv s = (rc, s') := by
  rw [storeItem, h]
  exact if_neg hrc

theorem storeItem_of_short {indv : Individual} (h : indv.uri.utf8ByteSize < 2) :
    storeItem server item indv s = (.invalidIdentifier, s) :=
  storeItem_of_update (if_pos h) fun hrc => ResultCode.noConfusion hrc

/-- A commit that reports `Ok` has passed the first item over, or it was answered well. -/
theorem commitQueue_cons_ok (h : commitQueue server (item :: items) uri2exists s = (.ok, s')) :
    ¬item.Invalid ∧
      (item.isInit ∧ commitQueue server items uri2exists s = (.ok, s') ∨
        ¬item.isInit ∧ ∃ rc s₁,
          storeItem server item (item.prepared uri2exists) s = (rc, s₁) ∧
          (rc = .ok ∨ rc = .noContent) ∧
          commitQueue server items (item.uri :: uri2exists) s₁ = (.ok, s')) := by
  by_cases hinit : item.isInit
  · rw [commitQueue_of_isInit hinit] at h
    exact ⟨fun hinvalid => hinvalid.1 hinit, .inl ⟨hinit, h⟩⟩
  rw [commitQueue, if_neg hinit] at h
  by_cases hrc : item.rc = .ok
  · rw [if_neg (not_not.mpr hrc)] at h
    cases hstore : storeItem server item (item.prepared uri2exists) s with
    | mk rc s₁ =>
      rw [hstore] at h
      dsimp only at h
      by_cases hgoes : rc = .ok ∨ rc = .noContent
      · rw [if_pos hgoes] at h
        refine ⟨?_, .inr ⟨hinit, rc, s₁, rfl, hgoes, h⟩⟩
        rintro ⟨_, hne | hshort⟩
        · exact hne hrc
        · rw [← prepared_uri item uri2exists] at hshort
          rw [storeItem_of_short hshort] at hstore
          rw [← (Prod.mk.inj hstore).1] at hgoes
          exact hgoes.elim (fun h => ResultCode.noConfusion h) fun h => ResultCode.noConfusion h
      · rw [if_neg hgoes] at h
        exact absurd (.inl (Prod.mk.inj h).1) hgoes
  · rw [if_pos hrc] at h
    exact absurd (Prod.mk.inj h).1 hrc

theorem not_invalid_of_ok (h : commitQueue server items uri2exists s = (.ok, s')) :
    ∀ item ∈ items, ¬item.Invalid := by
  induction items generalizing uri2exists s with
  | nil =>
    intro item hitem
    exact absurd hitem List.not_mem_nil
  | cons first items ih =>
    obtain ⟨hfirst, hrest⟩ := commitQueue_cons_ok h
    have hitems : ∀ item ∈ items, ¬item.Invalid := by
      obtain ⟨_, hrest⟩ | ⟨_, rc, s₁, _, _, hrest⟩ := hrest
      · exact ih hrest
      · exact ih hrest
    intro item hitem
    obtain rfl | hitem := List.mem_cons.mp hitem
    · exact hfirst
    · exact hitems item hitem

end

end Veda.Core
