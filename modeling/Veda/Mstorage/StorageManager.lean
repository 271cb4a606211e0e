import Veda.Onto.Individual

/-! # The storage manager

The model of `storage_manager.d`: the thread that owns the individuals database, seen through
the messages of one client. A request is handled to its end before the client reads a reply, and
replies wait in the client's mailbox. -/

namespace Veda.Mstorage

open Onto

/-- The codes of `ResultCode` that the modelled functions return. -/
inductive ResultCode where
  | zero
  | ok
  | noContent
  | notFound
  | unprocessableEntity
  | notAuthorized
  | authenticationFailed
  | notReady
  | failCommit
  | failStore
  | internalServerError
  | invalidIdentifier
  | sizeTooLarge
  deriving DecidableEq, Repr

/-- The commands of `INDV_OP` that change an individual. -/
inductive IndvOp where
  | put
  | addIn
  | setIn
  | removeFrom
  | remove
  deriving DecidableEq, Repr

/-- `OptFreeze`. -/
inductive OptFreeze where
  | ignore
  | none
  deriving DecidableEq, Repr

/-- A text in the database: what `serialize` writes for an individual, or any other. -/
inductive BinObj where
  | individual (indv : Individual)
  | invalid
  deriving DecidableEq

namespace BinObj

/-- `Individual.serialize`. -/
def serialize (indv : Individual) : BinObj := .individual indv

/-- `Individual.deserialize` into a fresh individual. Both formats announce one entry for each
predicate and write none for a predicate without values, so that such a text cannot be read. -/
def deserialize : BinObj → Option Individual
  | .individual indv =>
    if indv.resources.entries.any (·.2.isEmpty) then none else some indv
  | .invalid => none

theorem eq_of_deserialize {obj : BinObj} (h : obj.deserialize = some indv) :
    obj = .individual indv := by
  cases obj with
  | individual i =>
    simp only [deserialize] at h
    split at h
    · cases h
    · rw [Option.some.inj h]
  | invalid => cases h

/-- A text without empty predicates can be read. -/
theorem deserialize_individual {indv : Individual} (h : ∀ p, indv.resources.lookup p ≠ some []) :
    (individual indv).deserialize = some indv := by
  have hany : indv.resources.entries.any (·.2.isEmpty) = false := by
    apply List.any_eq_false.mpr
    intro e he hempty
    apply h e.1
    rw [← List.isEmpty_iff.mp hempty]
    exact AList.mem_lookup_iff.mpr he
  rw [deserialize, hany]
  rfl

end BinObj

/-- What the database of individuals holds. -/
abbrev Storage := String → Option BinObj

/-- `ALL_MODULES` and the bits of `SUBSYSTEM` that are read here. -/
def allModules : BitVec 64 := 0

@[inherit_doc allModules]
def subsystemStorage : BitVec 64 := 1

@[inherit_doc allModules]
def subsystemAcl : BitVec 64 := 2

/-- The request is meant for the subsystem. -/
def assignedTo (assigned subsystem : BitVec 64) : Bool :=
  assigned = allModules || assigned &&& subsystem = subsystem

/-- `struct TransactionItem`, the fields of a finished item. -/
structure TransactionItem where
  cmd : IndvOp
  userUri : String
  uri : String
  prevBinobj : Option BinObj
  newBinobj : Option BinObj
  updateCounter : Int
  eventId : String
  isAclElement : Bool
  isOnto : Bool
  assignedSubsystems : BitVec 64

/-- The state of the manager, with the client's mailbox. -/
structure Manager where
  storage : Storage
  isFreeze : Bool
  opId : Nat
  /-- The queue `individuals-flow`, the latest record first. -/
  flow : List (TransactionItem × Nat)
  /-- Replies that the client has not read, the oldest first. -/
  replies : List ResultCode

namespace Manager

/-- `storage.store` and `storage.remove`; `fails` is a failure of the database itself. -/
def apply (m : Manager) (ti : TransactionItem) (fails : Bool) : ResultCode × Storage :=
  match ti.cmd, ti.newBinobj with
  | .remove, _ =>
    if ti.uri = "" then (.noContent, m.storage)
    else if fails ∨ m.storage ti.uri = none then (.failStore, m.storage)
    else (.ok, Function.update m.storage ti.uri none)
  | _, some obj =>
    if ti.uri = "" then (.noContent, m.storage)
    else if fails then (.failStore, m.storage)
    else (.ok, Function.update m.storage ti.uri (some obj))
  | _, none => (.noContent, m.storage)

/-- While the manager is frozen a `PUT` is answered at once. -/
def answerFrozen (m : Manager) (ti : TransactionItem) (optFreeze : OptFreeze) : Manager :=
  if optFreeze = .none ∧ m.isFreeze ∧ ti.cmd = .put then
    { m with replies := m.replies ++ [.notReady] }
  else m

/-- Carry out an item of command `PUT` or `REMOVE` and answer. -/
def execute (m : Manager) (ti : TransactionItem) (fails : Bool) : Manager :=
  let (rc, storage) :=
    if assignedTo ti.assignedSubsystems subsystemStorage then m.apply ti fails
    else (.ok, m.storage)
  if rc = .ok then
    { m with
      storage := storage
      opId := m.opId + 1
      flow := (ti, m.opId + 1) :: m.flow
      replies := m.replies ++ [.ok] }
  else { m with replies := m.replies ++ [.failStore] }

/-- The handler of a save request with one item. The request of a frozen manager is answered and
then handled all the same. -/
def handleSave (m : Manager) (ti : TransactionItem) (optFreeze : OptFreeze) (fails : Bool) :
    Manager :=
  (m.answerFrozen ti optFreeze).execute ti fails

/-- `save`: send the request and read the first reply in the mailbox. Every request is answered,
so the mailbox is not empty. -/
def save (m : Manager) (ti : TransactionItem) (optFreeze : OptFreeze) (fails : Bool) :
    ResultCode × Manager :=
  let m := m.handleSave ti optFreeze fails
  match m.replies with
  | rc :: rest => (rc, { m with replies := rest })
  | [] => (.ok, m)

/-! ## What a request changes -/

variable {m : Manager} {ti : TransactionItem} {fails : Bool}

/-- The storage after a request. -/
def changed (m : Manager) (ti : TransactionItem) (fails : Bool) : Storage :=
  if assignedTo ti.assignedSubsystems subsystemStorage then (m.apply ti fails).2 else m.storage

theorem apply_of_ne_ok (h : (m.apply ti fails).1 ≠ .ok) : (m.apply ti fails).2 = m.storage := by
  unfold apply at h ⊢
  split
  · split
    · rfl
    split
    · rfl
    · simp_all
  · split
    · rfl
    split
    · rfl
    · simp_all
  · rfl

/-- The change that the database makes when it says `Ok`. -/
theorem apply_of_ok (h : (m.apply ti fails).1 = .ok) : (m.apply ti fails).2 =
    Function.update m.storage ti.uri (if ti.cmd = .remove then none else ti.newBinobj) := by
  have hrefused : ∀ {rc : ResultCode}, rc ≠ .ok → ∀ {storage storage' : Storage},
      (rc, storage).1 = .ok → (rc, storage).2 = storage' := fun hne _ _ h => absurd h hne
  revert h
  rw [apply]
  cases hcmd : ti.cmd with
  | remove =>
    dsimp only
    split
    · exact hrefused (by decide)
    split
    · exact hrefused (by decide)
    · exact fun _ => rfl
  | _ =>
    cases hobj : ti.newBinobj with
    | none => exact hrefused (by decide)
    | some obj =>
      dsimp only
      split
      · exact hrefused (by decide)
      split
      · exact hrefused (by decide)
      · exact fun _ => rfl

/-- Only what is there can be removed. -/
theorem apply_remove_of_none (hcmd : ti.cmd = .remove) (h : m.storage ti.uri = none) :
    (m.apply ti fails).1 ≠ .ok := by
  rw [apply, hcmd]
  dsimp only
  split
  · exact fun hok => ResultCode.noConfusion hok
  · rw [if_pos (.inr h)]
    exact fun hok => ResultCode.noConfusion hok

theorem execute_storage (m : Manager) (ti : TransactionItem) (fails : Bool) :
    (m.execute ti fails).storage = m.changed ti fails := by
  by_cases hass : assignedTo ti.assignedSubsystems subsystemStorage = true
  · by_cases hok : (m.apply ti fails).1 = .ok
    · simp [execute, changed, hass, hok]
    · simp [execute, changed, hass, hok, apply_of_ne_ok hok]
  · simp [execute, changed, hass]

theorem answerFrozen_storage (m : Manager) (ti : TransactionItem) (f : OptFreeze) :
    (m.answerFrozen ti f).storage = m.storage := by
  unfold answerFrozen
  split <;> rfl

theorem changed_congr {m' : Manager} (h : m'.storage = m.storage) :
    m'.changed ti fails = m.changed ti fails := by
  unfold changed apply
  rw [h]

theorem save_storage (m : Manager) (ti : TransactionItem) (f : OptFreeze) (fails : Bool) :
    (m.save ti f fails).2.storage = m.changed ti fails := by
  have hhandle : (m.handleSave ti f fails).storage = m.changed ti fails :=
    (execute_storage _ ti fails).trans (changed_congr (answerFrozen_storage m ti f))
  unfold save
  dsimp only
  split <;> exact hhandle

/-- A request touches no other key. -/
theorem changed_of_ne (h : uri ≠ ti.uri) : m.changed ti fails uri = m.storage uri := by
  unfold changed apply
  split
  · split
    · split
      · rfl
      split
      · rfl
      · exact Function.update_of_ne h _ _
    · split
      · rfl
      split
      · rfl
      · exact Function.update_of_ne h _ _
    · rfl
  · rfl

/-- Without a subsystem that stores, nothing changes. -/
theorem changed_of_not_assigned
    (h : assignedTo ti.assignedSubsystems subsystemStorage = false) :
    m.changed ti fails = m.storage := by
  simp [changed, h]

/-- A request leaves alone what is under another key, and everything if it is not meant for the
storage. -/
theorem save_storage_of_not (m : Manager) (ti : TransactionItem) (f : OptFreeze) (fails : Bool)
    (h : ¬(assignedTo ti.assignedSubsystems subsystemStorage = true ∧ ti.uri = uri)) :
    (m.save ti f fails).2.storage uri = m.storage uri := by
  rw [save_storage]
  by_cases hass : assignedTo ti.assignedSubsystems subsystemStorage = true
  · exact changed_of_ne fun huri => h ⟨hass, huri.symm⟩
  · rw [changed_of_not_assigned (by simpa using hass)]

/-- There is nothing to remove under a key that holds nothing. -/
theorem changed_remove_none (hcmd : ti.cmd = .remove) (h : m.storage ti.uri = none) :
    m.changed ti fails = m.storage := by
  unfold changed apply
  rw [hcmd, h]
  split
  · dsimp only
    split
    · rfl
    · rw [if_pos (.inr rfl)]
  · rfl

/-- A healthy manager stores what it is given. -/
theorem changed_put (hcmd : ti.cmd = .put) (hobj : ti.newBinobj = some obj) (huri : ti.uri ≠ "")
    (hass : assignedTo ti.assignedSubsystems subsystemStorage = true) :
    m.changed ti false = Function.update m.storage ti.uri (some obj) := by
  simp [changed, apply, hcmd, hobj, huri, hass]

/-- What a `PUT` leaves under its own key: the old state or the new one. -/
theorem changed_put_or (m : Manager) (fails : Bool) (hcmd : ti.cmd = .put)
    (hobj : ti.newBinobj = some obj) :
    m.changed ti fails ti.uri = m.storage ti.uri ∨
      m.changed ti fails ti.uri = some obj ∧ ti.uri ≠ "" ∧
        assignedTo ti.assignedSubsystems subsystemStorage = true := by
  unfold changed apply
  rw [hcmd, hobj]
  split
  · next hass =>
    dsimp only
    split
    · exact .inl rfl
    split
    · exact .inl rfl
    · next hne _ => exact .inr ⟨Function.update_self _ _ _, hne, hass⟩
  · exact .inl rfl

/-- The reply to a request that is not refused. -/
def reply (m : Manager) (ti : TransactionItem) (fails : Bool) : ResultCode :=
  if assignedTo ti.assignedSubsystems subsystemStorage = true ∧ (m.apply ti fails).1 ≠ .ok then
    .failStore
  else .ok

theorem execute_replies (m : Manager) (ti : TransactionItem) (fails : Bool) :
    (m.execute ti fails).replies = m.replies ++ [m.reply ti fails] ∧
      (m.execute ti fails).isFreeze = m.isFreeze := by
  by_cases hass : assignedTo ti.assignedSubsystems subsystemStorage = true
  · by_cases hok : (m.apply ti fails).1 = .ok
    · simp [execute, reply, hass, hok]
    · simp [execute, reply, hass, hok]
  · simp [execute, reply, hass]

theorem reply_eq_ok : m.reply ti fails = .ok ↔
    (assignedTo ti.assignedSubsystems subsystemStorage = true → (m.apply ti fails).1 = .ok) := by
  unfold reply
  split
  · next h => exact iff_of_false (by simp) fun hok => h.2 (hok h.1)
  · next h => exact iff_of_true rfl fun hass => by_contra fun hne => h ⟨hass, hne⟩

theorem save_of_replies (h : (m.handleSave ti f fails).replies = rc :: rest) :
    m.save ti f fails = (rc, { m.handleSave ti f fails with replies := rest }) := by
  unfold save
  dsimp only
  rw [h]

/-- The reply of a request to a manager that is not frozen, with an empty mailbox. -/
theorem save_reply (ti : TransactionItem) (f : OptFreeze) (fails : Bool) (hfreeze : m.isFreeze = false)
    (hreplies : m.replies = []) :
    (m.save ti f fails).1 = m.reply ti fails ∧ (m.save ti f fails).2.isFreeze = false ∧
      (m.save ti f fails).2.replies = [] := by
  have hfrozen : m.answerFrozen ti f = m := by simp [answerFrozen, hfreeze]
  obtain ⟨hrep, hfr⟩ := execute_replies m ti fails
  have hhead : (m.handleSave ti f fails).replies = m.reply ti fails :: [] := by
    rw [handleSave, hfrozen, hrep, hreplies]
    rfl
  rw [save_of_replies hhead]
  exact ⟨rfl, by simp [handleSave, hfrozen, hfr, hfreeze], rfl⟩

/-- A reply that was left over is taken for the answer. -/
theorem save_stale (ti : TransactionItem) (f : OptFreeze) (fails : Bool) (h : m.replies = rc :: rest) :
    (m.save ti f fails).1 = rc ∧ ∃ later, (m.save ti f fails).2.replies = rest ++ later := by
  have hfrozen : ∃ early, (m.answerFrozen ti f).replies = m.replies ++ early := by
    unfold answerFrozen
    split
    · exact ⟨_, rfl⟩
    · exact ⟨[], (List.append_nil _).symm⟩
  obtain ⟨early, hearly⟩ := hfrozen
  have hrep := (execute_replies (m.answerFrozen ti f) ti fails).1
  rw [hearly, h, List.append_assoc] at hrep
  rw [save_of_replies hrep]
  exact ⟨rfl, _, rfl⟩

end Manager

end Veda.Mstorage
