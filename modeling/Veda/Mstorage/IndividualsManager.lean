import Veda.Lib.Run
import Veda.Mstorage.AddToTransaction

/-! # The thread of the individuals

`individuals_manager` of `storage_manager.d` for the individuals database, with all that it owns:
the database, the operation ids, the module-info file, the queue `individuals-flow`, and the
results that it sends to those who asked to save. `Manager` is what a client sees of it as long as
nothing goes wrong (`State.manager_handleSave`). -/

namespace Veda.Mstorage.IndividualsManager

open Run

/-- How `storage.store` or `storage.remove` ends. An exception may come before or after the change
was made. -/
inductive StorageOutcome where
  | returns (rc : ResultCode)
  | raises (applied : Bool)
  deriving DecidableEq, Repr

/-- How the writing of a record to `individuals-flow` ends: it may raise an exception before or
after the record was pushed, and a queue that is not ready drops it. -/
structure PushOutcome where
  pushed : Bool
  raises : Bool
  deriving DecidableEq, Repr

structure Outcome where
  storage : StorageOutcome
  /-- `put_info` has written the module-info file. It raises no exception. -/
  infoWritten : Bool
  push : PushOutcome
  deriving DecidableEq, Repr

/-- All goes well. -/
def Outcome.fine : Outcome := ⟨.returns .ok, true, ⟨true, false⟩⟩

/-- A request to save. -/
structure SaveRequest where
  src : String
  tiz : List TransactionItem
  tnxId : Int
  optFreeze : OptFreeze

/-- The numbers in the module-info file. -/
structure MInfo where
  opId : Int
  committedOpId : Int
  deriving DecidableEq, Repr

/-- A record of `individuals-flow`, without the date. -/
structure FlowRecord where
  item : TransactionItem
  tnxId : Int
  src : String
  opId : Int

structure State where
  storage : Storage
  opId : Int
  committedOpId : Int
  isFreeze : Bool
  moduleInfo : Option MInfo
  /-- What was pushed, the oldest record first. -/
  flow : List FlowRecord
  /-- The results that were sent, the oldest first. -/
  replies : List ResultCode

namespace State

/-- The start of the thread. -/
def start (storage : Storage) (moduleInfo : Option MInfo) (flow : List FlowRecord) : State where
  storage := storage
  opId := (moduleInfo.map MInfo.committedOpId).getD 0
  committedOpId := 0
  isFreeze := false
  moduleInfo := moduleInfo
  flow := flow
  replies := []

/-- `op_id++` on a `long`. -/
def nextOpId (s : State) : Int := (s.opId + 1).bmod 0x10000000000000000

def send (rc : ResultCode) (s : State) : State := { s with replies := s.replies ++ [rc] }

def putInfo (written : Bool) (s : State) : State :=
  if written then { s with moduleInfo := some ⟨s.opId, s.committedOpId⟩ } else s

/-- The change that an item asks for. -/
def change (ti : TransactionItem) (storage : Storage) : Storage :=
  Function.update storage ti.uri (if ti.cmd = .remove then none else ti.newBinobj)

/-- The record of an item that was carried out. -/
def pushRecord (r : SaveRequest) (ti : TransactionItem) (o : PushOutcome) (s : State) : State :=
  let tnxId := if r.tnxId ≤ 0 then s.opId else r.tnxId
  let src := if r.src = "" then "?" else r.src
  let s := if o.pushed then { s with flow := s.flow ++ [⟨ti, tnxId, src, s.opId⟩] } else s
  if o.raises then s.send .failCommit else s

/-- What follows the answer `Ok` of the storage. -/
def succeed (r : SaveRequest) (ti : TransactionItem) (o : Outcome) (s : State) : State :=
  (({ s with opId := s.nextOpId }.send .ok).putInfo o.infoWritten).pushRecord r ti o.push

/-- The body of the `try` block. An item of another command is not answered. -/
def execute (r : SaveRequest) (ti : TransactionItem) (o : Outcome) (s : State) : State :=
  if ti.cmd = .put ∨ ti.cmd = .remove then
    if assignedTo ti.assignedSubsystems subsystemStorage then
      match o.storage with
      | .raises applied =>
        { s with storage := if applied then change ti s.storage else s.storage }.send .failCommit
      | .returns rc =>
        if rc = .ok then { s with storage := change ti s.storage }.succeed r ti o
        else s.send .failStore
    else s.succeed r ti o
  else s

/-- The answer to a `PUT` while the manager is frozen. -/
def answerFrozen (r : SaveRequest) (ti : TransactionItem) (s : State) : State :=
  if r.optFreeze = .none ∧ s.isFreeze ∧ ti.cmd = .put then s.send .notReady else s

/-- The handler of a save request: the first item is carried out, also by a frozen manager. -/
def handleSave (r : SaveRequest) (o : Outcome) (s : State) : State :=
  match r.tiz with
  | [] => s.send .noContent
  | ti :: _ => (s.answerFrozen r ti).execute r ti o

/-- The periodic `CMD_COMMIT`; `flushes` is false where `storage.flush` raises an exception. -/
def commit (flushes written : Bool) (s : State) : State :=
  if s.committedOpId ≠ s.opId ∧ flushes then { s with committedOpId := s.opId }.putInfo written
  else s

/-- `CMD_COMMIT` of a thread that waits for it. -/
def commitAndReply (flushes written : Bool) (s : State) : State :=
  let s := { s with committedOpId := s.opId }
  if flushes then s.putInfo written else s

end State

inductive Message where
  | save (r : SaveRequest) (o : Outcome)
  | commit (flushes written : Bool)
  | commitAndReply (flushes written : Bool)
  | freeze
  | unfreeze
  | find (uri : String)

/-- A message is received. The answers to `FREEZE`, `FIND` and a `COMMIT` that is waited for are not
results. -/
def step : Message → State → State
  | .save r o, s => s.handleSave r o
  | .commit flushes written, s => s.commit flushes written
  | .commitAndReply flushes written, s => s.commitAndReply flushes written
  | .freeze, s => { s with isFreeze := true }
  | .unfreeze, s => { s with isFreeze := false }
  | .find _, s => s

/-! ## What a request changes -/

/-- The commands that the handler carries out. -/
def Writes (ti : TransactionItem) : Prop := ti.cmd = .put ∨ ti.cmd = .remove

/-- The item gets as far as the queue: the storage is not asked or says `Ok`. -/
def Carried (ti : TransactionItem) (o : Outcome) : Prop :=
  assignedTo ti.assignedSubsystems subsystemStorage = true → o.storage = .returns .ok

/-- The storage is asked and makes the change, even if it raises an exception later. -/
def Changes (ti : TransactionItem) (o : Outcome) : Prop :=
  assignedTo ti.assignedSubsystems subsystemStorage = true ∧
    (o.storage = .returns .ok ∨ o.storage = .raises true)

instance : Decidable (Writes ti) := inferInstanceAs (Decidable (_ ∨ _))

instance : Decidable (Carried ti o) := inferInstanceAs (Decidable (_ → _))

instance : Decidable (Changes ti o) := inferInstanceAs (Decidable (_ ∧ _))

namespace State

variable {s : State} {r : SaveRequest} {ti : TransactionItem} {o : Outcome}

/-- The record that is pushed for an item. -/
def record (s : State) (r : SaveRequest) (ti : TransactionItem) : FlowRecord where
  item := ti
  tnxId := if r.tnxId ≤ 0 then s.nextOpId else r.tnxId
  src := if r.src = "" then "?" else r.src
  opId := s.nextOpId

@[simp] theorem putInfo_true (s : State) :
    s.putInfo true = { s with moduleInfo := some ⟨s.opId, s.committedOpId⟩ } := rfl

@[simp] theorem putInfo_false (s : State) : s.putInfo false = s := rfl

/-- A commit touches the committed operation id and the file. -/
theorem commit_eq (s : State) (flushes written : Bool) : s.commit flushes written = { s with
      committedOpId := if flushes then s.opId else s.committedOpId
      moduleInfo := if s.committedOpId ≠ s.opId ∧ flushes ∧ written then some ⟨s.opId, s.opId⟩
        else s.moduleInfo } := by
  by_cases h : s.committedOpId = s.opId
  · have hsame : s.commit flushes written = s := if_neg fun hne => hne.1 h
    cases s
    cases h
    simp [hsame]
  · cases flushes <;> cases written <;> simp [commit, h]

theorem commitAndReply_eq (s : State) (flushes written : Bool) :
    s.commitAndReply flushes written = { s with
      committedOpId := s.opId
      moduleInfo := if flushes ∧ written then some ⟨s.opId, s.opId⟩ else s.moduleInfo } := by
  cases flushes <;> cases written <;> simp [commitAndReply]

/-- The queue, the file and the mailbox after the answer `Ok`. -/
theorem succeed_eq (s : State) (r : SaveRequest) (ti : TransactionItem) (o : Outcome) :
    s.succeed r ti o = { s with
      opId := s.nextOpId
      moduleInfo := if o.infoWritten then some ⟨s.nextOpId, s.committedOpId⟩ else s.moduleInfo
      flow := if o.push.pushed then s.flow ++ [s.record r ti] else s.flow
      replies := s.replies ++ .ok :: if o.push.raises then [.failCommit] else [] } := by
  obtain ⟨_, written, pushed, raises⟩ := o
  cases written <;> cases pushed <;> cases raises <;>
    simp [succeed, pushRecord, send, record]

/-- An item that is carried out. -/
theorem execute_of_carried (hcmd : Writes ti) (h : Carried ti o) :
    s.execute r ti o = { s with
      storage := if Changes ti o then change ti s.storage else s.storage }.succeed r ti o := by
  rw [execute, if_pos (show ti.cmd = .put ∨ ti.cmd = .remove from hcmd)]
  by_cases hass : assignedTo ti.assignedSubsystems subsystemStorage = true
  · have hst := h hass
    have hch : Changes ti o := ⟨hass, .inl hst⟩
    rw [if_pos hass, if_pos hch, hst]
    rfl
  · rw [if_neg hass, if_neg fun hch : Changes ti o => hass hch.1]

/-- An item that is not carried out is answered by an error, and leaves at most its change in the
storage. -/
theorem execute_of_not_carried (hcmd : Writes ti) (h : ¬Carried ti o) : ∃ rc, rc ≠ .ok ∧
    s.execute r ti o = { s with
      storage := if Changes ti o then change ti s.storage else s.storage }.send rc := by
  obtain ⟨hass, hst⟩ := Classical.not_imp.mp h
  rw [execute, if_pos (show ti.cmd = .put ∨ ti.cmd = .remove from hcmd), if_pos hass]
  cases hout : o.storage with
  | raises applied =>
    refine ⟨.failCommit, by decide, ?_⟩
    cases applied <;> simp [Changes, hass, hout]
  | returns rc =>
    have hrc : rc ≠ .ok := fun hrc => hst (hrc ▸ hout)
    refine ⟨.failStore, by decide, ?_⟩
    simp [Changes, hout, hrc]

theorem execute_of_not_writes (h : ¬Writes ti) : s.execute r ti o = s := if_neg h

theorem execute_storage (s : State) (r : SaveRequest) (ti : TransactionItem) (o : Outcome) :
    (s.execute r ti o).storage =
      if Writes ti ∧ Changes ti o then change ti s.storage else s.storage := by
  by_cases hcmd : Writes ti
  · by_cases hc : Carried ti o
    · simp [execute_of_carried hcmd hc, succeed_eq, hcmd]
    · obtain ⟨rc, _, heq⟩ := execute_of_not_carried (s := s) (r := r) hcmd hc
      simp [heq, send, hcmd]
  · simp [execute_of_not_writes hcmd, hcmd]

/-- The answer to a frozen `PUT` changes the mailbox only. -/
theorem answerFrozen_eq (s : State) (r : SaveRequest) (ti : TransactionItem) :
    ∃ replies, s.answerFrozen r ti = { s with replies := replies } := by
  unfold answerFrozen
  split
  · exact ⟨_, rfl⟩
  · exact ⟨s.replies, rfl⟩

theorem handleSave_storage (s : State) (o : Outcome) (htiz : r.tiz = ti :: rest) :
    (s.handleSave r o).storage =
      if Writes ti ∧ Changes ti o then change ti s.storage else s.storage := by
  obtain ⟨replies, hfrozen⟩ := s.answerFrozen_eq r ti
  rw [handleSave, htiz]
  dsimp only
  rw [execute_storage, hfrozen]

theorem execute_flow (s : State) (r : SaveRequest) (ti : TransactionItem) (o : Outcome) :
    (s.execute r ti o).flow =
      if Writes ti ∧ Carried ti o ∧ o.push.pushed then s.flow ++ [s.record r ti] else s.flow := by
  by_cases hcmd : Writes ti
  · by_cases hc : Carried ti o
    · simp [execute_of_carried hcmd hc, succeed_eq, hcmd, hc, record, nextOpId]
    · obtain ⟨rc, _, heq⟩ := execute_of_not_carried (s := s) (r := r) hcmd hc
      simp [heq, send, hc]
  · simp [execute_of_not_writes hcmd, hcmd]

theorem handleSave_flow (s : State) (o : Outcome) (htiz : r.tiz = ti :: rest) :
    (s.handleSave r o).flow =
      if Writes ti ∧ Carried ti o ∧ o.push.pushed then s.flow ++ [s.record r ti] else s.flow := by
  obtain ⟨replies, hfrozen⟩ := s.answerFrozen_eq r ti
  rw [handleSave, htiz]
  dsimp only
  rw [execute_flow, hfrozen]
  rfl

theorem execute_isFreeze (s : State) (r : SaveRequest) (ti : TransactionItem) (o : Outcome) :
    (s.execute r ti o).isFreeze = s.isFreeze := by
  by_cases hcmd : Writes ti
  · by_cases hc : Carried ti o
    · rw [execute_of_carried hcmd hc, succeed_eq]
    · obtain ⟨rc, _, heq⟩ := execute_of_not_carried (s := s) (r := r) hcmd hc
      rw [heq, send]
  · rw [execute_of_not_writes hcmd]

end State

/-! ## What a client sees -/

/-- The part of the state that `Manager` models. -/
def State.manager (s : State) : Manager where
  storage := s.storage
  isFreeze := s.isFreeze
  opId := s.opId.toNat
  flow := (s.flow.map fun record => (record.item, record.opId.toNat)).reverse
  replies := s.replies

namespace State

variable {s : State} {r : SaveRequest} {ti : TransactionItem} {o : Outcome}

theorem manager_answerFrozen (s : State) (r : SaveRequest) (ti : TransactionItem) :
    (s.answerFrozen r ti).manager = s.manager.answerFrozen ti r.optFreeze := by
  by_cases h : r.optFreeze = .none ∧ s.isFreeze ∧ ti.cmd = .put
  · have h' : r.optFreeze = .none ∧ s.manager.isFreeze ∧ ti.cmd = .put := h
    rw [answerFrozen, Manager.answerFrozen, if_pos h, if_pos h']
    rfl
  · have h' : ¬(r.optFreeze = .none ∧ s.manager.isFreeze ∧ ti.cmd = .put) := h
    rw [answerFrozen, Manager.answerFrozen, if_neg h, if_neg h']

theorem manager_execute_of_carried (hcmd : Writes ti) (hnonneg : 0 ≤ s.opId)
    (hid : s.opId < 0x7FFFFFFFFFFFFFFF) (hpush : o.push = ⟨true, false⟩) (hc : Carried ti o) :
    (s.execute r ti o).manager = { s.manager with
      storage := if Changes ti o then change ti s.storage else s.storage
      opId := s.manager.opId + 1
      flow := (ti, s.manager.opId + 1) :: s.manager.flow
      replies := s.manager.replies ++ [.ok] } := by
  have hnext : s.nextOpId.toNat = s.opId.toNat + 1 := by
    unfold nextOpId
    rw [Int.bmod_eq_of_le (by omega) (by omega)]
    omega
  have hnext' : ∀ storage, ({ s with storage := storage } : State).nextOpId = s.nextOpId :=
    fun _ => rfl
  rw [execute_of_carried hcmd hc, succeed_eq]
  simp [manager, hpush, record, hnext', hnext]

theorem manager_execute (hcmd : Writes ti) (hnonneg : 0 ≤ s.opId)
    (hid : s.opId < 0x7FFFFFFFFFFFFFFF)
    (hst : o.storage = .returns (s.manager.apply ti fails).1) (hpush : o.push = ⟨true, false⟩) :
    (s.execute r ti o).manager = s.manager.execute ti fails := by
  by_cases hass : assignedTo ti.assignedSubsystems subsystemStorage = true
  · by_cases hok : (s.manager.apply ti fails).1 = .ok
    · have hc : Carried ti o := fun _ => hok ▸ hst
      have hch : Changes ti o := ⟨hass, .inl (hok ▸ hst)⟩
      rw [manager_execute_of_carried hcmd hnonneg hid hpush hc, if_pos hch, Manager.execute]
      simp only [hass, hok, Manager.apply_of_ok hok, if_true]
      rfl
    · rw [execute, if_pos (show ti.cmd = .put ∨ ti.cmd = .remove from hcmd), if_pos hass, hst,
        Manager.execute]
      simp only [hass, hok, if_true, if_false]
      rfl
  · have hc : Carried ti o := fun h => absurd h hass
    have hch : ¬Changes ti o := fun h => hass h.1
    rw [manager_execute_of_carried hcmd hnonneg hid hpush hc, if_neg hch, Manager.execute]
    simp only [hass]
    rfl

/-- As long as nothing goes wrong a client sees of the thread what `Manager` does. -/
theorem manager_handleSave (hcmd : Writes ti) (htiz : r.tiz = [ti]) (hnonneg : 0 ≤ s.opId)
    (hid : s.opId < 0x7FFFFFFFFFFFFFFF)
    (hst : o.storage = .returns (s.manager.apply ti fails).1) (hpush : o.push = ⟨true, false⟩) :
    (s.handleSave r o).manager = s.manager.handleSave ti r.optFreeze fails := by
  obtain ⟨replies, hreplies⟩ := s.answerFrozen_eq r ti
  have hfrozen : (s.answerFrozen r ti).opId = s.opId := by rw [hreplies]
  have happly : (s.manager.answerFrozen ti r.optFreeze).apply ti fails = s.manager.apply ti fails := by
    unfold Manager.answerFrozen
    split <;> rfl
  rw [Manager.handleSave, ← manager_answerFrozen, handleSave, htiz]
  apply manager_execute hcmd (hfrozen ▸ hnonneg) (hfrozen ▸ hid) _ hpush
  rw [manager_answerFrozen, happly, hst]

end State

end Veda.Mstorage.IndividualsManager
