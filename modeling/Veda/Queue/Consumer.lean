import Veda.Queue.Files

/-! # The consumer in D

`Consumer` of `queue.d`, opened for the first time in the mode `RW`. The file `_info_pop` of a
consumer is read only when a consumer is opened, and the model has one consumer object over its
whole life, so that file does not appear. -/

namespace Veda.Queue

open LittleEndian

structure Consumer where
  queue : QueueR
  isReady : Bool
  countPopped : BitVec 32
  id : Nat
  startPosRecord : BitVec 64
  /-- The length of `buff`. -/
  buffLength : Nat
  headerBuff : HeaderBuff
  header : Header
  lastReadMsg : Bytes
  deriving DecidableEq

/-- What `pop` returns. -/
inductive Popped where
  | null
  | msg (msg : Bytes)
  /-- An exception of `rawRead` or of the opening of a file. -/
  | raised
  deriving DecidableEq, Repr

namespace Consumer

/-- `Consumer.open` of a new consumer object, without an `_info_pop`. -/
def openNew : Consumer where
  queue := .openR
  isReady := true
  countPopped := 0
  id := 0
  startPosRecord := 0
  buffLength := 4096 * 100
  headerBuff := .init
  header := .init
  lastReadMsg := []

/-- The end of `pop`: the record at `start_pos_record`. -/
def readRecord (file : Bytes) (c : Consumer) : Popped × Consumer :=
  let rest := file.drop c.startPosRecord.toNat
  let headerBuff := c.headerBuff.read rest
  let header := Header.fromBuff headerBuff.1
  let c := { c with headerBuff, header }
  if header.startPos ≠ c.startPosRecord then (.null, c)
  else
    let buffLength :=
      if header.msgLength.toNat ≥ c.buffLength then (header.msgLength + 1).toNat
      else c.buffLength
    let c := { c with buffLength }
    if header.msgLength.toNat < c.buffLength then
      if header.msgLength = 0 then (.raised, c)
      else
        let lastReadMsg := (rest.drop headerLength).take header.msgLength.toNat
        let c := { c with lastReadMsg }
        if lastReadMsg.length < header.msgLength.toNat then (.null, c)
        else (.msg lastReadMsg, c)
    else (.null, c)

/-- The second half of `pop`, after `_info_push` was read. -/
def popRest (files : Files) (c : Consumer) : Popped × Consumer :=
  if c.countPopped ≥ c.queue.countPushed then
    let c := if c.queue.id = c.id then { c with queue := c.queue.getInfoQueue files } else c
    if c.queue.id > c.id then
      let id := c.id + 1
      let (ok, queue) := { c.queue with id }.getInfoPush files id
      if ok then
        -- `remove`, `open` and `put_info`
        (.null, { c with id, queue, countPopped := 0, startPosRecord := 0, isReady := true })
      else (.null, { c with id, queue })
    else (.null, c)
  else
    let queue := c.queue.getRQueueFile c.id
    let c := { c with queue }
    match queue.queueR.bind files.queueOf with
    | none => (.raised, c)
    | some file => c.readRecord file

/-- The first half of `pop`. -/
def popInfo (files : Files) (c : Consumer) : Bool × Consumer :=
  if c.countPopped ≥ c.queue.countPushed then
    let (ok, queue) := c.queue.getInfoPush files c.id
    (ok, { c with queue })
  else (true, c)

def pop (files : Files) (c : Consumer) : Popped × Consumer :=
  if !c.queue.isReady || !c.isReady then (.null, c)
  else
    let (ok, c) := c.popInfo files
    if ok then c.popRest files else (.null, c)

/-- The comparison of the checksums. -/
def crcAgrees (crc32 : Bytes → BitVec 32) (c : Consumer) : Prop :=
  c.header.crc = crcBytes crc32 (c.headerBuff.zeroCrc.1 ++ c.lastReadMsg)

instance (crc32 : Bytes → BitVec 32) (c : Consumer) : Decidable (c.crcAgrees crc32) :=
  inferInstanceAs (Decidable (_ = _))

/-- `put_info`. -/
def putInfo (c : Consumer) : Bool × Consumer :=
  if !c.queue.isReady || !c.isReady then (false, c) else (true, { c with id := c.queue.id })

def commitAndNext (crc32 : Bytes → BitVec 32) (files : Files) (c : Consumer) : Bool × Consumer :=
  if !c.queue.isReady || !c.isReady then (false, c)
  else
    let c := { c with queue := (c.queue.getInfoPush files c.id).2 }
    if c.countPopped ≥ c.queue.countPushed then (false, c)
    else
      let agrees := c.crcAgrees crc32
      let c := { c with headerBuff := c.headerBuff.zeroCrc }
      if agrees then
        { c with
          countPopped := c.countPopped + 1
          startPosRecord := c.startPosRecord + (25 + c.header.msgLength).setWidth 64 }.putInfo
      else (false, c)

/-! ## Reading a record -/

section
variable {crc32 : Bytes → BitVec 32} {startPos : BitVec 64} {count : BitVec 32} {type : Byte}
  {msg : Bytes}

/-- The state after a record was read. -/
structure Loaded (crc32 : Bytes → BitVec 32) (startPos : BitVec 64) (count : BitVec 32)
    (type : Byte) (msg : Bytes) (c : Consumer) : Prop where
  header : c.header = readHeader crc32 startPos count type msg
  lastReadMsg : c.lastReadMsg = msg
  zeroCrc : c.headerBuff.zeroCrc.1 = (putHeader startPos count type msg).toBuff

theorem Loaded.crcAgrees (h : Loaded crc32 startPos count type msg c) : c.crcAgrees crc32 := by
  rw [Consumer.crcAgrees, h.header, h.lastReadMsg, h.zeroCrc]
  rfl

/-- What reading a record leaves unchanged. -/
structure ReadFrame (c c' : Consumer) : Prop where
  queue : c'.queue = c.queue
  isReady : c'.isReady = c.isReady
  countPopped : c'.countPopped = c.countPopped
  id : c'.id = c.id
  startPosRecord : c'.startPosRecord = c.startPosRecord

theorem toNat_ofNat_length (h : msg.length ≤ 0xFFFFFFFF / 2) :
    (BitVec.ofNat 32 msg.length).toNat = msg.length := by
  rw [BitVec.toNat_ofNat]
  exact Nat.mod_eq_of_lt (by omega)

/-- A record that `put_msg` wrote is read at its start position. -/
theorem readRecord_record (crc32 : Bytes → BitVec 32) (count : BitVec 32) (type : Byte)
    (c : Consumer) (before rest : Bytes)
    (hstart : c.startPosRecord = startPos) (hbefore : before.length = startPos.toNat)
    (hne : msg ≠ []) (hlen : msg.length ≤ 0xFFFFFFFF / 2) :
    ∃ c', c.readRecord (before ++ (record crc32 startPos count type msg ++ rest)) =
      (.msg msg, c') ∧ Loaded crc32 startPos count type msg c' ∧ ReadFrame c c' := by
  have hdrop : (before ++ (record crc32 startPos count type msg ++ rest)).drop
      c.startPosRecord.toNat = record crc32 startPos count type msg ++ rest := by
    rw [hstart]
    exact List.drop_left' hbefore
  have hheader := HeaderBuff.fromBuff_read_record crc32 startPos count type msg c.headerBuff rest
  have hzero := HeaderBuff.zeroCrc_read_record crc32 startPos count type msg c.headerBuff rest
  have hmsgLength : (readHeader crc32 startPos count type msg).msgLength.toNat = msg.length :=
    toNat_ofNat_length hlen
  have hpos : 0 < msg.length := List.length_pos_iff.mpr hne
  have hnonzero : (readHeader crc32 startPos count type msg).msgLength ≠ 0 := by
    intro h
    rw [h] at hmsgLength
    simp at hmsgLength
    omega
  have hbuff : msg.length < if msg.length ≥ c.buffLength then
      ((readHeader crc32 startPos count type msg).msgLength + 1).toNat else c.buffLength := by
    split
    · have hone : (1 : BitVec 32).toNat = 1 := rfl
      rw [BitVec.toNat_add, hmsgLength, hone, Nat.mod_eq_of_lt (by omega)]
      omega
    · omega
  have hbody : ((record crc32 startPos count type msg ++ rest).drop headerLength).take msg.length =
      msg := by
    rw [drop_record]
    exact List.take_left' rfl
  unfold readRecord
  simp only [hdrop, hheader, hmsgLength, hbody, Nat.lt_irrefl, if_false]
  rw [if_neg (by simp [readHeader, putHeader, hstart]), if_pos hbuff, if_neg hnonzero]
  exact ⟨_, rfl, ⟨rfl, rfl, hzero⟩, ⟨rfl, rfl, rfl, rfl, rfl⟩⟩

end

end Consumer

end Veda.Queue
