import Veda.Queue.Files

/-! # The consumer in Rust

`Consumer` and `Queue` of `v-queue`. The file of records is read on from where the last read
ended: the position is that of the file, and `pos_record` is used to write `_info_pop` and after a
short read of a body only.

Every read of a file takes the files as they are at that moment. The file `_info_pop` is read only
when a consumer is created and does not appear, see `Veda.Queue.Consumer`. -/

namespace Veda.VQueue

open LittleEndian Queue

/-- `Header`. -/
structure Header where
  startPos : BitVec 64
  msgLength : BitVec 32
  magicMarker : BitVec 32
  countPushed : BitVec 32
  crc : BitVec 32
  msgType : Byte
  deriving DecidableEq, Repr

/-- The header in a buffer, with `from_ne_bytes` on a little-endian machine. -/
def Header.ofBuff (buff : Bytes) : Header where
  startPos := ulongFromBuff buff 0
  msgLength := uintFromBuff buff 8
  magicMarker := uintFromBuff buff 12
  countPushed := uintFromBuff buff 16
  msgType := (buff.drop 20).headD 0
  crc := uintFromBuff buff 21

/-- `Queue`. A file that is open is the number of its part. -/
structure Queue where
  isReady : Bool
  ffQueueR : Nat
  /-- The position in `ff_queue_r`. -/
  cursor : Nat
  ffInfoPushW : Nat
  countPushed : Nat
  rightEdge : Nat
  id : Nat
  deriving DecidableEq, Repr

structure Consumer where
  isReady : Bool
  queue : Queue
  countPopped : Nat
  posRecord : Nat
  id : Nat
  header : Header
  /-- What was given to `hash` since it was made. -/
  hash : Bytes
  deriving DecidableEq

namespace Queue

def getInfoQueue (files : Files) (q : Queue) : Queue := { q with id := files.infoQueue.getD 0 }

/-- The line of `_info_push` of the part that is open. -/
def readInfoPush (files : Files) (q : Queue) : Queue :=
  match (files.parts q.ffInfoPushW).bind Part.infoPush with
  | none => { q with rightEdge := 0, countPushed := 0 }
  | some info =>
    { q with rightEdge := info.rightEdge.toNat, countPushed := info.countPushed.toNat }

def getInfoOfPart (files : Files) (partId : Nat) (q : Queue) : Bool × Queue :=
  if q.id ≠ partId then
    if (files.parts partId).isSome then
      (true, { q with ffInfoPushW := partId }.readInfoPush files)
    else (false, q)
  else (true, q.readInfoPush files)

def openPart (files : Files) (partId : Nat) (q : Queue) : Bool × Queue :=
  if !q.isReady then (false, q)
  else if (files.parts partId).isSome then
    let q := { q with ffInfoPushW := partId, ffQueueR := partId, cursor := 0 }
    q.getInfoOfPart files q.id
  else (false, { q with isReady := false })

/-- `ff_queue_r.read` into a buffer of `n` bytes. -/
def read (files : Files) (n : Nat) (q : Queue) : Bytes × Queue :=
  let data := (((files.queueOf q.ffQueueR).getD []).drop q.cursor).take n
  (data, { q with cursor := q.cursor + data.length })

end Queue

namespace Consumer

/-- `Consumer::new` without an `_info_pop`, for a queue of which the first part is there. -/
def new (files : Files) : Consumer where
  isReady := true
  queue := Queue.readInfoPush files ⟨true, 0, 0, 0, 0, 0, files.infoQueue.getD 0⟩
  countPopped := 0
  posRecord := 0
  id := 0
  header := ⟨0, 0, 0, 0, 0, 0⟩
  hash := []

/-- `pop_header`, up to the second comparison of the counters. -/
def headerInfo (files : Files) (c : Consumer) : Bool × Consumer :=
  if c.countPopped ≥ c.queue.countPushed then
    let (ok, queue) := c.queue.getInfoOfPart files c.id
    (ok, { c with queue })
  else (true, c)

/-- `pop_header`, from there to the read of the header. -/
def headerPart (files : Files) (c : Consumer) : Bool × Consumer :=
  if c.countPopped ≥ c.queue.countPushed then
    let c := if c.queue.id = c.id then { c with queue := c.queue.getInfoQueue files } else c
    if c.queue.id > c.id then
      let c := { c with id := c.id + 1 }
      let (ok, queue) := c.queue.getInfoOfPart files c.id
      let c := { c with queue }
      if ok then
        -- `open` and `put_info`
        let c := { c with countPopped := 0, posRecord := 0, isReady := c.isReady && queue.isReady }
        (true, { c with queue := (queue.openPart files c.id).2 })
      else (false, c)
    else (true, c)
  else (true, c)

/-- The end of `pop_header`. -/
def headerRead (files : Files) (c : Consumer) : Bool × Consumer :=
  let (buff, queue) := c.queue.read files headerLength
  let c := { c with queue }
  if buff.length < headerLength then (false, c)
  else (true, { c with header := Header.ofBuff buff, hash := buff.take 21 ++ [0, 0, 0, 0] })

/-- `pop_header`. -/
def popHeader (files₁ files₂ files₃ : Files) (c : Consumer) : Bool × Consumer :=
  let (ok, c) := c.headerInfo files₁
  if ok then
    let (ok, c) := c.headerPart files₂
    if ok then c.headerRead files₃ else (false, c)
  else (false, c)

/-- The end of `pop_body`, once `msg` is filled. -/
def checkBody (crc32 : Bytes → BitVec 32) (readedSize : Nat) (msg : Bytes) (c : Consumer) :
    Bool × Bytes × Consumer :=
  let c := { c with
    posRecord := c.posRecord + headerLength + readedSize
    hash := c.hash ++ msg }
  if crc32 c.hash ≠ c.header.crc then (false, msg, { c with isReady := false })
  else (true, msg, c)

/-- `pop_body` into a buffer of `n` bytes. -/
def popBody (crc32 : Bytes → BitVec 32) (files₁ files₂ : Files) (n : Nat) (c : Consumer) :
    Bool × Bytes × Consumer :=
  if !c.isReady then (false, [], c)
  else
    let (msg, queue) := c.queue.read files₁ n
    let c := { c with queue }
    if msg.length ≠ n then
      -- attempt read again
      if c.countPopped = c.queue.countPushed then
        let (msg₂, queue) := { c.queue with cursor := c.posRecord }.read files₂ n
        let c := { c with queue }
        if msg₂.length = n then c.checkBody crc32 msg.length msg₂
        else (false, msg₂, { c with isReady := false })
      else (false, msg, { c with isReady := false })
    else c.checkBody crc32 msg.length msg

def commitAndNext (c : Consumer) : Bool × Consumer :=
  if !c.isReady then (false, c) else (true, { c with countPopped := c.countPopped + 1 })

end Consumer

end Veda.VQueue
