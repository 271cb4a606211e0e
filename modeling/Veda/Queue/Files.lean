import Veda.Queue.Record

/-! # The files of a queue and the producer

`Queue` of `queue.d`. A queue is a sequence of parts, each with a file of records and a file
`_info_push` that counts them, and a file `_info_queue` with the number of the last part. A file
is seen through what is read from it: the lines of the two info files are kept as the numbers in
them, and all of the writes of a call have reached the file when the call returns.

A queue that was opened for writing is a `Producer`; the part of `Queue` that a consumer works
with is `QueueR`. -/

namespace Veda.Queue

/-- The line of `_info_push`. -/
structure InfoPush where
  rightEdge : BitVec 64
  countPushed : BitVec 32
  deriving DecidableEq, Repr

/-- The files of a part. Up to the first push `_info_push` is empty. -/
structure Part where
  queue : Bytes
  infoPush : Option InfoPush
  deriving DecidableEq, Repr

/-- The files of a queue: the number in `_info_queue`, and the parts. -/
structure Files where
  infoQueue : Option Nat
  parts : Nat → Option Part

namespace Files

def empty : Files := ⟨none, fun _ => none⟩

def modifyPart (files : Files) (id : Nat) (f : Part → Part) : Files :=
  { files with parts := Function.update files.parts id ((files.parts id).map f) }

/-- The file of records of a part. -/
def queueOf (files : Files) (id : Nat) : Option Bytes := (files.parts id).map Part.queue

end Files

/-! ## The producer -/

structure Producer where
  id : Nat
  countPushed : BitVec 32
  rightEdge : BitVec 64
  deriving DecidableEq, Repr

namespace Producer

/-- `Queue.open` of a new queue object in the mode `RW`. -/
def openRW (files : Files) : Producer × Files :=
  let id := match files.infoQueue with
    | none => 0
    | some id => (id + 1) % 2 ^ 32
  let part := (files.parts id).getD ⟨[], none⟩
  (⟨id, 0, 0⟩, ⟨some id, Function.update files.parts id (some part)⟩)

variable (crc32 : Bytes → BitVec 32)

def putMsg (msg : Bytes) (type : QMessageType) (q : Producer) (files : Files) :
    Producer × Files :=
  if msg.length = 0 then (q, files)
  else if msg.length > 0xFFFFFFFF / 2 then (q, files)
  else
    let bytes := record crc32 q.rightEdge q.countPushed type.code msg
    ({ q with rightEdge := q.rightEdge + BitVec.ofNat 64 bytes.length },
      files.modifyPart q.id fun part => { part with queue := part.queue ++ bytes })

def putInfoPush (q : Producer) (files : Files) : Files :=
  files.modifyPart q.id fun part => { part with infoPush := some ⟨q.rightEdge, q.countPushed⟩ }

/-- The part of `push` that comes before `put_info_push`. -/
def append (msg : Bytes) (type : QMessageType) (q : Producer) (files : Files) :
    Producer × Files :=
  putMsg crc32 msg type { q with countPushed := q.countPushed + 1 } files

def push (msg : Bytes) (type : QMessageType) (q : Producer) (files : Files) :
    Producer × Files :=
  let (q, files) := append crc32 msg type q files
  (q, q.putInfoPush files)

end Producer

/-! ## The reading side -/

/-- What a consumer uses of its queue object. A file that is open for reading is the number of
its part. -/
structure QueueR where
  isReady : Bool
  id : Nat
  countPushed : BitVec 32
  rightEdge : BitVec 64
  infoPushR : Option Nat
  queueR : Option Nat
  deriving DecidableEq, Repr

namespace QueueR

/-- `Queue.open` of a new queue object in the mode `R`. -/
def openR : QueueR := ⟨true, 0, 0, 0, none, none⟩

def getInfoQueue (files : Files) (q : QueueR) : QueueR :=
  if !q.isReady then q
  else
    match files.infoQueue with
    | none => { q with isReady := false }
    | some id => { q with id := id }

/-- The line of `_info_push` of the part that is open. -/
def readInfoPush (files : Files) (q : QueueR) : QueueR :=
  match q.infoPushR.bind fun id => (files.parts id).bind Part.infoPush with
  | none => q
  | some info => { q with rightEdge := info.rightEdge, countPushed := info.countPushed }

def getInfoPush (files : Files) (partId : Nat) (q : QueueR) : Bool × QueueR :=
  if !q.isReady then (false, q)
  else if q.id ≠ partId ∨ q.infoPushR = none then
    if (files.parts partId).isSome then
      (true, { q with infoPushR := some partId }.readInfoPush files)
    else (false, { q with isReady := false })
  else (true, q.readInfoPush files)

/-- `get_r_queue_file`. -/
def getRQueueFile (partId : Nat) (q : QueueR) : QueueR :=
  if q.id ≠ partId ∨ q.queueR = none then { q with id := partId, queueR := some partId } else q

end QueueR

end Veda.Queue
