import Veda.Queue.Readers
import Veda.Queue.Log

/-! # Where a consumer in Rust stands

The consumer in Rust before a record of a file, after the header of it and after its body. What is
read is described by the bytes that the read sees, so that it applies to a file that is still being
written. -/

namespace Veda.Queue

theorem drop_records (crc32 : Bytes → BitVec 32) (ms : List Message) (k : Nat)
    (hk : k < ms.length) :
    (records crc32 0 0 ms).drop (size (ms.take k)) =
      ms[k].record crc32 (size (ms.take k)) k ++
        records crc32 (size (ms.take (k + 1))) (k + 1) (ms.drop (k + 1)) := by
  rw [records_at crc32 ms k hk]
  exact List.drop_left' (length_records crc32 0 0 _)

theorem take_header (crc32 : Bytes → BitVec 32) (ms : List Message) (k : Nat)
    (hk : k < ms.length) :
    ((records crc32 0 0 ms).drop (size (ms.take k))).take headerLength =
      (ms[k].record crc32 (size (ms.take k)) k).take headerLength := by
  rw [drop_records crc32 ms k hk]
  apply List.take_append_of_le_length
  rw [Message.length_record, Message.size]
  omega

theorem take_body (crc32 : Bytes → BitVec 32) (ms : List Message) (k : Nat) (hk : k < ms.length) :
    ((records crc32 0 0 ms).drop (size (ms.take k) + headerLength)).take ms[k].body.length =
      ms[k].body := by
  rw [← List.drop_drop, drop_records crc32 ms k hk, Message.record, drop_record]
  exact List.take_left' rfl

end Veda.Queue

namespace Veda.VQueue

open Veda.LittleEndian Veda.Queue

namespace Queue

/-- What the reading of `_info_push` leaves unchanged. -/
structure InfoFrame (q q' : Queue) : Prop where
  isReady : q'.isReady = q.isReady
  ffQueueR : q'.ffQueueR = q.ffQueueR
  cursor : q'.cursor = q.cursor
  id : q'.id = q.id

theorem readInfoPush_frame (files : Files) (q : Queue) : InfoFrame q (q.readInfoPush files) := by
  rw [Queue.readInfoPush]
  split
  · exact ⟨rfl, rfl, rfl, rfl⟩
  · exact ⟨rfl, rfl, rfl, rfl⟩

theorem ffInfoPushW_readInfoPush (files : Files) (q : Queue) :
    (q.readInfoPush files).ffInfoPushW = q.ffInfoPushW := by
  rw [Queue.readInfoPush]
  split
  · rfl
  · rfl

end Queue

namespace Consumer

/-- What is seen of the file of records from byte `pos` on. -/
def visible (files : Files) (c : Consumer) (pos : Nat) : Bytes :=
  ((files.queueOf c.queue.ffQueueR).getD []).drop pos

variable {crc32 : Bytes → BitVec 32} {ms : List Message} {k : Nat} {c c' : Consumer}

/-- The consumer is about to read the header of the message after the first `k` ones. -/
structure At (ms : List Message) (k : Nat) (c : Consumer) : Prop where
  ready : c.isReady = true
  cursor : c.queue.cursor = size (ms.take k)
  le : k ≤ ms.length

/-- It has read that header. -/
structure HeaderRead (crc32 : Bytes → BitVec 32) (ms : List Message) (k : Nat) (c : Consumer) :
    Prop where
  ready : c.isReady = true
  cursor : c.queue.cursor = size (ms.take k) + headerLength
  lt : k < ms.length
  header : c.header = rustHeader crc32 (BitVec.ofNat 64 (size (ms.take k))) (BitVec.ofNat 32 (k + 1))
    ms[k].type.code ms[k].body
  hash : c.hash = (putHeader (BitVec.ofNat 64 (size (ms.take k))) (BitVec.ofNat 32 (k + 1))
    ms[k].type.code ms[k].body).toBuff

/-- It has read the body as well. -/
structure BodyRead (ms : List Message) (k : Nat) (c : Consumer) : Prop where
  ready : c.isReady = true
  cursor : c.queue.cursor = size (ms.take (k + 1))
  lt : k < ms.length

/-- What the reading of a record leaves unchanged. -/
structure ReadFrame (c c' : Consumer) : Prop where
  id : c'.id = c.id
  countPopped : c'.countPopped = c.countPopped
  queueReady : c'.queue.isReady = c.queue.isReady
  queueId : c'.queue.id = c.queue.id
  ffQueueR : c'.queue.ffQueueR = c.queue.ffQueueR
  ffInfoPushW : c'.queue.ffInfoPushW = c.queue.ffInfoPushW

theorem take_of_prefix {ms ms' : List Message} (hms : ms <+: ms') (hk : k ≤ ms.length) :
    ms'.take k = ms.take k := by
  obtain ⟨rest, rfl⟩ := hms
  exact List.take_append_of_le_length hk

theorem At.mono {ms' : List Message} (h : At ms k c) (hms : ms <+: ms') : At ms' k c where
  ready := h.ready
  cursor := by rw [h.cursor, take_of_prefix hms h.le]
  le := Nat.le_trans h.le hms.length_le

theorem HeaderRead.mono {ms' : List Message} (h : HeaderRead crc32 ms k c) (hms : ms <+: ms') :
    HeaderRead crc32 ms' k c where
  ready := h.ready
  cursor := by rw [h.cursor, take_of_prefix hms (Nat.le_of_lt h.lt)]
  lt := Nat.lt_of_lt_of_le h.lt hms.length_le
  header := by rw [h.header, take_of_prefix hms (Nat.le_of_lt h.lt), hms.getElem h.lt]
  hash := by rw [h.hash, take_of_prefix hms (Nat.le_of_lt h.lt), hms.getElem h.lt]

theorem BodyRead.mono {ms' : List Message} (h : BodyRead ms k c) (hms : ms <+: ms') :
    BodyRead ms' k c where
  ready := h.ready
  cursor := by rw [h.cursor, take_of_prefix hms h.lt]
  lt := Nat.lt_of_lt_of_le h.lt hms.length_le

theorem HeaderRead.msgLength (h : HeaderRead crc32 ms k c) (hk : k < ms.length) :
    c.header.msgLength.toNat = ms[k].body.length := by
  rw [h.header]
  exact Veda.Queue.Consumer.toNat_ofNat_length ms[k].short

/-- A header that is seen is read. -/
theorem At.headerRead (h : At ms k c) (hk : k < ms.length) (files : Files)
    (hdata : (c.visible files c.queue.cursor).take headerLength =
      (ms[k].record crc32 (size (ms.take k)) k).take headerLength) :
    ∃ c', c.headerRead files = (true, c') ∧ HeaderRead crc32 ms k c' ∧ ReadFrame c c' := by
  have hdata' := hdata
  rw [Message.record, ← List.append_nil (record _ _ _ _ _)] at hdata'
  have hlength : ((c.visible files c.queue.cursor).take headerLength).length = headerLength := by
    rw [hdata', take_record]
    simp [headerLength]
  have hheader : VQueue.Header.ofBuff ((c.visible files c.queue.cursor).take headerLength) =
      rustHeader crc32 (BitVec.ofNat 64 (size (ms.take k))) (BitVec.ofNat 32 (k + 1))
        ms[k].type.code ms[k].body := by
    rw [hdata', ofBuff_record]
  have hhash : ((c.visible files c.queue.cursor).take headerLength).take 21 ++ [0, 0, 0, 0] =
      (putHeader (BitVec.ofNat 64 (size (ms.take k))) (BitVec.ofNat 32 (k + 1))
        ms[k].type.code ms[k].body).toBuff := by
    rw [hdata', take_record, List.take_left' (Header.length_head _)]
    rfl
  refine ⟨_, if_neg (Nat.not_lt.mpr (Nat.le_of_eq hlength.symm)), ?_, ⟨rfl, rfl, rfl, rfl, rfl, rfl⟩⟩
  exact ⟨h.ready, congrArg₂ (· + ·) h.cursor hlength, hk, hheader, hhash⟩

/-- At the end of what is seen there is no header. -/
theorem headerRead_end (files : Files) (hdata : c.visible files c.queue.cursor = []) :
    c.headerRead files = (false, c) := by
  have hread : c.queue.read files headerLength = ([], c.queue) := by
    have hdata' : ((files.queueOf c.queue.ffQueueR).getD []).drop c.queue.cursor = [] := hdata
    simp only [Queue.read, hdata', List.take_nil, List.length_nil, Nat.add_zero]
  rw [Consumer.headerRead, hread]
  exact if_pos (by decide)

/-- A body that is seen is read. -/
theorem HeaderRead.popBody (h : HeaderRead crc32 ms k c) (hk : k < ms.length) (files files₂ : Files)
    (hdata : (c.visible files c.queue.cursor).take ms[k].body.length = ms[k].body) :
    ∃ c', c.popBody crc32 files files₂ c.header.msgLength.toNat = (true, ms[k].body, c') ∧
      BodyRead ms k c' ∧ ReadFrame c c' := by
  have hdata' : (((files.queueOf c.queue.ffQueueR).getD []).drop c.queue.cursor).take
      ms[k].body.length = ms[k].body := hdata
  have hcrc : crc32 (c.hash ++ ms[k].body) = c.header.crc := by
    rw [h.hash, h.header]
    rfl
  have hcursor : c.queue.cursor + ms[k].body.length = size (ms.take (k + 1)) := by
    rw [h.cursor, List.take_succ_eq_append_getElem hk, size_append, size_cons, size_nil,
      Message.size, Nat.add_zero, Nat.add_assoc]
  rw [h.msgLength hk]
  simp only [Consumer.popBody, Queue.read, h.ready, hdata', Consumer.checkBody, hcrc, ne_eq,
    not_true_eq_false, if_false, Bool.not_true, Bool.false_eq_true]
  exact ⟨_, rfl, ⟨rfl, hcursor, hk⟩, ⟨rfl, rfl, rfl, rfl, rfl, rfl⟩⟩

theorem BodyRead.commitAndNext (h : BodyRead ms k c) :
    ∃ c', c.commitAndNext = (true, c') ∧ At ms (k + 1) c' ∧ c'.countPopped = c.countPopped + 1 ∧
      c'.queue = c.queue ∧ c'.id = c.id :=
  ⟨_, if_neg (by simp [h.ready]), ⟨h.ready, h.cursor, h.lt⟩, rfl, rfl, rfl⟩

end Consumer

end Veda.VQueue
