import Veda.Queue.Consumer
import Veda.Queue.VQueue

/-! # One record format for three readers

The reading half of the consumer in Go, `queue.go` of the web server, and what the three consumers
make of a record that the producer in D wrote. -/

namespace Veda.GoQueue

open LittleEndian Queue

/-- `Header.from_buff`; the type of a message is a byte here, and `crc` an array of four bytes. -/
abbrev Header := Queue.Header

/-- What `pop` and `commit_and_next` use of `Consumer`, with the buffers of the package. The
length of `buff` fits a `uint32`. -/
structure Consumer where
  startPosRecord : BitVec 64
  buff : { buff : Bytes // buff.length < 2 ^ 32 }
  headerBuff : HeaderBuff
  header : Header
  lastReadMsg : Bytes

namespace Consumer

/-- `Read` into a slice: what it does not fill stays as it was. -/
def readInto (file slice : Bytes) : Bytes :=
  file.take slice.length ++ slice.drop (file.take slice.length).length

theorem length_readInto (file slice : Bytes) : (readInto file slice).length = slice.length := by
  have h : (file.take slice.length).length ≤ slice.length := List.length_take_le _ _
  rw [readInto, List.length_append, List.length_drop]
  omega

/-- `buff`, made longer if a message does not fit. -/
def grow (msgLength : BitVec 32) (buff : { buff : Bytes // buff.length < 2 ^ 32 }) :
    { buff : Bytes // buff.length < 2 ^ 32 } :=
  if msgLength ≥ BitVec.ofNat 32 buff.1.length then
    ⟨List.replicate (msgLength + 1).toNat 0, by
      rw [List.length_replicate]
      exact (msgLength + 1).isLt⟩
  else buff

/-- `buff` after its first `n` bytes were read from a file. -/
def fill (file : Bytes) (n : Nat) (buff : { buff : Bytes // buff.length < 2 ^ 32 }) :
    { buff : Bytes // buff.length < 2 ^ 32 } :=
  ⟨readInto file (buff.1.take n) ++ buff.1.drop n, by
    have h := buff.2
    rw [List.length_append, length_readInto, List.length_take, List.length_drop]
    omega⟩

theorem val_fill (file : Bytes) (n : Nat) (buff : { buff : Bytes // buff.length < 2 ^ 32 }) :
    (fill file n buff).1 = readInto file (buff.1.take n) ++ buff.1.drop n := rfl

/-- The end of `pop`, from the `Seek` on. The answer `none` is the empty string that is returned
for a record that cannot be read. -/
def readRecord (file : Bytes) (c : Consumer) : Option Bytes × Consumer :=
  let rest := file.drop c.startPosRecord.toNat
  let headerBuff := c.headerBuff.read rest
  let header := Header.fromBuff headerBuff.1
  let c := { c with headerBuff, header }
  if header.startPos ≠ c.startPosRecord then (none, c)
  else
    let buff := grow header.msgLength c.buff
    if header.msgLength < BitVec.ofNat 32 buff.1.length then
      let buff := fill (rest.drop headerLength) header.msgLength.toNat buff
      let lastReadMsg := buff.1.take header.msgLength.toNat
      (some lastReadMsg, { c with buff, lastReadMsg })
    else (none, { c with buff })

/-- The comparison of the checksums in `commit_and_next`: the bytes of `Sum`, the most significant
one first, are turned round. -/
def crcAgrees (crc32 : Bytes → BitVec 32) (c : Consumer) : Prop :=
  let hashInBytes := (encode 4 (crc32 (c.headerBuff.zeroCrc.1 ++ c.lastReadMsg)).toNat).reverse
  c.header.crc = hashInBytes.reverse

end Consumer

end Veda.GoQueue

namespace Veda.Queue

open LittleEndian

variable {crc32 : Bytes → BitVec 32} {startPos : BitVec 64} {count : BitVec 32} {type : Byte}
  {msg : Bytes}

section
variable (buff : { buff : Bytes // buff.length < 2 ^ 32 })

/-- There is room for a message of a permitted length. -/
theorem length_lt_grow (hlen : msg.length ≤ 0xFFFFFFFF / 2) :
    msg.length < (GoQueue.Consumer.grow (BitVec.ofNat 32 msg.length) buff).1.length := by
  have hone : (1 : BitVec 32).toNat = 1 := rfl
  have hmsg := Consumer.toNat_ofNat_length hlen
  rw [GoQueue.Consumer.grow]
  split
  · rw [List.length_replicate, BitVec.toNat_add, hmsg, hone, Nat.mod_eq_of_lt (by omega)]
    omega
  · next hge =>
    rw [ge_iff_le, BitVec.le_def, hmsg, BitVec.toNat_ofNat, Nat.mod_eq_of_lt buff.2] at hge
    omega

theorem take_fill (rest : Bytes) (hroom : msg.length < buff.1.length) :
    (GoQueue.Consumer.fill (msg ++ rest) msg.length buff).1.take msg.length = msg := by
  have hlength : (buff.1.take msg.length).length = msg.length := by
    rw [List.length_take]
    omega
  have hread : GoQueue.Consumer.readInto (msg ++ rest) (buff.1.take msg.length) = msg := by
    rw [GoQueue.Consumer.readInto, hlength, List.take_left' rfl,
      List.drop_eq_nil_of_le (by rw [hlength]), List.append_nil]
  rw [GoQueue.Consumer.val_fill, hread]
  exact List.take_left' rfl

end

/-- The consumer in Go reads a record at its start position. -/
theorem goReadRecord_record (crc32 : Bytes → BitVec 32) (count : BitVec 32) (type : Byte)
    (c : GoQueue.Consumer) (before rest : Bytes)
    (hstart : c.startPosRecord = startPos) (hbefore : before.length = startPos.toNat)
    (hlen : msg.length ≤ 0xFFFFFFFF / 2) :
    ∃ c', c.readRecord (before ++ (record crc32 startPos count type msg ++ rest)) =
        (some msg, c') ∧ c'.header = readHeader crc32 startPos count type msg ∧
      c'.crcAgrees crc32 := by
  have hdrop : (before ++ (record crc32 startPos count type msg ++ rest)).drop
      c.startPosRecord.toNat = record crc32 startPos count type msg ++ rest := by
    rw [hstart]
    exact List.drop_left' hbefore
  have hheader := HeaderBuff.fromBuff_read_record crc32 startPos count type msg c.headerBuff rest
  have hzero := HeaderBuff.zeroCrc_read_record crc32 startPos count type msg c.headerBuff rest
  have hmsg : (readHeader crc32 startPos count type msg).msgLength = BitVec.ofNat 32 msg.length :=
    rfl
  have hroom := length_lt_grow c.buff hlen
  generalize hbuff : GoQueue.Consumer.grow (BitVec.ofNat 32 msg.length) c.buff = buff at hroom
  have hfits : BitVec.ofNat 32 msg.length < BitVec.ofNat 32 buff.1.length := by
    rw [BitVec.lt_def, Consumer.toNat_ofNat_length hlen, BitVec.toNat_ofNat,
      Nat.mod_eq_of_lt buff.2]
    exact hroom
  have htake := take_fill buff rest hroom
  unfold GoQueue.Consumer.readRecord
  simp only [hdrop, hheader, hmsg, hbuff, Consumer.toNat_ofNat_length hlen, drop_record, htake]
  rw [if_neg (by simp [readHeader, putHeader, hstart]), if_pos hfits]
  refine ⟨_, rfl, rfl, ?_⟩
  simp only [GoQueue.Consumer.crcAgrees, hzero, List.reverse_reverse]
  rfl

/-- The header as the consumer in Rust sees it. -/
def rustHeader (crc32 : Bytes → BitVec 32) (startPos : BitVec 64) (count : BitVec 32) (type : Byte)
    (msg : Bytes) : VQueue.Header where
  startPos := startPos
  msgLength := BitVec.ofNat 32 msg.length
  magicMarker := 0xEEEFFEEE
  countPushed := count
  crc := crc32 ((putHeader startPos count type msg).toBuff ++ msg)
  msgType := type

theorem ofBuff_record (crc32 : Bytes → BitVec 32) (startPos : BitVec 64) (count : BitVec 32)
    (type : Byte) (msg rest : Bytes) :
    VQueue.Header.ofBuff ((record crc32 startPos count type msg ++ rest).take headerLength) =
      rustHeader crc32 startPos count type msg := by
  rw [take_record]
  generalize hcrc : crc32 ((putHeader startPos count type msg).toBuff ++ msg) = crc
  have hbytes : crcBytes crc32 ((putHeader startPos count type msg).toBuff ++ msg) =
      uintToBuff crc := by
    rw [uintToBuff_eq, ← hcrc]
    rfl
  rw [hbytes]
  have hd := Header.fromBuff_head (putHeader startPos count type msg) (uintToBuff crc) [] rfl
  have hcrc' := uintFromBuff_uintToBuff (putHeader startPos count type msg).head [] crc 21 rfl
  rw [List.append_nil] at hd hcrc'
  have hstart : ulongFromBuff _ 0 = startPos := congrArg Header.startPos hd
  have hlength : uintFromBuff _ 8 = BitVec.ofNat 32 msg.length := congrArg Header.msgLength hd
  have hcount : uintFromBuff _ 16 = count := congrArg Header.countPushed hd
  have htype : (((putHeader startPos count type msg).head ++ uintToBuff crc).drop 20).headD 0 =
      type := congrArg Header.type hd
  have hmarker : uintToBuff 0xEEEFFEEE = [0xEE, 0xFE, 0xEF, 0xEE] := by decide
  have hmagic : uintFromBuff ((putHeader startPos count type msg).head ++ uintToBuff crc) 12 =
      0xEEEFFEEE := by
    have h := uintFromBuff_uintToBuff (ulongToBuff startPos ++
      uintToBuff (BitVec.ofNat 32 msg.length))
      (uintToBuff count ++ ([type] ++ uintToBuff crc)) 0xEEEFFEEE 12 rfl
    rw [hmarker] at h
    simp only [Header.head, List.append_assoc] at h ⊢
    exact h
  rw [VQueue.Header.ofBuff, hstart, hlength, hmagic, hcount, hcrc', htype, rustHeader, hcrc]

/-- The consumer in Rust reads a header at its position. -/
theorem rustHeaderRead_record (files : Files) (c : VQueue.Consumer) (before rest : Bytes)
    (hfile : files.queueOf c.queue.ffQueueR =
      some (before ++ (record crc32 startPos count type msg ++ rest)))
    (hcursor : before.length = c.queue.cursor) :
    c.headerRead files = (true, { c with
      queue := { c.queue with cursor := c.queue.cursor + headerLength }
      header := rustHeader crc32 startPos count type msg
      hash := (putHeader startPos count type msg).toBuff }) := by
  have hdata : (before ++ (record crc32 startPos count type msg ++ rest)).drop c.queue.cursor =
      record crc32 startPos count type msg ++ rest := List.drop_left' hcursor
  have hlength : ((record crc32 startPos count type msg ++ rest).take headerLength).length =
      headerLength := by
    rw [take_record]
    simp [headerLength]
  have hheader := ofBuff_record crc32 startPos count type msg rest
  have hhash : ((record crc32 startPos count type msg ++ rest).take headerLength).take 21 ++
      [0, 0, 0, 0] = (putHeader startPos count type msg).toBuff := by
    rw [take_record, List.take_left' (Header.length_head _)]
    rfl
  simp only [VQueue.Consumer.headerRead, VQueue.Queue.read, hfile, Option.getD_some, hdata,
    hlength, hheader, hhash, Nat.lt_irrefl, if_false]

/-- The consumer in Rust reads the body after it has read the header. -/
theorem rustPopBody_record (files files₂ : Files) (c : VQueue.Consumer) (before rest : Bytes)
    (hready : c.isReady = true)
    (hfile : files.queueOf c.queue.ffQueueR =
      some (before ++ (record crc32 startPos count type msg ++ rest)))
    (hcursor : before.length + headerLength = c.queue.cursor)
    (hheader : c.header = rustHeader crc32 startPos count type msg)
    (hhash : c.hash = (putHeader startPos count type msg).toBuff) :
    c.popBody crc32 files files₂ msg.length = (true, msg, { c with
      queue := { c.queue with cursor := c.queue.cursor + msg.length }
      posRecord := c.posRecord + headerLength + msg.length
      hash := (putHeader startPos count type msg).toBuff ++ msg }) := by
  have hdata : ((before ++ (record crc32 startPos count type msg ++ rest)).drop
      c.queue.cursor).take msg.length = msg := by
    rw [← hcursor, ← List.drop_drop, List.drop_left' rfl, drop_record]
    exact List.take_left' rfl
  have hcrc : crc32 ((putHeader startPos count type msg).toBuff ++ msg) = c.header.crc := by
    rw [hheader]
    rfl
  simp only [VQueue.Consumer.popBody, VQueue.Queue.read, hready, hfile, Option.getD_some, hdata,
    VQueue.Consumer.checkBody, hhash, hcrc, ne_eq, not_true_eq_false, if_false, Bool.not_true,
    Bool.false_eq_true]

/-- The fields of a header are those that the producer filled in. -/
def Header.Describes (h : Header) (startPos : BitVec 64) (count : BitVec 32) (type : QMessageType)
    (msg : Bytes) : Prop :=
  h.startPos = startPos ∧ h.msgLength.toNat = msg.length ∧ h.countPushed = count ∧
    h.type = type.code

/-- The same for the header in Rust. -/
def RustDescribes (h : VQueue.Header) (startPos : BitVec 64) (count : BitVec 32)
    (type : QMessageType) (msg : Bytes) : Prop :=
  h.startPos = startPos ∧ h.msgLength.toNat = msg.length ∧ h.countPushed = count ∧
    h.msgType = type.code

theorem readHeader_describes (crc32 : Bytes → BitVec 32) (startPos : BitVec 64) (count : BitVec 32)
    (type : QMessageType) (hlen : msg.length ≤ 0xFFFFFFFF / 2) :
    (readHeader crc32 startPos count type.code msg).Describes startPos count type msg :=
  ⟨rfl, Consumer.toNat_ofNat_length hlen, rfl, rfl⟩

/-- Every record that the producer writes is read by the three consumers with its start position,
length, counter, type and body, and passes their checks. -/
theorem record_readers (crc32 : Bytes → BitVec 32) (startPos : BitVec 64) (count : BitVec 32)
    (type : QMessageType) (msg : Bytes) (hne : msg ≠ []) (hlen : msg.length ≤ 0xFFFFFFFF / 2)
    (before rest : Bytes) (hbefore : before.length = startPos.toNat) :
    let file := before ++ (record crc32 startPos count type.code msg ++ rest)
    (∀ c : Consumer, c.startPosRecord = startPos →
      ∃ c', c.readRecord file = (.msg msg, c') ∧ c'.header.Describes startPos count type msg ∧
        c'.crcAgrees crc32) ∧
    (∀ c : GoQueue.Consumer, c.startPosRecord = startPos →
      ∃ c', c.readRecord file = (some msg, c') ∧ c'.header.Describes startPos count type msg ∧
        c'.crcAgrees crc32) ∧
    (∀ (c : VQueue.Consumer) (files : Files), c.isReady = true →
      files.queueOf c.queue.ffQueueR = some file → c.queue.cursor = startPos.toNat →
      ∃ c' c'', c.headerRead files = (true, c') ∧ RustDescribes c'.header startPos count type msg ∧
        c'.popBody crc32 files files c'.header.msgLength.toNat = (true, msg, c'')) := by
  intro file
  have hmsg := Consumer.toNat_ofNat_length hlen
  have hdescribes := readHeader_describes crc32 startPos count type hlen
  refine ⟨fun c hc => ?_, fun c hc => ?_, fun c files hready hfile hcursor => ?_⟩
  · obtain ⟨c', hread, hloaded, -⟩ :=
      c.readRecord_record crc32 count type.code before rest hc hbefore hne hlen
    exact ⟨c', hread, hloaded.header ▸ hdescribes, hloaded.crcAgrees⟩
  · obtain ⟨c', hread, hheader, hcrc⟩ :=
      goReadRecord_record crc32 count type.code c before rest hc hbefore hlen
    exact ⟨c', hread, hheader ▸ hdescribes, hcrc⟩
  · have hread := rustHeaderRead_record files c before rest hfile (hbefore.trans hcursor.symm)
    generalize hc' : ({ c with
      queue := { c.queue with cursor := c.queue.cursor + headerLength }
      header := rustHeader crc32 startPos count type.code msg
      hash := (putHeader startPos count type.code msg).toBuff } : VQueue.Consumer) = c' at hread
    have hbody := rustPopBody_record files files c' before rest (hc' ▸ hready)
      (by rw [← hc']; exact hfile) (by rw [← hc', hbefore, hcursor]) (by rw [← hc']) (by rw [← hc'])
    have hheader : c'.header = rustHeader crc32 startPos count type.code msg := by rw [← hc']
    have hlength : c'.header.msgLength.toNat = msg.length := hheader ▸ hmsg
    exact ⟨c', _, hread, hheader ▸ ⟨rfl, hmsg, rfl, rfl⟩, hlength.symm ▸ hbody⟩

theorem record_readers_one_byte :
    let file := record crc32Ieee 0 1 QMessageType.string.code [0x61]
    (∀ c : Consumer, c.startPosRecord = 0 →
      ∃ c', c.readRecord file = (.msg [0x61], c') ∧ c'.header.Describes 0 1 .string [0x61] ∧
        c'.crcAgrees crc32Ieee) ∧
    (∀ c : GoQueue.Consumer, c.startPosRecord = 0 →
      ∃ c', c.readRecord file = (some [0x61], c') ∧ c'.header.Describes 0 1 .string [0x61] ∧
        c'.crcAgrees crc32Ieee) ∧
    (∀ (c : VQueue.Consumer) (files : Files), c.isReady = true →
      files.queueOf c.queue.ffQueueR = some file → c.queue.cursor = 0 →
      ∃ c' c'', c.headerRead files = (true, c') ∧ RustDescribes c'.header 0 1 .string [0x61] ∧
        c'.popBody crc32Ieee files files c'.header.msgLength.toNat = (true, [0x61], c'')) := by
  have h := record_readers crc32Ieee 0 1 .string [0x61] (by decide) (by decide) [] [] rfl
  rw [List.nil_append, List.append_nil] at h
  exact h

end Veda.Queue
