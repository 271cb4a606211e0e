import Veda.Lib.LittleEndian

/-! # The records of the file queue

`Header` of `queue.d` and the bytes that `put_msg` appends to the file of a part. The checksum is a
parameter: the three languages take CRC-32 from their libraries. -/

namespace Veda.Queue

open LittleEndian

abbrev Bytes := List Byte

/-- `QMessageType`. -/
inductive QMessageType where
  | string
  | object
  deriving DecidableEq, Repr

def QMessageType.code : QMessageType → Byte
  | .string => 0x53
  | .object => 0x4F

def uintToBuff (data : BitVec 32) : Bytes :=
  [(data &&& 0x000000FF).setWidth 8,
    ((data &&& 0x0000FF00) >>> 8).setWidth 8,
    ((data &&& 0x00FF0000) >>> 16).setWidth 8,
    ((data &&& 0xFF000000) >>> 24).setWidth 8]

def ulongToBuff (data : BitVec 64) : Bytes :=
  [(data &&& 0x00000000000000FF).setWidth 8,
    ((data &&& 0x000000000000FF00) >>> 8).setWidth 8,
    ((data &&& 0x0000000000FF0000) >>> 16).setWidth 8,
    ((data &&& 0x00000000FF000000) >>> 24).setWidth 8,
    ((data &&& 0x000000FF00000000) >>> 32).setWidth 8,
    ((data &&& 0x0000FF0000000000) >>> 40).setWidth 8,
    ((data &&& 0x00FF000000000000) >>> 48).setWidth 8,
    ((data &&& 0xFF00000000000000) >>> 56).setWidth 8]

/-- The cast of four bytes of memory, on a little-endian machine. -/
def uintFromBuff (buff : Bytes) (pos : Nat) : BitVec 32 :=
  BitVec.ofNat 32 (decode ((buff.drop pos).take 4))

def ulongFromBuff (buff : Bytes) (pos : Nat) : BitVec 64 :=
  BitVec.ofNat 64 (decode ((buff.drop pos).take 8))

structure Header where
  startPos : BitVec 64
  msgLength : BitVec 32
  countPushed : BitVec 32
  type : Byte
  crc : Bytes
  deriving DecidableEq, Repr

/-- `Header.length`. -/
def headerLength : Nat := 25

namespace Header

def init : Header := ⟨0, 0, 0, 0, [0, 0, 0, 0]⟩

/-- The part of a header that precedes the checksum. -/
def head (h : Header) : Bytes :=
  ulongToBuff h.startPos ++ uintToBuff h.msgLength ++ [0xEE, 0xFE, 0xEF, 0xEE] ++
    uintToBuff h.countPushed ++ [h.type]

def toBuff (h : Header) : Bytes := h.head ++ [0, 0, 0, 0]

def fromBuff (buff : Bytes) : Header where
  startPos := ulongFromBuff buff 0
  msgLength := uintFromBuff buff 8
  countPushed := uintFromBuff buff 16
  type := (buff.drop 20).headD 0
  crc := (buff.drop 21).take 4

end Header

/-- A buffer for a header, `header_buff`. -/
abbrev HeaderBuff := { buff : Bytes // buff.length = headerLength }

namespace HeaderBuff

def init : HeaderBuff := ⟨List.replicate headerLength 0, rfl⟩

/-- A read into the buffer of what is left of a file. Where that is too short, the end of the
buffer stays as it was. -/
def read (buff : HeaderBuff) (file : Bytes) : HeaderBuff :=
  ⟨file.take headerLength ++ buff.1.drop (file.take headerLength).length, by
    have h : (file.take headerLength).length ≤ headerLength := List.length_take_le _ _
    rw [List.length_append, List.length_drop, buff.2]
    omega⟩

theorem val_read (buff : HeaderBuff) (file : Bytes) : (buff.read file).1 =
    file.take headerLength ++ buff.1.drop (file.take headerLength).length := rfl

/-- The buffer with its last four bytes set to zero. -/
def zeroCrc (buff : HeaderBuff) : HeaderBuff :=
  ⟨buff.1.take 21 ++ [0, 0, 0, 0], by rw [List.length_append, List.length_take, buff.2]; rfl⟩

theorem val_zeroCrc (buff : HeaderBuff) : buff.zeroCrc.1 = buff.1.take 21 ++ [0, 0, 0, 0] := rfl

end HeaderBuff

/-- The four bytes of a checksum as `CRC32.finish` returns them. -/
def crcBytes (crc32 : Bytes → BitVec 32) (data : Bytes) : Bytes := encode 4 (crc32 data).toNat

/-- One byte of CRC-32. -/
def crc32Byte (crc : BitVec 32) (byte : Byte) : BitVec 32 :=
  (List.range 8).foldl (fun crc _ => (crc >>> 1) ^^^ if crc.getLsbD 0 then 0xEDB88320 else 0)
    (crc ^^^ byte.setWidth 32)

/-- CRC-32 as the libraries compute it. No theorem depends on it. -/
def crc32Ieee (data : Bytes) : BitVec 32 := ~~~data.foldl crc32Byte 0xFFFFFFFF

example : crc32Ieee [0x31, 0x32, 0x33, 0x34, 0x35, 0x36, 0x37, 0x38, 0x39] = 0xCBF43926 := by
  decide +kernel

section
variable (crc32 : Bytes → BitVec 32) (startPos : BitVec 64) (count : BitVec 32) (type : Byte)
  (msg : Bytes)

/-- The header that `put_msg` fills in. -/
def putHeader : Header := ⟨startPos, BitVec.ofNat 32 msg.length, count, type, [0, 0, 0, 0]⟩

/-- The bytes that `put_msg` writes for a message. -/
def record : Bytes :=
  let headerBuff := (putHeader startPos count type msg).toBuff
  headerBuff.take 21 ++ crcBytes crc32 (headerBuff ++ msg) ++ msg

/-- The header that is read back. -/
def readHeader : Header :=
  { putHeader startPos count type msg with
    crc := crcBytes crc32 ((putHeader startPos count type msg).toBuff ++ msg) }

end

/-! ## The fields of a header -/

/-- A byte that is masked out and shifted down is a digit of the number. -/
theorem masked_byte (x mask : BitVec w) (i : Nat) (h : ∀ j < 8, mask.getLsbD (i + j) = true) :
    ((x &&& mask) >>> i).setWidth 8 = BitVec.ofNat 8 (x.toNat / 2 ^ i) := by
  have hmask : ((x &&& mask) >>> i).setWidth 8 = (x >>> i).setWidth 8 := by
    apply BitVec.eq_of_getLsbD_eq
    intro j hj
    simp [h j hj, hj]
  rw [hmask]
  apply BitVec.eq_of_toNat_eq
  rw [BitVec.toNat_setWidth, BitVec.toNat_ushiftRight, Nat.shiftRight_eq_div_pow,
    BitVec.toNat_ofNat]

theorem uintToBuff_eq (x : BitVec 32) : uintToBuff x = encode 4 x.toNat := by
  have h₀ := masked_byte x 0x000000FF 0 (by decide)
  have h₁ := masked_byte x 0x0000FF00 8 (by decide)
  have h₂ := masked_byte x 0x00FF0000 16 (by decide)
  have h₃ := masked_byte x 0xFF000000 24 (by decide)
  rw [BitVec.ushiftRight_zero] at h₀
  rw [uintToBuff, h₀, h₁, h₂, h₃]
  simp [encode, Nat.div_div_eq_div_mul]

theorem ulongToBuff_eq (x : BitVec 64) : ulongToBuff x = encode 8 x.toNat := by
  have h₀ := masked_byte x 0x00000000000000FF 0 (by decide)
  have h₁ := masked_byte x 0x000000000000FF00 8 (by decide)
  have h₂ := masked_byte x 0x0000000000FF0000 16 (by decide)
  have h₃ := masked_byte x 0x00000000FF000000 24 (by decide)
  have h₄ := masked_byte x 0x000000FF00000000 32 (by decide)
  have h₅ := masked_byte x 0x0000FF0000000000 40 (by decide)
  have h₆ := masked_byte x 0x00FF000000000000 48 (by decide)
  have h₇ := masked_byte x 0xFF00000000000000 56 (by decide)
  rw [BitVec.ushiftRight_zero] at h₀
  rw [ulongToBuff, h₀, h₁, h₂, h₃, h₄, h₅, h₆, h₇]
  simp [encode, Nat.div_div_eq_div_mul]

theorem uintFromBuff_uintToBuff (before after : Bytes) (x : BitVec 32) (pos : Nat)
    (hpos : before.length = pos) :
    uintFromBuff (before ++ (uintToBuff x ++ after)) pos = x := by
  rw [uintFromBuff, List.drop_left' hpos, uintToBuff_eq, List.take_left' (length_encode 4 x.toNat)]
  exact ofNat_decode_encode 4 x rfl

theorem ulongFromBuff_ulongToBuff (before after : Bytes) (x : BitVec 64) (pos : Nat)
    (hpos : before.length = pos) :
    ulongFromBuff (before ++ (ulongToBuff x ++ after)) pos = x := by
  rw [ulongFromBuff, List.drop_left' hpos, ulongToBuff_eq, List.take_left' (length_encode 8 x.toNat)]
  exact ofNat_decode_encode 8 x rfl

@[simp] theorem length_uintToBuff (x : BitVec 32) : (uintToBuff x).length = 4 := rfl

@[simp] theorem length_ulongToBuff (x : BitVec 64) : (ulongToBuff x).length = 8 := rfl

@[simp] theorem length_crcBytes (crc32 : Bytes → BitVec 32) (data : Bytes) :
    (crcBytes crc32 data).length = 4 := length_encode _ _

namespace Header

@[simp] theorem length_head (h : Header) : h.head.length = 21 := rfl

@[simp] theorem length_toBuff (h : Header) : h.toBuff.length = headerLength := rfl

/-- A header is read back, with the four bytes after its other fields for the checksum. -/
theorem fromBuff_head (h : Header) (crc after : Bytes) (hcrc : crc.length = 4) :
    fromBuff (h.head ++ (crc ++ after)) = { h with crc := crc } := by
  have hstart := ulongFromBuff_ulongToBuff [] (uintToBuff h.msgLength ++ ([0xEE, 0xFE, 0xEF, 0xEE] ++
    (uintToBuff h.countPushed ++ ([h.type] ++ (crc ++ after))))) h.startPos 0 rfl
  have hlen := uintFromBuff_uintToBuff (ulongToBuff h.startPos) ([0xEE, 0xFE, 0xEF, 0xEE] ++
    (uintToBuff h.countPushed ++ ([h.type] ++ (crc ++ after)))) h.msgLength 8 rfl
  have hcount := uintFromBuff_uintToBuff (ulongToBuff h.startPos ++ (uintToBuff h.msgLength ++
    [0xEE, 0xFE, 0xEF, 0xEE])) ([h.type] ++ (crc ++ after)) h.countPushed 16 rfl
  have htype : ((h.head ++ (crc ++ after)).drop 20).headD 0 = h.type := rfl
  have hcrc' : ((h.head ++ (crc ++ after)).drop 21).take 4 = crc := by
    rw [List.drop_left' h.length_head, List.take_left' hcrc]
  rw [fromBuff, hcrc', htype]
  simp only [head, List.append_assoc, List.nil_append] at hstart hlen hcount ⊢
  rw [hstart, hlen, hcount]

end Header

section
variable (crc32 : Bytes → BitVec 32) (startPos : BitVec 64) (count : BitVec 32) (type : Byte)
  (msg : Bytes)

theorem record_eq : record crc32 startPos count type msg =
    (putHeader startPos count type msg).head ++
      (crcBytes crc32 ((putHeader startPos count type msg).toBuff ++ msg) ++ msg) := by
  rw [record, Header.toBuff, List.take_left' (Header.length_head _), List.append_assoc]

theorem length_record : (record crc32 startPos count type msg).length =
    headerLength + msg.length := by
  rw [record_eq, List.length_append, List.length_append, Header.length_head, length_crcBytes,
    headerLength]
  omega

theorem take_record (rest : Bytes) :
    (record crc32 startPos count type msg ++ rest).take headerLength =
      (putHeader startPos count type msg).head ++
        crcBytes crc32 ((putHeader startPos count type msg).toBuff ++ msg) := by
  rw [record_eq, ← List.append_assoc, List.append_assoc _ msg rest]
  exact List.take_left' (by simp [headerLength])

theorem drop_record (rest : Bytes) :
    (record crc32 startPos count type msg ++ rest).drop headerLength = msg ++ rest := by
  rw [record_eq, ← List.append_assoc, List.append_assoc _ msg rest]
  exact List.drop_left' (by simp [headerLength])

namespace HeaderBuff

/-- The buffer after a read at the start of a record. -/
theorem read_record (buff : HeaderBuff) (rest : Bytes) :
    (buff.read (record crc32 startPos count type msg ++ rest)).1 =
      (putHeader startPos count type msg).head ++
        crcBytes crc32 ((putHeader startPos count type msg).toBuff ++ msg) := by
  rw [val_read, take_record, List.drop_eq_nil_of_le (by simp [buff.2, headerLength]), List.append_nil]

theorem fromBuff_read_record (buff : HeaderBuff) (rest : Bytes) :
    Header.fromBuff (buff.read (record crc32 startPos count type msg ++ rest)).1 =
      readHeader crc32 startPos count type msg := by
  rw [read_record, ← List.append_nil (crcBytes _ _), Header.fromBuff_head _ _ _
    (length_crcBytes _ _)]
  rfl

/-- What is hashed to check a record is what was hashed to write it. -/
theorem zeroCrc_read_record (buff : HeaderBuff) (rest : Bytes) :
    (buff.read (record crc32 startPos count type msg ++ rest)).zeroCrc.1 =
      (putHeader startPos count type msg).toBuff := by
  rw [val_zeroCrc, read_record, List.take_left' (Header.length_head _)]
  rfl

end HeaderBuff

end

end Veda.Queue
