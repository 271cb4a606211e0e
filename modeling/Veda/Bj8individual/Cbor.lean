import Veda.Bj8individual.Individual

/-! # Elements of CBOR

The model of `cbor.d`: the header of an element is a byte with the major type and a number, which
may be continued in one, two, four or eight bytes. The bytes of a number are in the order of the
machine, the least significant one first. -/

namespace Veda.Bj8individual

open LittleEndian (encode decode)

/-- What ends a conversion: an exception, a read behind the end of the memory, or a depth that is
not reached by any input (`fuel` bounds the recursion). -/
inductive Error where
  | thrown
  | undefined
  | fuel
  deriving DecidableEq

theorem ok_bind {α β : Type} (a : α) (f : α → Except Error β) : (Except.ok a >>= f) = f a := rfl

/-- A number as an `int`. -/
def int (n : ℤ) : ℤ := (n + 2147483648) % 4294967296 - 2147483648

theorem int_eq {n : ℤ} (h : -2147483648 ≤ n) (h' : n < 2147483648) : int n = n := by
  unfold int
  omega

/-- `src[a .. b]`. -/
def slice (src : List Byte) (a b : ℤ) : Except Error (List Byte) :=
  if 0 ≤ a ∧ a ≤ b ∧ b ≤ src.length then .ok ((src.drop a.toNat).take (b - a).toNat)
  else .error .thrown

/-- `src[a .. $]`. -/
def sliceFrom (src : List Byte) (a : ℤ) : Except Error (List Byte) := slice src a src.length

theorem slice_append (pre mid post : List Byte) :
    slice (pre ++ (mid ++ post)) pre.length (pre.length + mid.length) = .ok mid := by
  have h : 0 ≤ (pre.length : ℤ) ∧ (pre.length : ℤ) ≤ pre.length + mid.length ∧
      (pre.length : ℤ) + mid.length ≤ (pre ++ (mid ++ post)).length := by
    simp only [List.length_append]
    omega
  have hn : ((pre.length : ℤ) + mid.length - pre.length).toNat = mid.length := by omega
  rw [slice, if_pos h, hn, Int.toNat_natCast, List.drop_left, List.take_left]

theorem sliceFrom_append (pre post : List Byte) :
    sliceFrom (pre ++ post) pre.length = .ok post := by
  have h := slice_append pre post []
  rw [List.append_nil] at h
  rw [sliceFrom, List.length_append, Int.natCast_add, h]

namespace Cbor

/-! ## Headers -/

/-- `enum MajorType`. -/
inductive MajorType where
  | unsignedInteger
  | negativeInteger
  | byteString
  | textString
  | array
  | map
  | tag
  | floatSimple
  | none
  deriving DecidableEq

namespace MajorType

/-- The upper three bits of a header. -/
def code : MajorType → ℕ
  | unsignedInteger => 0
  | negativeInteger => 1
  | byteString => 2
  | textString => 3
  | array => 4
  | map => 5
  | tag => 6
  | _ => 7

def ofCode : ℕ → MajorType
  | 0 => unsignedInteger
  | 1 => negativeInteger
  | 2 => byteString
  | 3 => textString
  | 4 => array
  | 5 => map
  | 6 => tag
  | _ => floatSimple

theorem ofCode_code {type : MajorType} (h : type ≠ .none) : ofCode type.code = type := by
  cases type with
  | none => exact absurd rfl h
  | _ => rfl

theorem code_le (type : MajorType) : type.code ≤ 7 := by
  cases type <;> decide

end MajorType

/-- `TRUE` and `FALSE`. -/
def trueCode : BitVec 64 := 0x15

def falseCode : BitVec 64 := 0x14

namespace Tag

def none : Byte := 255

def epochDateTime : Byte := 1

def decimalFraction : Byte := 4

def cborEncoded : Byte := 24

def uri : Byte := 32

def textRu : Byte := 42

def textEn : Byte := 43

end Tag

/-- `struct ElementHeader`. -/
structure ElementHeader where
  type : MajorType := .none
  vLong : BitVec 64 := 0
  tag : Byte := Tag.none
  deriving DecidableEq

/-! ## Writing -/

/-- `type | ll`. -/
def header (type : MajorType) (ll : ℕ) : Byte := BitVec.ofNat 8 (32 * type.code + ll)

/-- `write_type_value`. -/
def writeTypeValue (type : MajorType) (value : BitVec 64) : List Byte :=
  let n := value.toNat
  if n < 24 then [header type n]
  else if n > 4294967295 then header type 27 :: encode 8 n
  else if n > 65535 then header type 26 :: encode 4 n
  else if n > 255 then header type 25 :: encode 2 n
  else header type 24 :: encode 1 n

/-- `write_integer`. -/
def writeInteger (vv : BitVec 64) : List Byte :=
  if vv.toInt ≥ 0 then writeTypeValue .unsignedInteger vv
  else writeTypeValue .negativeInteger (-vv)

/-- `write_string`. -/
def writeString (vv : Text) : List Byte :=
  writeTypeValue .textString (BitVec.ofNat 64 vv.length) ++ vv

/-- `write_bool`. -/
def writeBool (vv : Bool) : List Byte :=
  writeTypeValue .floatSimple (if vv then trueCode else falseCode)

/-! ## Reading -/

/-- A number of `n` bytes. The numbers of two, four and eight bytes are read through a pointer,
without a check. -/
def readWord (n : ℕ) (src : List Byte) : Except Error (BitVec 64) :=
  if n ≤ src.length then .ok (BitVec.ofNat 64 (decode (src.take n)))
  else if n = 1 then .error .thrown
  else .error .undefined

/-- The number of a header with the lower bits `ld`, and the length of the header. -/
def readNumber (ld : ℕ) (src : List Byte) : Except Error (ℤ × BitVec 64) := do
  let dPos := if ld > 23 then 1 + 2 ^ (ld - 24) else 1
  let number ← if 24 ≤ ld ∧ ld ≤ 27 then readWord (2 ^ (ld - 24)) src else .ok (BitVec.ofNat 64 ld)
  return ((dPos : ℕ), number)

/-- `read_type_value`: the length of the header, and the header. Of a tagged element it is the
header of the element, with the tag. -/
def readTypeValue : ℕ → List Byte → Except Error (ℤ × ElementHeader)
  | 0, _ => .error .fuel
  | _, [] => .ok (0, {})
  | fuel + 1, hh :: src => do
    let type := MajorType.ofCode (hh.toNat / 32)
    let (dPos, ld) ← readNumber (hh.toNat % 32) src
    if type = .tag then
      let rest ← sliceFrom (hh :: src) dPos
      let (len, main) ← readTypeValue fuel rest
      if len ≤ 0 then throw .thrown
      return (int (dPos + len), { main with tag := ld.setWidth 8 })
    else if type = .negativeInteger then return (dPos, { type := type, vLong := -ld })
    else
      if (type = .array ∨ type = .textString) ∧ ld.toNat > (hh :: src).length then throw .thrown
      return (dPos, { type := type, vLong := ld })

/-! ## A header is read as it was written -/

/-- The sign is in the major type. -/
def MajorType.signed (type : MajorType) (value : BitVec 64) : BitVec 64 :=
  if type = .negativeInteger then -value else value

theorem header_toNat {type : MajorType} {ll : ℕ} (h : ll < 32) :
    (header type ll).toNat / 32 = type.code ∧ (header type ll).toNat % 32 = ll := by
  have := type.code_le
  rw [header, BitVec.toNat_ofNat]
  omega

theorem readNumber_encode {n ld : ℕ} {value : BitVec 64} (hl : 24 ≤ ld ∧ ld ≤ 27)
    (hn : n = 2 ^ (ld - 24)) (hv : value.toNat < 256 ^ n) (post : List Byte) :
    readNumber ld (encode n value.toNat ++ post) = .ok (n + 1, value) := by
  have hlen : n ≤ (encode n value.toNat ++ post).length := by
    rw [List.length_append, LittleEndian.length_encode]
    omega
  have htake : (encode n value.toNat ++ post).take n = encode n value.toNat := by
    rw [List.take_append_of_le_length (by rw [LittleEndian.length_encode]), List.take_of_length_le]
    rw [LittleEndian.length_encode]
  have hword : BitVec.ofNat 64 (decode (encode n value.toNat)) = value := by
    rw [LittleEndian.decode_encode, Nat.mod_eq_of_lt hv, BitVec.ofNat_toNat, BitVec.setWidth_eq]
  have hgt : ld > 23 := by omega
  simp only [readNumber, hl, and_self, if_true, ← hn, readWord, hlen, htake, hword, hgt, bind,
    Except.bind]
  rw [Nat.cast_add, Int.add_comm]
  rfl

/-- The header of an element, taken apart. -/
theorem writeTypeValue_eq (type : MajorType) (value : BitVec 64) :
    ∃ hh tail, writeTypeValue type value = hh :: tail ∧ hh.toNat / 32 = type.code ∧
      ∀ post, readNumber (hh.toNat % 32) (tail ++ post) =
        .ok ((writeTypeValue type value).length, value) := by
  have long (n ld : ℕ) (hl : 24 ≤ ld ∧ ld ≤ 27) (hn : n = 2 ^ (ld - 24))
      (hv : value.toNat < 256 ^ n) (hw : writeTypeValue type value =
        header type ld :: encode n value.toNat) :
      ∃ hh tail, writeTypeValue type value = hh :: tail ∧ hh.toNat / 32 = type.code ∧
        ∀ post, readNumber (hh.toNat % 32) (tail ++ post) =
          .ok ((writeTypeValue type value).length, value) := by
    refine ⟨_, _, hw, (header_toNat (by omega)).1, fun post => ?_⟩
    rw [(header_toNat (by omega)).2, hw, readNumber_encode hl hn hv, List.length_cons,
      LittleEndian.length_encode]
    rfl
  have hv := value.isLt
  by_cases h1 : value.toNat < 24
  · have hw : writeTypeValue type value = [header type value.toNat] := if_pos h1
    refine ⟨_, _, hw, (header_toNat (by omega)).1, fun post => ?_⟩
    have h23 : ¬(value.toNat > 23) := by omega
    have h24 : ¬(24 ≤ value.toNat ∧ value.toNat ≤ 27) := by omega
    rw [(header_toNat (by omega)).2, hw, readNumber, if_neg h23, if_neg h24, BitVec.ofNat_toNat,
      BitVec.setWidth_eq]
    rfl
  · by_cases h8 : value.toNat > 4294967295
    · refine long 8 27 (by decide) rfl (by omega) ?_
      simp only [writeTypeValue, h1, h8, if_false, if_true]
    · by_cases h4 : value.toNat > 65535
      · refine long 4 26 (by decide) rfl (by omega) ?_
        simp only [writeTypeValue, h1, h8, h4, if_false, if_true]
      · by_cases h2 : value.toNat > 255
        · refine long 2 25 (by decide) rfl (by omega) ?_
          simp only [writeTypeValue, h1, h8, h4, h2, if_false, if_true]
        · refine long 1 24 (by decide) rfl (by omega) ?_
          simp only [writeTypeValue, h1, h8, h4, h2, if_false]

theorem writeTypeValue_length_pos (type : MajorType) (value : BitVec 64) :
    0 < (writeTypeValue type value).length := by
  obtain ⟨hh, tail, h, -⟩ := writeTypeValue_eq type value
  rw [h]
  exact Nat.succ_pos _

theorem writeTypeValue_length_le (type : MajorType) (value : BitVec 64) :
    (writeTypeValue type value).length ≤ 9 := by
  unfold writeTypeValue
  dsimp only
  split_ifs
  all_goals simp

theorem readTypeValue_write {type : MajorType} {value : BitVec 64} {post : List Byte} {fuel : ℕ}
    (ht : type ≠ .tag ∧ type ≠ .none) (hv : type = .array ∨ type = .textString →
      value.toNat ≤ (writeTypeValue type value ++ post).length) :
    readTypeValue (fuel + 1) (writeTypeValue type value ++ post) =
      .ok ((writeTypeValue type value).length, { type := type, vLong := type.signed value }) := by
  obtain ⟨hh, tail, hw, hc, hr⟩ := writeTypeValue_eq type value
  have hlen : ¬((type = .array ∨ type = .textString) ∧
      value.toNat > (hh :: (tail ++ post)).length) := by
    intro ⟨h, h'⟩
    have := hv h
    rw [hw, List.cons_append] at this
    omega
  generalize hn : (writeTypeValue type value).length = n at hr ⊢
  rw [hw, List.cons_append]
  simp only [readTypeValue, hc, MajorType.ofCode_code ht.2, hr, bind, Except.bind, ht.1, if_false,
    hlen, MajorType.signed]
  split <;> rfl

theorem readTypeValue_tagged {tag value : BitVec 64} {type : MajorType} {post : List Byte}
    {fuel : ℕ} (ht : type ≠ .tag ∧ type ≠ .none) (hv : type = .array ∨ type = .textString →
      value.toNat ≤ (writeTypeValue type value ++ post).length) :
    readTypeValue (fuel + 2) (writeTypeValue .tag tag ++ (writeTypeValue type value ++ post)) =
      .ok ((writeTypeValue .tag tag ++ writeTypeValue type value).length,
        { type := type, vLong := type.signed value, tag := tag.setWidth 8 }) := by
  have hrest : readTypeValue (fuel + 1) (writeTypeValue type value ++ post) = _ :=
    readTypeValue_write ht hv
  obtain ⟨hh, tail, hw, hc, hr⟩ := writeTypeValue_eq .tag tag
  have hfrom := sliceFrom_append (writeTypeValue .tag tag) (writeTypeValue type value ++ post)
  have hl := writeTypeValue_length_le .tag tag
  have hl' := writeTypeValue_length_le type value
  have hp := writeTypeValue_length_pos type value
  rw [List.length_append]
  generalize (writeTypeValue .tag tag).length = n at hr hfrom hl ⊢
  rw [hw, List.cons_append] at hfrom ⊢
  have hpos : ¬(((writeTypeValue type value).length : ℤ) ≤ 0) := by omega
  simp only [readTypeValue, hc, MajorType.ofCode, MajorType.code, hr, bind, Except.bind, if_true,
    hfrom, hrest, hpos, if_false]
  rw [int_eq (by omega) (by omega), Nat.cast_add]
  rfl

theorem neg_neg_signed (vv : BitVec 64) :
    MajorType.signed .negativeInteger (-vv) = vv := BitVec.neg_neg

end Cbor

end Veda.Bj8individual
