import Mathlib.Data.Nat.Digits.Defs

/-! # Numbers as bytes

A number stored in a fixed count of bytes, the least significant byte first, and the number that
such bytes stand for. -/

namespace Veda.LittleEndian

abbrev Byte := BitVec 8

/-- The last `n` base 256 digits of a number, the least significant digit first. -/
def encode : Nat → Nat → List Byte
  | 0, _ => []
  | n + 1, x => BitVec.ofNat 8 x :: encode n (x / 256)

/-- The number that a list of bytes stands for. -/
def decode (bytes : List Byte) : Nat := Nat.ofDigits 256 (bytes.map BitVec.toNat)

@[simp] theorem length_encode (n x : Nat) : (encode n x).length = n := by
  induction n generalizing x with
  | zero => rfl
  | succ n ih => rw [encode, List.length_cons, ih]

@[simp] theorem decode_cons (b : Byte) (bytes : List Byte) :
    decode (b :: bytes) = b.toNat + 256 * decode bytes := by
  rw [decode, List.map_cons, Nat.ofDigits_cons]
  rfl

theorem decode_encode (n x : Nat) : decode (encode n x) = x % 256 ^ n := by
  induction n generalizing x with
  | zero => simp [decode, encode, Nat.mod_one]
  | succ n ih =>
    rw [encode, decode_cons, ih, BitVec.toNat_ofNat, pow_succ' 256 n]
    exact Nat.mod_mul.symm

/-- A word survives being written and read. -/
theorem ofNat_decode_encode (n : Nat) (x : BitVec w) (hw : w = 8 * n) :
    BitVec.ofNat w (decode (encode n x.toNat)) = x := by
  have hw' : 2 ^ w = 256 ^ n := by rw [hw, pow_mul]; rfl
  have hx : x.toNat < 256 ^ n := hw' ▸ x.isLt
  rw [decode_encode, Nat.mod_eq_of_lt hx, BitVec.ofNat_toNat, BitVec.setWidth_eq]

end Veda.LittleEndian
