import Mathlib.Data.List.Perm.Basic
import Veda.Bj8individual.Individual

/-! # Values of scripts

The values that the converters of `v8_d` exchange with V8, and the functions of V8 that they call.
Numbers of scripts are left open, and so is in which order V8 lists the keys of an object. -/

namespace Veda.V8d

open Bj8individual

/-- A string of a script, by its units. -/
abbrev JsString := List (BitVec 16)

/-- A `v8::Value`. A date has its time in milliseconds. -/
inductive Value (Number : Type) where
  | undefined
  | boolean (b : Bool)
  | number (x : Number)
  | string (s : JsString)
  | date (time : Number)
  | array (elements : List (Value Number))
  | object (properties : List (JsString × Value Number))

/-- A `v8::Object` made by `Object::New`. -/
abbrev Object (Number : Type) := List (JsString × Value Number)

/-- What is called of V8. -/
structure V8 (Number : Type) where
  /-- `String::NewFromUtf8`. -/
  newFromUtf8 : Text → JsString
  /-- `String::Utf8Value`. -/
  utf8Value : Value Number → Text
  /-- `Integer::New`. -/
  newInteger : BitVec 32 → Number
  /-- `Date::New`, of a time given as an `int64_t`. -/
  newDate : BitVec 64 → Number
  /-- `ToInteger()->Value()`. -/
  toInteger : Value Number → BitVec 64
  /-- `ToBoolean()->Value()`. -/
  toBoolean : Value Number → Bool
  /-- `GetPropertyNames` of an object, from its keys in the order in which they were set. -/
  getPropertyNames : List JsString → List JsString
  /-- `double_to_mantissa_exponent` of `ToNumber()->Value()`, where its loop ends. -/
  toMantissaExponent : Value Number → Option (BitVec 64 × BitVec 64)

/-- The bytes are those of characters. -/
def IsUtf8 (s : Text) : Prop :=
  ∃ cs : List Char, s = (cs.flatMap String.utf8EncodeChar).map UInt8.toBitVec

/-- The milliseconds that a date can have. -/
def InTime (ms : BitVec 64) : Prop :=
  -8640000000000000 ≤ ms.toInt ∧ ms.toInt ≤ 8640000000000000

instance (ms : BitVec 64) : Decidable (InTime ms) := inferInstanceAs (Decidable (_ ∧ _))

/-- What V8 and the language say about these functions. A date out of range has the time `NaN`, and
`NaN` is zero as an integer. -/
structure Documented (v8 : V8 Number) : Prop where
  utf8Value : ∀ s, IsUtf8 s → 0 ∉ s → v8.utf8Value (.string (v8.newFromUtf8 s)) = s
  toInteger_undefined : v8.toInteger .undefined = 0
  toInteger_newInteger : ∀ n, v8.toInteger (.number (v8.newInteger n)) = n.signExtend 64
  toInteger_newDate : ∀ ms, v8.toInteger (.date (v8.newDate ms)) = if InTime ms then ms else 0
  toBoolean : ∀ b, v8.toBoolean (.boolean b) = b
  getPropertyNames : ∀ keys, (v8.getPropertyNames keys).Perm keys

/-- A text up to its first zero byte, as `c_str` is read. -/
def cString (s : Text) : Text := s.takeWhile (· ≠ 0)

section
variable {Number : Type} (v8 : V8 Number)

/-- `String::NewFromUtf8(isolate, s.c_str())`. -/
def V8.string (s : Text) : JsString := v8.newFromUtf8 (cString s)

/-- `std::string(*String::Utf8Value(value))`. -/
def V8.text (value : Value Number) : Text := cString (v8.utf8Value value)

namespace Object

variable (object : Object Number)

/-- `Get` of a key. -/
def get (key : JsString) : Value Number := (object.lookup key).getD .undefined

/-- `Set` of a key. -/
def set (key : JsString) (value : Value Number) : Object Number :=
  if key ∈ object.map Prod.fst then
    object.map fun property => if property.1 = key then (key, value) else property
  else object ++ [(key, value)]

def keys : List JsString := object.map Prod.fst

end Object

/-- `Set` of an index of an array. -/
def setAt (elements : List (Value Number)) (j : ℕ) (value : Value Number) : List (Value Number) :=
  if j < elements.length then elements.set j value
  else elements ++ List.replicate (j - elements.length) .undefined ++ [value]

end

end Veda.V8d
