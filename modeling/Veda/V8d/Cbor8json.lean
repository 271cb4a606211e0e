import Veda.Bj8individual.CborIndividual
import Veda.V8d.Util8json

/-! # Individuals in CBOR for scripts

The model of `cbor.cpp` and `cbor8json.cpp`: the reader makes an object of a script with an array of
value objects for each predicate, the writer goes through the keys of such an object. -/

namespace Veda.V8d.Cbor8json

open Bj8individual
open Bj8individual.Cbor (MajorType ElementHeader header trueCode falseCode atSign)
open Bj8individual.Cbor.MajorType (ofCode code)
open LittleEndian (encode decode)

namespace Tag

export Bj8individual.Cbor.Tag (none epochDateTime decimalFraction uri textRu textEn)

end Tag

/-! ## Headers -/

/-- `ElementHeader()`. -/
def newHeader : ElementHeader := { type := .unsignedInteger, vLong := 0, tag := Tag.none }

/-- `write_type_value`, which compares the number as a signed one. -/
def writeTypeValue (type : MajorType) (value : BitVec 64) : List Byte :=
  if value.toInt < 24 then [header type 0 ||| value.setWidth 8]
  else if value.toInt > 4294967295 then header type 27 :: encode 8 value.toNat
  else if value.toInt > 65535 then header type 26 :: encode 4 value.toNat
  else if value.toInt > 255 then header type 25 :: encode 2 value.toNat
  else header type 24 :: encode 1 value.toNat

/-- `write_integer`. -/
def writeInteger (vv : BitVec 64) : List Byte :=
  if vv.toInt > 0 then writeTypeValue .unsignedInteger vv else writeTypeValue .negativeInteger (-vv)

/-- `write_string`. -/
def writeString (vv : Text) : List Byte :=
  writeTypeValue .textString (BitVec.ofNat 64 vv.length) ++ vv

/-- `write_bool`. -/
def writeBool (vv : Bool) : List Byte :=
  writeTypeValue .floatSimple (if vv then trueCode else falseCode)

/-- A number of `n` bytes, read through a pointer. -/
def fromBuff (n : ℕ) (src : List Byte) : Except Error (BitVec 64) :=
  if n ≤ src.length then .ok (BitVec.ofNat 64 (decode (src.take n))) else .error .undefined

/-- The number of a header with the lower bits `ld`, and the length of the header. -/
def readNumber (ld : ℕ) (src : List Byte) : Except Error (ℕ × BitVec 64) := do
  let dPos := if ld > 23 then 1 + 2 ^ (ld - 24) else 1
  let number ← if 24 ≤ ld ∧ ld ≤ 27 then fromBuff (2 ^ (ld - 24)) src else .ok (BitVec.ofNat 64 ld)
  return (dPos, number)

/-- `read_type_value` of the memory behind a position: the length of the header, and `*header`, which
keeps its tag where the element has none. -/
def readTypeValue : ℕ → List Byte → ℤ → ElementHeader → Except Error (ℕ × ElementHeader)
  | 0, _, _, _ => .error .fuel
  | _, [], _, _ => .error .undefined
  | fuel + 1, hh :: src, ePos, header => do
    let type := ofCode (hh.toNat / 32)
    let (dPos, ld) ← readNumber (hh.toNat % 32) src
    if type = .tag then
      let (len, main) ← readTypeValue fuel ((hh :: src).drop dPos) ePos newHeader
      return (dPos + len, { main with tag := ld.setWidth 8 })
    else if type = .negativeInteger then
      return (dPos, { header with type := type, vLong := -ld })
    else if (type = .array ∨ type = .textString) ∧ ld.toInt > ePos then
      return (dPos, { header with type := type, vLong := BitVec.ofInt 64 ePos })
    else return (dPos, { header with type := type, vLong := ld })

/-! ## Reading -/

/-- What the reader works on: the bytes with the zero behind them, and their number as an `int`. -/
structure Source where
  memory : List Byte
  size : ℤ

def Source.of (inStr : List Byte) : Source := ⟨inStr ++ [0], int inStr.length⟩

variable (src : Source)

/-- `element.pos += read_type_value(src, element.pos, size, &header)`. -/
def readHeader (pos : BitVec 32) (header : ElementHeader) :
    Except Error (BitVec 32 × ElementHeader) := do
  if pos.toInt < 0 then throw .undefined
  let (len, header) ←
    readTypeValue (src.memory.length + 1) (src.memory.drop pos.toNat) src.size header
  return (pos + BitVec.ofNat 32 len, header)

/-- `std::string(src + element.pos, header.v_long)`, and `ep`. -/
def readText (pos : BitVec 32) (header : ElementHeader) : Except Error (BitVec 32 × Text) :=
  if header.vLong.toInt < 0 then .error .thrown
  else if pos.toNat + header.vLong.toNat ≤ src.memory.length then
    .ok (pos + header.vLong.setWidth 32,
      (src.memory.drop pos.toNat).take header.vLong.toNat)
  else .error .undefined

section
variable {Number : Type} (v8 : V8 Number)

/-- A value object of a text. -/
def textValue (tag : Byte) (val : Text) : Value Number :=
  let data := .string (v8.string val)
  if tag = Tag.textRu then
    objectOf v8 [("data", data), ("type", literal v8 "String"), ("lang", literal v8 "RU")]
  else if tag = Tag.textEn then
    objectOf v8 [("data", data), ("type", literal v8 "String"), ("lang", literal v8 "EN")]
  else if tag = Tag.uri then objectOf v8 [("data", data), ("type", literal v8 "Uri")]
  else objectOf v8 [("data", data), ("type", literal v8 "String")]

/-- A value object of a number. -/
def integerValue (tag : Byte) (vLong : BitVec 64) : Value Number :=
  if tag = Tag.epochDateTime then
    objectOf v8 [("type", literal v8 "Datetime"), ("data", .date (v8.newDate (vLong * 1000)))]
  else
    objectOf v8 [("type", literal v8 "Integer"),
      ("data", .number (v8.newInteger (vLong.setWidth 32)))]

/-- A value object of a simple element. -/
def simpleValue (vLong : BitVec 64) : Value Number :=
  objectOf v8 ((if vLong = trueCode then [("data", .boolean true)]
    else if vLong = falseCode then [("data", .boolean false)] else []) ++
    [("type", literal v8 "Boolean")])

/-- The value object of the element behind a header, if one is made. The header of the elements of an
array is one variable. -/
def readValue (pos : BitVec 32) (header : ElementHeader) :
    Except Error (BitVec 32 × ElementHeader × Option (Value Number)) := do
  match header.type with
  | .textString =>
    let (pos, val) ← readText src pos header
    return (pos, header, some (textValue v8 header.tag val))
  | .negativeInteger | .unsignedInteger =>
    return (pos, header, some (integerValue v8 header.tag header.vLong))
  | .floatSimple => return (pos, header, some (simpleValue v8 header.vLong))
  | .array =>
    if header.tag = Tag.decimalFraction then
      let (pos, header) ← readHeader src pos header
      let mantissa := header.vLong
      let (pos, header) ← readHeader src pos header
      let exponent := header.vLong
      match exponentAndMantissaToString mantissa exponent with
      | none => throw .thrown
      | some ss =>
        return (pos, header, some (objectOf v8 [("data", .string (v8.string (Json.bytes ss))),
          ("type", literal v8 "Decimal")]))
    else return (pos, header, none)
  | _ => return (pos, header, none)

/-- `resources_v8->Set(j, rr_v8)`, where there is something to set. -/
def setValue (resources : List (Value Number)) (j : ℕ) (value : Option (Value Number)) :
    List (Value Number) :=
  value.elim resources (setAt resources j)

/-- The elements of an array, from `j` on. -/
def readItems : ℕ → ℕ → BitVec 32 → ElementHeader → List (Value Number) →
    Except Error (BitVec 32 × List (Value Number))
  | 0, _, pos, _, resources => .ok (pos, resources)
  | n + 1, j, pos, header, resources => do
    let (pos, header) ← readHeader src pos header
    let (pos, header, value) ← readValue src v8 pos header
    readItems n (j + 1) pos header (setValue resources j value)

/-- The values of a predicate. An array starts with one element that is not set. -/
def readResources (pos : BitVec 32) (header : ElementHeader) :
    Except Error (BitVec 32 × List (Value Number)) := do
  if header.type = .array ∧ header.tag ≠ Tag.decimalFraction then
    readItems src v8 (header.vLong.setWidth 32).toInt.toNat 0 pos header [.undefined]
  else
    let (pos, _, value) ← readValue src v8 pos header
    return (pos, setValue [.undefined] 0 value)

/-- A predicate with its values. -/
def readPredicate (pos : BitVec 32) : Except Error (BitVec 32 × Text × List (Value Number)) := do
  let (pos, header) ← readHeader src pos newHeader
  let (pos, predicate) ← readText src pos header
  let (pos, header) ← readHeader src pos header
  let (pos, resources) ← readResources src v8 pos header
  return (pos, predicate, resources)

/-- The predicates. -/
def readPredicates : ℕ → BitVec 32 → Object Number → Except Error (Object Number)
  | 0, _, jsMap => .ok jsMap
  | n + 1, pos, jsMap => do
    let (pos, predicate, resources) ← readPredicate src v8 pos
    readPredicates n pos (jsMap.set (v8.string predicate) (.array resources))

end

/-- `cbor2jsobject`. -/
def cbor2jsobject {Number : Type} (v8 : V8 Number) (inStr : List Byte) :
    Except Error (Object Number) := do
  let src := Source.of inStr
  let (pos, header) ← readHeader src 0 newHeader
  let nResources := header.vLong.setWidth 32
  let (pos, header) ← readHeader src pos header
  let (pos, _) ← readText src pos header
  let (pos, header) ← readHeader src pos header
  let (pos, uri) ← readText src pos header
  let jsMap := Object.set [] (v8.string atSign) (.string (v8.string uri))
  readPredicates src v8 (nResources.toInt - 1).toNat pos jsMap

/-! ## Writing -/

/-- A value in `js_el_2_cbor_el`. -/
def writeElement : Element → List Byte
  | .uri s => writeTypeValue .tag 32 ++ writeString s
  | .boolean b => writeBool b
  | .datetime n => writeTypeValue .tag 1 ++ writeInteger n
  | .integer n => writeInteger n
  | .decimal mantissa exponent =>
    writeTypeValue .tag 4 ++
      (writeTypeValue .array 2 ++ (writeInteger mantissa ++ writeInteger exponent))
  | .string s lang =>
    (if lang ≠ 0 then writeTypeValue .tag ((lang + 41).signExtend 64) else []) ++ writeString s

section
variable {Number : Type} (v8 : V8 Number)

/-- `js_el_2_cbor_el`. -/
def jsEl2CborEl (resourceObj : Value Number) : Except Error (List Byte) :=
  (elementOf v8 resourceObj).map fun element => (element.map writeElement).getD []

/-- An element of the array of a predicate. -/
def writeItem (jsValue : Value Number) : Except Error (List Byte) :=
  match jsValue with
  | .array [jsValue] => jsEl2CborEl v8 jsValue
  | .array _ => .ok []
  | .object _ | .date _ => jsEl2CborEl v8 jsValue
  | _ => .ok (writeTypeValue .array 0)

/-- A key of the object with its value. -/
def writeProperty (obj : Object Number) (jsKey : JsString) : Except Error (List Byte) :=
  let resourceName := v8.text (.string jsKey)
  let jsValue := obj.get jsKey
  if resourceName = atSign then .ok (writeString resourceName ++ writeString (v8.text jsValue))
  else
    match jsValue with
    | .array resources => do
      let items ← resources.mapM (writeItem v8)
      return writeString resourceName ++
        (writeTypeValue .array (BitVec.ofNat 64 resources.length) ++ items.flatten)
    | .object _ | .date _ => do
      let item ← jsEl2CborEl v8 jsValue
      return writeString resourceName ++ (writeTypeValue .array 1 ++ item)
    | _ => .ok (writeString resourceName ++ writeTypeValue .array 0)

/-- `jsobject2cbor`. -/
def jsobject2cbor (obj : Object Number) : Except Error (List Byte) := do
  let individualKeys := v8.getPropertyNames obj.keys
  let properties ← individualKeys.mapM (writeProperty v8 obj)
  return writeTypeValue .map (BitVec.ofNat 64 individualKeys.length) ++ properties.flatten

end

end Veda.V8d.Cbor8json
