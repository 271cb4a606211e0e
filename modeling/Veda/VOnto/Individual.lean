import Veda.Bj8individual.Individual

/-! # Individuals that are read as far as they are asked for

The model of `individual.rs` and `msgpack8individual.rs`: a predicate that is not yet among the
resources is looked for in the bytes that have not been read. What `rmp` reads is a parameter, and
so is what is made of bytes that are no text. -/

namespace Veda.VOnto

open Bj8individual (Byte Text Lang)

/-- `enum DataType`. -/
inductive DataType where
  | uri
  | string
  | integer
  | datetime
  | decimal
  | boolean
  | binary
  deriving DecidableEq

def DataType.code : DataType → ℤ
  | uri => 1
  | string => 2
  | integer => 4
  | datetime => 8
  | decimal => 32
  | boolean => 64
  | binary => 128

/-- `enum Value`. -/
inductive Value where
  | int (n : BitVec 64)
  | str (s : Text) (lang : Lang)
  | bool (b : Bool)
  | num (mantissa exponent : BitVec 64)
  | binary (s : Text)
  deriving DecidableEq

/-- `struct Resource`. -/
structure Resource where
  rtype : DataType
  order : BitVec 16
  value : Value
  deriving DecidableEq

/-- `HashMap<String, Vec<Resource>>`. -/
abbrev Resources := AList fun _ : Text => List Resource

/-- The markers that are told apart. -/
inductive Marker where
  | null
  | fixStr (size : ℕ)
  | str16
  | str32
  | fixArray (size : ℕ)
  | other
  deriving DecidableEq

/-- `DecodeStringError`. -/
inductive DecodeStringError where
  | invalidUtf8 (buf : Text)
  | other

/-- What is used of `rmp`, and `String::from_utf8_lossy`. A function gives what it reads from the
bytes at the cursor, and the bytes behind that. -/
structure Rmp where
  readMarker : List Byte → Option (Marker × List Byte)
  readStrLen : List Byte → Option (ℕ × List Byte)
  /-- `read_str`, with the size of the buffer. -/
  readStr : ℕ → List Byte → Except DecodeStringError Text × List Byte
  readArrayLen : List Byte → Option (ℕ × List Byte)
  readMapLen : List Byte → Option (ℕ × List Byte)
  /-- The number of `read_int`, before it is converted to the type that is asked for. -/
  readInt : List Byte → Option (ℤ × List Byte)
  readBool : List Byte → Option (Bool × List Byte)
  fromUtf8Lossy : Text → Text

/-- `struct Individual`. -/
structure Individual where
  binobj : List Byte
  uri : Text
  resources : Resources
  cur : ℕ
  lenPredicates : ℕ
  curPredicates : ℕ

namespace Individual

/-- `Individual::new`. -/
def new (buff : List Byte) : Individual := ⟨buff, [], ∅, 0, 0, 0⟩

/-- The bytes that have not been read. -/
def unread (indv : Individual) : List Byte := indv.binobj.drop indv.cur

/-- The individual with the cursor before some bytes at its end. -/
def setCur (indv : Individual) (cur : List Byte) : Individual :=
  { indv with cur := indv.binobj.length - cur.length }

end Individual

section
variable (rmp : Rmp)

/-! ## Reading values -/

/-- `read_int::<u8>`. -/
def readU8 (cur : List Byte) : Option (ℤ × List Byte) := do
  let (n, cur) ← rmp.readInt cur
  if 0 ≤ n ∧ n < 256 then some (n, cur) else none

/-- `read_int::<i64>`. -/
def readI64 (cur : List Byte) : Option (BitVec 64 × List Byte) := do
  let (n, cur) ← rmp.readInt cur
  if -2 ^ 63 ≤ n ∧ n < 2 ^ 63 then some (BitVec.ofInt 64 n, cur) else none

/-- The size of the buffer for a text, where its marker is that of one. -/
def bufferSize (marker : Marker) (cur : List Byte) : Option ℕ :=
  match marker with
  | .fixStr size => some size
  | .str16 | .str32 => (rmp.readStrLen cur).map Prod.fst
  | _ => none

/-- The text that `read_str` gives, or what is made of bytes that are none. -/
def textOfStr (ofBuf : Text → Text) :
    Except DecodeStringError Text × List Byte → Option (Text × List Byte)
  | (.ok v, rest) => some (v, rest)
  | (.error (.invalidUtf8 buf), rest) => some (ofBuf buf, rest)
  | (.error .other, _) => none

/-- `read_string_from_msgpack`. -/
def readStringFromMsgpack (cur : List Byte) : Option (Text × List Byte) := do
  let (marker, rest) ← rmp.readMarker cur
  match marker with
  | .null => some ([], rest)
  | marker =>
    let size ← bufferSize rmp marker cur
    textOfStr rmp.fromUtf8Lossy (rmp.readStr size cur)

/-- `read_binobj_into_resources`. -/
def readBinobj (cur : List Byte) : Option (Text × List Byte) := do
  let (marker, _) ← rmp.readMarker cur
  let size ← bufferSize rmp marker cur
  textOfStr id (rmp.readStr size cur)

/-- The language of a number. -/
def langOf (lang : BitVec 64) : Lang :=
  if lang = 1 then .ru else if lang = 2 then .en else .none

/-- A value of an array of two elements. -/
def readOfTwo (vType : ℤ) (order : BitVec 16) (cur : List Byte) :
    Option (List Resource × List Byte) := do
  if vType = DataType.boolean.code then
    let (res, cur) ← rmp.readBool cur
    return ([⟨.boolean, order, .bool res⟩], cur)
  else if vType = DataType.datetime.code then
    let (res, cur) ← readI64 rmp cur
    return ([⟨.datetime, order, .int res⟩], cur)
  else if vType = DataType.integer.code then
    let (res, cur) ← readI64 rmp cur
    return ([⟨.integer, order, .int res⟩], cur)
  else if vType = DataType.uri.code then
    let (p, cur) ← readStringFromMsgpack rmp cur
    return ([⟨.uri, order, .str p .none⟩], cur)
  else if vType = DataType.binary.code then
    let (out, cur) ← readBinobj rmp cur
    return ([⟨.binary, 0, .binary out⟩], cur)
  else if vType = DataType.string.code then
    let (p, cur) ← readStringFromMsgpack rmp cur
    return ([⟨.string, order, .str p .none⟩], cur)
  else none

/-- A value of an array of three elements. One of another type is skipped, but not its elements. -/
def readOfThree (vType : ℤ) (order : BitVec 16) (cur : List Byte) :
    Option (List Resource × List Byte) := do
  if vType = DataType.decimal.code then
    let (mantissa, cur) ← readI64 rmp cur
    let (exponent, cur) ← readI64 rmp cur
    return ([⟨.decimal, order, .num mantissa exponent⟩], cur)
  else if vType = DataType.string.code then
    let (p, cur) ← readStringFromMsgpack rmp cur
    let (lang, cur) ← readI64 rmp cur
    return ([⟨.string, order, .str p (langOf lang)⟩], cur)
  else return ([], cur)

/-- One turn of the loop over the values of a predicate. There is nothing where the function returns
`false`. -/
def readValue (iValues : ℕ) (cur : List Byte) : Option (List Resource × List Byte) := do
  let (marker, cur) ← rmp.readMarker cur
  match marker with
  | .fixArray size =>
    if size ≠ 2 ∧ size ≠ 3 then none
    else
      let (vType, cur) ← readU8 rmp cur
      if size = 2 then readOfTwo rmp vType (.ofNat 16 iValues) cur
      else readOfThree rmp vType (.ofNat 16 iValues) cur
  | _ => none

/-- The loop over the values of a predicate: what has been pushed, and the bytes behind the values
if all of them can be read. -/
def readValues : ℕ → ℕ → List Resource → List Byte → List Resource × Option (List Byte)
  | 0, _, values, cur => (values, some cur)
  | size + 1, iValues, values, cur =>
    match readValue rmp iValues cur with
    | none => (values, none)
    | some (rs, cur) => readValues size (iValues + 1) (values ++ rs) cur

/-! ## Looking for a predicate -/

/-- One turn of the loop of `parse_to_predicate`: the resources, and the predicate with the bytes
behind its values if it can be read. -/
def parsePredicate (resources : Resources) (cur : List Byte) :
    Resources × Option (Text × List Byte) :=
  match readStringFromMsgpack rmp cur with
  | none => (resources, none)
  | some (predicate, cur) =>
    let values := (resources.lookup predicate).getD []
    match rmp.readArrayLen cur with
    | none => (resources.insert predicate values, none)
    | some (size, cur) =>
      let (values, cur) := readValues rmp size 0 values cur
      (resources.insert predicate values, cur.map fun cur => (predicate, cur))

/-- The loop of `parse_to_predicate`: the resources, and the position of the cursor where the
function returns `true`. -/
def parseLoop (expectPredicate : Text) :
    ℕ → Resources → List Byte → Resources × Option (List Byte)
  | 0, resources, cur => (resources, some cur)
  | n + 1, resources, cur =>
    match parsePredicate rmp resources cur with
    | (resources, none) => (resources, none)
    | (resources, some (predicate, cur)) =>
      if predicate = expectPredicate then (resources, some cur)
      else parseLoop expectPredicate n resources cur

/-- `parse_to_predicate`. -/
def parseToPredicate (expectPredicate : Text) (indv : Individual) : Bool × Individual :=
  if indv.binobj.length ≤ indv.cur then (false, indv)
  else
    match parseLoop rmp expectPredicate (indv.lenPredicates - indv.curPredicates) indv.resources
        indv.unread with
    | (resources, some cur) => (true, { indv with resources := resources }.setCur cur)
    | (resources, none) => (false, { indv with resources := resources })

/-- `MSGPACK_MAGIC_HEADER`. -/
def magicHeader : Byte := 146

/-- `msgpack2individual`, where it returns `true`. -/
def msgpack2individual (indv : Individual) : Option Individual :=
  if indv.binobj.head? ≠ some magicHeader then none
  else do
    let (marker, cur) ← rmp.readMarker indv.binobj
    match marker with
    | .fixArray size =>
      if size ≠ 2 then none
      else do
        let (uri, cur) ← readStringFromMsgpack rmp cur
        let (size, cur) ← rmp.readMapLen cur
        return { indv with uri := uri, lenPredicates := size }.setCur cur
    | _ => none

/-! ## What is asked for -/

section
variable {A : Type} (ofValue : Value → A) (failed absent : A)

/-- What the three functions have in common: they look among the resources, and call themselves
after they have read on. There is nothing where a function panics or calls itself for ever. -/
def getFirst (predicate : Text) : ℕ → Individual → Option A × Individual
  | fuel, indv =>
    match indv.resources.lookup predicate with
    | some [] => (none, indv)
    | some (r :: _) => (some (ofValue r.value), indv)
    | none =>
      if indv.cur < indv.binobj.length then
        match fuel with
        | 0 => (none, indv)
        | fuel + 1 =>
          match parseToPredicate rmp predicate indv with
          | (true, indv) => getFirst predicate fuel indv
          | (false, indv) => (some failed, indv)
      else (some absent, indv)

end

/-- What is returned: a text or the number of an error, a number, or bytes. -/
inductive Answer where
  | literal (r : Except ℤ Text)
  | integer (n : BitVec 64)
  | binobj (s : Text)

/-- The text of the first value. -/
def literalOf : Value → Answer
  | .str s _ => .literal (.ok s)
  | _ => .literal (.error (-2))

def integerOf : Value → Answer
  | .int i => .integer i
  | _ => .integer (-1)

def binobjOf : Value → Answer
  | .binary s => .binobj s
  | _ => .binobj []

/-- More often than there are bytes, the functions do not call themselves. -/
def Individual.fuel (indv : Individual) : ℕ := indv.binobj.length + 1

/-- `get_first_literal`. -/
def getFirstLiteral (predicate : Text) (indv : Individual) : Option Answer × Individual :=
  getFirst rmp literalOf (.literal (.error (-3))) (.literal (.ok [])) predicate indv.fuel indv

/-- `get_first_integer`. -/
def getFirstInteger (predicate : Text) (indv : Individual) : Option Answer × Individual :=
  getFirst rmp integerOf (.integer (-1)) (.integer (-1)) predicate indv.fuel indv

/-- `get_first_binobj`. -/
def getFirstBinobj (predicate : Text) (indv : Individual) : Option Answer × Individual :=
  getFirst rmp binobjOf (.binobj []) (.binobj []) predicate indv.fuel indv

/-- A call of one of the three functions. -/
inductive Call where
  | literal (predicate : Text)
  | integer (predicate : Text)
  | binobj (predicate : Text)

def Call.run : Call → Individual → Option Answer × Individual
  | .literal predicate => getFirstLiteral rmp predicate
  | .integer predicate => getFirstInteger rmp predicate
  | .binobj predicate => getFirstBinobj rmp predicate

end

end Veda.VOnto
