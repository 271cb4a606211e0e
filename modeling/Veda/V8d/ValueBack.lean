import Mathlib.Data.List.Forall2
import Veda.V8d.ReadCbor

/-! # Values that a script writes back

What is written of the value objects that `cbor2jsobject` has made, and which of the stored values
are read of it. -/

namespace Veda.V8d.Cbor8json

open Bj8individual Common
open Bj8individual.Cbor (MajorType header Encodes EncodesAll IsInteger)

/-! ## What the writer writes -/

theorem writeTypeValue_eq {type : MajorType} {value : BitVec 64} (h : 0 ≤ value.toInt) :
    writeTypeValue type value = Cbor.writeTypeValue type value := by
  have hint : value.toInt = value.toNat := by
    rw [BitVec.toInt_eq_toNat_cond] at h ⊢
    split at h
    · next hlt => rw [if_pos hlt]
    · have := value.isLt
      omega
  unfold writeTypeValue Cbor.writeTypeValue
  simp only [hint]
  by_cases hsmall : value.toNat < 24
  · rw [if_pos (by omega), if_pos hsmall]
    have hhead : ∀ n < 24, header type 0 ||| BitVec.ofNat 8 n = header type n := by
      cases type
      all_goals decide
    rw [← hhead _ hsmall, ← BitVec.ofNat_toNat]
  · rw [if_neg (by omega), if_neg hsmall]
    refine if_congr (by omega) rfl (if_congr (by omega) rfl (if_congr (by omega) rfl rfl))

theorem writeTypeValue_ofNat {type : MajorType} {n : ℕ} (h : n < 9223372036854775808) :
    writeTypeValue type (BitVec.ofNat 64 n) = Cbor.writeTypeValue type (BitVec.ofNat 64 n) := by
  refine writeTypeValue_eq ?_
  have : (BitVec.ofNat 64 n).toNat = n := by rw [BitVec.toNat_ofNat, Nat.mod_eq_of_lt (by omega)]
  rw [BitVec.toInt_eq_toNat_of_lt (by omega)]
  omega

theorem writeString_eq {s : Text} (h : s.length < 2147483648) :
    writeString s = Cbor.writeString s := by
  rw [writeString, writeTypeValue_ofNat (by omega), Cbor.writeString]

/-- Every integer but the smallest one is written as itself. -/
theorem isInteger_writeInteger {n : BitVec 64} (h : n.toInt ≠ -9223372036854775808) :
    IsInteger (writeInteger n) n := by
  unfold writeInteger
  split
  · next hpos =>
    rw [writeTypeValue_eq (by omega)]
    exact .unsigned n
  · next hneg =>
    have hmin : n ≠ BitVec.intMin 64 := by
      rintro rfl
      exact h rfl
    have hnot : 0 ≤ (-n).toInt := by
      rw [BitVec.toInt_neg_of_ne_intMin hmin]
      omega
    rw [writeTypeValue_eq hnot]
    have hint := IsInteger.negative (-n)
    rwa [BitVec.neg_neg] at hint

/-! ## Values -/

/-- The time that comes back. -/
def timeBack (n : BitVec 64) : BitVec 64 :=
  if InTime (n * 1000) then BitVec.ofInt 64 ((n * 1000).toInt.tdiv 1000) else 0

/-- The text that comes back. -/
def textBack (tag : Byte) (s : Text) : Resource :=
  if tag = Tag.textRu then .str s .ru
  else if tag = Tag.textEn then .str s .en
  else if tag = Tag.uri then .uri s
  else .str s .none

/-- The decimal that comes back: it has been a text. -/
def decimalBack (mantissa : BitVec 64) (exponent : BitVec 8) : Option Resource := do
  let ss ← exponentAndMantissaToString mantissa (exponent.signExtend 64)
  let (mantissa, exponent) ← (decimalOfText (Json.bytes ss)).toOption
  return .decimal mantissa (exponent.setWidth 8)

/-- The value that is read in the end of one that was stored, where the last tag that the reader has
seen before it is `tag`. It has been a number of a script, or a text that ends at a zero byte. -/
def valueBack (tag : Byte) (r : Resource) : Option Resource :=
  match r with
  | .uri s | .binary s | .str s _ => some (textBack (tagAfter tag r) (cString s))
  | .integer n | .datetime n =>
    if tagAfter tag r = Tag.epochDateTime then some (.datetime (timeBack n))
    else some (.integer ((n.setWidth 32).signExtend 64))
  | .decimal mantissa exponent => decimalBack mantissa exponent
  | .boolean b => some (.boolean b)

/-- The values that are read in the end. -/
def valuesBack : Byte → Resources → Option Resources
  | _, [] => some []
  | tag, r :: rs => do
    let r' ← valueBack tag r
    let rs' ← valuesBack (tagAfter tag r) rs
    return r' :: rs'

/-- Which values are kept. A text without a tag takes the last one that was read before it, and so
does an integer. -/
def Kept (tag : Byte) : Resource → Prop
  | .uri s => 0 ∉ s
  | .binary _ => False
  | .str s .none => 0 ∉ s ∧ tag ≠ Tag.uri ∧ tag ≠ Tag.textRu ∧ tag ≠ Tag.textEn
  | .str s _ => 0 ∉ s
  | .integer n => tag ≠ Tag.epochDateTime ∧ -2147483648 ≤ n.toInt ∧ n.toInt < 2147483648
  | .datetime n => -8640000000000 ≤ n.toInt ∧ n.toInt ≤ 8640000000000
  | .decimal mantissa exponent => Shown mantissa exponent
  | .boolean _ => True

/-- All values are kept. -/
def KeptAll : Byte → Resources → Prop
  | _, [] => True
  | tag, r :: rs => Kept tag r ∧ KeptAll (tagAfter tag r) rs

/-- The texts of a value are in UTF-8. -/
def TextIsUtf8 : Resource → Prop
  | .uri s | .binary s | .str s _ => IsUtf8 s
  | _ => True

section
variable {Number : Type} {v8 : V8 Number}

theorem langOf_literal (hv8 : Documented v8) {s : String} (h : isPlain s = true) :
    langOf v8 (literal v8 s) =
      if (ascii s).map toUpper = ascii "RU" then 1
      else if (ascii s).map toUpper = ascii "EN" then 2
      else 0 := by
  have htext := text_literal hv8 h
  rw [literal] at htext ⊢
  simp only [langOf, htext]

/-- What is written of a value object of a text. -/
theorem elementOf_textValue (hv8 : Documented v8) (tag : Byte) {s : Text} (hs : IsUtf8 s) :
    elementOf v8 (textValue v8 tag s) = .ok (some
      (if tag = Tag.textRu then .string (cString s) 1
        else if tag = Tag.textEn then .string (cString s) 2
        else if tag = Tag.uri then .uri (cString s)
        else .string (cString s) 0)) := by
  have htext := text_string hv8 hs
  have hstring : typeOf v8 (literal v8 "String") = 2 := (typeOf_literal hv8 rfl).trans rfl
  have huri : typeOf v8 (literal v8 "Uri") = 1 := (typeOf_literal hv8 rfl).trans rfl
  have hru : langOf v8 (literal v8 "RU") = 1 := (langOf_literal hv8 rfl).trans rfl
  have hen : langOf v8 (literal v8 "EN") = 2 := (langOf_literal hv8 rfl).trans rfl
  have hnone : langOf v8 .undefined = 0 := by
    change (v8.toInteger .undefined).setWidth 32 = 0
    rw [hv8.toInteger_undefined]
    rfl
  have hlook (value : Value Number) (lang : Value Number) :
      [("data", value), ("type", literal v8 "String"), ("lang", lang)].lookup "lang" =
        some lang := rfl
  unfold textValue
  split
  · rw [elementOf_objectOf hv8 (by simp [names]) rfl rfl hstring, hlook, Option.getD_some, hru,
      htext]
    rfl
  split
  · rw [elementOf_objectOf hv8 (by simp [names]) rfl rfl hstring, hlook, Option.getD_some, hen,
      htext]
    rfl
  split
  · rw [elementOf_objectOf hv8 (by simp [names]) rfl rfl huri, htext]
    rfl
  · have hnot (value : Value Number) :
        [("data", value), ("type", literal v8 "String")].lookup "lang" = none := rfl
    rw [elementOf_objectOf hv8 (by simp [names]) rfl rfl hstring, hnot, Option.getD_none, hnone,
      htext]
    rfl

theorem elementOf_integerValue (hv8 : Documented v8) (tag : Byte) (n : BitVec 64) :
    elementOf v8 (integerValue v8 tag n) = .ok (some
      (if tag = Tag.epochDateTime then .datetime (timeBack n)
        else .integer ((n.setWidth 32).signExtend 64))) := by
  have hdate : typeOf v8 (literal v8 "Datetime") = 8 := (typeOf_literal hv8 rfl).trans rfl
  have hinteger : typeOf v8 (literal v8 "Integer") = 4 := (typeOf_literal hv8 rfl).trans rfl
  unfold integerValue
  split
  · have htime : BitVec.ofInt 64 ((if InTime (n * 1000) then n * 1000 else 0).toInt.tdiv 1000) =
        timeBack n := by
      unfold timeBack
      split <;> rfl
    rw [elementOf_objectOf hv8 (by simp [names]) rfl rfl hdate, hv8.toInteger_newDate, htime]
    rfl
  · rw [elementOf_objectOf hv8 (by simp [names]) rfl rfl hinteger, hv8.toInteger_newInteger]
    rfl

theorem elementOf_simpleValue (hv8 : Documented v8) (b : Bool) :
    elementOf v8 (simpleValue v8 (if b then Cbor.trueCode else Cbor.falseCode)) =
      .ok (some (.boolean b)) := by
  have hboolean : typeOf v8 (literal v8 "Boolean") = 64 := (typeOf_literal hv8 rfl).trans rfl
  have hvalue : simpleValue v8 (if b then Cbor.trueCode else Cbor.falseCode) =
      objectOf v8 [("data", .boolean b), ("type", literal v8 "Boolean")] := by
    cases b <;> rfl
  rw [hvalue, elementOf_objectOf hv8 (by simp [names]) rfl rfl hboolean, hv8.toBoolean]
  rfl

theorem elementOf_decimal (hv8 : Documented v8) {ss : List Char} (h : ∀ c ∈ ss, Numeric c) :
    elementOf v8 (objectOf v8 [("data", .string (v8.string (Json.bytes ss))),
      ("type", literal v8 "Decimal")]) =
      (decimalOfText (Json.bytes ss)).map fun (mantissa, exponent) =>
        some (.decimal mantissa exponent) := by
  have hdecimal : typeOf v8 (literal v8 "Decimal") = 32 := (typeOf_literal hv8 rfl).trans rfl
  rw [elementOf_objectOf hv8 (by simp [names]) rfl rfl hdecimal, decimalOf,
    text_bytes hv8 fun c hc => (h c hc).ascii]
  cases decimalOfText (Json.bytes ss) <;> rfl

theorem encodes_text {tag : Byte} {s : Text} (h : s.length < 2147483648) :
    Encodes (textBack tag s) (writeElement
      (if tag = Tag.textRu then .string s 1
        else if tag = Tag.textEn then .string s 2
        else if tag = Tag.uri then .uri s
        else .string s 0)) := by
  have hstring := writeString_eq h
  have hru : writeTypeValue .tag (((1 : BitVec 32) + 41).signExtend 64) =
      Cbor.writeTypeValue .tag 42 := by decide
  have hen : writeTypeValue .tag (((2 : BitVec 32) + 41).signExtend 64) =
      Cbor.writeTypeValue .tag 43 := by decide
  have huri : writeTypeValue .tag 32 = Cbor.writeTypeValue .tag 32 := by decide
  unfold textBack
  split
  · rw [writeElement, if_pos (by decide), hru, hstring]
    exact .ru s
  split
  · rw [writeElement, if_pos (by decide), hen, hstring]
    exact .en s
  split
  · rw [writeElement, huri, hstring]
    exact .uri s
  · rw [writeElement, if_neg (by decide), List.nil_append, hstring]
    exact .str s

/-- Whole seconds of a time that a date can have. -/
theorem toInt_seconds {ms : BitVec 64} (h : InTime ms) :
    (BitVec.ofInt 64 (ms.toInt.tdiv 1000)).toInt = ms.toInt.tdiv 1000 ∧
      (ms.toInt.tdiv 1000).natAbs ≤ 8640000000000 := by
  have hle := h.1
  have hge := h.2
  have habs : (ms.toInt.tdiv 1000).natAbs = ms.toInt.natAbs / 1000 := Int.natAbs_tdiv _ _
  rw [BitVec.toInt_ofInt, Int.bmod_eq_of_le (by omega) (by omega)]
  exact ⟨rfl, by omega⟩

theorem toInt_timeBack_ne (n : BitVec 64) : (timeBack n).toInt ≠ -9223372036854775808 := by
  unfold timeBack
  split
  · next h =>
    obtain ⟨hint, habs⟩ := toInt_seconds h
    rw [hint]
    omega
  · decide

theorem toInt_integer_ne (n : BitVec 64) :
    ((n.setWidth 32).signExtend 64).toInt ≠ -9223372036854775808 := by
  rw [BitVec.toInt_signExtend_of_le (by decide)]
  have := (n.setWidth 32).le_toInt
  omega

theorem encodes_integer {tag : Byte} {n : BitVec 64} :
    ∃ r, (if tag = Tag.epochDateTime then some (.datetime (timeBack n))
        else some (.integer ((n.setWidth 32).signExtend 64)) : Option Resource) = some r ∧
      Encodes r (writeElement
        (if tag = Tag.epochDateTime then .datetime (timeBack n)
          else .integer ((n.setWidth 32).signExtend 64))) := by
  have htag : writeTypeValue .tag 1 = Cbor.writeTypeValue .tag 1 := by decide
  split
  · refine ⟨_, rfl, ?_⟩
    rw [writeElement, htag]
    exact .datetime (isInteger_writeInteger (toInt_timeBack_ne n))
  · exact ⟨_, rfl, .integer (isInteger_writeInteger (toInt_integer_ne n))⟩

theorem encodes_decimal {mantissa : BitVec 64} (hm : Int64.ofBitVec mantissa ≠ Int64.minValue)
    {places : ℕ} (h : places < 128) :
    Encodes (.decimal mantissa ((-BitVec.ofNat 64 places).setWidth 8))
      (writeElement (.decimal mantissa (-BitVec.ofNat 64 places))) := by
  have htag : writeTypeValue .tag 4 = Cbor.writeTypeValue .tag 4 := by decide
  have harray : writeTypeValue .array 2 = Cbor.writeTypeValue .array 2 := by decide
  rw [writeElement, htag, harray]
  refine .decimal (isInteger_writeInteger fun hmin => hm (Int64.toInt_inj.mp hmin))
    (isInteger_writeInteger ?_)
  rw [toInt_neg_ofNat (by decide) h]
  omega

theorem writeItem_decimal (hv8 : Documented v8) {mantissa : BitVec 64} {exponent : BitVec 8}
    {ss : List Char}
    (h : exponentAndMantissaToString mantissa (exponent.signExtend 64) = some ss) :
    Makes (decimalBack mantissa exponent)
      (writeItem v8 (objectOf v8 [("data", .string (v8.string (Json.bytes ss))),
        ("type", literal v8 "Decimal")])) Encodes := by
  obtain ⟨-, hnum, hread⟩ := decimalOfText_exponentAndMantissaToString h
  have hrange := exponent.le_toInt
  have hlen := length_mantissa_lt (.ofBitVec mantissa)
  generalize hp : min (-exponent.toInt).toNat
    ((signAndMantissa (.ofBitVec mantissa)).2.length + 32) = places at hread
  change Makes _ (jsEl2CborEl v8 (objectOf v8 _)) _
  rw [jsEl2CborEl, elementOf_decimal hv8 hnum]
  by_cases hm : Int64.ofBitVec mantissa = Int64.minValue
  · rw [if_pos hm] at hread
    rw [decimalBack, h, Option.bind_eq_bind, Option.bind_some, hread]
    rfl
  · rw [if_neg hm] at hread
    rw [decimalBack, h, Option.bind_eq_bind, Option.bind_some, hread]
    exact makes_ok (encodes_decimal hm (by omega))

/-- A value object that was made is written as the value that comes back, or the writer throws. -/
theorem writeItem_made (hv8 : Documented v8) (tag : Byte) {r : Resource} (hr : TextIsUtf8 r)
    (hs : (Cbor.writeResource r).length < 2147483648) {value : Value Number}
    (h : made v8 tag r = some value) :
    Makes (valueBack tag r) (writeItem v8 value) Encodes := by
  have hitem {properties : List (String × Value Number)} :
      writeItem v8 (objectOf v8 properties) = jsEl2CborEl v8 (objectOf v8 properties) := rfl
  have htext (tag : Byte) {s : Text} (hs : IsUtf8 s) (hlen : s.length < 2147483648) :
      Makes (some (textBack tag (cString s))) (writeItem v8 (textValue v8 tag s)) Encodes := by
    have hlen' : (cString s).length ≤ s.length := (List.takeWhile_prefix _).length_le
    have hobj : writeItem v8 (textValue v8 tag s) = jsEl2CborEl v8 (textValue v8 tag s) := by
      unfold textValue
      split_ifs <;> rfl
    rw [hobj, jsEl2CborEl, elementOf_textValue hv8 tag hs]
    exact makes_ok (encodes_text (by omega))
  have hinteger (tag : Byte) (n : BitVec 64) :
      Makes (if tag = Tag.epochDateTime then some (.datetime (timeBack n))
        else some (.integer ((n.setWidth 32).signExtend 64)))
        (writeItem v8 (integerValue v8 tag n)) Encodes := by
    have hobj : writeItem v8 (integerValue v8 tag n) = jsEl2CborEl v8 (integerValue v8 tag n) := by
      unfold integerValue
      split_ifs <;> rfl
    obtain ⟨r, hr, henc⟩ := @encodes_integer tag n
    rw [hobj, jsEl2CborEl, elementOf_integerValue hv8, hr]
    exact makes_ok henc
  have hstring {bytes : List Byte} {s : Text}
      (h : (bytes ++ Cbor.writeString s).length < 2147483648) : s.length < 2147483648 := by
    rw [List.length_append, Cbor.writeString_length] at h
    omega
  cases r with
  | uri s =>
    obtain rfl := Option.some_inj.mp h
    exact htext _ hr (hstring hs)
  | binary s =>
    obtain rfl := Option.some_inj.mp h
    exact htext _ hr (hstring hs)
  | str s lang =>
    obtain rfl := Option.some_inj.mp h
    exact htext _ hr (hstring hs)
  | integer n =>
    obtain rfl := Option.some_inj.mp h
    exact hinteger tag n
  | datetime n =>
    obtain rfl := Option.some_inj.mp h
    exact hinteger Tag.epochDateTime n
  | boolean b =>
    obtain rfl := Option.some_inj.mp h
    have hbool : writeBool b = Cbor.writeBool b := by cases b <;> decide
    have hobj : writeItem v8 (simpleValue v8 (if b then Cbor.trueCode else Cbor.falseCode)) =
        jsEl2CborEl v8 (simpleValue v8 (if b then Cbor.trueCode else Cbor.falseCode)) := by
      rw [simpleValue, hitem]
    have henc : Encodes (.boolean b) (writeBool b) := by
      rw [hbool]
      exact .boolean b
    have hok : Makes (some (.boolean b)) (.ok (writeBool b)) Encodes := makes_ok henc
    rw [hobj, jsEl2CborEl, elementOf_simpleValue hv8]
    exact hok
  | decimal mantissa exponent =>
    rw [made, Option.map_eq_some_iff] at h
    obtain ⟨ss, hss, rfl⟩ := h
    exact writeItem_decimal hv8 hss

theorem valueBack_of_made {tag : Byte} {r : Resource} (h : made v8 tag r = none) :
    valueBack tag r = none := by
  cases r with
  | decimal mantissa exponent =>
    rw [made, Option.map_eq_none_iff] at h
    rw [valueBack, decimalBack, h]
    rfl
  | _ => cases h

theorem valuesBack_of_madeAll {tag : Byte} {rs : Resources} (h : madeAll v8 tag rs = none) :
    valuesBack tag rs = none := by
  induction rs generalizing tag with
  | nil => cases h
  | cons r rs ih =>
    rw [madeAll] at h
    rw [valuesBack]
    cases hmade : made v8 tag r with
    | none =>
      rw [valueBack_of_made hmade]
      rfl
    | some value =>
      cases hall : madeAll v8 (tagAfter tag r) rs with
      | none =>
        rw [ih hall]
        cases valueBack tag r <;> rfl
      | some values =>
        rw [hmade, hall] at h
        cases h

/-- The value objects of a predicate are written one after the other. -/
theorem writeItems_made (hv8 : Documented v8) {tag : Byte} {rs : Resources}
    (hr : ∀ r ∈ rs, TextIsUtf8 r) (hs : ∀ r ∈ rs, (Cbor.writeResource r).length < 2147483648)
    {values : List (Value Number)} (h : madeAll v8 tag rs = some values) :
    Makes (valuesBack tag rs) (values.mapM (writeItem v8))
      fun rs' items => EncodesAll rs' items.flatten := by
  induction rs generalizing tag values with
  | nil =>
    obtain rfl := Option.some_inj.mp h
    exact makes_ok .nil
  | cons r rs ih =>
    obtain ⟨hr, hrs⟩ := List.forall_mem_cons.mp hr
    obtain ⟨hs, hss⟩ := List.forall_mem_cons.mp hs
    rw [madeAll, Option.bind_eq_bind, Option.bind_eq_some_iff] at h
    obtain ⟨value, hmade, h⟩ := h
    rw [Option.bind_eq_bind, Option.bind_eq_some_iff] at h
    obtain ⟨values, hall, h⟩ := h
    obtain rfl := Option.some_inj.mp h
    rw [valuesBack, List.mapM_cons]
    refine (writeItem_made hv8 tag hr hs hmade).bind fun r' item hitem => ?_
    refine (ih hrs hss hall).bind fun rs' items hitems => makes_ok ?_
    rw [List.flatten_cons]
    exact .cons hitem hitems

theorem valuesBack_length {tag : Byte} {rs rs' : Resources} (h : valuesBack tag rs = some rs') :
    rs'.length = rs.length := by
  induction rs generalizing tag rs' with
  | nil =>
    obtain rfl := Option.some_inj.mp h
    rfl
  | cons r rs ih =>
    rw [valuesBack, Option.bind_eq_bind, Option.bind_eq_some_iff] at h
    obtain ⟨r', -, h⟩ := h
    rw [Option.bind_eq_bind, Option.bind_eq_some_iff] at h
    obtain ⟨rs', hall, h⟩ := h
    obtain rfl := Option.some_inj.mp h
    rw [List.length_cons, List.length_cons, ih hall]

/-! ## Which values are kept -/

theorem timeBack_eq_iff {n : BitVec 64} :
    timeBack n = n ↔ -8640000000000 ≤ n.toInt ∧ n.toInt ≤ 8640000000000 := by
  have hn := n.le_toInt
  have hn' := n.toInt_lt
  have hmul : (n * 1000).toInt = (n.toInt * 1000).bmod (2 ^ 64) := BitVec.toInt_mul n 1000
  constructor
  · intro h
    unfold timeBack at h
    split at h
    · next htime =>
      obtain ⟨hint, habs⟩ := toInt_seconds htime
      rw [h] at hint
      omega
    · rw [← h]
      decide
  · intro h
    have hexact : (n * 1000).toInt = n.toInt * 1000 := by
      rw [hmul, Int.bmod_eq_of_le (by omega) (by omega)]
    have htime : InTime (n * 1000) := by
      unfold InTime
      omega
    rw [timeBack, if_pos htime, hexact, Int.mul_tdiv_cancel _ (by decide), BitVec.ofInt_toInt]

theorem integerBack_eq_iff {n : BitVec 64} :
    (n.setWidth 32).signExtend 64 = n ↔ -2147483648 ≤ n.toInt ∧ n.toInt < 2147483648 := by
  have hint := n.toInt_eq_toNat_cond
  have hlt := n.isLt
  rw [← BitVec.toInt_inj, BitVec.toInt_signExtend_of_le (by decide), BitVec.toInt_setWidth,
    Int.bmod_def]
  constructor
  · intro h
    split at h <;> omega
  · intro h
    split at hint <;> split <;> omega

/-- Exactly these values come back as they were. -/
theorem valueBack_iff {tag : Byte} {r : Resource} : valueBack tag r = some r ↔ Kept tag r := by
  cases r with
  | uri s =>
    have hback : valueBack tag (.uri s) = some (.uri (cString s)) := rfl
    rw [hback, Option.some_inj, Resource.uri.injEq]
    exact cString_eq_iff
  | binary s =>
    have hback : valueBack tag (.binary s) = some (.str (cString s) .none) := rfl
    rw [hback]
    exact iff_of_false (fun h => by cases h) id
  | str s lang =>
    cases lang with
    | none =>
      have hback : valueBack tag (.str s .none) = some (textBack tag (cString s)) := rfl
      rw [hback, Option.some_inj, Kept, ← cString_eq_iff]
      unfold textBack
      split_ifs with hru hen huri
      · exact iff_of_false (by simp) fun h => h.2.2.1 hru
      · exact iff_of_false (by simp) fun h => h.2.2.2 hen
      · exact iff_of_false (by simp) fun h => h.2.1 huri
      · rw [Resource.str.injEq]
        exact and_congr_right fun _ => iff_of_true rfl ⟨huri, hru, hen⟩
    | ru =>
      have hback : valueBack tag (.str s .ru) = some (.str (cString s) .ru) := rfl
      rw [hback, Option.some_inj, Resource.str.injEq, and_iff_left rfl]
      exact cString_eq_iff
    | en =>
      have hback : valueBack tag (.str s .en) = some (.str (cString s) .en) := rfl
      rw [hback, Option.some_inj, Resource.str.injEq, and_iff_left rfl]
      exact cString_eq_iff
  | integer n =>
    have hback : valueBack tag (.integer n) = if tag = Tag.epochDateTime then
        some (.datetime (timeBack n)) else some (.integer ((n.setWidth 32).signExtend 64)) := rfl
    rw [hback, Kept]
    split
    · next htag => exact iff_of_false (fun h => by cases h) fun h => h.1 htag
    · next htag =>
      rw [Option.some_inj, Resource.integer.injEq, and_iff_right htag]
      exact integerBack_eq_iff
  | datetime n =>
    have hback : valueBack tag (.datetime n) = some (.datetime (timeBack n)) := rfl
    rw [hback, Option.some_inj, Resource.datetime.injEq]
    exact timeBack_eq_iff
  | decimal mantissa exponent =>
    have hback : valueBack tag (.decimal mantissa exponent) = decimalBack mantissa exponent := rfl
    rw [hback, Kept]
    constructor
    · intro h
      rw [decimalBack, Option.bind_eq_bind, Option.bind_eq_some_iff] at h
      obtain ⟨ss, hss, h⟩ := h
      rw [Option.bind_eq_bind, Option.bind_eq_some_iff] at h
      obtain ⟨⟨mantissa', e⟩, hread, h⟩ := h
      obtain ⟨rfl, he⟩ := Resource.decimal.inj (Option.some_inj.mp h)
      cases hdecimal : decimalOfText (Json.bytes ss) with
      | error err =>
        rw [hdecimal] at hread
        cases hread
      | ok result =>
        rw [hdecimal] at hread
        obtain rfl := Option.some_inj.mp hread
        exact shown_of_back hss hdecimal he
    · intro h
      obtain ⟨ss, hss, -, hread⟩ := h.back
      rw [decimalBack, hss, Option.bind_eq_bind, Option.bind_some, hread]
      simp only [Except.toOption, Option.bind_eq_bind, Option.bind_some, Cbor.setWidth_signExtend]
      rfl
  | boolean b => exact iff_of_true rfl trivial

theorem valuesBack_iff {tag : Byte} {rs : Resources} :
    valuesBack tag rs = some rs ↔ KeptAll tag rs := by
  induction rs generalizing tag with
  | nil => exact iff_of_true rfl trivial
  | cons r rs ih =>
    rw [KeptAll, ← valueBack_iff, ← ih, valuesBack]
    cases valueBack tag r with
    | none => exact iff_of_false (fun h => by cases h) fun h => by cases h.1
    | some r' =>
      cases valuesBack (tagAfter tag r) rs with
      | none => exact iff_of_false (fun h => by cases h) fun h => by cases h.2
      | some rs' =>
        rw [Option.bind_eq_bind, Option.bind_some, Option.bind_eq_bind, Option.bind_some,
          Option.some_inj, Option.some_inj]
        change some (r' :: rs') = some (r :: rs) ↔ _
        rw [Option.some_inj, List.cons.injEq]

end

end Veda.V8d.Cbor8json
