import Veda.Bj8individual.Cbor
import Veda.Bj8individual.IndividualJson
import Veda.V8d.Value

/-! # Value objects

The model of `util8json.cpp` and of what the converters of `v8_d` have in common: a value of an
individual is an object of a script with the properties `data`, `type` and `lang`. -/

namespace Veda.V8d

open Bj8individual Common
open Bj8individual.Json (bytes)

/-! ## Numbers as texts -/

/-- A number as a `long`. -/
def long (n : ℤ) : ℤ := n.bmod (2 ^ 64)

/-- `exponent_and_mantissa_to_string`; `none` is the exception of `substr`. -/
def exponentAndMantissaToString (decimalMantissaData decimalExponentData : BitVec 64) :
    Option (List Char) :=
  let (sign, strMantissa) := signAndMantissa (.ofBitVec decimalMantissaData)
  let lh := long (strMantissa.length - long (decimalExponentData.toInt * -1))
  let slh :=
    if 0 ≤ lh then
      if lh ≤ strMantissa.length then substr strMantissa 0 lh.toNat else some []
    else some []
  let slr :=
    if 0 ≤ lh then substr strMantissa lh.toNat strMantissa.length
    else (substr nullz 0 (long (-lh)).toNat).map (· ++ strMantissa)
  slh.bind fun slh => slr.map fun slr =>
    if slr.length = 0 then sign ++ slh
    else
      let slh := if slh.length = 0 then ['0'] else slh
      sign ++ (slh ++ '.' :: slr)

/-- The number so far, which is negative, and the next character. -/
def addDigit (result : BitVec 64) (c : Byte) : Except Error (BitVec 64) :=
  if 48 ≤ c.toNat ∧ c.toNat ≤ 57 then .ok (result * 10 - BitVec.ofNat 64 (c.toNat - 48))
  else .error .thrown

/-- `to_int`. -/
def toInt (s : Text) : Except Error (BitVec 64) := do
  if s = [] then throw .thrown
  let negate := s.head? = some 45
  let s := if s.head? = some 43 ∨ s.head? = some 45 then s.tail else s
  if s = [] then throw .thrown
  let result ← s.foldlM addDigit 0
  return if negate then result else -result

/-- `num.find(c)` as an `int`. -/
def find (num : Text) (c : Byte) : ℤ := if num.contains c then int (num.idxOf c) else -1

/-- `pos`, where the point or the comma is. -/
def posOf (num : Text) : ℤ := if find num 46 < 0 then find num 44 else find num 46

/-- The mantissa and the exponent of a number that is given as a text. -/
def decimalOfText (num : Text) : Except Error (BitVec 64 × BitVec 64) := do
  let pos := posOf num
  if pos > 0 then
    let ll := num.take pos.toNat
    let rr := num.drop (pos.toNat + 1)
    return (← toInt (cString (ll ++ rr)), -BitVec.ofNat 64 rr.length)
  else return (← toInt (cString num), 0)

/-! ## What is written of a value object -/

/-- The value that a value object stands for. -/
inductive Element where
  | uri (s : Text)
  | boolean (b : Bool)
  | datetime (n : BitVec 64)
  | integer (n : BitVec 64)
  | decimal (mantissa exponent : BitVec 64)
  | string (s : Text) (lang : BitVec 32)
  deriving DecidableEq

variable {Number : Type} (v8 : V8 Number)

/-- `Get` of a value that is cast to an object. A date and an array are objects without such
properties; the cast of any other value is not checked. -/
def property (value : Value Number) (key : String) : Except Error (Value Number) :=
  match value with
  | .object properties => .ok (Object.get properties (v8.string (ascii key)))
  | .array _ | .date _ => .ok .undefined
  | _ => .error .undefined

/-- The type of a value object. -/
def typeOf (vType : Value Number) : BitVec 32 :=
  match vType with
  | .string _ =>
    let sType := v8.text vType
    if sType = ascii "Uri" then 1
    else if sType = ascii "String" then 2
    else if sType = ascii "Integer" then 4
    else if sType = ascii "Datetime" then 8
    else if sType = ascii "Decimal" then 32
    else if sType = ascii "Boolean" then 64
    else 2
  | _ => (v8.toInteger vType).setWidth 32

/-- `toupper`. -/
def toUpper (c : Byte) : Byte := if 97 ≤ c.toNat ∧ c.toNat ≤ 122 then c - 32 else c

/-- The language of a value object. -/
def langOf (vLang : Value Number) : BitVec 32 :=
  match vLang with
  | .string _ =>
    let sLang := (v8.text vLang).map toUpper
    if sLang = ascii "RU" then 1 else if sLang = ascii "EN" then 2 else 0
  | _ => (v8.toInteger vLang).setWidth 32

/-- The decimal of a value object. -/
def decimalOf (vData : Value Number) : Except Error (BitVec 64 × BitVec 64) :=
  match vData with
  | .string _ => decimalOfText (v8.text vData)
  | _ => (v8.toMantissaExponent vData).elim (.error .fuel) .ok

/-- What `js_el_2_cbor_el` and `js_el_2_msgpack_el` take out of a value object; nothing is written
of one with an unknown type. -/
def elementOf (resourceObj : Value Number) : Except Error (Option Element) := do
  let vData ← property v8 resourceObj "data"
  let vType ← property v8 resourceObj "type"
  let type := typeOf v8 vType
  if type = 1 then return some (.uri (v8.text vData))
  else if type = 64 then return some (.boolean (v8.toBoolean vData))
  else if type = 8 then
    return some (.datetime (BitVec.ofInt 64 ((v8.toInteger vData).toInt.tdiv 1000)))
  else if type = 4 then return some (.integer (v8.toInteger vData))
  else if type = 32 then
    let (mantissa, exponent) ← decimalOf v8 vData
    return some (.decimal mantissa exponent)
  else if type = 2 then
    let vLang ← property v8 resourceObj "lang"
    return some (.string (v8.text vData) (langOf v8 vLang))
  else return none

/-! ## Value objects that are made -/

/-- An object with properties that were set one after the other. -/
def objectOf (properties : List (String × Value Number)) : Value Number :=
  .object (properties.map fun (key, value) => (v8.string (ascii key), value))

/-- `String::NewFromUtf8` of a literal. -/
def literal (s : String) : Value Number := .string (v8.string (ascii s))

/-! ## Texts of V8 -/

variable {v8}

theorem notMem_cString (s : Text) : 0 ∉ cString s := by
  intro h
  have := List.mem_takeWhile_imp h
  simp at this

theorem cString_of_notMem {s : Text} (h : 0 ∉ s) : cString s = s := by
  refine List.takeWhile_eq_self_iff.mpr fun c hc => decide_eq_true ?_
  rintro rfl
  exact h hc

theorem notMem_text (value : Value Number) : 0 ∉ v8.text value := notMem_cString _

theorem cString_eq_iff {s : Text} : cString s = s ↔ 0 ∉ s :=
  ⟨fun h => h ▸ notMem_cString s, cString_of_notMem⟩

/-- A zero byte is a zero character. -/
theorem zero_notMem_utf8 {c : Char} (h : c.toNat ≠ 0) :
    0 ∉ (String.utf8EncodeChar c).map UInt8.toBitVec := by
  have hval : c.val.toNat = c.toNat := rfl
  have hapart {n : ℕ} (hn : n < 256) (h : n ≠ 0) : ¬0 = (UInt8.ofNat n).toBitVec := by
    intro heq
    have hnat : (UInt8.ofNat n).toBitVec.toNat = n := Nat.mod_eq_of_lt hn
    rw [← heq] at hnat
    exact h hnat.symm
  unfold String.utf8EncodeChar
  simp only [hval]
  split
  · simpa using hapart (by omega) h
  split
  · simp only [List.map_cons, List.map_nil, List.mem_cons, not_or, List.not_mem_nil, not_false_iff,
      and_true]
    exact ⟨hapart (by omega) (by omega), hapart (by omega) (by omega)⟩
  split
  · simp only [List.map_cons, List.map_nil, List.mem_cons, not_or, List.not_mem_nil, not_false_iff,
      and_true]
    exact ⟨hapart (by omega) (by omega), hapart (by omega) (by omega),
      hapart (by omega) (by omega)⟩
  · simp only [List.map_cons, List.map_nil, List.mem_cons, not_or, List.not_mem_nil, not_false_iff,
      and_true]
    exact ⟨hapart (by omega) (by omega), hapart (by omega) (by omega),
      hapart (by omega) (by omega), hapart (by omega) (by omega)⟩

/-- What is left of a text of characters consists of characters. -/
theorem IsUtf8.cString {s : Text} (h : IsUtf8 s) : IsUtf8 (cString s) := by
  obtain ⟨cs, rfl⟩ := h
  induction cs with
  | nil => exact ⟨[], rfl⟩
  | cons c cs ih =>
    obtain ⟨cs', hcs'⟩ := ih
    rw [List.flatMap_cons, List.map_append]
    by_cases hc : c.toNat = 0
    · obtain rfl : c = Char.ofNat 0 := Char.toNat_inj.mp hc
      exact ⟨[], rfl⟩
    · refine ⟨c :: cs', ?_⟩
      have hall : ∀ b ∈ (String.utf8EncodeChar c).map UInt8.toBitVec, decide (b ≠ 0) = true := by
        intro b hb
        refine decide_eq_true ?_
        rintro rfl
        exact zero_notMem_utf8 hc hb
      rw [V8d.cString, List.takeWhile_append_of_pos hall, List.flatMap_cons, List.map_append,
        ← hcs']
      rfl

/-- A text comes back from V8 up to its first zero byte. -/
theorem text_string (hv8 : Documented v8) {s : Text} (hs : IsUtf8 s) :
    v8.text (.string (v8.string s)) = cString s := by
  rw [V8.text, V8.string, hv8.utf8Value _ hs.cString (notMem_cString s),
    cString_of_notMem (notMem_cString s)]

theorem isUtf8_bytes {s : List Char} (h : ∀ c ∈ s, c.toNat < 128) : IsUtf8 (bytes s) := by
  refine ⟨s, ?_⟩
  induction s with
  | nil => rfl
  | cons c s ih =>
    obtain ⟨hc, hs⟩ := List.forall_mem_cons.mp h
    have henc : String.utf8EncodeChar c = [UInt8.ofNat c.toNat] := by
      unfold String.utf8EncodeChar
      dsimp only
      have hle : c.val.toNat ≤ 127 := by
        have : c.val.toNat = c.toNat := rfl
        omega
      rw [if_pos hle]
      rfl
    rw [List.flatMap_cons, List.map_append, ← ih hs, henc]
    rfl

theorem text_bytes (hv8 : Documented v8) {s : List Char} (h : ∀ c ∈ s, 0 < c.toNat ∧ c.toNat < 128) :
    v8.text (.string (v8.string (bytes s))) = bytes s := by
  rw [text_string hv8 (isUtf8_bytes fun c hc => (h c hc).2)]
  refine cString_of_notMem fun hmem => ?_
  obtain ⟨c, hc, hz⟩ := List.mem_map.mp hmem
  have hnat := congrArg BitVec.toNat hz
  rw [BitVec.toNat_ofNat, Nat.mod_eq_of_lt (by have := h c hc; omega)] at hnat
  have := (h c hc).1
  simp at hnat
  omega

/-! ## Decimals -/

theorem long_eq {n : ℤ} (h : -9223372036854775808 ≤ n) (h' : n < 9223372036854775808) :
    long n = n := by
  refine Int.bmod_eq_of_le ?_ ?_
  · omega
  · omega

theorem length_mantissa_lt (mantissa : Int64) : (signAndMantissa mantissa).2.length < 64 := by
  by_cases hm : mantissa = Int64.minValue
  · subst hm
    have := (Nat.length_toDigits_le_iff (b := 10) (n := 2 ^ 63) (k := 20) (by decide)
      (by decide)).mpr (by decide)
    rw [signAndMantissa_minValue, List.length_cons]
    omega
  · have hle := mantissa.minValue_le_toInt
    have hge := mantissa.toInt_le
    rw [Int64.toInt_minValue] at hle
    rw [Int64.toInt_maxValue] at hge
    have := (Nat.length_toDigits_le_iff (b := 10) (n := mantissa.toInt.natAbs) (k := 20)
      (by decide) (by decide)).mpr (by omega)
    rw [length_signAndMantissa mantissa hm, digits]
    omega

/-- With the exponent of a stored decimal nothing overflows. -/
theorem exponentAndMantissaToString_eq (mantissa : BitVec 64) (exponent : BitVec 8) :
    exponentAndMantissaToString mantissa (exponent.signExtend 64) =
      Common.exponentAndMantissaToString (.ofBitVec mantissa) (.ofBitVec exponent) := by
  have hlength := length_mantissa_lt (.ofBitVec mantissa)
  have hrange := exponent.le_toInt
  have hrange' := exponent.toInt_lt
  have he : (exponent.signExtend 64).toInt = exponent.toInt :=
    BitVec.toInt_signExtend_of_le (by decide)
  have he' : (Int8.ofBitVec exponent).toInt = exponent.toInt := rfl
  generalize hs : (signAndMantissa (.ofBitVec mantissa)).2 = s at hlength
  have hlong : long (exponent.toInt * -1) = exponent.toInt * -1 := long_eq (by omega) (by omega)
  have hlh : long (s.length - exponent.toInt * -1) = s.length - exponent.toInt * -1 :=
    long_eq (by omega) (by omega)
  have hneg : long (-(s.length - exponent.toInt * -1)) = -(s.length - exponent.toInt * -1) :=
    long_eq (by omega) (by omega)
  simp only [exponentAndMantissaToString, Common.exponentAndMantissaToString, hs, he, he', hlong,
    hlh, hneg]

theorem addDigit_digits {s : Text} {v v' : ℕ}
    (h : s.foldlM (fun v c =>
      if 48 ≤ c.toNat ∧ c.toNat ≤ 57 then some (v * 10 + (c.toNat - 48)) else none) v = some v') :
    s.foldlM addDigit (-BitVec.ofNat 64 v) = .ok (-BitVec.ofNat 64 v') := by
  induction s generalizing v with
  | nil =>
    cases h
    rfl
  | cons c s ih =>
    rw [List.foldlM_cons, Option.bind_eq_bind, Option.bind_eq_some_iff] at h
    obtain ⟨w, hw, h⟩ := h
    have hc : 48 ≤ c.toNat ∧ c.toNat ≤ 57 := by
      by_contra hc
      rw [if_neg hc] at hw
      cases hw
    rw [if_pos hc, Option.some_inj] at hw
    have hadd : addDigit (-BitVec.ofNat 64 v) c = .ok (-BitVec.ofNat 64 w) := by
      rw [addDigit, if_pos hc, ← hw]
      congr 1
      have hten : BitVec.ofNat 64 10 = 10 := rfl
      rw [BitVec.ofNat_add, BitVec.ofNat_mul, hten]
      ring
    rw [List.foldlM_cons, hadd]
    exact ih h

/-- Where `to!long` reads a number `to_int` reads the same one. -/
theorem toInt_of_toLong {s : Text} {n : BitVec 64} (h : Json.toLong s = .ok n) :
    toInt s = .ok n := by
  have hs : s ≠ [] := by
    rintro rfl
    cases h
  unfold Json.toLong at h
  dsimp only at h
  generalize hbody : (if s.head? = some 45 ∨ s.head? = some 43 then s.tail else s) = body at h
  cases body with
  | nil => cases h
  | cons c body =>
    cases hv : Json.digits (c :: body) with
    | none =>
      rw [hv] at h
      cases h
    | some v =>
      rw [hv] at h
      have hfold : (c :: body).foldlM addDigit 0 = .ok (-BitVec.ofNat 64 v) := addDigit_digits hv
      have hn : n = if s.head? = some 45 then -BitVec.ofNat 64 v else BitVec.ofNat 64 v := by
        dsimp only at h
        split at h
        · exact (Except.ok.inj h).symm
        · split at h
          · next hneg => rw [if_pos hneg.1, Except.ok.inj h]
          · cases h
      rw [toInt, if_neg hs]
      simp only [or_comm (a := s.head? = some 43), hbody]
      rw [if_neg (List.cons_ne_nil c body)]
      change (do let result ← (c :: body).foldlM addDigit 0; _) = _
      rw [hfold, hn]
      change Except.ok _ = _
      split
      · rfl
      · rw [BitVec.neg_neg]

theorem addDigit_of_mem {s : Text} (h : 45 ∈ s) (result : BitVec 64) :
    s.foldlM addDigit result = .error .thrown := by
  induction s generalizing result with
  | nil => cases h
  | cons c s ih =>
    rw [List.foldlM_cons, addDigit]
    split
    · next hc =>
      rcases List.mem_cons.mp h with rfl | h
      · exact absurd hc.1 (by decide)
      · exact ih h _
    · rfl

/-- A second minus is no digit. -/
theorem toInt_minus {rest : Text} (h : 45 ∈ rest) : toInt (45 :: rest) = .error .thrown := by
  have hne : rest ≠ [] := List.ne_nil_of_mem h
  rw [toInt, if_neg (List.cons_ne_nil _ _)]
  simp only [List.head?_cons, or_true, if_true, List.tail_cons, if_neg hne]
  change (do let result ← rest.foldlM addDigit 0; _) = _
  rw [addDigit_of_mem h]
  rfl

/-- The digits of a mantissa have a minus at most. -/
theorem mem_mantissa {mantissa : Int64} {c : Char} (h : c ∈ (signAndMantissa mantissa).2) :
    c.isDigit = true ∨ c = '-' := by
  by_cases hm : mantissa = Int64.minValue
  · subst hm
    rw [signAndMantissa_minValue] at h
    rcases List.mem_cons.mp h with h | h
    · exact .inr h
    · exact .inl (Numeral.isDigits_toDigits _ c h)
  · rw [signAndMantissa_of_ne hm] at h
    exact .inl (Numeral.isDigits_toDigits _ c h)

theorem mem_signOf {mantissa : Int64} {c : Char} (h : c ∈ signOf mantissa) : c = '-' := by
  unfold signOf at h
  split at h
  · exact List.mem_singleton.mp h
  · cases h

/-- The text is short, and there is a digit before its point. -/
theorem exponentAndMantissaToString_ne {mantissa : Int64} {exponent : Int8} {text : List Char}
    (h : Common.exponentAndMantissaToString mantissa exponent = some text) :
    text.length < 256 ∧ ∀ rest, text ≠ signOf mantissa ++ '.' :: rest := by
  have hlength := length_mantissa_lt mantissa
  have hpoint : '.' ∉ (signAndMantissa mantissa).2 := by
    intro hmem
    rcases mem_mantissa hmem with h | h
    · exact absurd h (by decide)
    · exact absurd h (by decide)
  have hsign : (signOf mantissa).length ≤ 1 := by
    unfold signOf
    split <;> decide
  simp only [Common.exponentAndMantissaToString, signAndMantissa_fst] at h
  generalize (signAndMantissa mantissa).2 = s at h hpoint hlength
  rw [Option.bind_eq_some_iff] at h
  obtain ⟨slh, hslh, h⟩ := h
  rw [Option.map_eq_some_iff] at h
  obtain ⟨slr, hslr, rfl⟩ := h
  have hmem : '.' ∉ slh ∧ slh.length ≤ s.length := by
    split at hslh
    · split at hslh
      · rw [substr_eq (Nat.zero_le _), Option.some_inj, List.drop_zero] at hslh
        rw [← hslh]
        exact ⟨fun hmem => hpoint (List.mem_of_mem_take hmem), List.length_take_le' _ _⟩
      · cases hslh
        exact ⟨List.not_mem_nil, Nat.zero_le _⟩
    · cases hslh
      exact ⟨List.not_mem_nil, Nat.zero_le _⟩
  have hslrLength : slr.length ≤ 32 + s.length := by
    have hsubstr (t u : List Char) (i j : ℕ) (h : substr t i j = some u) :
        u.length ≤ t.length := by
      unfold substr at h
      split at h
      · rw [← Option.some_inj.mp h, List.length_take, List.length_drop]
        omega
      · cases h
    split at hslr
    · have := hsubstr _ _ _ _ hslr
      omega
    · rw [Option.map_eq_some_iff] at hslr
      obtain ⟨zeros, hzeros, rfl⟩ := hslr
      have := hsubstr _ _ _ _ hzeros
      have hnullz : nullz.length = 32 := rfl
      rw [List.length_append]
      omega
  have hhead {s : List Char} (hs : '.' ∉ s) (t rest : List Char) (hne : s ≠ []) :
      signOf mantissa ++ (s ++ t) ≠ signOf mantissa ++ '.' :: rest := by
    obtain ⟨c, s, rfl⟩ := List.exists_cons_of_ne_nil hne
    intro heq
    have := (List.cons_eq_cons.mp (List.append_cancel_left heq)).1
    exact hs (this ▸ List.mem_cons_self)
  split
  · refine ⟨by rw [List.length_append]; omega, fun rest => ?_⟩
    cases slh with
    | nil =>
      intro heq
      rw [List.append_nil] at heq
      have := congrArg List.length heq
      simp at this
    | cons c slh =>
      have := hhead hmem.1 [] rest (List.cons_ne_nil c slh)
      rwa [List.append_nil] at this
  · split
    · refine ⟨?_, fun rest => hhead (by decide) _ rest (by decide)⟩
      simp only [List.length_append, List.length_cons, List.length_nil]
      omega
    · next hne =>
      refine ⟨?_, fun rest => hhead hmem.1 _ rest ?_⟩
      · simp only [List.length_append, List.length_cons]
        omega
      · rintro rfl
        exact hne rfl

/-- The text of a stored decimal: nothing for a positive exponent, and else the digits of the mantissa
behind at most 32 zeros, with a point among them unless the exponent is zero. -/
theorem exponentAndMantissaToString_cases (mantissa : BitVec 64) (exponent : BitVec 8) :
    (0 < exponent.toInt ∧ exponentAndMantissaToString mantissa (exponent.signExtend 64) = none) ∨
    (exponent.toInt = 0 ∧ exponentAndMantissaToString mantissa (exponent.signExtend 64) =
      some (signOf (.ofBitVec mantissa) ++ (signAndMantissa (.ofBitVec mantissa)).2)) ∨
    (exponent.toInt < 0 ∧ ∃ whole fraction zeros,
      exponentAndMantissaToString mantissa (exponent.signExtend 64) =
        some (signOf (.ofBitVec mantissa) ++ (whole ++ '.' :: fraction)) ∧
      whole ++ fraction = List.replicate zeros '0' ++ (signAndMantissa (.ofBitVec mantissa)).2 ∧
      fraction.length = min (-exponent.toInt).toNat
        ((signAndMantissa (.ofBitVec mantissa)).2.length + 32) ∧ whole ≠ [] ∧
      whole.length < 256) := by
  have he : (Int8.ofBitVec exponent).toInt = exponent.toInt := rfl
  rw [exponentAndMantissaToString_eq]
  obtain hneg | hzero | hpos := lt_trichotomy exponent.toInt 0
  · obtain ⟨text, htext, hshows⟩ :=
      exponentAndMantissaToString_shows (.ofBitVec mantissa) (.ofBitVec exponent) hneg
    obtain ⟨whole, fraction, zeros, rfl, hbody, hplaces⟩ := hshows.shape
    obtain ⟨hlength, hne⟩ := exponentAndMantissaToString_ne htext
    refine .inr (.inr ⟨hneg, whole, fraction, zeros, htext, hbody, hplaces, ?_, ?_⟩)
    · rintro rfl
      exact hne fraction rfl
    · simp only [List.length_append] at hlength
      omega
  · exact .inr (.inl ⟨hzero, exponentAndMantissaToString_of_zero _ _ hzero⟩)
  · exact .inl ⟨hpos, exponentAndMantissaToString_of_pos _ _ hpos⟩

/-- The characters of a number. -/
def Numeric (c : Char) : Prop := c.isDigit = true ∨ c = '-' ∨ c = '.'

theorem Numeric.ascii {c : Char} (h : Numeric c) : 0 < c.toNat ∧ c.toNat < 128 := by
  rcases h with h | rfl | rfl
  · obtain ⟨hle, hge, -⟩ := Json.toNat_ofNat_of_isDigit h
    omega
  · decide
  · decide

theorem Numeric.byte_ne {c : Char} {b : ℕ} (h : Numeric c) (hb : b < 45 ∨ b = 46 ∧ c ≠ '.') :
    BitVec.ofNat 8 c.toNat ≠ BitVec.ofNat 8 b := by
  intro heq
  have hnat := congrArg BitVec.toNat heq
  rw [BitVec.toNat_ofNat, BitVec.toNat_ofNat, Nat.mod_eq_of_lt (by have := h.ascii; omega),
    Nat.mod_eq_of_lt (by omega)] at hnat
  rcases h with h | rfl | rfl
  · obtain ⟨hle, hge, -⟩ := Json.toNat_ofNat_of_isDigit h
    omega
  · have : '-'.toNat = 45 := rfl
    omega
  · have : '.'.toNat = 46 := rfl
    rcases hb with hb | hb
    · omega
    · exact hb.2 rfl

theorem notMem_bytes {s : List Char} {b : ℕ} (h : ∀ c ∈ s, Numeric c)
    (hb : b < 45 ∨ b = 46 ∧ '.' ∉ s) : BitVec.ofNat 8 b ∉ bytes s := by
  intro hmem
  obtain ⟨c, hc, heq⟩ := List.mem_map.mp hmem
  refine (h c hc).byte_ne ?_ heq
  rcases hb with hb | hb
  · exact .inl hb
  · refine .inr ⟨hb.1, ?_⟩
    rintro rfl
    exact hb.2 hc

theorem numeric_mantissa {mantissa : Int64} {zeros : ℕ} {c : Char}
    (h : c ∈ signOf mantissa ++ (List.replicate zeros '0' ++ (signAndMantissa mantissa).2)) :
    c.isDigit = true ∨ c = '-' := by
  rcases List.mem_append.mp h with h | h
  · exact .inr (mem_signOf h)
  rcases List.mem_append.mp h with h | h
  · exact .inl (Numeral.isDigits_zeros zeros c h)
  · exact mem_mantissa h

/-- The digits of a mantissa are read, unless it is the smallest one, which has two minuses. -/
theorem toInt_mantissa (mantissa : BitVec 64) (zeros : ℕ) :
    toInt (cString (bytes (signOf (.ofBitVec mantissa) ++
      (List.replicate zeros '0' ++ (signAndMantissa (.ofBitVec mantissa)).2)))) =
      if Int64.ofBitVec mantissa = Int64.minValue then .error .thrown else .ok mantissa := by
  have hzero := notMem_bytes (b := 0) (fun c hc =>
    (@numeric_mantissa (.ofBitVec mantissa) zeros c hc).imp_right .inl)
    (.inl (by decide))
  rw [cString_of_notMem hzero]
  split
  · next hm =>
    rw [hm]
    refine toInt_minus ?_
    rw [signAndMantissa_minValue]
    exact List.mem_map_of_mem (f := fun c : Char => BitVec.ofNat 8 c.toNat)
      (List.mem_append_right _ List.mem_cons_self)
  · next hm => exact toInt_of_toLong (Json.toLong_mantissa hm zeros)

theorem find_of_notMem {num : Text} {c : Byte} (h : c ∉ num) : find num c = -1 :=
  if_neg (mt List.contains_iff_mem.mp h)

theorem decimalOfText_plain {num : Text} (hp : 46 ∉ num) (hc : 44 ∉ num) :
    decimalOfText num = (toInt (cString num)).map fun n => (n, 0) := by
  have hpos : posOf num = -1 := by
    rw [posOf, find_of_notMem hp, find_of_notMem hc]
    rfl
  simp only [decimalOfText, hpos]
  rw [if_neg (by decide)]
  cases toInt (cString num) <;> rfl

theorem decimalOfText_point {whole fraction : Text} (hw : 46 ∉ whole) (hne : whole ≠ [])
    (hlen : whole.length < 2147483648) :
    decimalOfText (whole ++ 46 :: fraction) =
      (toInt (cString (whole ++ fraction))).map fun n => (n, -BitVec.ofNat 64 fraction.length) := by
  have hfind : find (whole ++ 46 :: fraction) 46 = whole.length := by
    have hidx : (whole ++ 46 :: fraction).idxOf 46 = whole.length := by
      rw [List.idxOf_append_of_notMem hw, List.idxOf_cons_self, Nat.add_zero]
    rw [find, if_pos (List.contains_iff_mem.mpr (List.mem_append_right _ List.mem_cons_self)), hidx,
      int_eq (by omega) (by omega)]
  have hpos := List.length_pos_iff.mpr hne
  have hat : posOf (whole ++ 46 :: fraction) = whole.length := by
    rw [posOf, hfind, if_neg (by omega)]
  have hdrop : (whole ++ 46 :: fraction).drop (whole.length + 1) = fraction := by
    rw [List.drop_length_add_append]
    rfl
  simp only [decimalOfText, hat]
  rw [if_pos (by omega), Int.toNat_natCast, List.take_left, hdrop]
  cases toInt (cString (whole ++ fraction)) <;> rfl

/-- A stored decimal that has been made a text is read back as a decimal with the same mantissa, if
that is not the smallest one, and with as many places as were shown. -/
theorem decimalOfText_exponentAndMantissaToString {mantissa : BitVec 64} {exponent : BitVec 8}
    {text : List Char}
    (h : exponentAndMantissaToString mantissa (exponent.signExtend 64) = some text) :
    exponent.toInt ≤ 0 ∧ (∀ c ∈ text, Numeric c) ∧ decimalOfText (bytes text) =
      if Int64.ofBitVec mantissa = Int64.minValue then .error .thrown
      else .ok (mantissa, -BitVec.ofNat 64 (min (-exponent.toInt).toNat
        ((signAndMantissa (.ofBitVec mantissa)).2.length + 32))) := by
  have hlen := length_mantissa_lt (.ofBitVec mantissa)
  rcases exponentAndMantissaToString_cases mantissa exponent with
    ⟨_, hnone⟩ | ⟨hzero, hsome⟩ | ⟨hneg, whole, fraction, zeros, hsome, hbody, hplaces, hne, hshort⟩
  · rw [hnone] at h
    cases h
  · obtain rfl := Option.some_inj.mp (hsome.symm.trans h)
    have hall : ∀ c ∈ signOf (.ofBitVec mantissa) ++ (signAndMantissa (.ofBitVec mantissa)).2,
        c.isDigit = true ∨ c = '-' := fun c hc => @numeric_mantissa _ 0 c hc
    have hnum : ∀ c ∈ signOf (.ofBitVec mantissa) ++ (signAndMantissa (.ofBitVec mantissa)).2,
        Numeric c := fun c hc => (hall c hc).imp_right .inl
    have hpoint : '.' ∉ signOf (.ofBitVec mantissa) ++ (signAndMantissa (.ofBitVec mantissa)).2 :=
      fun hmem => by rcases hall _ hmem with h | h <;> exact absurd h (by decide)
    have hread := toInt_mantissa mantissa 0
    rw [List.replicate_zero, List.nil_append] at hread
    refine ⟨hzero.le, hnum, ?_⟩
    rw [decimalOfText_plain (notMem_bytes hnum (.inr ⟨rfl, hpoint⟩))
      (notMem_bytes hnum (.inl (by decide))), hread, hzero]
    split
    · rfl
    · rw [Int.neg_zero, Int.toNat_zero, Nat.zero_min]
      rfl
  · obtain rfl := Option.some_inj.mp (hsome.symm.trans h)
    have hall : ∀ c ∈ signOf (.ofBitVec mantissa) ++ (whole ++ fraction),
        c.isDigit = true ∨ c = '-' := by
      rw [hbody]
      exact fun c hc => numeric_mantissa hc
    have hwhole : ∀ c ∈ signOf (.ofBitVec mantissa) ++ whole, c.isDigit = true ∨ c = '-' := by
      intro c hc
      rw [← List.append_assoc] at hall
      exact hall c (List.mem_append_left _ hc)
    have hpoint : '.' ∉ signOf (.ofBitVec mantissa) ++ whole :=
      fun hmem => by rcases hwhole _ hmem with h | h <;> exact absurd h (by decide)
    have hnum : ∀ c ∈ signOf (.ofBitVec mantissa) ++ (whole ++ '.' :: fraction), Numeric c := by
      intro c hc
      rw [← List.append_assoc] at hc
      rcases List.mem_append.mp hc with hc | hc
      · exact (hwhole c hc).imp_right .inl
      rcases List.mem_cons.mp hc with hc | hc
      · exact .inr (.inr hc)
      · exact (hall c (List.mem_append_right _ (List.mem_append_right _ hc))).imp_right .inl
    have hsplit : bytes (signOf (.ofBitVec mantissa) ++ (whole ++ '.' :: fraction)) =
        bytes (signOf (.ofBitVec mantissa) ++ whole) ++ 46 :: bytes fraction := by
      rw [← List.append_assoc, Json.bytes_append]
      rfl
    have hjoin : bytes (signOf (.ofBitVec mantissa) ++ whole) ++ bytes fraction =
        bytes (signOf (.ofBitVec mantissa) ++
          (List.replicate zeros '0' ++ (signAndMantissa (.ofBitVec mantissa)).2)) := by
      rw [← Json.bytes_append, List.append_assoc, hbody]
    have hlength : (bytes fraction).length = fraction.length := List.length_map _
    have hshort : (bytes (signOf (.ofBitVec mantissa) ++ whole)).length < 2147483648 := by
      have hsign : (signOf (.ofBitVec mantissa)).length ≤ 1 := by
        unfold signOf
        split <;> decide
      rw [bytes, List.length_map, List.length_append]
      omega
    refine ⟨hneg.le, hnum, ?_⟩
    rw [hsplit, decimalOfText_point
      (notMem_bytes (fun c hc => (hwhole c hc).imp_right .inl) (.inr ⟨rfl, hpoint⟩))
      (by simpa [bytes] using fun _ => hne) hshort, hjoin, toInt_mantissa, hlength, hplaces]
    split <;> rfl

/-- Which stored decimals are shown in full: the mantissa is not the smallest one, the exponent is not
positive, and there are enough zeros. -/
def Shown (mantissa : BitVec 64) (exponent : BitVec 8) : Prop :=
  Int64.ofBitVec mantissa ≠ Int64.minValue ∧ exponent.toInt ≤ 0 ∧
    -exponent.toInt ≤ digits (.ofBitVec mantissa) + 32

theorem toInt_neg_ofNat {w places : ℕ} (hw : 8 ≤ w) (h : places < 128) :
    (-BitVec.ofNat w places).toInt = -places := by
  have hle : 2 ^ 8 ≤ 2 ^ w := Nat.pow_le_pow_right (by decide) hw
  have hneg : -BitVec.ofNat w places = BitVec.ofInt w (-places) := by
    rw [BitVec.ofInt_neg, BitVec.ofInt_natCast]
  rw [hneg, BitVec.toInt_ofInt, Int.bmod_eq_of_le (by omega) (by omega)]

/-- A decimal that is shown in full is read back. -/
theorem Shown.back {mantissa : BitVec 64} {exponent : BitVec 8} (h : Shown mantissa exponent) :
    ∃ text, exponentAndMantissaToString mantissa (exponent.signExtend 64) = some text ∧
      (∀ c ∈ text, Numeric c) ∧
      decimalOfText (bytes text) = .ok (mantissa, exponent.signExtend 64) := by
  obtain ⟨hm, hpos, hzeros⟩ := h
  have hlen := length_mantissa_lt (.ofBitVec mantissa)
  rw [← length_signAndMantissa _ hm] at hzeros
  obtain ⟨text, htext⟩ :
      ∃ text, exponentAndMantissaToString mantissa (exponent.signExtend 64) = some text := by
    rcases exponentAndMantissaToString_cases mantissa exponent with
      ⟨hlt, _⟩ | ⟨_, hsome⟩ | ⟨_, _, _, _, hsome, _⟩
    · omega
    · exact ⟨_, hsome⟩
    · exact ⟨_, hsome⟩
  obtain ⟨-, hnum, hread⟩ := decimalOfText_exponentAndMantissaToString htext
  refine ⟨text, htext, hnum, ?_⟩
  rw [hread, if_neg hm]
  congr 2
  have hplaces : min (-exponent.toInt).toNat
      ((signAndMantissa (.ofBitVec mantissa)).2.length + 32) = (-exponent.toInt).toNat := by omega
  apply BitVec.eq_of_toInt_eq
  rw [hplaces, BitVec.toInt_signExtend_of_le (by decide)]
  rw [toInt_neg_ofNat (by decide) (by omega)]
  omega

/-- Only such a decimal is read back. -/
theorem shown_of_back {mantissa mantissa' : BitVec 64} {exponent : BitVec 8} {e : BitVec 64}
    {text : List Char}
    (h : exponentAndMantissaToString mantissa (exponent.signExtend 64) = some text)
    (hread : decimalOfText (bytes text) = .ok (mantissa', e)) (he : e.setWidth 8 = exponent) :
    Shown mantissa exponent := by
  obtain ⟨hpos, -, hback⟩ := decimalOfText_exponentAndMantissaToString h
  have hlen := length_mantissa_lt (.ofBitVec mantissa)
  rw [hread] at hback
  split at hback
  · cases hback
  · next hm =>
    refine ⟨hm, hpos, ?_⟩
    have heq : e = -BitVec.ofNat 64 _ := (Prod.mk.inj (Except.ok.inj hback)).2
    rw [heq, BitVec.setWidth_neg_of_le (by decide), BitVec.setWidth_ofNat_of_le (by decide)] at he
    rw [← length_signAndMantissa _ hm]
    have := congrArg BitVec.toInt he
    rw [toInt_neg_ofNat (by decide) (by omega)] at this
    omega

/-! ## What value objects stand for -/

/-- The keys of a value object. -/
def names : List String := ["data", "type", "lang"]

/-- Characters in ASCII other than zero. -/
def isPlain (s : String) : Bool := s.toList.all fun c => decide (0 < c.toNat ∧ c.toNat < 128)

theorem text_literal (hv8 : Documented v8) {s : String} (h : isPlain s = true) :
    v8.text (literal v8 s) = ascii s := by
  refine text_bytes hv8 fun c hc => ?_
  exact of_decide_eq_true (List.all_eq_true.mp h c hc)

theorem string_names (hv8 : Documented v8) {a b : String} (ha : a ∈ names) (hb : b ∈ names) :
    v8.string (ascii a) = v8.string (ascii b) ↔ a = b := by
  have hplain : names.all isPlain = true := rfl
  have hinj : ∀ a ∈ names, ∀ b ∈ names, ascii a = ascii b → a = b := by decide
  rw [List.all_eq_true] at hplain
  constructor
  · intro h
    refine hinj a ha b hb ?_
    rw [← text_literal hv8 (hplain a ha), ← text_literal hv8 (hplain b hb), literal, literal, h]
  · rintro rfl
    rfl

/-- A property of an object that was made. -/
theorem property_objectOf (hv8 : Documented v8) {properties : List (String × Value Number)}
    (hp : ∀ key ∈ properties.map Prod.fst, key ∈ names) {key : String} (hk : key ∈ names) :
    property v8 (objectOf v8 properties) key =
      .ok ((properties.lookup key).getD .undefined) := by
  have hlookup : (properties.map fun (key, value) => (v8.string (ascii key), value)).lookup
      (v8.string (ascii key)) = properties.lookup key := by
    induction properties with
    | nil => rfl
    | cons entry properties ih =>
      obtain ⟨key', value⟩ := entry
      obtain ⟨hkey', hrest⟩ := List.forall_mem_cons.mp hp
      have hbeq : (v8.string (ascii key) == v8.string (ascii key')) = (key == key') := by
        rw [Bool.eq_iff_iff, beq_iff_eq, beq_iff_eq]
        exact string_names hv8 hk hkey'
      rw [List.map_cons, List.lookup_cons, List.lookup_cons, hbeq, ih hrest]
  rw [objectOf, property, Object.get, hlookup]

/-- The code of a type that is named. -/
theorem typeOf_literal (hv8 : Documented v8) {s : String} (h : isPlain s = true) :
    typeOf v8 (literal v8 s) =
      if ascii s = ascii "Uri" then 1
      else if ascii s = ascii "String" then 2
      else if ascii s = ascii "Integer" then 4
      else if ascii s = ascii "Datetime" then 8
      else if ascii s = ascii "Decimal" then 32
      else if ascii s = ascii "Boolean" then 64
      else 2 := by
  have htext := text_literal hv8 h
  rw [literal] at htext ⊢
  simp only [typeOf, htext]

section
variable {properties : List (String × Value Number)} {type : String} {data : Value Number}

theorem elementOf_objectOf (hv8 : Documented v8)
    (hp : ∀ key ∈ properties.map Prod.fst, key ∈ names)
    (hd : properties.lookup "data" = some data)
    (htype : properties.lookup "type" = some (literal v8 type)) {code : BitVec 32}
    (hcode : typeOf v8 (literal v8 type) = code) :
    elementOf v8 (objectOf v8 properties) =
      (do
        if code = 1 then return some (.uri (v8.text data))
        else if code = 64 then return some (.boolean (v8.toBoolean data))
        else if code = 8 then
          return some (.datetime (BitVec.ofInt 64 ((v8.toInteger data).toInt.tdiv 1000)))
        else if code = 4 then return some (.integer (v8.toInteger data))
        else if code = 32 then
          let (mantissa, exponent) ← decimalOf v8 data
          return some (.decimal mantissa exponent)
        else if code = 2 then
          return some (.string (v8.text data)
            (langOf v8 ((properties.lookup "lang").getD .undefined)))
        else return none) := by
  have hdata := @property_objectOf Number v8 hv8 properties hp "data" (by decide)
  have hlang := @property_objectOf Number v8 hv8 properties hp "lang" (by decide)
  have htypeOf := @property_objectOf Number v8 hv8 properties hp "type" (by decide)
  rw [htype, Option.getD_some] at htypeOf
  rw [hd, Option.getD_some] at hdata
  rw [elementOf, hdata, ok_bind, htypeOf, ok_bind, hlang, hcode]
  rfl

end

end Veda.V8d
