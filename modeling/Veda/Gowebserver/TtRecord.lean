import Veda.Bj8individual.IndividualJson
import Veda.Bj8individual.MsgpackIndividual

/-! # Individuals from Tarantool

The model of `ttResordToMap` in `individual.go`: what the web server makes of a record that
`individual2msgpack` has written. It is compared with the individual by what `json_to_individual`
reads of it, as when a client gets an individual and puts it back. -/

namespace Veda.Gowebserver

open MsgPack
open Bj8individual (Text Byte ascii Lang Resource Resources)
open Bj8individual.Json (JSONValue Entry typed bytes assign writeWith ReadsAs WrittenWith
  jsonToResource jsonToIndividual SameIndividual Same)
open Calendar (ofDays)

variable {F : Type}

/-! ## The conversion -/

/-- How the conversion ends without an individual. -/
inductive Stop where
  | nil
  | panic
  deriving DecidableEq

/-- `int64(num)`, of an integer that the client has decoded. -/
def toInt64 : Value → Option (BitVec 64)
  | .uint n | .int n => some n
  | _ => none

/-- The number of a field, as it is read of the text of it. -/
def numberOf : Value → Option (JSONValue F)
  | .uint n => some (if n.msb then .uinteger n else .integer n)
  | .int n => some (.integer n)
  | _ => none

/-- `appendInt` of the package `time`. -/
def appendInt (x : ℤ) (width : ℕ) : List Char :=
  let digits := Nat.toDigits 10 x.natAbs
  (if x < 0 then ['-'] else []) ++ (List.replicate (width - digits.length) '0' ++ digits)

/-- `time.Unix(sec, 0).UTC().Format("2006-01-02T15:04:05Z")`. -/
def format (sec : BitVec 64) : List Char :=
  let internal := (sec + 62135596800).toInt
  let date := ofDays (internal / 86400 + 1)
  let seconds := (internal % 86400).toNat
  appendInt date.year 4 ++ '-' :: (appendInt date.month 2 ++ '-' :: (appendInt date.day 2 ++
    'T' :: (appendInt (seconds / 3600 : ℕ) 2 ++ ':' :: (appendInt (seconds / 60 % 60 : ℕ) 2 ++
      ':' :: (appendInt (seconds % 60 : ℕ) 2 ++ ['Z'])))))

/-- `decimalToString`. -/
def decimalToString (mantissa exponent : Int64) : List Char :=
  let (negative, mantissa) := if mantissa < 0 then (true, -mantissa) else (false, mantissa)
  let res := Common.text mantissa.toInt
  let res :=
    if 0 ≤ exponent.toInt then res ++ List.replicate exponent.toInt.toNat '0'
    else
      let exponent := (-exponent.toInt).toNat
      if exponent < res.length then
        res.take (res.length - exponent) ++ ['.'] ++ res.drop (res.length - exponent)
      else '.' :: List.replicate (exponent - 1) '0' ++ res
  if negative then '-' :: res else res

/-- `langToString`, of a `Lang`. -/
def langToString (lang : BitVec 8) : Text :=
  if lang = 1 then ascii "RU" else if lang = 2 then ascii "EN" else ascii "NONE"

/-- `val.Index(i)`. -/
def index (val : List Value) (i : ℕ) : Except Stop Value := val[i]?.elim (.error .panic) .ok

/-- One value of a predicate, by its type. -/
def resourceOf (val : List Value) : Except Stop (JSONValue F) := do
  match ← index val 0 with
  | .uint type =>
    let vtype := type.setWidth 8
    if vtype = 1#8 then
      match ← index val 1 with
      | .raw s => return typed "Uri" (.string s)
      | _ => throw .panic
    else if vtype = 4#8 then
      let num ← index val 1
      (numberOf num).elim (throw .nil) fun n => return typed "Integer" n
    else if vtype = 8#8 then
      let rDt ← index val 1
      (toInt64 rDt).elim (throw .nil) fun sec =>
        return typed "Datetime" (.string (bytes (format sec)))
    else if vtype = 32#8 then
      let rMantissa ← index val 1
      let mantissa ← (toInt64 rMantissa).elim (throw .nil) pure
      let rExponent ← index val 2
      let exponent ← (toInt64 rExponent).elim (throw .nil) pure
      return typed "Decimal"
        (.string (bytes (decimalToString (.ofBitVec mantissa) (.ofBitVec exponent))))
    else if vtype = 64#8 then
      match ← index val 1 with
      | .bool b => return typed "Boolean" (if b then .true else .false)
      | _ => throw .panic
    else if vtype = 2#8 then
      match ← index val 1 with
      | .raw s =>
        if val.length = 3 then
          let rLang ← index val 2
          (toInt64 rLang).elim (throw .nil) fun lang =>
            return .object [(ascii "type", .string (ascii "String")), (ascii "data", .string s),
              (ascii "lang", .string (langToString (lang.setWidth 8)))]
        else return typed "String" (.string s)
      | .nil => return typed "String" (.string [])
      | _ => throw .nil
    else throw .nil
  | _ => throw .panic

/-- One element of the array of a predicate. It is left out if it has a wrong size. -/
def elementOf : Value → Except Stop (Option (JSONValue F))
  | .array val => if val.length = 0 ∨ 3 < val.length then .ok none else (resourceOf val).map some
  | .raw s => if s.length = 0 ∨ 3 < s.length then .ok none else .error .panic
  | .map entries =>
    if entries.length = 0 ∨ 3 < entries.length then .ok none else .error .panic
  | _ => .error .panic

/-- The loop over the array of a predicate. -/
def resourcesOf : List Value → Except Stop (List (JSONValue F))
  | [] => .ok []
  | v :: vs => do
    let resource ← elementOf v
    let resources ← resourcesOf vs
    return resource.toList ++ resources

/-- One turn of the loop over the record. -/
def addPredicate (individual : List (Entry F)) (entry : Value × Value) :
    Except Stop (List (Entry F)) :=
  match entry.2 with
  | .array vs => do
    let resources ← resourcesOf vs
    match entry.1 with
    | .raw predicate => return assign individual predicate (.array resources)
    | _ => throw .panic
  | .nil => .error .panic
  | _ => .ok individual

/-- `ttResordToMap`, where the loop goes through the entries of the record in their order. -/
def ttResordToMap (uri : Text) (ttRecord : List (Value × Value)) :
    Except Stop (List (Entry F)) :=
  ttRecord.foldlM addPredicate [(ascii "@", .string uri)]

/-! ## The property -/

/-- What the client of Tarantool decodes of a tuple: a value of as many tokens as are there. -/
def Decodes (lib : Bj8individual.Msgpack.Library) (decode : List Byte → Option Value) : Prop :=
  ∀ tokens, decode (tokens.flatMap lib.encode) = (parse (2 * tokens.length) tokens).map Prod.fst

/-- Only negative numbers are packed as such. -/
def PacksSigns (lib : Bj8individual.Msgpack.Library) : Prop :=
  ∀ n, lib.packLong n = if n.msb then .int n else .uint n

/-- In whatever order the record and the answer are gone through, the individual that is put back
is the one that was stored. -/
def ServedBack (lib : Bj8individual.Msgpack.Library) (decode : List Byte → Option Value)
    (json : Bj8individual.Json.Library F) (x : Bj8individual.Individual) : Prop :=
  ∃ entries, decode (Bj8individual.Msgpack.individual2msgpack lib x) =
      some (.array [.raw x.uri, .map entries]) ∧
    ∀ ttRecord, ttRecord.Perm entries → ∃ individual,
      ttResordToMap x.uri ttRecord = .ok individual ∧
        ∀ order : List (Entry F), order.Perm individual →
          ∃ y, jsonToIndividual json (.object order) = .ok y ∧ SameIndividual x y

/-- The values that the web server gives as they are. -/
def Serves : Resource → Prop
  | .uri s => s ≠ []
  | .binary _ => False
  | .str s lang => s ≠ [] ∨ lang = .none
  | .decimal mantissa exponent => Int64.ofBitVec mantissa ≠ Int64.minValue ∧
      if 0 ≤ exponent.toInt then mantissa.toInt.natAbs * 10 ^ exponent.toInt.toNat < 2 ^ 63
      else -exponent.toInt < Common.digits (.ofBitVec mantissa) ∨
        Common.digits (.ofBitVec mantissa) = 1
  | _ => True

/-- The years that are written with four digits by both. -/
def FourDigits : Resource → Prop
  | .datetime n => -62167219200 ≤ n.toInt ∧ n.toInt < 253402300800
  | _ => True

/-! ## Values -/

/-- What is made of a value that `individual2msgpack` has written. -/
def served : Resource → Except Stop (JSONValue F)
  | .uri s => if s = [] then .error .panic else .ok (typed "Uri" (.string s))
  | .binary _ => .error .nil
  | .str s lang =>
    if s = [] ∨ lang = .none then .ok (typed "String" (.string s))
    else .ok (.object [(ascii "type", .string (ascii "String")), (ascii "data", .string s),
      (ascii "lang", .string (Bj8individual.Json.langText lang))])
  | .integer n => .ok (typed "Integer" (.integer n))
  | .datetime n => .ok (typed "Datetime" (.string (bytes (format n))))
  | .decimal mantissa exponent =>
    .ok (typed "Decimal" (.string (bytes
      (decimalToString (.ofBitVec mantissa) (.ofBitVec (exponent.signExtend 64))))))
  | .boolean b => .ok (typed "Boolean" (if b then .true else .false))

/-- What is made of a value, if anything. -/
def write (r : Resource) : Option (JSONValue F) := (served r).toOption

section
variable {lib : Bj8individual.Msgpack.Library} (hlib : Bj8individual.Msgpack.Documented lib)
  (hsigns : PacksSigns lib)
include hsigns

open Bj8individual.Msgpack (valueOf fields packValue packValueText single)

theorem single_packLong (n : BitVec 64) :
    single (lib.packLong n) = if n.msb then .int n else .uint n := by
  rw [hsigns]
  split <;> rfl

theorem toInt64_packLong (n : BitVec 64) : toInt64 (single (lib.packLong n)) = some n := by
  rw [single_packLong hsigns]
  split <;> rfl

theorem numberOf_packLong (n : BitVec 64) :
    numberOf (single (lib.packLong n)) = some (.integer n : JSONValue F) := by
  rw [single_packLong hsigns]
  split
  · rfl
  · next hmsb => rw [numberOf, if_neg hmsb]

theorem single_packLong_of_msb {n : BitVec 64} (h : n.msb = false) :
    single (lib.packLong n) = .uint n := by
  rw [single_packLong hsigns, h]
  rfl

include hlib

theorem elementOf_valueOf (r : Resource) :
    elementOf (valueOf lib r) = (served r : Except Stop (JSONValue F)).map some := by
  have hcode (n : BitVec 64) (h : n.msb = false) := single_packLong_of_msb hsigns h
  have hlong := toInt64_packLong hsigns
  have hnumber := @numberOf_packLong F lib hsigns
  have htext (s : Text) (h : s ≠ []) : single (packValueText lib s) = .raw s := by
    rw [packValueText, if_neg h, hlib.packText s h]
    rfl
  have hempty : single (packValueText lib []) = .nil := rfl
  cases r with
  | uri s =>
    have hvalue : valueOf lib (.uri s) =
      .array [single (lib.packLong 1), single (packValueText lib s)] := rfl
    rw [hvalue, hcode 1 rfl]
    rcases eq_or_ne s [] with rfl | hs
    · rfl
    · rw [htext s hs, served, if_neg hs]
      rfl
  | binary s =>
    have hvalue : valueOf lib (.binary s) =
      .array [single (lib.packLong 128), single (packValueText lib s)] := rfl
    rw [hvalue, hcode 128 rfl]
    rfl
  | integer n =>
    have hvalue : valueOf lib (.integer n) =
      .array [single (lib.packLong 4), single (lib.packLong n)] := rfl
    rw [hvalue, hcode 4 rfl]
    change (((numberOf (single (lib.packLong n))).elim (throw .nil) fun n =>
      pure (typed "Integer" n)) : Except Stop (JSONValue F)).map some = _
    rw [hnumber]
    rfl
  | datetime n =>
    have hvalue : valueOf lib (.datetime n) =
      .array [single (lib.packLong 8), single (lib.packLong n)] := rfl
    rw [hvalue, hcode 8 rfl]
    change (((toInt64 (single (lib.packLong n))).elim (throw .nil) fun sec =>
      pure (typed "Datetime" (.string (bytes (format sec))))) : Except Stop (JSONValue F)).map
        some = _
    rw [hlong]
    rfl
  | boolean b =>
    have hvalue : valueOf lib (.boolean b) = .array [single (lib.packLong 64), .bool b] := rfl
    rw [hvalue, hcode 64 rfl]
    rfl
  | decimal mantissa exponent =>
    have hvalue : valueOf lib (.decimal mantissa exponent) =
      .array [single (lib.packLong 32), single (lib.packLong mantissa),
        single (lib.packLong (exponent.signExtend 64))] := rfl
    rw [hvalue, hcode 32 rfl]
    change (do
      let mantissa ← (toInt64 (single (lib.packLong mantissa))).elim (throw .nil) pure
      let exponent ← (toInt64 (single (lib.packLong (exponent.signExtend 64)))).elim
        (throw .nil) pure
      return typed "Decimal" (.string (bytes
        (decimalToString (.ofBitVec mantissa) (.ofBitVec exponent)))) :
      Except Stop (JSONValue F)).map some = _
    rw [hlong, hlong]
    rfl
  | str s lang =>
    cases lang with
    | none =>
      have hvalue : valueOf lib (.str s .none) =
        .array [single (lib.packLong 2), single (packValueText lib s)] := rfl
      rw [hvalue, hcode 2 rfl, served, if_pos (.inr rfl)]
      rcases eq_or_ne s [] with rfl | hs
      · rfl
      · rw [htext s hs]
        rfl
    | ru =>
      have hvalue : valueOf lib (.str s .ru) =
        .array [single (lib.packLong 2), single (packValueText lib s), single (lib.packLong 1)] :=
        rfl
      rw [hvalue, hcode 2 rfl, hcode 1 rfl, served]
      rcases eq_or_ne s [] with rfl | hs
      · rfl
      · rw [htext s hs, if_neg (by simp [hs])]
        rfl
    | en =>
      have hvalue : valueOf lib (.str s .en) =
        .array [single (lib.packLong 2), single (packValueText lib s), single (lib.packLong 2)] :=
        rfl
      rw [hvalue, hcode 2 rfl, served]
      rcases eq_or_ne s [] with rfl | hs
      · rfl
      · rw [htext s hs, if_neg (by simp [hs])]
        rfl

end

/-! ## Times -/

open Bj8individual.SysTime (padded yearText dateText timeText fracSecsText toISOExtString
  unixTimeToStdTime unixStart unitsPerDay)

theorem byte_digitChar {d : ℕ} (h : d < 10) :
    BitVec.ofNat 8 d.digitChar.toNat = BitVec.ofNat 8 (48 + d) := by
  interval_cases d <;> rfl

theorem padded_zero (k : ℕ) : padded k 0 = bytes (List.replicate k '0') := by
  induction k with
  | zero => rfl
  | succ k ih =>
    rw [padded, Nat.zero_div, ih, List.replicate_succ', Bj8individual.Json.bytes_append]
    rfl

/-- A number with zeros in front of it. -/
theorem bytes_appendInt {k n : ℕ} (hk : 0 < k) (h : n < 10 ^ k) :
    bytes (appendInt n k) = padded k n := by
  have happend : appendInt n k =
      List.replicate (k - (Nat.toDigits 10 n).length) '0' ++ Nat.toDigits 10 n := by
    rw [appendInt, if_neg (by omega), Int.natAbs_natCast]
    rfl
  rw [happend]
  clear happend
  induction k generalizing n with
  | zero => cases hk
  | succ k ih =>
    rw [padded]
    rcases Nat.lt_or_ge n 10 with hn | hn
    · rw [Nat.toDigits_of_lt_base hn, List.length_singleton, Nat.add_sub_cancel,
        Bj8individual.Json.bytes_append, Nat.div_eq_of_lt hn, padded_zero, Nat.mod_eq_of_lt hn,
        ← byte_digitChar hn]
      rfl
    · have hdiv : n / 10 < 10 ^ k := by
        rw [Nat.pow_succ] at h
        omega
      have hpos : 0 < k := by
        rcases Nat.eq_zero_or_pos k with rfl | hpos
        · rw [Nat.pow_zero] at hdiv
          omega
        · exact hpos
      rw [Nat.toDigits_of_base_le (by decide) hn, List.length_append, List.length_singleton,
        Nat.add_sub_add_right, ← List.append_assoc, Bj8individual.Json.bytes_append,
        ih hpos hdiv, ← byte_digitChar (Nat.mod_lt n (by decide))]
      rfl

theorem bytes_cons (c : Char) (s : List Char) :
    bytes (c :: s) = BitVec.ofNat 8 c.toNat :: bytes s := rfl

/-- A year with four digits. -/
theorem year_of_days {days : ℤ} (h : -365 ≤ days) (h' : days ≤ 3652059) :
    ∃ year : ℕ, (ofDays days).year = year ∧ year < 10000 := by
  obtain ⟨year, hyear⟩ := Int.eq_ofNat_of_zero_le ((Calendar.year_nonneg_iff days).mpr h)
  refine ⟨year, hyear, ?_⟩
  by_contra hge
  have hdays := Calendar.toDays_ofDays days
  have hday := (Calendar.ofDays_valid days).day.1
  have hmono := @Calendar.daysBeforeYear_mono 10000 (ofDays days).year (by omega)
  have hlast : Calendar.daysBeforeYear 10000 = 3652059 := rfl
  rw [Calendar.Date.toDays] at hdays
  omega

/-- The two texts of a time are the same as long as the year has four digits. -/
theorem bytes_format {n : BitVec 64} (h : -62167219200 ≤ n.toInt) (h' : n.toInt < 253402300800) :
    bytes (format n) = toISOExtString (unixTimeToStdTime n) := by
  have hinternal : (n + 62135596800).toInt = n.toInt + 62135596800 := by
    have hconst : (62135596800 : BitVec 64).toInt = 62135596800 := rfl
    rw [BitVec.toInt_add, hconst, Int.bmod_eq_of_le]
    · omega
    · omega
  have hstd : (unixTimeToStdTime n).toInt = (n.toInt + 62135596800) * 10000000 := by
    rw [Bj8individual.SysTime.toInt_of_inRange (by omega) (by omega), unixStart]
    omega
  have hday : (unixTimeToStdTime n).toInt / unitsPerDay = (n.toInt + 62135596800) / 86400 := by
    rw [hstd, unitsPerDay]
    omega
  have hunits : ((unixTimeToStdTime n).toInt % unitsPerDay).toNat =
      ((n.toInt + 62135596800) % 86400).toNat * 10000000 := by
    rw [hstd, unitsPerDay]
    omega
  have hsecondsLt : ((n.toInt + 62135596800) % 86400).toNat < 86400 := by omega
  rw [format, hinternal, toISOExtString, hday, hunits]
  rw [Nat.mul_mod_left, Nat.mul_div_cancel _ (by decide)]
  generalize ((n.toInt + 62135596800) % 86400).toNat = seconds at hsecondsLt
  obtain ⟨year, hyear, hlt⟩ := @year_of_days ((n.toInt + 62135596800) / 86400 + 1) (by omega)
    (by omega)
  have hvalid := Calendar.ofDays_valid ((n.toInt + 62135596800) / 86400 + 1)
  generalize ofDays ((n.toInt + 62135596800) / 86400 + 1) = date at hyear hvalid
  have hmonth : date.month < 10 ^ 2 := by have := hvalid.month; omega
  have hdayLt : date.day < 10 ^ 2 := by
    have hle := hvalid.day.2
    have hlen : Calendar.daysInMonth (Calendar.isLeap date.year) date.month ≤ 31 := by
      unfold Calendar.daysInMonth
      split_ifs
      · cases Calendar.isLeap date.year <;> decide
      · decide
      · decide
    omega
  have hyearText : yearText date.year = padded 4 year := by
    rw [hyear, yearText, if_pos (Int.natCast_nonneg year), Int.natAbs_natCast, if_pos hlt]
  have hhours : seconds / 3600 < 10 ^ 2 := by omega
  have hminutes : seconds / 60 % 60 < 10 ^ 2 := by omega
  have hseconds : seconds % 60 < 10 ^ 2 := by omega
  simp only [Bj8individual.Json.bytes_append, bytes_cons]
  rw [hyear, bytes_appendInt (by decide) hlt, bytes_appendInt (by decide) hmonth,
    bytes_appendInt (by decide) hdayLt, bytes_appendInt (by decide) hhours,
    bytes_appendInt (by decide) hminutes, bytes_appendInt (by decide) hseconds,
    dateText, hyearText, timeText, fracSecsText, if_pos rfl]
  simp only [List.append_assoc, List.cons_append, List.nil_append]
  rfl

/-! ## Decimals -/

section
variable {mantissa : BitVec 64} {exponent : BitVec 8}

open Common (signOf signAndMantissa pointed digits Shows)
open Bj8individual.Json (decimalOfString toLong)

theorem decimalToString_eq (m e : Int64) :
    decimalToString m e = signOf m ++ pointed (signAndMantissa m).2 e.toInt := by
  unfold decimalToString signAndMantissa signOf
  by_cases h : m < 0
  · simp only [if_pos h]
    rfl
  · simp only [if_neg h]
    rfl

theorem toInt_signExtend : (Int64.ofBitVec (exponent.signExtend 64)).toInt = exponent.toInt :=
  BitVec.toInt_signExtend_of_le (by decide)

/-- A number without a point or a comma. -/
theorem decimalOfString_whole {s : Text} (hne : s ≠ []) (hcomma : 44 ∉ s) (hpoint : 46 ∉ s) :
    decimalOfString (some s) = (toLong s).map fun n => ⟨n, 0⟩ := by
  have hparts : Bj8individual.Json.decimalParts s = [s] := by
    rw [Bj8individual.Json.decimalParts, if_neg fun h => hcomma h.2, Bj8individual.Json.split,
      if_neg hne, List.splitOn_eq_singleton hpoint]
  rw [decimalOfString]
  simp only [hparts]
  cases toLong s with
  | error failure => rfl
  | ok n => rfl

/-- A number that is too large is not read. -/
theorem toLong_sign_digits {s : List Char} (m : Int64) (h : ∀ c ∈ s, c.isDigit = true)
    (hge : 2 ^ 63 < Nat.ofDigitChars 10 s 0) :
    toLong (bytes (signOf m ++ s)) = .error .exception := by
  have hdigits := Bj8individual.Json.digits_map h
  have hne : s ≠ [] := by
    rintro rfl
    rw [Nat.ofDigitChars_nil] at hge
    omega
  obtain ⟨c, cs, rfl⟩ := List.exists_cons_of_ne_nil hne
  obtain ⟨hle, -, hnat⟩ := Bj8individual.Json.toNat_ofNat_of_isDigit (h c List.mem_cons_self)
  have hsign (sign : Byte) (hlt : sign.toNat < 48) :
      ¬some (BitVec.ofNat 8 c.toNat) = some sign := by
    intro heq
    rw [Option.some_inj.mp heq] at hnat
    omega
  rw [List.map_cons] at hdigits
  rw [signOf]
  split
  · rw [List.singleton_append, bytes_cons, bytes_cons]
    unfold toLong bytes
    simp only [show BitVec.ofNat 8 '-'.toNat = 45 from rfl, List.head?_cons, true_or, if_true,
      List.tail_cons, hdigits, true_and]
    rw [if_neg (by omega), if_neg (by omega)]
  · rw [List.nil_append, bytes_cons]
    unfold toLong bytes
    simp only [List.head?_cons, hsign 45 (by decide), hsign 43 (by decide), or_self, if_false,
      hdigits, false_and]
    rw [if_neg (by omega)]

theorem natAbs_lt {m : Int64} (hm : m ≠ Int64.minValue) : m.toInt.natAbs < 2 ^ 63 := by
  have hne : m.toInt ≠ -2 ^ 63 := by
    rw [← Int64.toInt_minValue]
    exact fun heq => hm (Int64.toInt_inj.mp heq)
  have hle : -2 ^ 63 ≤ m.toInt := m.minValue_le_toInt
  have hlt : m.toInt < 2 ^ 63 := Int64.toInt_lt m
  omega

theorem ofDigitChars_zeros (n k : ℕ) :
    Nat.ofDigitChars 10 (Nat.toDigits 10 n ++ List.replicate k '0') 0 = n * 10 ^ k := by
  have hvalue := Numeral.digitsValue_append_zeros k (Nat.toDigits 10 n)
  rw [Numeral.digitsValue_toDigits, Nat.mul_comm] at hvalue
  exact hvalue

theorem isDigit_zeros (n k : ℕ) :
    ∀ c ∈ Nat.toDigits 10 n ++ List.replicate k '0', c.isDigit = true :=
  (Numeral.isDigits_toDigits n).append (Numeral.isDigits_zeros k)

/-- The digits of a mantissa, with zeros behind them. -/
theorem toLong_zeros {m : Int64} {k : ℕ} (h : m.toInt.natAbs * 10 ^ k < 2 ^ 63) :
    toLong (bytes (signOf m ++ (Nat.toDigits 10 m.toInt.natAbs ++ List.replicate k '0'))) =
      .ok (BitVec.ofInt 64 (m.toInt * 10 ^ k)) := by
  have hall := isDigit_zeros m.toInt.natAbs k
  have hvalue := ofDigitChars_zeros m.toInt.natAbs k
  have hne : Nat.toDigits 10 m.toInt.natAbs ++ List.replicate k '0' ≠ [] := fun h =>
    Nat.toDigits_ne_nil (List.append_eq_nil_iff.mp h).1
  rw [signOf]
  split
  · next hneg =>
    rw [Int64.lt_iff_toInt_lt, Int64.toInt_zero] at hneg
    have hminus := Bj8individual.Json.toLong_minus_digits hall hne (hvalue ▸ h.le)
    have habs : m.toInt * 10 ^ k = -((m.toInt.natAbs * 10 ^ k : ℕ) : ℤ) := by
      have hcast : (m.toInt.natAbs : ℤ) = -m.toInt := by omega
      rw [Int.natCast_mul, hcast, Int.neg_mul, Int.neg_neg]
      rfl
    rw [hvalue, ← BitVec.ofInt_natCast, ← BitVec.ofInt_neg, ← habs] at hminus
    exact hminus
  · next hneg =>
    rw [Int64.lt_iff_toInt_lt, Int64.toInt_zero] at hneg
    have hplain := Bj8individual.Json.toLong_digits hall hne (hvalue ▸ h)
    have habs : m.toInt * 10 ^ k = ((m.toInt.natAbs * 10 ^ k : ℕ) : ℤ) := by
      have hcast : (m.toInt.natAbs : ℤ) = m.toInt := by omega
      rw [Int.natCast_mul, hcast]
      rfl
    rw [hvalue, ← BitVec.ofInt_natCast, ← habs] at hplain
    exact hplain

/-- What is read of the text of a decimal denotes it. -/
def Denotes (mantissa : BitVec 64) (exponent : BitVec 8) : Prop :=
  ∃ d, decimalOfString (some (bytes (decimalToString (.ofBitVec mantissa)
      (.ofBitVec (exponent.signExtend 64))))) = .ok d ∧
    d.toCommon.toRat = (Bj8individual.Json.Decimal.mk mantissa exponent).toCommon.toRat

theorem denotes_of_nonneg (h : 0 ≤ exponent.toInt) : Denotes mantissa exponent ↔
    Int64.ofBitVec mantissa ≠ Int64.minValue ∧
      mantissa.toInt.natAbs * 10 ^ exponent.toInt.toNat < 2 ^ 63 := by
  obtain ⟨k, hk⟩ := Int.eq_ofNat_of_zero_le h
  have hm' : (Int64.ofBitVec mantissa).toInt = mantissa.toInt := rfl
  rw [Denotes, decimalToString_eq, toInt_signExtend, hk, Int.toNat_natCast, pointed,
    if_pos (Int.natCast_nonneg k), Int.toNat_natCast]
  by_cases hm : Int64.ofBitVec mantissa = Int64.minValue
  · have hminus : (45 : Byte) ∈ bytes ((signAndMantissa Int64.minValue).2 ++
        List.replicate k '0') := by
      rw [Common.signAndMantissa_minValue]
      exact List.mem_cons_self
    have hfail := Bj8individual.SysTime.toLong_minus hminus
    have hsign : signOf Int64.minValue = ['-'] := rfl
    have hchars : ∀ c ∈ '-' :: ((signAndMantissa Int64.minValue).2 ++ List.replicate k '0'),
        c.isDigit = true ∨ c = '-' := by
      rw [Common.signAndMantissa_minValue]
      intro c hc
      rcases List.mem_cons.mp hc with rfl | hc
      · exact .inr rfl
      rcases List.mem_cons.mp hc with rfl | hc
      · exact .inr rfl
      · exact .inl (isDigit_zeros _ _ c hc)
    have hread := decimalOfString_whole (List.cons_ne_nil _ _)
      (Bj8individual.Json.notMem_bytes (by decide) hchars)
      (Bj8individual.Json.notMem_bytes (by decide) hchars)
    refine iff_of_false ?_ fun hne => hne.1 hm
    rintro ⟨d, hd, -⟩
    rw [hm, hsign, List.singleton_append] at hd
    have hnone : (toLong (45 :: bytes ((signAndMantissa Int64.minValue).2 ++
        List.replicate k '0'))).map (fun n => ⟨n, 0⟩) = .ok d := hread.symm.trans hd
    rw [hfail] at hnone
    cases hnone
  · rw [and_iff_right hm, Common.signAndMantissa_of_ne hm, hm']
    have hchars : ∀ c ∈ signOf (.ofBitVec mantissa) ++
        (Nat.toDigits 10 mantissa.toInt.natAbs ++ List.replicate k '0'),
        c.isDigit = true ∨ c = '-' := by
      intro c hc
      rcases List.mem_append.mp hc with hc | hc
      · rw [signOf] at hc
        split at hc
        · exact .inr (List.mem_singleton.mp hc)
        · cases hc
      · exact .inl (isDigit_zeros _ _ c hc)
    have hne : bytes (signOf (.ofBitVec mantissa) ++
        (Nat.toDigits 10 mantissa.toInt.natAbs ++ List.replicate k '0')) ≠ [] := by
      intro heq
      have hnil := List.append_eq_nil_iff.mp (List.map_eq_nil_iff.mp heq)
      exact Nat.toDigits_ne_nil (List.append_eq_nil_iff.mp hnil.2).1
    rw [decimalOfString_whole hne (Bj8individual.Json.notMem_bytes (by decide) hchars)
      (Bj8individual.Json.notMem_bytes (by decide) hchars)]
    rcases lt_trichotomy (mantissa.toInt.natAbs * 10 ^ k) (2 ^ 63) with hlt | heq | hgt
    · refine iff_of_true ⟨⟨BitVec.ofInt 64 (mantissa.toInt * 10 ^ k), 0⟩, ?_, ?_⟩ hlt
      · exact congrArg _ (toLong_zeros hlt)
      · have hint : (BitVec.ofInt 64 (mantissa.toInt * 10 ^ k)).toInt =
            mantissa.toInt * 10 ^ k := by
          have habs : (mantissa.toInt * 10 ^ k).natAbs < 2 ^ 63 := by
            rwa [Int.natAbs_mul, Int.natAbs_pow]
          rw [BitVec.toInt_ofInt, Int.bmod_eq_of_le]
          · omega
          · omega
        have hzero : (Int8.ofBitVec 0).toInt = 0 := rfl
        have hexponent : (Int8.ofBitVec exponent).toInt = k := hk
        have hleft : (Int64.ofBitVec (BitVec.ofInt 64 (mantissa.toInt * 10 ^ k))).toInt =
          mantissa.toInt * 10 ^ k := hint
        rw [Bj8individual.Json.Decimal.toCommon, Bj8individual.Json.Decimal.toCommon,
          Common.Decimal.toRat, Common.Decimal.toRat]
        dsimp only
        rw [hzero, hexponent, hleft, hm', zpow_zero, mul_one, zpow_natCast]
        push_cast
        rfl
    · -- a power of two is no multiple of ten
      exfalso
      cases k with
      | zero =>
        rw [pow_zero, mul_one] at heq
        have hlt := natAbs_lt hm
        rw [hm'] at hlt
        omega
      | succ k =>
        rw [pow_succ, ← mul_assoc] at heq
        omega
    · refine iff_of_false ?_ hgt.not_gt
      rintro ⟨d, hd, -⟩
      have hfail := toLong_sign_digits (.ofBitVec mantissa)
        (isDigit_zeros mantissa.toInt.natAbs k) (by rwa [ofDigitChars_zeros])
      rw [hfail] at hd
      cases hd

theorem digits_le {m : Int64} (hm : m ≠ Int64.minValue) : digits m ≤ 19 := by
  have hlt := natAbs_lt hm
  exact (Nat.length_toDigits_le_iff (by decide) (by decide)).mpr (by omega)

/-- The places are read as an exponent of eight bits. -/
theorem toInt_places (places : ℕ) :
    (Int8.ofBitVec (-BitVec.ofNat 8 places)).toInt = (-(places : ℤ)).bmod 256 := by
  rw [← BitVec.ofInt_natCast, ← BitVec.ofInt_neg]
  exact BitVec.toInt_ofInt _

theorem denotes_of_neg (h : exponent.toInt < 0) : Denotes mantissa exponent ↔
    Int64.ofBitVec mantissa ≠ Int64.minValue ∧ (-exponent.toInt < digits (.ofBitVec mantissa) ∨
      digits (.ofBitVec mantissa) = 1) := by
  have hsame : decimalToString (.ofBitVec mantissa) (.ofBitVec (exponent.signExtend 64)) =
      Common.decimalToString (.ofBitVec mantissa) (.ofBitVec exponent) := by
    rw [decimalToString_eq, toInt_signExtend, Common.decimalToString_eq]
    rfl
  have hshows := Common.decimalToString_shows (.ofBitVec mantissa) (.ofBitVec exponent) h
  obtain ⟨zeros, hread⟩ := Bj8individual.Json.decimalOfString_of_shows hshows
  rw [Denotes, hsame, hread]
  by_cases hm : Int64.ofBitVec mantissa = Int64.minValue
  · refine iff_of_false ?_ fun hne => hne.1 hm
    rintro ⟨d, hd, -⟩
    rw [hm, Bj8individual.Json.toLong_minValue] at hd
    cases hd
  rw [Bj8individual.Json.toLong_mantissa hm, Common.length_signAndMantissa _ hm, and_iff_right hm]
  have hle := digits_le hm
  have hpos := Common.digits_pos (.ofBitVec mantissa)
  have hlow : -128 ≤ exponent.toInt := BitVec.le_toInt exponent
  have hexponent : (Int8.ofBitVec exponent).toInt = exponent.toInt := rfl
  rw [hexponent]
  generalize hplaces : (if (-exponent.toInt).toNat < digits (.ofBitVec mantissa) then
    (-exponent.toInt).toNat
    else (-exponent.toInt).toNat - 1 + digits (.ofBitVec mantissa)) = places
  have hiff : (-(places : ℤ)).bmod 256 = exponent.toInt ↔
      -exponent.toInt < digits (.ofBitVec mantissa) ∨ digits (.ofBitVec mantissa) = 1 := by
    rw [Int.bmod_def]
    split at hplaces
    · split <;> omega
    · split <;> omega
  have hdenotes : (∃ d, (Except.ok (Int64.ofBitVec mantissa).toBitVec).map
      (fun n => (⟨n, -BitVec.ofNat 8 places⟩ : Bj8individual.Json.Decimal)) =
        (.ok d : Except Bj8individual.Json.Failure _) ∧
      d.toCommon.toRat = (Bj8individual.Json.Decimal.mk mantissa exponent).toCommon.toRat) ↔
      mantissa.toInt * (10 : ℚ) ^ (-(places : ℤ)).bmod 256 =
        mantissa.toInt * (10 : ℚ) ^ exponent.toInt := by
    rw [← toInt_places]
    constructor
    · rintro ⟨d, hd, hrat⟩
      cases hd
      exact hrat
    · exact fun heq => ⟨_, rfl, heq⟩
  rw [hdenotes, ← hiff]
  by_cases hzero : mantissa.toInt = 0
  · have hone : digits (.ofBitVec mantissa) = 1 := by
      have habs : (Int64.ofBitVec mantissa).toInt = 0 := hzero
      rw [digits, habs]
      rfl
    rw [hzero]
    exact iff_of_true (by simp) (hiff.mpr (.inr hone))
  · have hne : (mantissa.toInt : ℚ) ≠ 0 := Int.cast_ne_zero.mpr hzero
    rw [mul_right_inj' hne, zpow_right_inj₀ (by norm_num) (by norm_num)]

theorem denotes_iff : Denotes mantissa exponent ↔ Serves (.decimal mantissa exponent) := by
  rw [Serves]
  split
  · next h => exact denotes_of_nonneg h
  · next h => exact denotes_of_neg (not_le.mp h)

end

/-! ## What is read of a value -/

section
variable {base : Bj8individual.Json.Library F} {other : Text → Option (BitVec 64)}

open Bj8individual.Json (jsonToResource_decimal jsonToResource_datetime timeOf decimalOfString)

theorem readsAs_iff {lib : Bj8individual.Json.Library F} {r : Resource} {json : JSONValue F}
    (h : served r = .ok json) : ReadsAs lib write r ↔
      ∃ r', jsonToResource lib json = .ok r' ∧ Same r r' := by
  rw [ReadsAs, write, h]
  constructor
  · rintro ⟨json', r', hjson, hread⟩
    cases hjson
    exact ⟨r', hread⟩
  · rintro ⟨r', hread⟩
    exact ⟨json, r', rfl, hread⟩

theorem not_readsAs {lib : Bj8individual.Json.Library F} {r : Resource} {stop : Stop}
    (h : (served r : Except Stop (JSONValue F)) = .error stop) :
    ¬ReadsAs lib write r := by
  rintro ⟨json, r', hjson, -⟩
  rw [write, h] at hjson
  cases hjson

theorem readsAs_decimal_iff {lib : Bj8individual.Json.Library F} (mantissa : BitVec 64)
    (exponent : BitVec 8) : ReadsAs lib write (.decimal mantissa exponent) ↔
      Serves (.decimal mantissa exponent) := by
  rw [readsAs_iff rfl, ← denotes_iff, Denotes, jsonToResource_decimal]
  constructor
  · rintro ⟨r', hread, d, rfl, hrat⟩
    cases hd : decimalOfString (some (bytes (decimalToString (.ofBitVec mantissa)
        (.ofBitVec (exponent.signExtend 64))))) with
    | error failure =>
      rw [hd] at hread
      cases hread
    | ok d' =>
      rw [hd] at hread
      cases hread
      exact ⟨d, rfl, hrat⟩
  · rintro ⟨d, hd, hrat⟩
    refine ⟨⟨.decimal, 0, .decimal d⟩, ?_, d, rfl, hrat⟩
    rw [hd]
    rfl

theorem readsAs_datetime {n : BitVec 64} (h : FourDigits (.datetime n)) :
    ReadsAs (base.withTimes other) write (.datetime n) := by
  have hrange : Bj8individual.SysTime.InRange n := by
    obtain ⟨hlow, hhigh⟩ := h
    exact ⟨hlow, by omega⟩
  have htime : timeOf (base.withTimes other) (some (toISOExtString (unixTimeToStdTime n))) =
    .ok n := (Bj8individual.SysTime.timeOf_toISOExtString_iff rfl n).mpr hrange
  rw [readsAs_iff rfl, jsonToResource_datetime, bytes_format h.1 h.2, htime]
  exact ⟨_, rfl, rfl⟩

/-- What is read of a value that the web server gives. -/
theorem readsAs_served_iff {r : Resource} (hr : FourDigits r) :
    ReadsAs (base.withTimes other) write r ↔ Serves r := by
  cases r with
  | uri s =>
    rcases eq_or_ne s [] with rfl | hs
    · exact iff_of_false (not_readsAs rfl) fun h => h rfl
    · have hserved : served (.uri s) = .ok (typed "Uri" (.string s) : JSONValue F) := if_neg hs
      exact iff_of_true ((readsAs_iff hserved).mpr ⟨_, rfl, rfl⟩) hs
  | binary s => exact iff_of_false (not_readsAs rfl) id
  | integer n => exact iff_of_true ⟨_, _, rfl, rfl, rfl⟩ trivial
  | datetime n => exact iff_of_true (readsAs_datetime hr) trivial
  | decimal mantissa exponent => exact readsAs_decimal_iff mantissa exponent
  | boolean b =>
    refine iff_of_true ?_ trivial
    cases b with
    | false => exact ⟨_, _, rfl, rfl, rfl⟩
    | true => exact ⟨_, _, rfl, rfl, rfl⟩
  | str s lang =>
    rcases eq_or_ne s [] with rfl | hs
    · cases lang with
      | none => exact iff_of_true ⟨_, _, rfl, rfl, rfl⟩ (.inr rfl)
      | ru =>
        refine iff_of_false ?_ (by rintro (h | h); exacts [h rfl, by cases h])
        rintro ⟨json, r', hjson, hread, hsame⟩
        cases hjson
        cases hread
        cases hsame
      | en =>
        refine iff_of_false ?_ (by rintro (h | h); exacts [h rfl, by cases h])
        rintro ⟨json, r', hjson, hread, hsame⟩
        cases hjson
        cases hread
        cases hsame
    · refine iff_of_true ?_ (.inl hs)
      rcases eq_or_ne lang .none with rfl | hlang
      · have hserved : served (.str s .none) = .ok (typed "String" (.string s) : JSONValue F) :=
          if_pos (.inr rfl)
        exact (readsAs_iff hserved).mpr ⟨_, rfl, rfl⟩
      · have hserved : served (.str s lang) = .ok (.object [(ascii "type",
            .string (ascii "String")), (ascii "data", .string s),
            (ascii "lang", .string (Bj8individual.Json.langText lang))] : JSONValue F) :=
          if_neg (not_or.mpr ⟨hs, hlang⟩)
        refine (readsAs_iff hserved).mpr ?_
        cases lang with
        | none => exact absurd rfl hlang
        | ru => exact ⟨_, rfl, rfl⟩
        | en => exact ⟨_, rfl, rfl⟩

end

/-! ## The record -/

section
variable {lib : Bj8individual.Msgpack.Library} (hlib : Bj8individual.Msgpack.Documented lib)
  (hsigns : PacksSigns lib)
include hlib hsigns

open Bj8individual.Msgpack (valueOf entryOf written)

theorem resourcesOf_map_iff {rs : Resources} {values : List (JSONValue F)} :
    resourcesOf (rs.map (valueOf lib)) = .ok values ↔ rs.mapM write = some values := by
  rw [Bj8individual.Json.mapM_some_iff]
  induction rs generalizing values with
  | nil => exact ⟨fun h => by cases h; exact .nil, fun h => by cases h; rfl⟩
  | cons r rs ih =>
    rw [List.map_cons, resourcesOf, elementOf_valueOf hlib hsigns, List.forall₂_cons_left_iff,
      write]
    cases (served r : Except Stop (JSONValue F)) with
    | error stop =>
      refine ⟨(fun h => by cases h), fun h => ?_⟩
      obtain ⟨_, _, hnone, -⟩ := h
      cases hnone
    | ok value =>
      constructor
      · intro h
        change (resourcesOf (rs.map (valueOf lib)) >>= fun resources =>
          pure ([value] ++ resources)) = _ at h
        cases hrest : (resourcesOf (rs.map (valueOf lib)) : Except Stop (List (JSONValue F))) with
        | error stop =>
          rw [hrest] at h
          cases h
        | ok resources =>
          rw [hrest] at h
          cases h
          exact ⟨value, resources, rfl, ih.mp hrest, rfl⟩
      · rintro ⟨value', resources, heq, hrest, rfl⟩
        cases heq
        change (resourcesOf (rs.map (valueOf lib)) >>= fun resources =>
          pure ([value] ++ resources)) = _
        rw [ih.mpr hrest]
        rfl

theorem addPredicate_entryOf_iff {individual individual' : List (Entry F)} {p : Text}
    {rs : Resources} (hp : p ≠ []) :
    addPredicate individual (entryOf lib (p, rs)) = .ok individual' ↔
      writeWith write individual ⟨p, rs⟩ = some individual' := by
  have hkey : Bj8individual.Msgpack.single (lib.packText p) = .raw p := by
    rw [hlib.packText p hp]
    rfl
  rw [Bj8individual.Json.writeWith_eq_some_iff, entryOf, addPredicate, hkey]
  simp only [← resourcesOf_map_iff hlib hsigns]
  cases (resourcesOf (rs.map (valueOf lib)) : Except Stop (List (JSONValue F))) with
  | error stop =>
    refine ⟨(fun h => by cases h), fun h => ?_⟩
    obtain ⟨_, hnone, -⟩ := h
    cases hnone
  | ok resources =>
    constructor
    · intro h
      cases h
      exact ⟨resources, rfl, rfl⟩
    · rintro ⟨resources', heq, rfl⟩
      cases heq
      rfl

theorem foldlM_entryOf_iff {entries : List (Text × Resources)} (h : ∀ entry ∈ entries, entry.1 ≠ [])
    {individual individual' : List (Entry F)} :
    (entries.map (entryOf lib)).foldlM addPredicate individual = .ok individual' ↔
      (entries.map fun entry => (⟨entry.1, entry.2⟩ : (_ : Text) × Resources)).foldlM
        (writeWith write) individual = some individual' := by
  induction entries generalizing individual with
  | nil => exact ⟨fun h => by cases h; rfl, fun h => by cases h; rfl⟩
  | cons entry entries ih =>
    obtain ⟨hp, hrest⟩ := List.forall_mem_cons.mp h
    have hstep := @addPredicate_entryOf_iff F lib hlib hsigns individual
    rw [List.map_cons, List.map_cons, List.foldlM_cons, List.foldlM_cons, Option.bind_eq_bind,
      Option.bind_eq_some_iff]
    cases hadd : addPredicate individual (entryOf lib entry) with
    | error stop =>
      refine ⟨(fun h => by cases h), ?_⟩
      rintro ⟨next, hnext, -⟩
      cases hadd.symm.trans ((hstep hp).mpr hnext)
    | ok next =>
      have hnext := (hstep hp).mp hadd
      constructor
      · intro hfold
        exact ⟨next, hnext, (ih hrest).mp hfold⟩
      · rintro ⟨next', hnext', hfold⟩
        obtain rfl : next = next' := Option.some_inj.mp (hnext.symm.trans hnext')
        exact (ih hrest).mpr hfold

variable {x : Bj8individual.Individual}

theorem foldlM_written_iff (hkeys : [] ∉ x.resources) {entries : List (Text × Resources)}
    (hperm : entries.Perm (written x)) {individual individual' : List (Entry F)} :
    (entries.map (entryOf lib)).foldlM addPredicate individual = .ok individual' ↔
      (entries.map fun entry => (⟨entry.1, entry.2⟩ : (_ : Text) × Resources)).foldlM
        (writeWith write) individual = some individual' := by
  refine foldlM_entryOf_iff hlib hsigns ?_
  rintro ⟨p, rs⟩ hmem rfl
  have hlookup := (Bj8individual.Msgpack.mem_written.mp (hperm.mem_iff.mp hmem)).1
  exact hkeys (AList.lookup_isSome.mp (by rw [hlookup]; rfl))

/-- The answer has the predicates of the individual. -/
theorem writtenWith_of_ttResordToMap (hkeys : [] ∉ x.resources)
    (hvalued : ∀ entry ∈ x.resources.entries, entry.2 ≠ []) {entries : List (Text × Resources)}
    (hperm : entries.Perm (written x)) {individual : List (Entry F)}
    (h : ttResordToMap x.uri (entries.map (entryOf lib)) = .ok individual) :
    WrittenWith write x individual := by
  have hfold := (foldlM_written_iff hlib hsigns hkeys hperm).mp h
  have hmem (p : Text) (rs : Resources) :
      (⟨p, rs⟩ : (_ : Text) × Resources) ∈ entries.map (fun entry => ⟨entry.1, entry.2⟩) ↔
        x.resources.lookup p = some rs := by
    have hentries : (p, rs) ∈ entries ↔ x.resources.lookup p = some rs := by
      rw [hperm.mem_iff, Bj8individual.Msgpack.mem_written]
      exact and_iff_left_of_imp fun hlookup => hvalued ⟨p, rs⟩ (AList.mem_lookup_iff.mp hlookup)
    rw [← hentries]
    constructor
    · intro hm
      obtain ⟨entry, hin, heq⟩ := List.mem_map.mp hm
      cases heq
      exact hin
    · exact fun hm => List.mem_map.mpr ⟨(p, rs), hm, rfl⟩
  have hkeysEq : (entries.map fun entry => (⟨entry.1, entry.2⟩ : (_ : Text) × Resources)).keys =
      entries.map Prod.fst := by
    rw [List.keys, List.map_map]
    rfl
  have hnodup : (entries.map fun entry =>
      (⟨entry.1, entry.2⟩ : (_ : Text) × Resources)).NodupKeys := by
    rw [List.NodupKeys, hkeysEq]
    exact ((hperm.map Prod.fst).nodup_iff).mpr (Bj8individual.Msgpack.nodup_written x)
  have hfirst : (([(ascii "@", .string x.uri)] : List (Entry F)).map Prod.fst).Nodup :=
    List.nodup_singleton _
  refine ⟨Bj8individual.Json.nodup_foldlM hfirst hfold, fun p value hlookup => ?_,
    fun p rs hlookup => ?_⟩
  · rw [Bj8individual.Json.mem_foldlM_of_notMem _ hfold, List.mem_singleton, Prod.mk.injEq]
    intro hp
    obtain ⟨rs, hrs⟩ := List.mem_keys.mp hp
    have hsome := (hmem p rs).mp hrs
    rw [hlookup] at hsome
    cases hsome
  · obtain ⟨values, hvalues, hentry⟩ :=
      Bj8individual.Json.mem_foldlM hnodup ((hmem p rs).mpr hlookup) hfold
    exact ⟨values, Bj8individual.Json.mapM_some_iff.mp hvalues, hentry⟩

/-- An answer is made if something is made of every value. -/
theorem exists_ttResordToMap (hkeys : [] ∉ x.resources) {entries : List (Text × Resources)}
    (hperm : entries.Perm (written x))
    (h : ∀ p rs, x.resources.lookup p = some rs → ∃ values : List (JSONValue F),
      rs.mapM write = some values) :
    ∃ individual : List (Entry F),
      ttResordToMap x.uri (entries.map (entryOf lib)) = .ok individual := by
  have hwrites : ∀ property ∈ entries.map fun entry =>
      (⟨entry.1, entry.2⟩ : (_ : Text) × Resources),
      ∃ values : List (JSONValue F), property.2.mapM write = some values := by
    intro property hmem
    obtain ⟨entry, hin, rfl⟩ := List.mem_map.mp hmem
    exact h entry.1 entry.2 (Bj8individual.Msgpack.mem_written.mp (hperm.mem_iff.mp hin)).1
  obtain ⟨individual, hfold⟩ := Bj8individual.Json.exists_foldlM hwrites
    [(ascii "@", .string x.uri)]
  exact ⟨individual, (foldlM_written_iff hlib hsigns hkeys hperm).mpr hfold⟩

end

/-! ## The round trip -/

section
variable {lib : Bj8individual.Msgpack.Library} {decode : List Byte → Option Value}
  {x : Bj8individual.Individual}

open Bj8individual.Msgpack (individual2msgpack entryOf written writeIndividual)

/-- What the client decodes of a record, unless predicates are missing there. -/
theorem decode_individual2msgpack_iff (hlib : Bj8individual.Msgpack.Documented lib)
    (hdecode : Decodes lib decode) (huri : x.uri ≠ []) {entries : List (Value × Value)} :
    decode (individual2msgpack lib x) = some (.array [.raw x.uri, .map entries]) ↔
      (∀ entry ∈ x.resources.entries, entry.2 ≠ []) ∧ entries = (written x).map (entryOf lib) := by
  obtain ⟨fuel, hfuel⟩ := Bj8individual.Msgpack.exists_fuel lib x
  have hsingle : Bj8individual.Msgpack.single (lib.packText x.uri) = .raw x.uri := by
    rw [hlib.packText _ huri]
    rfl
  rw [individual2msgpack, hdecode, hfuel, ← Bj8individual.Msgpack.length_written_eq]
  rcases (Bj8individual.Msgpack.length_written_le x).lt_or_eq with hlt | heq
  · rw [Bj8individual.Msgpack.parse_writeIndividual_short hlib hlt]
    exact ⟨(fun h => by cases h), fun h => absurd h.1 hlt.ne⟩
  · rw [Bj8individual.Msgpack.parse_writeIndividual hlib heq, hsingle, and_iff_right heq]
    constructor
    · intro h
      cases h
      rfl
    · rintro rfl
      rfl

end

/-- A client that decodes a record as the packer has encoded it. -/
def unpack (bytes : List Byte) : Option Value := do
  let tokens ← MsgPack.decode bytes.length bytes
  (parse (2 * tokens.length) tokens).map Prod.fst

theorem decodes_unpack : Decodes Bj8individual.Msgpack.packer unpack := by
  intro tokens
  have hdecode : MsgPack.decode (tokens.flatMap MsgPack.encode).length
    (tokens.flatMap MsgPack.encode) = some tokens := MsgPack.decode_flatMap le_rfl
  change unpack (tokens.flatMap MsgPack.encode) = _
  rw [unpack, hdecode]
  rfl

/-- The text of `12 * 10 ^ -2` is that of `0.012`. -/
example : decimalToString 12 (-2) = ['.', '0', '1', '2'] := by decide

end Veda.Gowebserver
