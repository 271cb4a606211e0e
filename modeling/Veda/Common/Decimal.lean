import Veda.Lib.Numeral

/-! # Decimals

The model of `decimal` in `type.d` with its printer `asString`, and of the printers of the same
number in `individual.go` and `util8json.cpp`. The three denote the number exactly where
`printers_iff` says. -/

namespace Veda.Common

open Numeral

/-- `struct decimal`. -/
structure Decimal where
  mantissa : Int64
  exponent : Int8
  deriving DecidableEq

/-- The number that a decimal stands for. -/
def Decimal.toRat (d : Decimal) : ℚ := d.mantissa.toInt * (10 : ℚ) ^ d.exponent.toInt

/-- `text` of an integer in D, `FormatInt` in Go and `to_string` in C++. -/
def text (n : ℤ) : List Char :=
  if n < 0 then '-' :: Nat.toDigits 10 n.natAbs else Nat.toDigits 10 n.natAbs

/-- `nullz`. -/
def nullz : List Char := List.replicate 32 '0'

/-- The slice `s[i .. j]` of an array, which is checked. -/
def slice (s : List Char) (i j : ℤ) : Option (List Char) :=
  if 0 ≤ i ∧ i ≤ j ∧ j ≤ s.length then some ((s.take j.toNat).drop i.toNat) else none

/-- `sign` and `str_mantissa`. The smallest mantissa is its own negation. -/
def signAndMantissa (mantissa : Int64) : List Char × List Char :=
  if mantissa < 0 then (['-'], text (-mantissa).toInt) else ([], text mantissa.toInt)

/-- `decimal.asString`; `none` is an error of a slice. -/
def Decimal.asString (d : Decimal) : Option (List Char) :=
  let (sign, strMantissa) := signAndMantissa d.mantissa
  let lh : ℤ := strMantissa.length - d.exponent.toInt * -1
  let slh :=
    if 0 ≤ lh then
      if lh ≤ strMantissa.length then slice strMantissa 0 lh else some []
    else some []
  let slr :=
    if 0 ≤ lh then slice strMantissa lh strMantissa.length
    else (slice nullz 0 (-lh)).map (· ++ strMantissa)
  slh.bind fun slh => slr.map fun slr => sign ++ (slh ++ '.' :: slr)

/-- `decimalToString` in Go. -/
def decimalToString (mantissa : Int64) (exponent : Int8) : List Char :=
  let (negative, mantissa) := if mantissa < 0 then (true, -mantissa) else (false, mantissa)
  let res := text mantissa.toInt
  let res :=
    if 0 ≤ exponent.toInt then res ++ List.replicate exponent.toInt.toNat '0'
    else
      let exponent := (-exponent.toInt).toNat
      if exponent < res.length then
        res.take (res.length - exponent) ++ ['.'] ++ res.drop (res.length - exponent)
      else '.' :: List.replicate (exponent - 1) '0' ++ res
  if negative then '-' :: res else res

/-- `substr`; `none` is the exception for a start beyond the end. -/
def substr (s : List Char) (pos n : ℕ) : Option (List Char) :=
  if pos ≤ s.length then some ((s.drop pos).take n) else none

/-- `exponent_and_mantissa_to_string` in C++. -/
def exponentAndMantissaToString (mantissa : Int64) (exponent : Int8) : Option (List Char) :=
  let (sign, strMantissa) := signAndMantissa mantissa
  let lh : ℤ := strMantissa.length - exponent.toInt * -1
  let slh :=
    if 0 ≤ lh then
      if lh ≤ strMantissa.length then substr strMantissa 0 lh.toNat else some []
    else some []
  let slr :=
    if 0 ≤ lh then substr strMantissa lh.toNat strMantissa.length
    else (substr nullz 0 (-lh).toNat).map (· ++ strMantissa)
  slh.bind fun slh => slr.map fun slr =>
    if slr.length = 0 then sign ++ slh
    else
      let slh := if slh.length = 0 then ['0'] else slh
      sign ++ (slh ++ '.' :: slr)

/-! ## Sign and mantissa -/

section
variable {mantissa : Int64}

/-- How many digits the mantissa has. -/
def digits (mantissa : Int64) : ℕ := (Nat.toDigits 10 mantissa.toInt.natAbs).length

/-- The sign of a text. -/
def signOf (mantissa : Int64) : List Char := if mantissa < 0 then ['-'] else []

theorem toInt_neg_of_ne (h : mantissa ≠ Int64.minValue) : (-mantissa).toInt = -mantissa.toInt := by
  have hne : mantissa.toInt ≠ -2 ^ 63 := by
    rw [← Int64.toInt_minValue]
    exact fun heq => h (Int64.toInt_inj.mp heq)
  have hle := mantissa.minValue_le_toInt
  have hge := mantissa.toInt_le
  rw [Int64.toInt_minValue] at hle
  rw [Int64.toInt_maxValue] at hge
  rw [Int64.toInt_neg, Int.bmod_eq_of_le]
  · omega
  · omega

/-- The digits of every mantissa but the smallest one. -/
theorem signAndMantissa_of_ne (h : mantissa ≠ Int64.minValue) :
    signAndMantissa mantissa = (signOf mantissa, Nat.toDigits 10 mantissa.toInt.natAbs) := by
  have hzero := Int64.toInt_zero
  unfold signAndMantissa signOf
  split
  · next hneg =>
    rw [Int64.lt_iff_toInt_lt, hzero] at hneg
    rw [toInt_neg_of_ne h, text, if_neg (by omega), Int.natAbs_neg]
  · next hneg =>
    rw [Int64.lt_iff_toInt_lt, hzero] at hneg
    rw [text, if_neg hneg]

theorem signAndMantissa_minValue : signAndMantissa Int64.minValue =
    (['-'], '-' :: Nat.toDigits 10 (2 ^ 63)) := by
  rfl

theorem signAndMantissa_fst (mantissa : Int64) :
    (signAndMantissa mantissa).1 = signOf mantissa := by
  unfold signAndMantissa signOf
  split <;> rfl

theorem mantissa_ne_nil (mantissa : Int64) : (signAndMantissa mantissa).2 ≠ [] := by
  unfold signAndMantissa text
  split
  · split
    · exact List.cons_ne_nil _ _
    · exact Nat.toDigits_ne_nil
  · split
    · exact List.cons_ne_nil _ _
    · exact Nat.toDigits_ne_nil

/-- The sign in front of the digits of the absolute value. -/
theorem value_signOf {body : List Char} {c : ℚ} (hbody : body.head? ≠ some '-')
    (h : unsignedValue body = some (mantissa.toInt.natAbs * c)) :
    value (signOf mantissa ++ body) = some (mantissa.toInt * c) := by
  unfold signOf
  split
  · next hneg =>
    rw [Int64.lt_iff_toInt_lt, Int64.toInt_zero] at hneg
    have habs : (mantissa.toInt.natAbs : ℚ) = -(mantissa.toInt : ℚ) := by
      rw [Nat.cast_natAbs, abs_of_neg hneg]
      push_cast
      rfl
    rw [List.singleton_append, value_minus, h, habs, Option.map_some, neg_mul, neg_neg]
  · next hneg =>
    rw [Int64.lt_iff_toInt_lt, Int64.toInt_zero, not_lt] at hneg
    have habs : (mantissa.toInt.natAbs : ℚ) = (mantissa.toInt : ℚ) := by
      rw [Nat.cast_natAbs, abs_of_nonneg hneg]
    rw [List.nil_append, value_of_head hbody, h, habs]

end

/-! ## Texts with a point -/

/-- The text shows the digits of `mantissa` behind some zeros, with `places` of them behind the
point. -/
structure Shows (mantissa : Int64) (text : List Char) (places : ℕ) : Prop where
  shape : ∃ whole fraction zeros, text = signOf mantissa ++ (whole ++ '.' :: fraction) ∧
    whole ++ fraction = List.replicate zeros '0' ++ (signAndMantissa mantissa).2 ∧
    fraction.length = places

variable {mantissa : Int64} {text : List Char} {places : ℕ}

theorem Shows.value_eq (h : Shows mantissa text places) (hm : mantissa ≠ Int64.minValue) :
    value text = some (mantissa.toInt * (10 : ℚ) ^ (-(places : ℤ))) := by
  obtain ⟨whole, fraction, zeros, rfl, hdigits, rfl⟩ := h.shape
  rw [signAndMantissa_of_ne hm] at hdigits
  have hall : IsDigits (whole ++ fraction) := by
    rw [hdigits]
    exact (isDigits_zeros zeros).append (isDigits_toDigits _)
  have hwhole : IsDigits whole := fun c hc => hall c (List.mem_append_left _ hc)
  have hfraction : IsDigits fraction := fun c hc => hall c (List.mem_append_right _ hc)
  have hne : whole ++ fraction ≠ [] := by
    rw [hdigits]
    exact fun h => Nat.toDigits_ne_nil (List.append_eq_nil_iff.mp h).2
  apply value_signOf
  · cases whole with
    | nil => exact fun h => absurd (Option.some.inj h) (by decide)
    | cons c whole =>
      intro h
      exact (hwhole.ne_of_mem List.mem_cons_self).2 (Option.some.inj h)
  · rw [unsignedValue_point hwhole hfraction hne, hdigits, digitsValue_zeros_append,
      digitsValue_toDigits, zpow_neg, zpow_natCast, div_eq_mul_inv]

/-- The smallest mantissa has two minuses. -/
theorem Shows.value_minValue (h : Shows Int64.minValue text places) : value text = none := by
  obtain ⟨whole, fraction, zeros, rfl, hdigits, _⟩ := h.shape
  have hminus : '-' ∈ whole ++ fraction := by
    rw [hdigits, signAndMantissa_minValue]
    exact List.mem_append_right _ List.mem_cons_self
  have hmem : '-' ∈ whole ++ '.' :: fraction := by
    obtain hminus | hminus := List.mem_append.mp hminus
    · exact List.mem_append_left _ hminus
    · exact List.mem_append_right _ (List.mem_cons_of_mem _ hminus)
  have hsign : signOf Int64.minValue = ['-'] := rfl
  rw [hsign, List.singleton_append, value_minus, unsignedValue_eq_none hmem]
  rfl

/-- Such a text denotes a decimal where it has the right number of places. -/
theorem Shows.denotes_iff (h : Shows mantissa text places) (exponent : ℤ) :
    value text = some (mantissa.toInt * (10 : ℚ) ^ exponent) ↔
      mantissa ≠ Int64.minValue ∧ (mantissa = 0 ∨ exponent = -places) := by
  by_cases hm : mantissa = Int64.minValue
  · subst hm
    rw [h.value_minValue]
    exact iff_of_false (Option.some_ne_none _).symm fun hc => hc.1 rfl
  rw [h.value_eq hm, Option.some_inj, and_iff_right hm]
  by_cases hzero : mantissa = 0
  · subst hzero
    simp
  have hne : (mantissa.toInt : ℚ) ≠ 0 := by
    rw [Int.cast_ne_zero]
    exact fun h => hzero (Int64.toInt_inj.mp h)
  rw [mul_right_inj' hne, zpow_right_inj₀ (by norm_num) (by norm_num), or_iff_right hzero]
  exact eq_comm

/-! ## The printers -/

section
variable (mantissa : Int64) (exponent : Int8)

theorem length_signAndMantissa (h : mantissa ≠ Int64.minValue) :
    (signAndMantissa mantissa).2.length = digits mantissa := by
  rw [signAndMantissa_of_ne h]
  rfl

theorem slice_eq {s : List Char} {i j : ℤ} (h : 0 ≤ i ∧ i ≤ j ∧ j ≤ s.length) :
    slice s i j = some ((s.take j.toNat).drop i.toNat) := if_pos h

theorem slice_eq_none {s : List Char} {i j : ℤ} (h : ¬(0 ≤ i ∧ i ≤ j ∧ j ≤ s.length)) :
    slice s i j = none := if_neg h

/-- With a positive exponent the point would lie beyond the digits. -/
theorem asString_of_pos (h : 0 < exponent.toInt) :
    (Decimal.mk mantissa exponent).asString = none := by
  simp only [Decimal.asString]
  rw [if_pos (by omega), if_neg (by omega), if_pos (by omega), slice_eq_none (by omega)]
  rfl

/-- `nullz` has not enough zeros. -/
theorem asString_of_long
    (h : (signAndMantissa mantissa).2.length + 32 < -exponent.toInt) :
    (Decimal.mk mantissa exponent).asString = none := by
  have hlength : nullz.length = 32 := rfl
  simp only [Decimal.asString]
  rw [if_neg (by omega), if_neg (by omega), slice_eq_none (by omega)]
  rfl

/-- The point is among the digits. -/
theorem shows_split {s : List Char} (hs : (signAndMantissa mantissa).2 = s) (n : ℕ) :
    Shows mantissa (signOf mantissa ++ (s.take n ++ '.' :: s.drop n)) (s.length - n) := by
  refine ⟨s.take n, s.drop n, 0, rfl, ?_, List.length_drop⟩
  rw [List.take_append_drop, hs]
  rfl

/-- The point is before the digits, among the zeros. -/
theorem shows_zeros {s : List Char} (hs : (signAndMantissa mantissa).2 = s) (k n : ℕ) :
    Shows mantissa
      (signOf mantissa ++ (List.replicate k '0' ++ '.' :: (List.replicate n '0' ++ s)))
      (n + s.length) := by
  refine ⟨List.replicate k '0', List.replicate n '0' ++ s, k + n, rfl, ?_, ?_⟩
  · rw [hs, ← List.append_assoc, List.replicate_append_replicate]
  · rw [List.length_append, List.length_replicate]

theorem asString_shows (hpos : exponent.toInt ≤ 0)
    (h : -exponent.toInt ≤ (signAndMantissa mantissa).2.length + 32) :
    ∃ text, (Decimal.mk mantissa exponent).asString = some text ∧
      Shows mantissa text (-exponent.toInt).toNat := by
  obtain ⟨k, hk⟩ := Int.exists_eq_neg_ofNat hpos
  generalize hs : (signAndMantissa mantissa).2 = s at *
  simp only [Decimal.asString, signAndMantissa_fst, hs, hk]
  by_cases hinside : k ≤ s.length
  · have hlh : (s.length : ℤ) - -(k : ℤ) * -1 = (s.length - k : ℕ) := by omega
    rw [hlh, if_pos (by omega), if_pos (by omega), if_pos (by omega), slice_eq (by omega),
      slice_eq (by omega)]
    have hshows := shows_split mantissa hs (s.length - k)
    have hplaces : (- -(k : ℤ)).toNat = s.length - (s.length - k) := by omega
    rw [hplaces]
    simpa using hshows
  · have hlh : (s.length : ℤ) - -(k : ℤ) * -1 = -(k - s.length : ℕ) := by omega
    have hlength : nullz.length = 32 := rfl
    rw [hlh, if_neg (by omega), if_neg (by omega), slice_eq (by omega)]
    have hshows := shows_zeros mantissa hs 0 (k - s.length)
    have hplaces : (- -(k : ℤ)).toNat = k - s.length + s.length := by omega
    rw [hplaces]
    have htake : nullz.take (k - s.length) = List.replicate (k - s.length) '0' := by
      rw [nullz, List.take_replicate, min_eq_left (by omega)]
    simpa [htake] using hshows

theorem substr_eq {s : List Char} {pos n : ℕ} (h : pos ≤ s.length) :
    substr s pos n = some ((s.drop pos).take n) := if_pos h

theorem substr_eq_none {s : List Char} {pos n : ℕ} (h : s.length < pos) :
    substr s pos n = none := if_neg (not_le.mpr h)

/-- With a positive exponent `substr` throws. -/
theorem exponentAndMantissaToString_of_pos (h : 0 < exponent.toInt) :
    exponentAndMantissaToString mantissa exponent = none := by
  simp only [exponentAndMantissaToString]
  rw [if_pos (by omega), if_neg (by omega), if_pos (by omega), substr_eq_none (by omega)]
  rfl

/-- Without an exponent there is no point. -/
theorem exponentAndMantissaToString_of_zero (h : exponent.toInt = 0) :
    exponentAndMantissaToString mantissa exponent =
      some (signOf mantissa ++ (signAndMantissa mantissa).2) := by
  have hlh : ((signAndMantissa mantissa).2.length : ℤ) - 0 * -1 =
    ((signAndMantissa mantissa).2.length : ℕ) := by omega
  simp only [exponentAndMantissaToString, signAndMantissa_fst, h, hlh, Int.toNat_natCast]
  rw [if_pos (by omega), if_pos le_rfl, if_pos (by omega), substr_eq (Nat.zero_le _),
    substr_eq le_rfl]
  simp

/-- With a negative exponent there are at most 32 zeros. -/
theorem exponentAndMantissaToString_shows (h : exponent.toInt < 0) :
    ∃ text, exponentAndMantissaToString mantissa exponent = some text ∧
      Shows mantissa text
        (min (-exponent.toInt).toNat ((signAndMantissa mantissa).2.length + 32)) := by
  obtain ⟨k, hk⟩ := Int.exists_eq_neg_ofNat h.le
  have hne := mantissa_ne_nil mantissa
  generalize hs : (signAndMantissa mantissa).2 = s at *
  have hpos : 0 < s.length := List.length_pos_iff.mpr hne
  simp only [exponentAndMantissaToString, signAndMantissa_fst, hs, hk]
  by_cases hinside : k ≤ s.length
  · have hlh : (s.length : ℤ) - -(k : ℤ) * -1 = (s.length - k : ℕ) := by omega
    rw [hlh, if_pos (by omega), if_pos (by omega), if_pos (by omega), Int.toNat_natCast,
      substr_eq (Nat.zero_le _), substr_eq (by omega)]
    have hplaces : min (- -(k : ℤ)).toNat (s.length + 32) = s.length - (s.length - k) := by omega
    rw [hplaces]
    have hfraction : (s.drop (s.length - k)).take s.length = s.drop (s.length - k) :=
      List.take_of_length_le (by rw [List.length_drop]; omega)
    have hlength : (s.drop (s.length - k)).length ≠ 0 := by rw [List.length_drop]; omega
    by_cases hwhole : s.length - k = 0
    · have hshows := shows_zeros mantissa hs 1 0
      rw [hwhole]
      simpa [hne] using hshows
    · have hshows := shows_split mantissa hs (s.length - k)
      have htake : (s.take (s.length - k)).length ≠ 0 := by rw [List.length_take]; omega
      refine ⟨_, rfl, ?_⟩
      dsimp only
      rw [hfraction, if_neg hlength]
      rw [List.drop_zero, if_neg (by simpa using htake)]
      simpa using hshows
  · have hlh : (s.length : ℤ) - -(k : ℤ) * -1 = -(k - s.length : ℕ) := by omega
    have hlength : nullz.length = 32 := rfl
    rw [hlh, if_neg (by omega), if_neg (by omega), substr_eq (Nat.zero_le _)]
    have hshows := shows_zeros mantissa hs 1 (min (k - s.length) 32)
    have hplaces : min (- -(k : ℤ)).toNat (s.length + 32) =
      min (k - s.length) 32 + s.length := by omega
    rw [hplaces]
    have htake : nullz.take (k - s.length) = List.replicate (min (k - s.length) 32) '0' := by
      rw [nullz, List.take_replicate]
    have hslr : (List.replicate (min (k - s.length) 32) '0' ++ s).length ≠ 0 := by
      rw [List.length_append]
      omega
    refine ⟨_, rfl, ?_⟩
    rw [List.drop_zero, Int.neg_neg, Int.toNat_natCast, htake]
    dsimp only
    rw [if_neg hslr]
    simpa using hshows

/-- The text of a number without its sign, in Go. -/
def pointed (res : List Char) (exponent : ℤ) : List Char :=
  if 0 ≤ exponent then res ++ List.replicate exponent.toNat '0'
  else if (-exponent).toNat < res.length then
    res.take (res.length - (-exponent).toNat) ++ ['.'] ++
      res.drop (res.length - (-exponent).toNat)
  else '.' :: List.replicate ((-exponent).toNat - 1) '0' ++ res

theorem decimalToString_eq : decimalToString mantissa exponent =
    signOf mantissa ++ pointed (signAndMantissa mantissa).2 exponent.toInt := by
  unfold decimalToString signAndMantissa signOf
  by_cases h : mantissa < 0
  · simp only [if_pos h]
    rfl
  · simp only [if_neg h]
    rfl

/-- Between the point and the digits there is one zero less than there are places. -/
theorem decimalToString_shows (h : exponent.toInt < 0) :
    Shows mantissa (decimalToString mantissa exponent)
      (if (-exponent.toInt).toNat < (signAndMantissa mantissa).2.length then
        (-exponent.toInt).toNat
      else (-exponent.toInt).toNat - 1 + (signAndMantissa mantissa).2.length) := by
  generalize hs : (signAndMantissa mantissa).2 = s
  rw [decimalToString_eq, hs, pointed, if_neg (not_le.mpr h)]
  split
  · next hinside =>
    have hshows := shows_split mantissa hs (s.length - (-exponent.toInt).toNat)
    rw [Nat.sub_sub_self hinside.le] at hshows
    simpa using hshows
  · have hshows := shows_zeros mantissa hs 0 ((-exponent.toInt).toNat - 1)
    simpa using hshows

/-- Without a negative exponent zeros are appended, and the smallest mantissa has two minuses. -/
theorem value_decimalToString (h : 0 ≤ exponent.toInt) :
    value (decimalToString mantissa exponent) =
      if mantissa = Int64.minValue then none
      else some (mantissa.toInt * (10 : ℚ) ^ exponent.toInt) := by
  obtain ⟨n, hn⟩ := Int.eq_ofNat_of_zero_le h
  rw [decimalToString_eq, pointed, if_pos h, hn, Int.toNat_natCast]
  split
  · next hm =>
    subst hm
    have hsign : signOf Int64.minValue = ['-'] := rfl
    have hmem : '-' ∈ (signAndMantissa Int64.minValue).2 ++ List.replicate n '0' := by
      rw [signAndMantissa_minValue]
      exact List.mem_append_left _ List.mem_cons_self
    rw [hsign, List.singleton_append, value_minus, unsignedValue_eq_none hmem]
    rfl
  · next hm =>
    rw [signAndMantissa_of_ne hm]
    have hdigits := isDigits_toDigits mantissa.toInt.natAbs
    have hall := hdigits.append (isDigits_zeros n)
    have hne : Nat.toDigits 10 mantissa.toInt.natAbs ++ List.replicate n '0' ≠ [] :=
      fun h => Nat.toDigits_ne_nil (List.append_eq_nil_iff.mp h).1
    apply value_signOf
    · intro h
      exact (hall.ne_of_mem (List.mem_of_head? h)).2 rfl
    · rw [unsignedValue_digits hall hne, digitsValue_append_zeros, digitsValue_toDigits]
      push_cast
      rw [zpow_natCast, mul_comm]

end

/-! ## What the printers denote -/

section
variable (d : Decimal)

/-- `asString` is right where there is no positive exponent and the zeros are enough. -/
theorem asString_iff : d.asString.bind value = some d.toRat ↔
    d.mantissa ≠ Int64.minValue ∧ d.exponent.toInt ≤ 0 ∧
      -d.exponent.toInt ≤ digits d.mantissa + 32 := by
  obtain ⟨mantissa, exponent⟩ := d
  dsimp only
  by_cases hpos : exponent.toInt ≤ 0
  · by_cases hzeros : -exponent.toInt ≤ (signAndMantissa mantissa).2.length + 32
    · obtain ⟨text, htext, hshows⟩ := asString_shows mantissa exponent hpos hzeros
      have hplaces : exponent.toInt = -((-exponent.toInt).toNat : ℤ) := by omega
      have hdenotes := hshows.denotes_iff exponent.toInt
      rw [htext, Option.bind_some, Decimal.toRat, hdenotes]
      constructor
      · rintro ⟨hm, _⟩
        rw [length_signAndMantissa mantissa hm] at hzeros
        exact ⟨hm, hpos, hzeros⟩
      · exact fun h => ⟨h.1, .inr hplaces⟩
    · rw [asString_of_long mantissa exponent (not_le.mp hzeros)]
      refine iff_of_false (Option.some_ne_none _).symm ?_
      rintro ⟨hm, _, h⟩
      rw [length_signAndMantissa mantissa hm] at hzeros
      exact hzeros h
  · rw [asString_of_pos mantissa exponent (not_le.mp hpos)]
    exact iff_of_false (Option.some_ne_none _).symm fun h => hpos h.2.1

theorem digits_zero : digits 0 = 1 := rfl

theorem digits_pos (mantissa : Int64) : 0 < digits mantissa := Nat.length_toDigits_pos

/-- In Go too few digits are right only if there is one. -/
theorem decimalToString_iff :
    value (decimalToString d.mantissa d.exponent) = some d.toRat ↔
      d.mantissa ≠ Int64.minValue ∧ (0 ≤ d.exponent.toInt ∨
        -d.exponent.toInt < digits d.mantissa ∨ digits d.mantissa = 1) := by
  obtain ⟨mantissa, exponent⟩ := d
  dsimp only
  by_cases hpos : 0 ≤ exponent.toInt
  · rw [value_decimalToString mantissa exponent hpos, Decimal.toRat]
    split
    · next hm => exact iff_of_false (Option.some_ne_none _).symm fun h => h.1 hm
    · next hm => exact iff_of_true rfl ⟨hm, .inl hpos⟩
  · have hdenotes := (decimalToString_shows mantissa exponent (not_le.mp hpos)).denotes_iff
      exponent.toInt
    rw [Decimal.toRat, hdenotes]
    refine and_congr_right fun hm => ?_
    have hdigits := digits_pos mantissa
    rw [length_signAndMantissa mantissa hm, or_iff_right hpos]
    constructor
    · rintro (hzero | hplaces)
      · rw [hzero]
        exact .inr digits_zero
      · split at hplaces
        · omega
        · omega
    · intro h
      right
      split
      · omega
      · omega

/-- In C++ too few zeros are right only for zero. -/
theorem exponentAndMantissaToString_iff :
    (exponentAndMantissaToString d.mantissa d.exponent).bind value = some d.toRat ↔
      d.mantissa ≠ Int64.minValue ∧ d.exponent.toInt ≤ 0 ∧
        (d.mantissa = 0 ∨ -d.exponent.toInt ≤ digits d.mantissa + 32) := by
  obtain ⟨mantissa, exponent⟩ := d
  dsimp only
  obtain hneg | hzero | hpos := lt_trichotomy exponent.toInt 0
  · obtain ⟨text, htext, hshows⟩ :=
      exponentAndMantissaToString_shows mantissa exponent hneg
    have hdenotes := hshows.denotes_iff exponent.toInt
    rw [htext, Option.bind_some, Decimal.toRat, hdenotes]
    refine and_congr_right fun hm => ?_
    rw [length_signAndMantissa mantissa hm, and_iff_right hneg.le]
    refine or_congr_right ?_
    omega
  · rw [exponentAndMantissaToString_of_zero mantissa exponent hzero, Option.bind_some]
    have hgo := value_decimalToString mantissa exponent hzero.ge
    have hsame : decimalToString mantissa exponent =
        signOf mantissa ++ (signAndMantissa mantissa).2 := by
      rw [decimalToString_eq, pointed, hzero]
      simp
    rw [← hsame, hgo, Decimal.toRat]
    split
    · next hm => exact iff_of_false (Option.some_ne_none _).symm fun h => h.1 hm
    · next hm => exact iff_of_true rfl ⟨hm, hzero.le, .inr (by omega)⟩
  · rw [exponentAndMantissaToString_of_pos mantissa exponent hpos]
    exact iff_of_false (Option.some_ne_none _).symm fun h => absurd h.2.1 (not_le.mpr hpos)

end

/-- All three printers denote the decimal. -/
def AllDenote (d : Decimal) : Prop :=
  d.asString.bind value = some d.toRat ∧
    value (decimalToString d.mantissa d.exponent) = some d.toRat ∧
    (exponentAndMantissaToString d.mantissa d.exponent).bind value = some d.toRat

/-- The printers agree with the decimal where the point is among its digits or at their end. With
a single digit there may be up to 32 zeros before it. -/
theorem printers_iff (d : Decimal) : AllDenote d ↔
    d.mantissa ≠ Int64.minValue ∧ d.exponent.toInt ≤ 0 ∧
      (-d.exponent.toInt < digits d.mantissa ∨
        digits d.mantissa = 1 ∧ -d.exponent.toInt ≤ 33) := by
  rw [AllDenote, asString_iff, decimalToString_iff, exponentAndMantissaToString_iff]
  have hdigits := digits_pos d.mantissa
  constructor
  · rintro ⟨⟨hm, hpos, hzeros⟩, ⟨_, hgo⟩, _⟩
    refine ⟨hm, hpos, ?_⟩
    omega
  · rintro ⟨hm, hpos, h⟩
    refine ⟨⟨hm, hpos, ?_⟩, ⟨hm, ?_⟩, hm, hpos, .inr ?_⟩
    · omega
    · omega
    · omega

/-- For `12 * 10 ^ (-2)` the text in Go is `.012`. -/
theorem not_allDenote_twelve : ¬AllDenote ⟨12, -2⟩ := by
  intro h
  have hgo := (decimalToString_iff ⟨12, -2⟩).mp h.2.1
  have hdigits : digits 12 = 2 := rfl
  have hexponent : (-2 : Int8).toInt = -2 := rfl
  dsimp only at hgo
  omega

end Veda.Common
