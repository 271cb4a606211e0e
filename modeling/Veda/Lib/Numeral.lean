import Mathlib

/-! # Decimal numerals

A numeral is a row of decimal digits with a point somewhere in it or none, behind a minus or none.
`value` gives the rational number that a text denotes, and `none` for a text that is no numeral. -/

namespace Veda.Numeral

/-- The number that a row of digits denotes. -/
def digitsValue (digits : List Char) : ℕ := Nat.ofDigitChars 10 digits 0

/-- A numeral without a sign. The digits behind the first point are the fraction. -/
def unsignedValue (text : List Char) : Option ℚ :=
  let whole := text.takeWhile (· ≠ '.')
  let fraction := (text.dropWhile (· ≠ '.')).drop 1
  if (∀ c ∈ whole ++ fraction, c.isDigit = true) ∧ whole ++ fraction ≠ [] then
    some ((digitsValue (whole ++ fraction) : ℚ) / 10 ^ fraction.length)
  else none

/-- A numeral. -/
def value : List Char → Option ℚ
  | '-' :: text => (unsignedValue text).map Neg.neg
  | text => unsignedValue text

/-- All characters are digits. -/
def IsDigits (text : List Char) : Prop := ∀ c ∈ text, c.isDigit = true

theorem IsDigits.append (h : IsDigits xs) (h' : IsDigits ys) : IsDigits (xs ++ ys) := by
  intro c hc
  obtain hc | hc := List.mem_append.mp hc
  · exact h c hc
  · exact h' c hc

theorem IsDigits.take (h : IsDigits xs) (n : ℕ) : IsDigits (xs.take n) :=
  fun c hc => h c (List.mem_of_mem_take hc)

theorem IsDigits.drop (h : IsDigits xs) (n : ℕ) : IsDigits (xs.drop n) :=
  fun c hc => h c (List.mem_of_mem_drop hc)

theorem isDigits_zeros (n : ℕ) : IsDigits (List.replicate n '0') := by
  intro c hc
  rw [List.eq_of_mem_replicate hc]
  rfl

theorem isDigits_toDigits (n : ℕ) : IsDigits (Nat.toDigits 10 n) :=
  fun _ hc => Nat.isDigit_of_mem_toDigits (by decide) (by decide) hc

/-- A digit is neither the point nor the minus. -/
theorem IsDigits.ne_of_mem (h : IsDigits text) (hc : c ∈ text) : c ≠ '.' ∧ c ≠ '-' := by
  have hdigit := h c hc
  constructor
  · rintro rfl
    exact Bool.noConfusion hdigit
  · rintro rfl
    exact Bool.noConfusion hdigit

theorem IsDigits.takeWhile_eq (h : IsDigits text) (rest : List Char) :
    (text ++ '.' :: rest).takeWhile (· ≠ '.') = text ∧
      (text ++ '.' :: rest).dropWhile (· ≠ '.') = '.' :: rest := by
  have hall : ∀ c ∈ text, decide (c ≠ '.') = true :=
    fun c hc => decide_eq_true (h.ne_of_mem hc).1
  rw [List.takeWhile_append_of_pos hall, List.dropWhile_append_of_pos hall]
  simp

/-- A numeral with a point. -/
theorem unsignedValue_point (hwhole : IsDigits whole) (hfraction : IsDigits fraction)
    (hne : whole ++ fraction ≠ []) :
    unsignedValue (whole ++ '.' :: fraction) =
      some ((digitsValue (whole ++ fraction) : ℚ) / 10 ^ fraction.length) := by
  obtain ⟨htake, hdrop⟩ := hwhole.takeWhile_eq fraction
  have hdigits := hwhole.append hfraction
  simp only [unsignedValue, htake, hdrop, List.drop_one, List.tail_cons]
  rw [if_pos ⟨hdigits, hne⟩]

/-- A numeral without a point. -/
theorem unsignedValue_digits (h : IsDigits text) (hne : text ≠ []) :
    unsignedValue text = some (digitsValue text : ℚ) := by
  have hall : ∀ c ∈ text, decide (c ≠ '.') = true :=
    fun c hc => decide_eq_true (h.ne_of_mem hc).1
  have htake : text.takeWhile (· ≠ '.') = text := List.takeWhile_eq_self_iff.mpr hall
  have hdrop : text.dropWhile (· ≠ '.') = [] := List.dropWhile_eq_nil_iff.mpr hall
  simp only [unsignedValue, htake, hdrop, List.drop_nil, List.append_nil, List.length_nil]
  rw [if_pos ⟨h, hne⟩, pow_zero, div_one]

/-- A minus has no place in a numeral without a sign. -/
theorem unsignedValue_eq_none (h : '-' ∈ text) : unsignedValue text = none := by
  unfold unsignedValue
  refine if_neg ?_
  intro hall
  have hmem : '-' ∈ text.takeWhile (· ≠ '.') ++ (text.dropWhile (· ≠ '.')).drop 1 := by
    rw [← List.takeWhile_append_dropWhile (p := fun c => decide (c ≠ '.')) (l := text)] at h
    obtain h | h := List.mem_append.mp h
    · exact List.mem_append_left _ h
    · refine List.mem_append_right _ ?_
      cases hrest : text.dropWhile (· ≠ '.') with
      | nil =>
        rw [hrest] at h
        exact absurd h List.not_mem_nil
      | cons c rest =>
        have hpoint : c = '.' := by
          have hhead := List.head?_dropWhile_not (fun c : Char => decide (c ≠ '.')) text
          rw [hrest] at hhead
          simpa using hhead
        rw [hrest, hpoint] at h
        exact (List.mem_cons.mp h).resolve_left (by decide)
  exact Bool.noConfusion (hall.1 '-' hmem)

theorem value_minus (text : List Char) :
    value ('-' :: text) = (unsignedValue text).map Neg.neg := rfl

theorem value_of_head (h : text.head? ≠ some '-') : value text = unsignedValue text := by
  unfold value
  split
  · exact absurd rfl h
  · rfl

/-! ## Digits of numbers -/

theorem digitsValue_toDigits (n : ℕ) : digitsValue (Nat.toDigits 10 n) = n :=
  Nat.ofDigitChars_ten_toDigits

theorem digitsValue_zeros_append (n : ℕ) (digits : List Char) :
    digitsValue (List.replicate n '0' ++ digits) = digitsValue digits := by
  rw [digitsValue, digitsValue, Nat.ofDigitChars_append, Nat.ofDigitChars_replicate_zero,
    Nat.mul_zero]

theorem digitsValue_append_zeros (n : ℕ) (digits : List Char) :
    digitsValue (digits ++ List.replicate n '0') = 10 ^ n * digitsValue digits := by
  rw [digitsValue, Nat.ofDigitChars_append, Nat.ofDigitChars_replicate_zero]
  rfl

end Veda.Numeral
