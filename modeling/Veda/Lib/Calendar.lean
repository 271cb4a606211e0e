import Mathlib.Algebra.Ring.Int.Defs
import Mathlib.Algebra.Ring.Nat
import Mathlib.Tactic.Common

/-! # The Gregorian calendar

Dates of the proleptic calendar, with the year 0 before the year 1, and the days counted from the
first of January of the year 1, which is day 1. -/

namespace Veda.Calendar

/-- A leap year. -/
def isLeap (year : ℤ) : Bool := year % 4 = 0 ∧ (year % 100 ≠ 0 ∨ year % 400 = 0)

/-- The length of a month, counted from 1. -/
def daysInMonth (leap : Bool) (month : ℕ) : ℕ :=
  if month = 2 then 28 + leap.toNat
  else if month ∈ [4, 6, 9, 11] then 30
  else 31

/-- The days of a year before a month. -/
def daysBefore (leap : Bool) : ℕ → ℕ
  | 0 => 0
  | 1 => 0
  | month + 2 => daysBefore leap (month + 1) + daysInMonth leap (month + 1)

/-- The days before a year, from the year 1 on. -/
def daysBeforeYear (year : ℤ) : ℤ :=
  365 * (year - 1) + (year - 1) / 4 - (year - 1) / 100 + (year - 1) / 400

structure Date where
  year : ℤ
  month : ℕ
  day : ℕ
  deriving DecidableEq, Repr

/-- There is such a day. -/
structure Date.Valid (d : Date) : Prop where
  month : 1 ≤ d.month ∧ d.month ≤ 12
  day : 1 ≤ d.day ∧ d.day ≤ daysInMonth (isLeap d.year) d.month

/-- The number of a day. -/
def Date.toDays (d : Date) : ℤ :=
  daysBeforeYear d.year + daysBefore (isLeap d.year) d.month + d.day

/-- The month and the day of the month that is `rest` days behind the first of `month`. -/
def place (leap : Bool) : ℕ → ℕ → ℕ → ℕ × ℕ
  | 0, month, rest => (month, rest + 1)
  | months + 1, month, rest =>
    if rest < daysInMonth leap month then (month, rest + 1)
    else place leap months (month + 1) (rest - daysInMonth leap month)

/-- The year of a day that is `n` days behind day 1, and the days of that year before it. -/
def yearOf (n : ℤ) : ℤ × ℕ :=
  let rest := n % 146097
  let century := min (rest / 36524) 3
  let rest := rest - 36524 * century
  let four := rest / 1461
  let rest := rest % 1461
  let one := min (rest / 365) 3
  (400 * (n / 146097) + 100 * century + 4 * four + one + 1, (rest - 365 * one).toNat)

/-- The date of a day. -/
def ofDays (n : ℤ) : Date :=
  let (year, rest) := yearOf (n - 1)
  let (month, day) := place (isLeap year) 11 1 rest
  ⟨year, month, day⟩

theorem daysBefore_succ {leap : Bool} {month : ℕ} (h : 1 ≤ month) :
    daysBefore leap (month + 1) = daysBefore leap month + daysInMonth leap month := by
  obtain ⟨m, rfl⟩ := Nat.exists_eq_add_of_le' h
  rfl

theorem daysBefore_end (leap : Bool) : daysBefore leap 13 = 365 + leap.toNat := by
  cases leap <;> rfl

/-- The place within a year. -/
theorem place_spec {leap : Bool} {months month rest : ℕ} (hmonth : 1 ≤ month)
    (hlast : month + months = 12) (hrest : daysBefore leap month + rest < 365 + leap.toNat) :
    1 ≤ (place leap months month rest).1 ∧ (place leap months month rest).1 ≤ 12 ∧
      1 ≤ (place leap months month rest).2 ∧
      (place leap months month rest).2 ≤ daysInMonth leap (place leap months month rest).1 ∧
      daysBefore leap (place leap months month rest).1 + (place leap months month rest).2 =
        daysBefore leap month + rest + 1 := by
  induction months generalizing month rest with
  | zero =>
    have hend := daysBefore_end leap
    have hsucc : daysBefore leap 13 = daysBefore leap 12 + daysInMonth leap 12 := rfl
    obtain rfl : month = 12 := hlast
    simp only [place]
    omega
  | succ months ih =>
    rw [place]
    split
    · next hlt =>
      simp only
      omega
    · next hge =>
      have hsucc : daysBefore leap (month + 1) =
          daysBefore leap month + daysInMonth leap month := daysBefore_succ hmonth
      have hspec := @ih (month + 1) (rest - daysInMonth leap month) (by omega) (by omega) (by omega)
      omega

/-- The parts of a year, counted from 0. -/
theorem daysBeforeYear_eq {q c f o : ℤ} (hc : 0 ≤ c ∧ c ≤ 3) (hf : 0 ≤ f ∧ f ≤ 24)
    (ho : 0 ≤ o ∧ o ≤ 3) :
    daysBeforeYear (400 * q + 100 * c + 4 * f + o + 1) =
      146097 * q + 36524 * c + 1461 * f + 365 * o := by
  have hfour : (400 * q + 100 * c + 4 * f + o + 1 - 1) / 4 = 100 * q + 25 * c + f := by omega
  have hcentury : (400 * q + 100 * c + 4 * f + o + 1 - 1) / 100 = 4 * q + c := by omega
  have hera : (400 * q + 100 * c + 4 * f + o + 1 - 1) / 400 = q := by omega
  rw [daysBeforeYear, hfour, hcentury, hera]
  omega

theorem isLeap_of_parts {q c f : ℤ} (hc : 0 ≤ c ∧ c ≤ 3) (hf : 0 ≤ f ∧ f ≤ 24)
    (h : f < 24 ∨ c = 3) : isLeap (400 * q + 100 * c + 4 * f + 3 + 1) = true := by
  unfold isLeap
  rw [decide_eq_true_iff]
  constructor
  · omega
  · rcases h with h | h
    · exact .inl (by omega)
    · subst h
      rcases Int.lt_or_le f 24 with hlt | hge
      · exact .inl (by omega)
      · exact .inr (by omega)

/-- The year of a day. -/
theorem yearOf_spec (n : ℤ) :
    daysBeforeYear (yearOf n).1 + (yearOf n).2 = n ∧
      (yearOf n).2 < 365 + (isLeap (yearOf n).1).toNat := by
  obtain ⟨q, hq⟩ : ∃ q, n / 146097 = q := ⟨_, rfl⟩
  obtain ⟨r, hr⟩ : ∃ r, n % 146097 = r := ⟨_, rfl⟩
  obtain ⟨c, hc⟩ : ∃ c, min (r / 36524) 3 = c := ⟨_, rfl⟩
  obtain ⟨s, hs⟩ : ∃ s, r - 36524 * c = s := ⟨_, rfl⟩
  obtain ⟨f, hf⟩ : ∃ f, s / 1461 = f := ⟨_, rfl⟩
  obtain ⟨t, ht⟩ : ∃ t, s % 1461 = t := ⟨_, rfl⟩
  obtain ⟨o, ho⟩ : ∃ o, min (t / 365) 3 = o := ⟨_, rfl⟩
  have hparts : yearOf n = (400 * q + 100 * c + 4 * f + o + 1, (t - 365 * o).toNat) := by
    simp only [yearOf, hq, hr, hc, hs, hf, ht, ho]
  have hc0 : 0 ≤ c ∧ c ≤ 3 ∧ 0 ≤ s ∧ s ≤ 36524 ∧ (s = 36524 → c = 3) := by omega
  have hf0 : s = 1461 * f + t ∧ 0 ≤ t ∧ t < 1461 ∧ 0 ≤ f ∧ f ≤ 24 := by omega
  have ho0 : 0 ≤ o ∧ o ≤ 3 ∧ 0 ≤ t - 365 * o ∧ t - 365 * o ≤ 365 ∧
      (t - 365 * o = 365 → o = 3) := by omega
  have hyear := @daysBeforeYear_eq q c f o ⟨hc0.1, hc0.2.1⟩ hf0.2.2.2 ⟨ho0.1, ho0.2.1⟩
  have hnat : ((t - 365 * o).toNat : ℤ) = t - 365 * o := Int.toNat_of_nonneg ho0.2.2.1
  rw [hparts]
  refine ⟨by simp only [hyear, hnat]; omega, ?_⟩
  by_cases hlast : t - 365 * o = 365
  · obtain rfl : o = 3 := ho0.2.2.2.2 hlast
    have hleap := @isLeap_of_parts q c f ⟨hc0.1, hc0.2.1⟩ hf0.2.2.2 (by omega)
    simp only [hleap, Bool.toNat_true]
    omega
  · refine Nat.lt_of_lt_of_le (m := 365) ?_ (Nat.le_add_right _ _)
    simp only
    omega

theorem ofDays_eq (n : ℤ) : ofDays n =
    ⟨(yearOf (n - 1)).1, (place (isLeap (yearOf (n - 1)).1) 11 1 (yearOf (n - 1)).2).1,
      (place (isLeap (yearOf (n - 1)).1) 11 1 (yearOf (n - 1)).2).2⟩ := rfl

theorem place_yearOf (n : ℤ) :
    let date := ofDays n
    1 ≤ date.month ∧ date.month ≤ 12 ∧ 1 ≤ date.day ∧
      date.day ≤ daysInMonth (isLeap date.year) date.month ∧
      daysBefore (isLeap date.year) date.month + date.day = (yearOf (n - 1)).2 + 1 := by
  have hrest := (yearOf_spec (n - 1)).2
  have hspec := @place_spec (isLeap (yearOf (n - 1)).1) 11 1 (yearOf (n - 1)).2 (Nat.le_refl 1) rfl
    (by rwa [daysBefore, Nat.zero_add])
  rw [daysBefore, Nat.zero_add] at hspec
  exact hspec

theorem ofDays_valid (n : ℤ) : (ofDays n).Valid := by
  obtain ⟨hmonth, hmonth', hday, hday', -⟩ := place_yearOf n
  exact ⟨⟨hmonth, hmonth'⟩, hday, hday'⟩

/-- The date of a day is the date of no other day. -/
theorem toDays_ofDays (n : ℤ) : (ofDays n).toDays = n := by
  have hyear := (yearOf_spec (n - 1)).1
  obtain ⟨-, -, -, -, hplace⟩ := place_yearOf n
  have hof : (yearOf (n - 1)).1 = (ofDays n).year := rfl
  rw [hof] at hyear
  rw [Date.toDays]
  omega

/-- A year has 365 days, and one more if it is a leap year. -/
theorem daysBeforeYear_succ (year : ℤ) :
    daysBeforeYear (year + 1) = daysBeforeYear year + 365 + (isLeap year).toNat := by
  unfold daysBeforeYear
  by_cases h : year % 4 = 0 ∧ (year % 100 ≠ 0 ∨ year % 400 = 0)
  · have hleap : isLeap year = true := decide_eq_true h
    rw [hleap, Bool.toNat_true]
    omega
  · have hleap : isLeap year = false := decide_eq_false h
    rw [hleap, Bool.toNat_false]
    omega

theorem daysBeforeYear_mono {year later : ℤ} (h : year ≤ later) :
    daysBeforeYear year ≤ daysBeforeYear later := by
  unfold daysBeforeYear
  omega

/-- The days from the year 0 on. -/
theorem year_nonneg_iff (n : ℤ) : 0 ≤ (ofDays n).year ↔ -365 ≤ n := by
  obtain ⟨hyear, hrest⟩ := yearOf_spec (n - 1)
  have hof : (ofDays n).year = (yearOf (n - 1)).1 := rfl
  have hzero : daysBeforeYear 0 = -366 := rfl
  have hsucc := daysBeforeYear_succ (yearOf (n - 1)).1
  rw [hof]
  constructor
  · intro h
    have hmono := daysBeforeYear_mono h
    omega
  · intro h
    by_contra hneg
    have hmono := daysBeforeYear_mono (Int.add_one_le_of_lt (Int.not_le.mp hneg))
    omega

end Veda.Calendar
