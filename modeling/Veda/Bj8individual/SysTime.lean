import Mathlib.Data.List.TakeWhile
import Veda.Bj8individual.JsonIndividual
import Veda.Lib.Calendar

/-! # Times as texts

What `individual8json.d` uses of `std.datetime`: the standard time, which counts from the first of
January of the year 1 in units of 100 ns, the unix time in seconds, and the text of a time in UTC.
What is read from a text of any other form than those that are written here is left open. -/

namespace Veda.Bj8individual.SysTime

open Calendar (Date ofDays isLeap daysInMonth)
open Json (digits)

/-- The standard time of the start of the unix time. -/
def unixStart : ℤ := 621355968000000000

/-- `unixTimeToStdTime`. -/
def unixTimeToStdTime (unixTime : BitVec 64) : BitVec 64 :=
  BitVec.ofInt 64 unixStart + unixTime * 10000000

/-- `stdTimeToUnixTime`. -/
def stdTimeToUnixTime (stdTime : BitVec 64) : BitVec 64 :=
  (stdTime - BitVec.ofInt 64 unixStart).sdiv 10000000

/-- The units of a day. -/
def unitsPerDay : ℤ := 864000000000

/-- The last `k` decimal digits of a number. -/
def padded : ℕ → ℕ → Text
  | 0, _ => []
  | k + 1, n => padded k (n / 10) ++ [BitVec.ofNat 8 (48 + n % 10)]

/-- The year in a text. -/
def yearText (year : ℤ) : Text :=
  let n := year.natAbs
  if 0 ≤ year then
    if n < 10000 then padded 4 n else 43 :: padded 5 n
  else
    if n < 10000 then 45 :: padded 4 n else 45 :: padded 5 n

/-- `Date.toISOExtString`. -/
def dateText (date : Date) : Text :=
  yearText date.year ++ 45 :: (padded 2 date.month ++ 45 :: padded 2 date.day)

/-- `TimeOfDay.toISOExtString`. -/
def timeText (seconds : ℕ) : Text :=
  padded 2 (seconds / 3600) ++ 58 :: (padded 2 (seconds / 60 % 60) ++ 58 :: padded 2 (seconds % 60))

/-- `fracSecsToISOString`. -/
def fracSecsText (units : ℕ) : Text :=
  if units = 0 then [] else 46 :: ((padded 7 units).reverse.dropWhile (· = 48)).reverse

/-- `SysTime(stdTime, UTC()).toISOExtString()`. -/
def toISOExtString (stdTime : BitVec 64) : Text :=
  let units := (stdTime.toInt % unitsPerDay).toNat
  dateText (ofDays (stdTime.toInt / unitsPerDay + 1)) ++
    84 :: (timeText (units / 10000000) ++ fracSecsText (units % 10000000) ++ [90])

/-! ## Reading -/

instance (date : Date) : Decidable date.Valid :=
  decidable_of_iff
    ((1 ≤ date.month ∧ date.month ≤ 12) ∧
      1 ≤ date.day ∧ date.day ≤ daysInMonth (isLeap date.year) date.month)
    ⟨fun h => ⟨h.1, h.2⟩, fun h => ⟨h.1, h.2⟩⟩

/-- The year of a text, which has a sign if it has more than four characters. It is a `short`. -/
def readYear (year : Text) : Option ℤ := do
  let n ← if year.length ≤ 4 then (digits year).map Nat.cast
    else if year.head? = some 43 then (digits year.tail).map Nat.cast
    else if year.head? = some 45 then (digits year.tail).map fun n => -(n : ℤ)
    else none
  if -32768 ≤ n ∧ n ≤ 32767 then some n else none

/-- `Date.fromISOExtString`. -/
def readDate (s : Text) : Option Date :=
  match s.reverse with
  | d₀ :: d₁ :: dash :: m₀ :: m₁ :: dash' :: year =>
    if 4 ≤ year.length ∧ dash = 45 ∧ dash' = 45 then do
      let year ← readYear year.reverse
      let month ← digits [m₁, m₀]
      let day ← digits [d₁, d₀]
      if Date.Valid ⟨year, month, day⟩ then some ⟨year, month, day⟩ else none
    else none
  | _ => none

/-- `TimeOfDay.fromISOExtString`, in seconds. -/
def readTime (s : Text) : Option ℕ :=
  match s with
  | [h₁, h₀, colon, m₁, m₀, colon', s₁, s₀] =>
    if colon = 58 ∧ colon' = 58 then do
      let hour ← digits [h₁, h₀]
      let minute ← digits [m₁, m₀]
      let second ← digits [s₁, s₀]
      if hour < 24 ∧ minute < 60 ∧ second < 60 then
        some (hour * 3600 + minute * 60 + second)
      else none
    else none
  | _ => none

/-- `fracSecsFromISOString`. -/
def readFracSecs (s : Text) : Option ℕ :=
  match s with
  | [] => some 0
  | point :: fraction =>
    if point = 46 ∧ fraction ≠ [] ∧ fraction.length ≤ 7 then
      digits (fraction ++ List.replicate (7 - fraction.length) 48)
    else none

/-- The standard time of a text in UTC. -/
def readUTC (val : Text) : Option (BitVec 64) :=
  let date := val.takeWhile (· ≠ 84)
  match val.dropWhile (· ≠ 84) with
  | [] => none
  | _ :: rest =>
    if rest.getLast? = some 90 then do
      let rest := rest.dropLast
      let date ← readDate date
      let seconds ← readTime (rest.takeWhile (· ≠ 46))
      let units ← readFracSecs (rest.dropWhile (· ≠ 46))
      some (BitVec.ofInt 64 ((date.toDays - 1) * unitsPerDay + seconds * 10000000 + units))
    else none

/-- `SysTime.fromISOExtString(val).stdTime()`. -/
def fromISOExtString (other : Text → Option (BitVec 64)) (val : Text) : Option (BitVec 64) :=
  (readUTC val).or (other val)

/-! ## What is written is read -/

theorem length_padded (k n : ℕ) : (padded k n).length = k := by
  induction k generalizing n with
  | zero => rfl
  | succ k ih => rw [padded, List.length_append, ih, List.length_singleton]

theorem toNat_digit {n : ℕ} (h : n < 10) : (BitVec.ofNat 8 (48 + n)).toNat = 48 + n := by
  rw [BitVec.toNat_ofNat]
  exact Nat.mod_eq_of_lt (by omega)

/-- All bytes are digits. -/
theorem digit_of_mem_padded {k n : ℕ} {b : Byte} (h : b ∈ padded k n) :
    48 ≤ b.toNat ∧ b.toNat ≤ 57 := by
  induction k generalizing n with
  | zero => cases h
  | succ k ih =>
    rcases List.mem_append.mp h with h | h
    · exact ih h
    · have hlt : n % 10 < 10 := Nat.mod_lt n (by decide)
      rw [List.mem_singleton.mp h, toNat_digit hlt]
      omega

theorem notMem_padded {b : Byte} (hb : ¬(48 ≤ b.toNat ∧ b.toNat ≤ 57)) (k n : ℕ) :
    b ∉ padded k n := fun h => hb (digit_of_mem_padded h)

theorem digits_padded {k n : ℕ} (h : n < 10 ^ k) : digits (padded k n) = some n := by
  induction k generalizing n with
  | zero =>
    rw [Nat.lt_one_iff.mp h]
    rfl
  | succ k ih =>
    have hdiv : n / 10 < 10 ^ k := by rw [Nat.pow_succ] at h; omega
    have ih := ih hdiv
    have hlt : n % 10 < 10 := Nat.mod_lt n (by decide)
    unfold digits at ih ⊢
    rw [padded, List.foldlM_append, ih]
    simp only [List.foldlM_cons, List.foldlM_nil, toNat_digit hlt, Option.bind_eq_bind,
      Option.bind_some]
    rw [if_pos (by omega)]
    simp only [Option.bind_some, Option.pure_def, Option.some_inj]
    omega

/-- Two digits. -/
theorem exists_padded_two (n : ℕ) : ∃ a b, padded 2 n = [a, b] := ⟨_, _, rfl⟩

theorem readYear_yearText {year : ℤ} (h : 0 ≤ year) (h' : year < 32768) :
    readYear (yearText year) = some year := by
  obtain ⟨n, rfl⟩ := Int.eq_ofNat_of_zero_le h
  have hbound : n < 32768 := by omega
  have hshort : -32768 ≤ (n : ℤ) ∧ (n : ℤ) ≤ 32767 := by omega
  unfold yearText readYear
  simp only [h, if_true, Int.natAbs_natCast]
  by_cases hfour : n < 10000
  · have hlen : (padded 4 n).length ≤ 4 := Nat.le_of_eq (length_padded 4 n)
    rw [if_pos hfour, if_pos hlen, digits_padded (by omega)]
    exact if_pos hshort
  · have hlen : ¬(43 :: padded 5 n).length ≤ 4 := by
      rw [List.length_cons, length_padded]
      decide
    rw [if_neg hfour, if_neg hlen, if_pos List.head?_cons, List.tail_cons,
      digits_padded (by omega)]
    exact if_pos hshort

theorem length_yearText (year : ℤ) : 4 ≤ (yearText year).length := by
  unfold yearText
  simp only
  split
  · split
    · rw [length_padded]
    · rw [List.length_cons, length_padded]
      decide
  · split
    · rw [List.length_cons, length_padded]
      decide
    · rw [List.length_cons, length_padded]
      decide

theorem readDate_dateText {date : Date} (hvalid : date.Valid) (h : 0 ≤ date.year)
    (h' : date.year < 32768) : readDate (dateText date) = some date := by
  have hmonth : date.month < 10 ^ 2 := by have := hvalid.month; omega
  have hday : date.day < 10 ^ 2 := by
    have := hvalid.day
    have hlen : daysInMonth (isLeap date.year) date.month ≤ 31 := by
      unfold daysInMonth
      have := (isLeap date.year).toNat_le
      split
      · omega
      · split <;> omega
    omega
  obtain ⟨m₁, m₀, hm⟩ := exists_padded_two date.month
  obtain ⟨d₁, d₀, hd⟩ := exists_padded_two date.day
  have hreverse : (dateText date).reverse =
      d₀ :: d₁ :: 45 :: m₀ :: m₁ :: 45 :: (yearText date.year).reverse := by
    rw [dateText, hm, hd]
    simp
  have hlen : 4 ≤ (yearText date.year).reverse.length := by
    rw [List.length_reverse]
    exact length_yearText _
  unfold readDate
  rw [hreverse]
  simp only [hlen, and_self, if_true, List.reverse_reverse, readYear_yearText h h', ← hm, ← hd,
    digits_padded hmonth, digits_padded hday, Option.bind_eq_bind, Option.bind_some]
  exact if_pos hvalid

theorem readTime_timeText {seconds : ℕ} (h : seconds < 86400) :
    readTime (timeText seconds) = some seconds := by
  obtain ⟨h₁, h₀, hh⟩ := exists_padded_two (seconds / 3600)
  obtain ⟨m₁, m₀, hm⟩ := exists_padded_two (seconds / 60 % 60)
  obtain ⟨s₁, s₀, hs⟩ := exists_padded_two (seconds % 60)
  have htext : timeText seconds = [h₁, h₀, 58, m₁, m₀, 58, s₁, s₀] := by
    rw [timeText, hh, hm, hs]
    rfl
  have hranges : seconds / 3600 < 24 ∧ seconds / 60 % 60 < 60 ∧ seconds % 60 < 60 := by omega
  rw [htext, readTime]
  simp only [and_self, if_true, ← hh, ← hm, ← hs,
    digits_padded (show seconds / 3600 < 10 ^ 2 by omega),
    digits_padded (show seconds / 60 % 60 < 10 ^ 2 by omega),
    digits_padded (show seconds % 60 < 10 ^ 2 by omega), Option.bind_eq_bind, Option.bind_some]
  rw [if_pos hranges, Option.some_inj]
  omega

theorem takeWhile_ne_append {b : Byte} {before : Text} (h : b ∉ before) (rest : Text) :
    (before ++ b :: rest).takeWhile (· ≠ b) = before ∧
      (before ++ b :: rest).dropWhile (· ≠ b) = b :: rest := by
  have hall : ∀ c ∈ before, decide (c ≠ b) = true := fun c hc =>
    decide_eq_true fun heq => h (heq ▸ hc)
  rw [List.takeWhile_append_of_pos hall, List.dropWhile_append_of_pos hall]
  simp

theorem mem_yearText {b : Byte} {year : ℤ} (h : b ∈ yearText year) :
    (48 ≤ b.toNat ∧ b.toNat ≤ 57) ∨ b = 43 ∨ b = 45 := by
  unfold yearText at h
  simp only at h
  split at h
  · split at h
    · exact .inl (digit_of_mem_padded h)
    · rcases List.mem_cons.mp h with h | h
      · exact .inr (.inl h)
      · exact .inl (digit_of_mem_padded h)
  · split at h
    all_goals
      rcases List.mem_cons.mp h with h | h
      · exact .inr (.inr h)
      · exact .inl (digit_of_mem_padded h)

/-- There is no `T` in a date. -/
theorem notMem_dateText (date : Date) : 84 ∉ dateText date := by
  have hdigit : ¬(48 ≤ (84 : Byte).toNat ∧ (84 : Byte).toNat ≤ 57) := by decide
  intro h
  rcases List.mem_append.mp h with h | h
  · rcases mem_yearText h with h | h | h
    · exact hdigit h
    · exact absurd h (by decide)
    · exact absurd h (by decide)
  rcases List.mem_cons.mp h with h | h
  · exact absurd h (by decide)
  rcases List.mem_append.mp h with h | h
  · exact hdigit (digit_of_mem_padded h)
  rcases List.mem_cons.mp h with h | h
  · exact absurd h (by decide)
  · exact hdigit (digit_of_mem_padded h)

/-- There is no point in a time of a day. -/
theorem notMem_timeText (seconds : ℕ) : 46 ∉ timeText seconds := by
  have hdigit : ¬(48 ≤ (46 : Byte).toNat ∧ (46 : Byte).toNat ≤ 57) := by decide
  intro h
  rcases List.mem_append.mp h with h | h
  · exact hdigit (digit_of_mem_padded h)
  rcases List.mem_cons.mp h with h | h
  · exact absurd h (by decide)
  rcases List.mem_append.mp h with h | h
  · exact hdigit (digit_of_mem_padded h)
  rcases List.mem_cons.mp h with h | h
  · exact absurd h (by decide)
  · exact hdigit (digit_of_mem_padded h)

/-- The year of a standard time is a `short`. -/
theorem year_lt (stdTime : BitVec 64) :
    (ofDays (stdTime.toInt / unitsPerDay + 1)).year < 32768 := by
  have hlt : stdTime.toInt < 2 ^ 63 := BitVec.toInt_lt
  have hdays := Calendar.toDays_ofDays (stdTime.toInt / unitsPerDay + 1)
  obtain ⟨-, hday⟩ := Calendar.ofDays_valid (stdTime.toInt / unitsPerDay + 1)
  generalize ofDays (stdTime.toInt / unitsPerDay + 1) = date at *
  unfold Date.toDays unitsPerDay at hdays
  by_contra hge
  have hmono := Calendar.daysBeforeYear_mono (Int.not_lt.mp hge)
  have hbig : Calendar.daysBeforeYear 32768 = 11967900 := by decide
  omega

/-- The text of a time without a fraction, from the year 0 on. -/
theorem readUTC_toISOExtString {stdTime : BitVec 64} (hwhole : stdTime.toInt % 10000000 = 0)
    (hyear : 0 ≤ (ofDays (stdTime.toInt / unitsPerDay + 1)).year) :
    readUTC (toISOExtString stdTime) = some stdTime := by
  have hunits : 0 ≤ stdTime.toInt % unitsPerDay ∧ stdTime.toInt % unitsPerDay < unitsPerDay :=
    ⟨Int.emod_nonneg _ (by decide), Int.emod_lt_of_pos _ (by decide)⟩
  obtain ⟨units, hnat⟩ := Int.eq_ofNat_of_zero_le hunits.1
  have hfraction : units % 10000000 = 0 := by
    unfold unitsPerDay at hnat
    omega
  have hseconds : units / 10000000 < 86400 := by
    unfold unitsPerDay at hunits hnat
    omega
  have htext : toISOExtString stdTime =
      dateText (ofDays (stdTime.toInt / unitsPerDay + 1)) ++
        84 :: (timeText (units / 10000000) ++ [90]) := by
    unfold toISOExtString
    simp only [hnat, Int.toNat_natCast, hfraction, fracSecsText, if_true, List.append_nil]
  obtain ⟨htake, hdrop⟩ := takeWhile_ne_append
    (notMem_dateText (ofDays (stdTime.toInt / unitsPerDay + 1)))
    (timeText (units / 10000000) ++ [90])
  have hpoint : ∀ c ∈ timeText (units / 10000000), decide (c ≠ 46) = true := fun c hc =>
    decide_eq_true fun heq => notMem_timeText _ (heq ▸ hc)
  have hall : (timeText (units / 10000000)).takeWhile (· ≠ 46) = timeText (units / 10000000) :=
    List.takeWhile_eq_self_iff.mpr hpoint
  have hnone : (timeText (units / 10000000)).dropWhile (· ≠ 46) = [] :=
    List.dropWhile_eq_nil_iff.mpr hpoint
  have hlast : (timeText (units / 10000000) ++ [90]).getLast? = some 90 := List.getLast?_concat
  have hvalid := Calendar.ofDays_valid (stdTime.toInt / unitsPerDay + 1)
  unfold readUTC
  rw [htext]
  simp only [htake, hdrop, hlast, if_true, List.dropLast_concat, hall, hnone,
    readDate_dateText hvalid hyear (year_lt stdTime), readTime_timeText hseconds, readFracSecs,
    Option.bind_eq_bind, Option.bind_some, Calendar.toDays_ofDays, Option.some_inj]
  have hsum : (stdTime.toInt / unitsPerDay + 1 - 1) * unitsPerDay +
      ((units / 10000000 : ℕ) : ℤ) * 10000000 + ((0 : ℕ) : ℤ) = stdTime.toInt := by
    unfold unitsPerDay at hnat ⊢
    omega
  rw [hsum, BitVec.ofInt_toInt]

/-- The text of a time before the year 0 begins with a minus. -/
theorem toISOExtString_of_neg {stdTime : BitVec 64}
    (h : (ofDays (stdTime.toInt / unitsPerDay + 1)).year < 0) :
    ∃ rest, toISOExtString stdTime = 45 :: rest ∧ 45 ∈ rest := by
  unfold toISOExtString
  generalize ofDays (stdTime.toInt / unitsPerDay + 1) = date at h
  have hyear : ∃ n, yearText date.year = 45 :: n := by
    unfold yearText
    simp only [if_neg (Int.not_le.mpr h)]
    split
    · exact ⟨_, rfl⟩
    · exact ⟨_, rfl⟩
  obtain ⟨n, hn⟩ := hyear
  simp only [dateText, hn, List.cons_append, List.append_assoc]
  exact ⟨_, rfl, List.mem_append_right _ List.mem_cons_self⟩

/-- The text of a later time has a minus only further behind. -/
theorem toISOExtString_of_nonneg {stdTime : BitVec 64}
    (h : 0 ≤ (ofDays (stdTime.toInt / unitsPerDay + 1)).year) :
    0 < (toISOExtString stdTime).idxOf 45 ∧ 45 ∈ toISOExtString stdTime := by
  unfold toISOExtString
  generalize ofDays (stdTime.toInt / unitsPerDay + 1) = date at h
  have hdigit : ¬(48 ≤ (45 : Byte).toNat ∧ (45 : Byte).toNat ≤ 57) := by decide
  have hyear : 45 ∉ yearText date.year := by
    unfold yearText
    simp only [if_pos h]
    split
    · exact notMem_padded hdigit _ _
    · intro hmem
      rcases List.mem_cons.mp hmem with hmem | hmem
      · exact absurd hmem (by decide)
      · exact notMem_padded hdigit _ _ hmem
  have hlen := length_yearText date.year
  simp only [dateText, List.append_assoc]
  constructor
  · rw [List.idxOf_append_of_notMem hyear]
    omega
  · exact List.mem_append_right _ List.mem_cons_self

/-! ## Times that are written and read -/

/-- The unix times from the year 0 on that have a standard time. -/
def InRange (unixTime : BitVec 64) : Prop :=
  -62167219200 ≤ unixTime.toInt ∧ unixTime.toInt ≤ 860201606885

instance (unixTime : BitVec 64) : Decidable (InRange unixTime) :=
  inferInstanceAs (Decidable (_ ∧ _))

theorem unixTimeToStdTime_eq (unixTime : BitVec 64) :
    unixTimeToStdTime unixTime = BitVec.ofInt 64 (unixStart + unixTime.toInt * 10000000) := by
  rw [BitVec.ofInt_add, BitVec.ofInt_mul, BitVec.ofInt_toInt]
  rfl

theorem toInt_unixTimeToStdTime (unixTime : BitVec 64) :
    (unixTimeToStdTime unixTime).toInt =
      (unixStart + unixTime.toInt * 10000000).bmod (2 ^ 64) := by
  rw [unixTimeToStdTime_eq, BitVec.toInt_ofInt]

theorem toInt_stdTimeToUnixTime (stdTime : BitVec 64) :
    (stdTimeToUnixTime stdTime).toInt =
      (stdTime - BitVec.ofInt 64 unixStart).toInt.tdiv 10000000 :=
  BitVec.toInt_sdiv_of_ne_or_ne _ _ (.inr (by decide))

/-- A time whose units do not overflow comes back from its standard time. -/
theorem stdTimeToUnixTime_unixTimeToStdTime {unixTime : BitVec 64}
    (h : -2 ^ 63 ≤ unixTime.toInt * 10000000) (h' : unixTime.toInt * 10000000 < 2 ^ 63) :
    stdTimeToUnixTime (unixTimeToStdTime unixTime) = unixTime := by
  have hunits : unixTimeToStdTime unixTime - BitVec.ofInt 64 unixStart =
      BitVec.ofInt 64 (unixTime.toInt * 10000000) := by
    rw [unixTimeToStdTime_eq, BitVec.ofInt_add, BitVec.add_comm, BitVec.add_sub_cancel]
  apply BitVec.eq_of_toInt_eq
  rw [toInt_stdTimeToUnixTime, hunits, BitVec.toInt_ofInt, Int.bmod_eq_of_le h h',
    Int.mul_tdiv_cancel _ (by decide)]

/-- A larger time does not come back. -/
theorem stdTimeToUnixTime_ne {unixTime : BitVec 64}
    (h : ¬(-2 ^ 63 ≤ unixTime.toInt * 10000000 ∧ unixTime.toInt * 10000000 < 2 ^ 63))
    (stdTime : BitVec 64) : stdTimeToUnixTime stdTime ≠ unixTime := by
  rintro rfl
  apply h
  rw [toInt_stdTimeToUnixTime]
  have hle : -2 ^ 63 ≤ (stdTime - BitVec.ofInt 64 unixStart).toInt := BitVec.le_toInt _
  have hlt : (stdTime - BitVec.ofInt 64 unixStart).toInt < 2 ^ 63 := BitVec.toInt_lt
  generalize (stdTime - BitVec.ofInt 64 unixStart).toInt = units at *
  have hsign : Int.sign 10000000 = 1 := rfl
  rw [Int.tdiv_eq_ediv, hsign]
  split
  · omega
  · omega

theorem digits_eq_none {s : Text} {b : Byte} (hmem : b ∈ s)
    (hb : ¬(48 ≤ b.toNat ∧ b.toNat ≤ 57)) : digits s = none := by
  have hfold (v : ℕ) : s.foldlM (fun v c =>
      if 48 ≤ c.toNat ∧ c.toNat ≤ 57 then some (v * 10 + (c.toNat - 48)) else none) v = none := by
    induction s generalizing v with
    | nil => cases hmem
    | cons c s ih =>
      rw [List.foldlM_cons]
      rcases List.mem_cons.mp hmem with rfl | hmem
      · rw [if_neg hb]
        rfl
      · split
        · exact ih hmem _
        · rfl
  exact hfold 0

/-- A second minus is no number. -/
theorem toLong_minus {rest : Text} (h : 45 ∈ rest) :
    Json.toLong (45 :: rest) = .error .exception := by
  have hdigits : digits rest = none := digits_eq_none h (by decide)
  unfold Json.toLong
  simp only [List.head?_cons, true_or, if_true, List.tail_cons, hdigits]

/-- A standard time of a unix time that does not overflow. -/
theorem toInt_of_inRange {unixTime : BitVec 64} (h : -2 ^ 63 ≤ unixTime.toInt * 10000000)
    (h' : unixTime.toInt ≤ 860201606885) :
    (unixTimeToStdTime unixTime).toInt = unixStart + unixTime.toInt * 10000000 := by
  rw [toInt_unixTimeToStdTime, Int.bmod_eq_of_le]
  · unfold unixStart
    omega
  · unfold unixStart
    omega

/-- Behind the last standard time the years are negative. -/
theorem toInt_of_large {unixTime : BitVec 64} (h : 860201606885 < unixTime.toInt)
    (h' : unixTime.toInt * 10000000 < 2 ^ 63) :
    (unixTimeToStdTime unixTime).toInt = unixStart + unixTime.toInt * 10000000 - 2 ^ 64 := by
  have hwrap := Int.sub_bmod_right (unixStart + unixTime.toInt * 10000000) (2 ^ 64)
  rw [toInt_unixTimeToStdTime, ← hwrap, Int.bmod_eq_of_le]
  · rfl
  · unfold unixStart
    omega
  · unfold unixStart
    omega

/-- The years from 0 on, of times that do not overflow. -/
theorem year_nonneg_iff_inRange {unixTime : BitVec 64}
    (h : -2 ^ 63 ≤ unixTime.toInt * 10000000) (h' : unixTime.toInt * 10000000 < 2 ^ 63) :
    0 ≤ (ofDays ((unixTimeToStdTime unixTime).toInt / unitsPerDay + 1)).year ↔
      InRange unixTime := by
  rw [Calendar.year_nonneg_iff]
  unfold InRange
  rcases Int.lt_or_le 860201606885 unixTime.toInt with hlarge | hle
  · rw [toInt_of_large hlarge h']
    unfold unixStart unitsPerDay
    omega
  · rw [toInt_of_inRange h hle]
    unfold unixStart unitsPerDay
    omega

/-- What is read of a time that has been written. -/
theorem timeOf_toISOExtString_iff {F : Type} {lib : Json.Library F}
    {other : Text → Option (BitVec 64)}
    (hlib : lib.fromISOExtString = fun val => (fromISOExtString other val).map stdTimeToUnixTime)
    (unixTime : BitVec 64) :
    Json.timeOf lib (some (toISOExtString (unixTimeToStdTime unixTime))) = .ok unixTime ↔
      InRange unixTime := by
  rcases Int.lt_or_le (ofDays ((unixTimeToStdTime unixTime).toInt / unitsPerDay + 1)).year 0 with
    hneg | hnonneg
  · refine iff_of_false ?_ fun hrange => ?_
    · obtain ⟨rest, htext, hminus⟩ := toISOExtString_of_neg hneg
      rw [htext, Json.timeOf]
      simp only [List.idxOf_cons_self, Nat.lt_irrefl, false_and, if_false, toLong_minus hminus]
      exact fun h => nomatch h
    · have hunits := hrange
      unfold InRange at hunits
      exact absurd ((year_nonneg_iff_inRange (by omega) (by omega)).mpr hrange)
        (Int.not_le.mpr hneg)
  · obtain ⟨hidx, hmem⟩ := toISOExtString_of_nonneg hnonneg
    unfold Json.timeOf
    simp only [hidx, hmem, and_self, if_true, hlib]
    by_cases hunits : -2 ^ 63 ≤ unixTime.toInt * 10000000 ∧ unixTime.toInt * 10000000 < 2 ^ 63
    · have hrange := (year_nonneg_iff_inRange hunits.1 hunits.2).mp hnonneg
      refine iff_of_true ?_ hrange
      have hwhole : (unixTimeToStdTime unixTime).toInt % 10000000 = 0 := by
        rw [toInt_of_inRange hunits.1 hrange.2]
        unfold unixStart
        omega
      rw [fromISOExtString, readUTC_toISOExtString hwhole hnonneg, Option.some_or,
        Option.map_some, stdTimeToUnixTime_unixTimeToStdTime hunits.1 hunits.2]
      rfl
    · refine iff_of_false ?_ fun hrange => hunits ?_
      · cases fromISOExtString other (toISOExtString (unixTimeToStdTime unixTime)) with
        | none => exact fun h => nomatch h
        | some stdTime => exact fun h => stdTimeToUnixTime_ne hunits stdTime (Except.ok.inj h)
      · unfold InRange at hrange
        omega

end Veda.Bj8individual.SysTime
