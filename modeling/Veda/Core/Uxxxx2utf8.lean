import Mathlib.Algebra.Group.Nat.Defs
import Mathlib.Tactic.Common

/-! # Reading escaped literals

`uxxxx2utf8` (core/util/utils.d) gets a literal as the raptor library writes it and undoes the
escapes. It copies nothing before the first escape that it undoes: until then `susecs` is false, and
what is before is taken from the argument when the flag is set.

A `string` is its bytes. An index or a slice outside the argument is a `RangeError`. The counter is
an `int` and the length is not: behind the last `int` the counter is negative, by which the loop
ends, and an index that is a sum past the last `int` is outside any array. -/

namespace Veda.Literals

/-- An index or a slice outside an array. -/
inductive Fault
  | rangeError
  deriving DecidableEq, Repr

/-- The first number past the last `int`. -/
def intEnd : ℕ := 2 ^ 31

/-- `so[k]`, where `k` is a sum of `int`s. -/
def index (so : List UInt8) (k : ℕ) : Except Fault UInt8 :=
  if k < intEnd then
    match so[k]? with
    | some c => .ok c
    | none => .error .rangeError
  else .error .rangeError

/-- `so[a..b]`. -/
def slice (so : List UInt8) (a b : ℕ) : Except Fault (List UInt8) :=
  if b < intEnd ∧ b ≤ so.length then .ok ((so.drop a).take (b - a)) else .error .rangeError

/-- The value of a hexadecimal digit of either case. -/
def hexValue (c : UInt8) : Option ℕ :=
  if 0x30 ≤ c ∧ c ≤ 0x39 then some (c.toNat - 0x30)
  else if 0x41 ≤ c ∧ c ≤ 0x46 then some (c.toNat - 0x37)
  else if 0x61 ≤ c ∧ c ≤ 0x66 then some (c.toNat - 0x57)
  else none

/-- `qqq.to!uint(16)` for a few bytes, not empty. What does not convert is an exception. -/
def toUint16 (qqq : List UInt8) : Option ℕ :=
  qqq.foldlM (fun v c => (hexValue c).map (16 * v + ·)) 0

/-- What is appended to a `string` for a `dchar` of at most four hexadecimal digits. -/
def appendDchar (n : ℕ) : List UInt8 :=
  if n ≤ 0x7F then [UInt8.ofNat n]
  else if n ≤ 0x7FF then [UInt8.ofNat (0xC0 + n / 64), UInt8.ofNat (0x80 + n % 64)]
  else
    [UInt8.ofNat (0xE0 + n / 4096), UInt8.ofNat (0x80 + n / 64 % 64), UInt8.ofNat (0x80 + n % 64)]

/-- The variables of the loop. -/
structure Decoder where
  i : ℕ
  new_s : List UInt8
  susecs : Bool

/-- An escape of `n` bytes behind its backslash has been undone. -/
def Decoder.undone (so : List UInt8) (d : Decoder) (n : ℕ) (out : List UInt8) : Decoder where
  i := d.i + n
  new_s := (if d.susecs then d.new_s else d.new_s ++ so.take d.i) ++ out
  susecs := true

/-- The body of the loop. -/
def step (so : List UInt8) (d : Decoder) : Except Fault Decoder := do
  let c ← index so d.i
  if c = 0x5C then -- '\\'
    let e ← index so (d.i + 1)
    if e = 0x75 then -- 'u'
      let qqq ← slice so (d.i + 2) (d.i + 6)
      match toUint16 qqq with
      | some jjj => return d.undone so 5 (appendDchar jjj)
      | none => return d
    else if e = 0x6E then -- 'n'
      return d.undone so 1 [0x0A]
    else if e = 0x74 then -- 't'
      return d.undone so 1 [0x09]
    else if e = 0x22 then -- '"'
      return d.undone so 1 [0x22]
    else
      return { d with new_s := d.new_s ++ [c] }
  else if d.susecs then return { d with new_s := d.new_s ++ [c] }
  else return d

/-- The loop, for a number of turns. -/
def loop (so : List UInt8) : ℕ → Decoder → Except Fault Decoder
  | 0, d => .ok d
  | fuel + 1, d =>
    if d.i < intEnd ∧ d.i < so.length then do
      let d ← step so d
      loop so fuel { d with i := d.i + 1 }
    else .ok d

/-- What is returned behind the loop. -/
def Decoder.result (so : List UInt8) (d : Decoder) : List UInt8 := if d.susecs then d.new_s else so

def uxxxx2utf8 (so : List UInt8) : Except Fault (List UInt8) := do
  let d ← loop so so.length ⟨0, [], false⟩
  return d.result so

/-! ## One turn -/

/-- What is returned through a map. -/
theorem exists_of_map {α β : Type} {f : α → β} {x : Except Fault α} {r : β}
    (h : f <$> x = .ok r) : ∃ a, x = .ok a ∧ f a = r := by
  cases x with
  | error fault => cases h
  | ok a => exact ⟨a, rfl, Except.ok.inj h⟩

/-- What the escapes of two characters stand for. -/
def shortOf (e : UInt8) : Option UInt8 :=
  if e = 0x6E then some 0x0A else if e = 0x74 then some 0x09 else if e = 0x22 then some 0x22
  else none

section
variable {so rest w : List UInt8} {b e out : UInt8} {i : ℕ} {sc : Bool}
  {d : Decoder}

theorem getElem?_add_of_drop {bytes : List UInt8} (hd : so.drop i = bytes) (k : ℕ) :
    so[i + k]? = bytes[k]? := by
  rw [← hd, List.getElem?_drop]

theorem drop_add_of_drop {bytes : List UInt8} (hd : so.drop i = bytes) (k : ℕ) :
    so.drop (i + k) = bytes.drop k := by
  rw [← hd, List.drop_drop]

theorem lt_length_of_drop (hd : so.drop i = b :: rest) : i < so.length := by
  have hlen := congrArg List.length hd
  simp only [List.length_drop, List.length_cons] at hlen
  omega

theorem index_of_drop (hd : so.drop i = b :: rest) (h : i < intEnd) : index so i = .ok b := by
  have hget : so[i]? = some b := getElem?_add_of_drop hd 0
  simp [index, h, hget]

/-- The byte behind the backslash. -/
theorem index_next (hd : so.drop i = b :: e :: rest) (h : i + 1 < intEnd) :
    index so (i + 1) = .ok e := by
  have hget : so[i + 1]? = some e := getElem?_add_of_drop hd 1
  simp [index, h, hget]

theorem index_last (hd : so.drop i = b :: rest) (h : intEnd ≤ i + 1 ∨ rest = []) :
    index so (i + 1) = .error .rangeError := by
  unfold index
  rcases h with hend | rfl
  · rw [if_neg (Nat.not_lt.mpr hend)]
  · have hget : so[i + 1]? = none := getElem?_add_of_drop hd 1
    simp [hget]

/-- The bytes behind a `u`. -/
theorem slice_next (hd : so.drop i = b :: e :: rest) :
    slice so (i + 2) (i + 6) =
      if i + 6 < intEnd ∧ 4 ≤ rest.length then .ok (rest.take 4) else .error .rangeError := by
  have hdrop : so.drop (i + 2) = rest := drop_add_of_drop hd 2
  have hlen : i + 6 ≤ so.length ↔ 4 ≤ rest.length := by
    have hlen := congrArg List.length hd
    simp only [List.length_drop, List.length_cons] at hlen
    omega
  unfold slice
  simp only [hlen, hdrop, Nat.add_sub_add_left]

/-- A byte that is no backslash. -/
theorem step_byte (hd : so.drop i = b :: rest) (h : i < intEnd) (hb : b ≠ 0x5C) :
    step so ⟨i, w, sc⟩ = .ok ⟨i, if sc then w ++ [b] else w, sc⟩ := by
  simp only [step, index_of_drop hd h]
  cases sc <;> simp [hb, pure, Except.pure, bind, Except.bind]

/-- A backslash with nothing behind it that can be looked at. -/
theorem step_last (hd : so.drop i = 0x5C :: rest) (h : i < intEnd)
    (hlast : intEnd ≤ i + 1 ∨ rest = []) : step so ⟨i, w, sc⟩ = .error .rangeError := by
  simp only [step, index_of_drop hd h, index_last hd hlast]
  rfl

/-- A backslash and a `u`. -/
theorem step_u (hd : so.drop i = 0x5C :: 0x75 :: rest) (h : i + 1 < intEnd) :
    step so ⟨i, w, sc⟩ =
      if i + 6 < intEnd ∧ 4 ≤ rest.length then
        match toUint16 (rest.take 4) with
        | some jjj => .ok (Decoder.undone so ⟨i, w, sc⟩ 5 (appendDchar jjj))
        | none => .ok ⟨i, w, sc⟩
      else .error .rangeError := by
  simp only [step, index_of_drop hd (Nat.lt_of_succ_lt h), index_next hd h, slice_next hd]
  simp only [bind, Except.bind, if_true]
  by_cases hcode : i + 6 < intEnd ∧ 4 ≤ rest.length
  · simp only [if_pos hcode]
    cases toUint16 (rest.take 4) <;> rfl
  · simp only [if_neg hcode]

/-- An escape of two characters. -/
theorem step_short (hd : so.drop i = 0x5C :: e :: rest) (h : i + 1 < intEnd)
    (he : shortOf e = some out) :
    step so ⟨i, w, sc⟩ = .ok (Decoder.undone so ⟨i, w, sc⟩ 1 [out]) := by
  simp only [step, index_of_drop hd (Nat.lt_of_succ_lt h), index_next hd h]
  simp only [bind, Except.bind, if_true]
  unfold shortOf at he
  split at he
  · next h0 => cases he; subst h0; rfl
  · split at he
    · next h1 => cases he; subst h1; rfl
    · split at he
      · next h2 => cases he; subst h2; rfl
      · cases he

/-- A backslash before any other byte is copied, whatever the flag is. -/
theorem step_other (hd : so.drop i = 0x5C :: e :: rest) (h : i + 1 < intEnd) (hu : e ≠ 0x75)
    (he : shortOf e = none) : step so ⟨i, w, sc⟩ = .ok ⟨i, w ++ [0x5C], sc⟩ := by
  have hn : e ≠ 0x6E := by rintro rfl; exact absurd he (by decide)
  have ht : e ≠ 0x74 := by rintro rfl; exact absurd he (by decide)
  have hq : e ≠ 0x22 := by rintro rfl; exact absurd he (by decide)
  simp only [step, index_of_drop hd (Nat.lt_of_succ_lt h), index_next hd h]
  simp only [bind, Except.bind, if_true, if_neg hu, if_neg hn, if_neg ht, if_neg hq]
  rfl

/-- What a turn leaves. -/
theorem step_cases (hd : so.drop i = b :: rest) (h : i < intEnd)
    (hstep : step so ⟨i, w, sc⟩ = .ok d) :
    (∃ n out, b = 0x5C ∧ rest.head? ≠ some 0x5C ∧ d = Decoder.undone so ⟨i, w, sc⟩ n out) ∨
      ∃ w', d = ⟨i, w', sc⟩ ∧ (sc = false → ∃ k, w' = w ++ List.replicate k 0x5C) := by
  by_cases hb : b = 0x5C
  swap
  · rw [step_byte hd h hb] at hstep
    cases hstep
    refine .inr ⟨_, rfl, ?_⟩
    rintro rfl
    exact ⟨0, (List.append_nil w).symm⟩
  subst hb
  by_cases hlast : intEnd ≤ i + 1 ∨ rest = []
  · rw [step_last hd h hlast] at hstep
    cases hstep
  obtain ⟨hend, hne⟩ := not_or.mp hlast
  obtain ⟨e, rest, rfl⟩ := List.exists_cons_of_ne_nil hne
  have hlt : i + 1 < intEnd := Nat.not_le.mp hend
  by_cases hu : e = 0x75
  · subst hu
    rw [step_u hd hlt] at hstep
    split at hstep
    swap
    · cases hstep
    split at hstep
    · cases hstep
      exact .inl ⟨5, _, rfl, by simp, rfl⟩
    · cases hstep
      exact .inr ⟨_, rfl, fun _ => ⟨0, (List.append_nil w).symm⟩⟩
  · cases he : shortOf e with
    | some out =>
      rw [step_short hd hlt he] at hstep
      cases hstep
      refine .inl ⟨1, [out], rfl, ?_, rfl⟩
      rintro hnext
      cases Option.some.inj hnext
      cases he
    | none =>
      rw [step_other hd hlt hu he] at hstep
      cases hstep
      exact .inr ⟨_, rfl, fun _ => ⟨1, rfl⟩⟩

/-- The loop does one more turn. -/
theorem loop_turn (hd : so.drop i = b :: rest) (h : i < intEnd) (fuel : ℕ) :
    loop so (fuel + 1) ⟨i, w, sc⟩ =
      step so ⟨i, w, sc⟩ >>= fun d => loop so fuel { d with i := d.i + 1 } := by
  rw [loop, if_pos ⟨h, lt_length_of_drop hd⟩]

/-- The loop ends behind the last byte and behind the last `int`. -/
theorem loop_end (hend : intEnd ≤ i ∨ so.drop i = []) (fuel : ℕ) :
    loop so fuel ⟨i, w, sc⟩ = .ok ⟨i, w, sc⟩ := by
  cases fuel with
  | zero => rfl
  | succ fuel =>
    refine if_neg fun hgo => ?_
    rcases hend with hend | hend
    · exact absurd hgo.1 (Nat.not_lt.mpr hend)
    · exact absurd hgo.2 (Nat.not_lt.mpr (List.drop_eq_nil_iff.mp hend))

end

/-! ## The loop from a flag that is set -/

/-- What is appended to `new_s` from the place `i` on, once the flag is set. -/
def decode (i : ℕ) : List UInt8 → Except Fault (List UInt8)
  | [] => .ok []
  | b :: rest =>
    if intEnd ≤ i then .ok []
    else if b ≠ 0x5C then (b :: ·) <$> decode (i + 1) rest
    else if intEnd ≤ i + 1 then .error .rangeError
    else match rest with
      | [] => .error .rangeError
      | e :: rest =>
        if e = 0x75 then
          if i + 6 < intEnd ∧ 4 ≤ rest.length then
            match toUint16 (rest.take 4) with
            | some jjj => (appendDchar jjj ++ ·) <$> decode (i + 6) (rest.drop 4)
            | none => decode (i + 1) (e :: rest)
          else .error .rangeError
        else match shortOf e with
          | some out => (out :: ·) <$> decode (i + 2) rest
          | none => (0x5C :: ·) <$> decode (i + 1) (e :: rest)
  termination_by bytes => bytes.length
  decreasing_by
    · exact Nat.lt_succ_self _
    · exact Nat.lt_succ_of_lt (Nat.lt_succ_of_le (List.drop_sublist 4 _).length_le)
    · exact Nat.lt_succ_self _
    · exact Nat.lt_succ_of_lt (Nat.lt_succ_self _)
    · exact Nat.lt_succ_self _

section
variable {rest : List UInt8} {b e out : UInt8} {i : ℕ}

theorem decode_nil (i : ℕ) : decode i [] = .ok [] := by
  rw [decode.eq_def]

theorem decode_end (h : intEnd ≤ i) (bytes : List UInt8) : decode i bytes = .ok [] := by
  cases bytes with
  | nil => exact decode_nil i
  | cons b rest =>
    rw [decode.eq_def]
    exact if_pos h

theorem decode_byte (h : i < intEnd) (hb : b ≠ 0x5C) :
    decode i (b :: rest) = (b :: ·) <$> decode (i + 1) rest := by
  rw [decode.eq_def]
  exact (if_neg (Nat.not_le.mpr h)).trans (if_pos hb)

theorem decode_backslash (h : i < intEnd) :
    decode i (0x5C :: rest) =
      if intEnd ≤ i + 1 then .error .rangeError
      else match rest with
        | [] => .error .rangeError
        | e :: rest =>
          if e = 0x75 then
            if i + 6 < intEnd ∧ 4 ≤ rest.length then
              match toUint16 (rest.take 4) with
              | some jjj => (appendDchar jjj ++ ·) <$> decode (i + 6) (rest.drop 4)
              | none => decode (i + 1) (e :: rest)
            else .error .rangeError
          else match shortOf e with
            | some out => (out :: ·) <$> decode (i + 2) rest
            | none => (0x5C :: ·) <$> decode (i + 1) (e :: rest) := by
  rw [decode.eq_def]
  exact (if_neg (Nat.not_le.mpr h)).trans (if_neg (not_not_intro rfl))

theorem decode_last (h : i < intEnd) (hlast : intEnd ≤ i + 1 ∨ rest = []) :
    decode i (0x5C :: rest) = .error .rangeError := by
  rw [decode_backslash h]
  by_cases hend : intEnd ≤ i + 1
  · rw [if_pos hend]
  · rw [if_neg hend, hlast.resolve_left hend]

theorem decode_u (h : i + 1 < intEnd) :
    decode i (0x5C :: 0x75 :: rest) =
      if i + 6 < intEnd ∧ 4 ≤ rest.length then
        match toUint16 (rest.take 4) with
        | some jjj => (appendDchar jjj ++ ·) <$> decode (i + 6) (rest.drop 4)
        | none => decode (i + 1) (0x75 :: rest)
      else .error .rangeError := by
  rw [decode_backslash (Nat.lt_of_succ_lt h), if_neg (Nat.not_le.mpr h)]
  rfl

theorem decode_short (h : i + 1 < intEnd) (he : shortOf e = some out) :
    decode i (0x5C :: e :: rest) = (out :: ·) <$> decode (i + 2) rest := by
  have hu : e ≠ 0x75 := by rintro rfl; cases he
  rw [decode_backslash (Nat.lt_of_succ_lt h), if_neg (Nat.not_le.mpr h)]
  simp only [if_neg hu, he]

theorem decode_other (h : i + 1 < intEnd) (hu : e ≠ 0x75) (he : shortOf e = none) :
    decode i (0x5C :: e :: rest) = (0x5C :: ·) <$> decode (i + 1) (e :: rest) := by
  rw [decode_backslash (Nat.lt_of_succ_lt h), if_neg (Nat.not_le.mpr h)]
  simp only [if_neg hu, he]

end

section
variable {so w : List UInt8} {i fuel : ℕ}

/-- A turn that appends `out` and goes on behind `n` more bytes. -/
theorem loop_started_turn {rest : List UInt8} {b : UInt8} (n : ℕ) (out : List UInt8)
    (hd : so.drop i = b :: rest) (h : i < intEnd)
    (hstep : step so ⟨i, w, true⟩ = .ok ⟨i + n, w ++ out, true⟩)
    (hdecode : decode i (b :: rest) =
      (out ++ ·) <$> decode (i + n + 1) (so.drop (i + n + 1)))
    (ih : Decoder.result so <$> loop so fuel ⟨i + n + 1, w ++ out, true⟩ =
      (w ++ out ++ ·) <$> decode (i + n + 1) (so.drop (i + n + 1))) :
    Decoder.result so <$> loop so (fuel + 1) ⟨i, w, true⟩ =
      (w ++ ·) <$> decode i (b :: rest) := by
  rw [loop_turn hd h, hstep, hdecode]
  refine ih.trans ?_
  cases decode (i + n + 1) (so.drop (i + n + 1)) <;> simp

/-- The loop appends what `decode` gives. -/
theorem loop_started (hfuel : so.length ≤ fuel + i) :
    Decoder.result so <$> loop so fuel ⟨i, w, true⟩ = (w ++ ·) <$> decode i (so.drop i) := by
  induction fuel generalizing i w with
  | zero =>
    have hnil : so.drop i = [] := List.drop_eq_nil_of_le (by omega)
    rw [loop_end (.inr hnil), hnil, decode_nil]
    simp [Decoder.result]
  | succ fuel ih =>
    rcases Nat.lt_or_ge i intEnd with h | hend
    swap
    · rw [loop_end (.inl hend), decode_end hend]
      simp [Decoder.result]
    cases hd : so.drop i with
    | nil =>
      rw [loop_end (.inr hd), decode_nil]
      simp [Decoder.result]
    | cons b rest =>
      have hgo (n : ℕ) (w : List UInt8) := ih (i := i + n + 1) (w := w) (by omega)
      have hdrop1 : so.drop (i + 0 + 1) = rest := drop_add_of_drop hd 1
      by_cases hb : b = 0x5C
      swap
      · refine loop_started_turn 0 [b] hd h (step_byte hd h hb) ?_ (hgo 0 _)
        rw [hdrop1]
        exact decode_byte h hb
      subst hb
      by_cases hlast : intEnd ≤ i + 1 ∨ rest = []
      · rw [loop_turn hd h, step_last hd h hlast, decode_last h hlast]
        rfl
      obtain ⟨hend, hne⟩ := not_or.mp hlast
      obtain ⟨e, rest, rfl⟩ := List.exists_cons_of_ne_nil hne
      have hlt : i + 1 < intEnd := Nat.not_le.mp hend
      by_cases hu : e = 0x75
      · subst hu
        by_cases hcode : i + 6 < intEnd ∧ 4 ≤ rest.length
        swap
        · rw [loop_turn hd h, step_u hd hlt, decode_u hlt, if_neg hcode, if_neg hcode]
          rfl
        cases hq : toUint16 (rest.take 4) with
        | some jjj =>
          have hdrop6 : so.drop (i + 5 + 1) = rest.drop 4 := drop_add_of_drop hd 6
          refine loop_started_turn 5 (appendDchar jjj) hd h ?_ ?_ (hgo 5 _)
          · rw [step_u hd hlt, if_pos hcode, hq]
            rfl
          · rw [hdrop6, decode_u hlt, if_pos hcode, hq]
        | none =>
          refine loop_started_turn 0 [] hd h ?_ ?_ (hgo 0 _)
          · rw [step_u hd hlt, if_pos hcode, hq, List.append_nil]
            rfl
          · rw [hdrop1, decode_u hlt, if_pos hcode, hq]
            cases decode (i + 1) (0x75 :: rest) <;> rfl
      · cases he : shortOf e with
        | some out =>
          have hdrop2 : so.drop (i + 1 + 1) = rest := drop_add_of_drop hd 2
          refine loop_started_turn 1 [out] hd h (step_short hd hlt he) ?_ (hgo 1 _)
          rw [hdrop2]
          exact decode_short hlt he
        | none =>
          refine loop_started_turn 0 [0x5C] hd h (step_other hd hlt hu he) ?_ (hgo 0 _)
          rw [hdrop1]
          exact decode_other hlt hu he

/-- The loop has come to its end. -/
theorem loop_ended {d d' : Decoder} (hfuel : so.length ≤ fuel + d.i)
    (h : loop so fuel d = .ok d') : ¬(d'.i < intEnd ∧ d'.i < so.length) := by
  induction fuel generalizing d with
  | zero =>
    cases h
    omega
  | succ fuel ih =>
    rw [loop] at h
    split at h
    swap
    · next hend => cases h; exact hend
    next hgo =>
    cases hstep : step so d with
    | error fault =>
      rw [hstep] at h
      cases h
    | ok d₁ =>
      rw [hstep] at h
      refine ih ?_ h
      have hle : d.i ≤ d₁.i := by
        obtain ⟨n, out, -, -, rfl⟩ | ⟨w', rfl, -⟩ :=
          step_cases (List.drop_eq_getElem_cons hgo.2) hgo.1 hstep
        · exact Nat.le_add_right _ _
        · exact Nat.le_refl _
      show so.length ≤ fuel + (d₁.i + 1)
      omega

end

/-! ## The loop from a flag that is not set -/

section
variable {so w : List UInt8} {i fuel : ℕ}

/-- Without a backslash nothing is copied. -/
theorem loop_skip {x rest : List UInt8} (hd : so.drop i = x ++ rest) (hx : 0x5C ∉ x)
    (h : i + x.length ≤ intEnd) (fuel : ℕ) :
    loop so (x.length + fuel) ⟨i, w, false⟩ = loop so fuel ⟨i + x.length, w, false⟩ := by
  induction x generalizing i with
  | nil => simp
  | cons b x ih =>
    obtain ⟨hb, hx⟩ := List.ne_and_not_mem_of_not_mem_cons hx
    rw [List.length_cons] at h ⊢
    have hlt : i < intEnd := by omega
    have hnext : so.drop (i + 1) = x ++ rest := drop_add_of_drop hd 1
    have hstep : step so ⟨i, w, false⟩ = .ok ⟨i, w, false⟩ := step_byte hd hlt (Ne.symm hb)
    rw [Nat.add_right_comm, loop_turn hd hlt, hstep]
    refine (ih hnext hx (by omega)).trans ?_
    rw [Nat.add_right_comm, Nat.add_assoc]

/-- Without a backslash before its end the loop returns its argument. -/
theorem loop_plain {x rest : List UInt8} (hd : so.drop i = x ++ rest) (hx : 0x5C ∉ x)
    (hend : intEnd ≤ i + x.length ∨ rest = []) (hfuel : x.length ≤ fuel) :
    Decoder.result so <$> loop so fuel ⟨i, w, false⟩ = .ok so := by
  induction x generalizing i fuel with
  | nil =>
    have hend' : intEnd ≤ i ∨ so.drop i = [] := by
      rw [hd]
      exact hend
    rw [loop_end hend']
    rfl
  | cons b x ih =>
    rcases Nat.lt_or_ge i intEnd with hlt | hge
    swap
    · rw [loop_end (.inl hge)]
      rfl
    obtain ⟨hb, hx⟩ := List.ne_and_not_mem_of_not_mem_cons hx
    obtain ⟨fuel, rfl⟩ := Nat.exists_eq_add_of_le' (Nat.le_trans (Nat.le_add_left 1 _) hfuel)
    have hnext : so.drop (i + 1) = x ++ rest := drop_add_of_drop hd 1
    have hstep : step so ⟨i, w, false⟩ = .ok ⟨i, w, false⟩ := step_byte hd hlt (Ne.symm hb)
    rw [loop_turn hd hlt, hstep]
    have hend' : intEnd ≤ i + 1 + x.length ∨ rest = [] := by
      rw [List.length_cons] at hend
      exact hend.imp_left fun h => by omega
    exact ih hnext hx hend' (Nat.le_of_succ_le_succ hfuel)

/-- An escape that is undone sets the flag. -/
theorem loop_start {rest out : List UInt8} {b : UInt8} {n : ℕ} (hd : so.drop i = b :: rest)
    (h : i < intEnd) (hfuel : so.length ≤ fuel + 1 + i)
    (hstep : step so ⟨i, w, false⟩ = .ok (Decoder.undone so ⟨i, w, false⟩ n out)) :
    Decoder.result so <$> loop so (fuel + 1) ⟨i, w, false⟩ =
      (w ++ so.take i ++ out ++ ·) <$> decode (i + n + 1) (so.drop (i + n + 1)) := by
  rw [loop_turn hd h, hstep]
  exact loop_started (i := i + n + 1) (by omega)

/-- The first escape that is undone: from there on the loop is `decode`. -/
theorem loop_first {rest : List UInt8} {e : UInt8} (hd : so.drop i = 0x5C :: e :: rest)
    (h : i < intEnd) (hfuel : so.length ≤ fuel + 1 + i)
    (hu : e = 0x75 → toUint16 (rest.take 4) ≠ none) (he : e ≠ 0x75 → shortOf e ≠ none) :
    Decoder.result so <$> loop so (fuel + 1) ⟨i, w, false⟩ =
      (w ++ so.take i ++ ·) <$> decode i (0x5C :: e :: rest) := by
  by_cases hend : intEnd ≤ i + 1
  · rw [loop_turn hd h, step_last hd h (.inl hend), decode_last h (.inl hend)]
    rfl
  have hlt : i + 1 < intEnd := Nat.not_le.mp hend
  by_cases hcase : e = 0x75
  · subst hcase
    by_cases hcode : i + 6 < intEnd ∧ 4 ≤ rest.length
    swap
    · rw [loop_turn hd h, step_u hd hlt, decode_u hlt, if_neg hcode, if_neg hcode]
      rfl
    obtain ⟨jjj, hq⟩ := Option.ne_none_iff_exists'.mp (hu rfl)
    have hdrop : so.drop (i + 5 + 1) = rest.drop 4 := drop_add_of_drop hd 6
    rw [decode_u hlt, if_pos hcode, hq]
    refine (loop_start hd h hfuel (by rw [step_u hd hlt, if_pos hcode, hq])).trans ?_
    rw [hdrop]
    cases decode (i + 5 + 1) (rest.drop 4) <;> simp
  · obtain ⟨out, hout⟩ := Option.ne_none_iff_exists'.mp (he hcase)
    have hdrop : so.drop (i + 1 + 1) = rest := drop_add_of_drop hd 2
    rw [decode_short hlt hout]
    refine (loop_start hd h hfuel (step_short hd hlt hout)).trans ?_
    rw [hdrop]
    cases decode (i + 1 + 1) rest <;> simp

/-- The argument is returned as it is, or behind backslashes there is all of it up to an escape that
is undone. -/
theorem loop_unstarted {r : List UInt8} (hfuel : so.length ≤ fuel + i)
    (hr : Decoder.result so <$> loop so fuel ⟨i, w, false⟩ = .ok r) :
    r = so ∨ ∃ k p rest, i ≤ p ∧ so[p]? = some 0x5C ∧ so[p + 1]? ≠ some 0x5C ∧
      r = w ++ List.replicate k 0x5C ++ so.take p ++ rest := by
  induction fuel generalizing i w with
  | zero =>
    cases hr
    exact .inl rfl
  | succ fuel ih =>
    by_cases hend : intEnd ≤ i ∨ so.drop i = []
    · rw [loop_end hend] at hr
      cases hr
      exact .inl rfl
    obtain ⟨hlt, hne⟩ := not_or.mp hend
    obtain ⟨b, rest, hd⟩ := List.exists_cons_of_ne_nil hne
    have h : i < intEnd := Nat.not_le.mp hlt
    cases hstep : step so ⟨i, w, false⟩ with
    | error fault =>
      rw [loop_turn hd h, hstep] at hr
      cases hr
    | ok d =>
      obtain ⟨n, out, rfl, hnext, rfl⟩ | ⟨w', rfl, hw⟩ := step_cases hd h hstep
      · rw [loop_start hd h hfuel hstep] at hr
        obtain ⟨tail, -, rfl⟩ := exists_of_map hr
        refine .inr ⟨0, i, out ++ tail, Nat.le_refl i, getElem?_add_of_drop hd 0, ?_, ?_⟩
        · rw [getElem?_add_of_drop hd 1, List.getElem?_cons_succ, ← List.head?_eq_getElem?]
          exact hnext
        · simp
      · obtain ⟨k, rfl⟩ := hw rfl
        rw [loop_turn hd h, hstep] at hr
        obtain rfl | ⟨k', p, tail, hp, hb, hnext, rfl⟩ := ih (i := i + 1) (by omega) hr
        · exact .inl rfl
        · refine .inr ⟨k + k', p, tail, by omega, hb, hnext, ?_⟩
          simp

end

theorem uxxxx2utf8_eq (so : List UInt8) :
    uxxxx2utf8 so = Decoder.result so <$> loop so so.length ⟨0, [], false⟩ := by
  unfold uxxxx2utf8
  cases loop so so.length ⟨0, [], false⟩ <;> rfl

end Veda.Literals
