import Mathlib.Algebra.Ring.Int.Defs
import Mathlib.Algebra.Ring.Nat
import Mathlib.Data.List.Count
import Mathlib.Data.List.Induction
import Veda.Search.XapianVql

/-! # The quality of a token

`is_good_token` of `xapian_vql.d` with its bytes and its `int`s: the loop runs as long as the byte
index is less than the number of characters. Which characters are letters and which are numbers are
parameters. -/

namespace Veda.Search.GoodToken

inductive Fault
  | utfException
  | outOfFuel
  deriving DecidableEq, Repr

/-- `utf.decode`: the character at a byte index and the index behind it. -/
def decode (str : String) (idx : ℕ) : Except Fault (Char × ℕ) :=
  match str.toByteArray.utf8DecodeChar? idx with
  | some dd => .ok (dd, idx + dd.utf8Size)
  | none => .error .utfException

/-- The variables of the loop. -/
structure Counts where
  idx : ℕ
  count_alpha : Int32
  count_number : Int32
  deriving DecidableEq, Repr

section
variable (isAlpha isNumber : Char → Bool)

/-- The body of the loop. -/
def step (str : String) (s : Counts) : Except Fault Counts := do
  let (dd, idx) ← decode str s.idx
  return {
    idx
    count_alpha := if isAlpha dd then s.count_alpha + 1 else s.count_alpha
    count_number := if isNumber dd then s.count_number + 1 else s.count_number }

def loop (str : String) (count : ℕ) : ℕ → Counts → Except Fault Counts
  | 0, s => if s.idx < count then .error .outOfFuel else .ok s
  | fuel + 1, s =>
    if s.idx < count then do
      let s ← step isAlpha isNumber str s
      loop str count fuel s
    else .ok s

/-- What the counters say. -/
def verdict (s : Counts) : Bool :=
  if s.count_alpha + s.count_number < 3 then false
  else if s.count_alpha + s.count_number < 4 ∧ s.count_number = 3 then false
  else true

/-- `is_good_token`, with a bound on the turns of the loop. -/
def isGoodToken (fuel : ℕ) (str : String) : Except Fault Bool := do
  let s ← loop isAlpha isNumber str str.length fuel ⟨0, 0, 0⟩
  return verdict s

/-- At least three letters and numbers, and not just three numbers. -/
def Good (s : List Char) : Prop :=
  3 ≤ s.countP isAlpha + s.countP isNumber ∧
    ¬(s.countP isAlpha + s.countP isNumber = 3 ∧ s.countP isNumber = 3)

instance (s : List Char) : Decidable (Good isAlpha isNumber s) :=
  inferInstanceAs (Decidable (_ ∧ _))

/-- The loop ends, nothing outside the string is read, and the verdict is that of the whole
token. -/
def Judged (str : String) : Prop :=
  ∃ n, ∀ fuel ≥ n,
    isGoodToken isAlpha isNumber fuel str = .ok (decide (Good isAlpha isNumber str.toList))

end

/-! ## The characters that the loop gets to -/

/-- The number of bytes of a text. -/
def bytes (s : List Char) : ℕ := (s.map Char.utf8Size).sum

@[simp] theorem bytes_nil : bytes [] = 0 := rfl

@[simp] theorem bytes_cons (c : Char) (s : List Char) :
    bytes (c :: s) = c.utf8Size + bytes s := by
  simp [bytes]

@[simp] theorem bytes_append (s t : List Char) : bytes (s ++ t) = bytes s + bytes t := by
  simp [bytes]

theorem length_le_bytes (s : List Char) : s.length ≤ bytes s := by
  induction s with
  | nil => exact Nat.le_refl 0
  | cons c s ih =>
    have := c.utf8Size_pos
    rw [List.length_cons, bytes_cons]
    omega

theorem size_utf8Encode (s : List Char) : s.utf8Encode.size = bytes s := by
  induction s with
  | nil => rfl
  | cons c s ih =>
    rw [List.utf8Encode_cons, ByteArray.size_append, ih, bytes_cons]
    simp [List.utf8Encode_singleton]

/-- A character at its place is decoded. -/
theorem decode_append (u v : List Char) (c : Char) :
    decode (String.ofList (u ++ c :: v)) (bytes u) = .ok (c, bytes u + c.utf8Size) := by
  have hdecode : (u ++ c :: v).utf8Encode.utf8DecodeChar? (bytes u) = some c := by
    rw [ByteArray.utf8DecodeChar?_eq_utf8DecodeChar?_extract, List.utf8Encode_append,
      ByteArray.size_append, ByteArray.extract_append_eq_right (size_utf8Encode u).symm rfl]
    exact List.utf8DecodeChar?_utf8Encode_cons
  unfold decode
  rw [String.toByteArray_ofList, hdecode]

/-- The characters that begin before the byte `count`, from the byte `idx` on. -/
def scanned (count : ℕ) : ℕ → List Char → List Char
  | _, [] => []
  | idx, c :: s => if idx < count then c :: scanned count (idx + c.utf8Size) s else []

theorem scanned_isPrefix (count idx : ℕ) (s : List Char) : scanned count idx s <+: s := by
  induction s generalizing idx with
  | nil => exact List.nil_prefix
  | cons c s ih =>
    rw [scanned]
    split
    · exact List.cons_prefix_cons.mpr ⟨rfl, ih _⟩
    · exact List.nil_prefix

theorem scanned_of_le {count idx : ℕ} (h : count ≤ idx) (s : List Char) :
    scanned count idx s = [] := by
  cases s with
  | nil => rfl
  | cons c s => exact if_neg (Nat.not_lt.mpr h)

/-- A character is among them if it begins before that byte. -/
theorem concat_prefix_scanned {count idx : ℕ} {u v : List Char} {c : Char} :
    u ++ [c] <+: scanned count idx (u ++ c :: v) ↔ idx + bytes u < count := by
  induction u generalizing idx with
  | nil =>
    rw [List.nil_append, List.nil_append, scanned, bytes_nil, Nat.add_zero]
    by_cases h : idx < count
    · rw [if_pos h]
      exact iff_of_true (List.cons_prefix_cons.mpr ⟨rfl, List.nil_prefix⟩) h
    · rw [if_neg h]
      exact iff_of_false (by simp) h
  | cons d u ih =>
    rw [List.cons_append, List.cons_append, scanned, bytes_cons]
    by_cases h : idx < count
    · rw [if_pos h, List.cons_prefix_cons, and_iff_right rfl, ih, Nat.add_assoc]
    · rw [if_neg h]
      exact iff_of_false (by simp) (by omega)

section
variable {isAlpha isNumber : Char → Bool}

theorem ofNat_count (p : Bool) (k : ℕ) :
    (if p then Int32.ofNat k + 1 else Int32.ofNat k) = Int32.ofNat (k + if p then 1 else 0) := by
  cases p with
  | false => rfl
  | true => exact (Int32.ofNat_add k 1).symm

/-- One turn. -/
theorem step_append (u v : List Char) (c : Char) (a n : ℕ) :
    step isAlpha isNumber (String.ofList (u ++ c :: v)) ⟨bytes u, .ofNat a, .ofNat n⟩ =
      .ok ⟨bytes (u ++ [c]), .ofNat (a + if isAlpha c then 1 else 0),
        .ofNat (n + if isNumber c then 1 else 0)⟩ := by
  have hidx : bytes (u ++ [c]) = bytes u + c.utf8Size := by simp
  unfold step
  rw [decode_append, hidx, ← ofNat_count, ← ofNat_count]
  rfl

theorem loop_stop {str : String} {count : ℕ} {s : Counts} (h : count ≤ s.idx) (fuel : ℕ) :
    loop isAlpha isNumber str count fuel s = .ok s := by
  cases fuel with
  | zero => exact if_neg (Nat.not_lt.mpr h)
  | succ fuel => exact if_neg (Nat.not_lt.mpr h)

/-- The loop counts the characters that it gets to, and ends. -/
theorem loop_append {u v : List Char} {count fuel : ℕ} (hfuel : v.length ≤ fuel)
    (hcount : count ≤ bytes (u ++ v)) (a n : ℕ) :
    loop isAlpha isNumber (String.ofList (u ++ v)) count fuel ⟨bytes u, .ofNat a, .ofNat n⟩ =
      .ok ⟨bytes u + bytes (scanned count (bytes u) v),
        .ofNat (a + (scanned count (bytes u) v).countP isAlpha),
        .ofNat (n + (scanned count (bytes u) v).countP isNumber)⟩ := by
  induction v generalizing u a n fuel with
  | nil =>
    rw [List.append_nil] at hcount
    rw [loop_stop hcount]
    rfl
  | cons c v ih =>
    by_cases hlt : bytes u < count
    swap
    · rw [loop_stop (Nat.not_lt.mp hlt), scanned_of_le (Nat.not_lt.mp hlt)]
      rfl
    obtain ⟨fuel, rfl⟩ := Nat.exists_eq_add_of_le' (Nat.le_trans (Nat.le_add_left 1 _) hfuel)
    have hsplit : u ++ c :: v = (u ++ [c]) ++ v := (List.append_cons u c v)
    have hidx : bytes (u ++ [c]) = bytes u + c.utf8Size := by simp
    have hrest := ih (u := u ++ [c]) (Nat.le_of_succ_le_succ hfuel) (hsplit ▸ hcount)
      (a + if isAlpha c then 1 else 0) (n + if isNumber c then 1 else 0)
    rw [loop, if_pos hlt, step_append]
    refine (congrArg (loop _ _ · count fuel _) (congrArg String.ofList hsplit)).trans
      (hrest.trans ?_)
    rw [scanned, if_pos hlt, hidx, List.countP_cons, List.countP_cons, bytes_cons]
    simp only [Nat.add_assoc, Nat.add_comm, Nat.add_left_comm]

/-- What `is_good_token` returns. -/
theorem isGoodToken_ofList {s : List Char} {fuel : ℕ} (hfuel : s.length ≤ fuel) :
    isGoodToken isAlpha isNumber fuel (String.ofList s) =
      .ok (verdict ⟨bytes (scanned s.length 0 s),
        .ofNat ((scanned s.length 0 s).countP isAlpha),
        .ofNat ((scanned s.length 0 s).countP isNumber)⟩) := by
  have hloop := @loop_append isAlpha isNumber [] s s.length fuel hfuel (length_le_bytes s) 0 0
  simp only [List.nil_append, bytes_nil, Nat.zero_add] at hloop
  unfold isGoodToken
  rw [String.length_ofList]
  exact congrArg (· >>= _) hloop

end

/-! ## The verdict -/

/-- What the counters say for true counts: an `int` has wrapped around at `2 ^ 31`. -/
def Passes (a n : ℕ) : Prop :=
  3 ≤ ((a + n : ℕ) : ℤ).bmod (2 ^ 32) ∧
    ¬(((a + n : ℕ) : ℤ).bmod (2 ^ 32) = 3 ∧ (n : ℤ).bmod (2 ^ 32) = 3)

instance (a n : ℕ) : Decidable (Passes a n) := inferInstanceAs (Decidable (_ ∧ _))

theorem verdict_ofNat (idx a n : ℕ) :
    verdict ⟨idx, .ofNat a, .ofNat n⟩ = true ↔ Passes a n := by
  have h3 : (3 : Int32).toInt = 3 := by decide
  have h4 : (4 : Int32).toInt = 4 := by decide
  have hsum : (Int32.ofNat a + Int32.ofNat n).toInt = ((a + n : ℕ) : ℤ).bmod (2 ^ 32) :=
    (congrArg Int32.toInt (Int32.ofNat_add a n).symm).trans Int32.toInt_ofNat'
  have hn : (Int32.ofNat n).toInt = (n : ℤ).bmod (2 ^ 32) := Int32.toInt_ofNat'
  unfold verdict Passes
  simp only [Int32.lt_iff_toInt_lt, ← Int32.toInt_inj, hsum, hn, h3, h4]
  split
  · next h => exact iff_of_false (by decide) (by omega)
  split
  · next h => exact iff_of_false (by decide) (by omega)
  · next h => exact iff_of_true rfl (by omega)

theorem bmod_of_lt {k : ℕ} (h : k < 2 ^ 31) : (k : ℤ).bmod (2 ^ 32) = k :=
  (Int32.toInt_ofNat' (n := k)).symm.trans (Int32.toInt_ofNat_of_lt h)

/-- Small counts are not changed. -/
theorem passes_of_lt {a n : ℕ} (h : a + n < 2 ^ 31) :
    Passes a n ↔ 3 ≤ a + n ∧ ¬(a + n = 3 ∧ n = 3) := by
  unfold Passes
  rw [bmod_of_lt h, bmod_of_lt (Nat.lt_of_le_of_lt (Nat.le_add_left n a) h)]
  omega

section
variable {isAlpha isNumber : Char → Bool}

theorem Good.mono {s t : List Char} (h : Good isAlpha isNumber s) (hst : s <+: t) :
    Good isAlpha isNumber t := by
  have ha := hst.sublist.countP_le (p := isAlpha)
  have hn := hst.sublist.countP_le (p := isNumber)
  unfold Good at h ⊢
  omega

/-- A good token becomes good at one of its characters. -/
theorem Good.exists_concat {s : List Char} (h : Good isAlpha isNumber s) :
    ∃ u c v, s = u ++ c :: v ∧ ¬Good isAlpha isNumber u ∧
      Good isAlpha isNumber (u ++ [c]) := by
  induction s using List.reverseRecOn with
  | nil => exact absurd h.1 (by simp)
  | append_singleton s c ih =>
    by_cases hs : Good isAlpha isNumber s
    · obtain ⟨u, d, v, rfl, hu, hd⟩ := ih hs
      exact ⟨u, d, v ++ [c], by simp, hu, hd⟩
    · exact ⟨s, c, [], rfl, hs, h⟩

variable (isAlpha isNumber)

/-- The character that makes the token good begins before the byte whose index is the number of
characters. -/
def DecidedEarly (s : List Char) : Prop :=
  ∀ u c v, s = u ++ c :: v → ¬Good isAlpha isNumber u → Good isAlpha isNumber (u ++ [c]) →
    bytes u < s.length

/-- The characters that begin before that byte are not so many that the counters get it wrong. -/
def Countable (s : List Char) : Prop :=
  (scanned s.length 0 s).countP isAlpha + (scanned s.length 0 s).countP isNumber < 2 ^ 31 ∨
    Passes ((scanned s.length 0 s).countP isAlpha) ((scanned s.length 0 s).countP isNumber)

variable {isAlpha isNumber}

/-- Of a good token the loop gets to a good part if it is decided early. -/
theorem good_scanned_iff {s : List Char} (h : Good isAlpha isNumber s) :
    Good isAlpha isNumber (scanned s.length 0 s) ↔ DecidedEarly isAlpha isNumber s := by
  constructor
  · rintro hgood u c v rfl hu -
    have hin : u ++ [c] <+: scanned (u ++ c :: v).length 0 (u ++ c :: v) := by
      have hwhole : u ++ [c] <+: u ++ c :: v := ⟨v, (List.append_cons u c v).symm⟩
      obtain hle | hle := List.prefix_or_prefix_of_prefix hwhole (scanned_isPrefix _ 0 _)
      · exact hle
      -- a part that ends before `c` is not good
      obtain heq | hle := List.prefix_concat_iff.mp hle
      · exact ⟨[], by rw [List.append_nil, heq]⟩
      · exact absurd (hgood.mono hle) hu
    have hlt := concat_prefix_scanned.mp hin
    rwa [Nat.zero_add] at hlt
  · intro hearly
    obtain ⟨u, c, v, rfl, hu, hc⟩ := h.exists_concat
    have hlt := hearly u c v rfl hu hc
    exact hc.mono (concat_prefix_scanned.mpr (by rwa [Nat.zero_add]))

theorem judged_iff {s : List Char} :
    Judged isAlpha isNumber (String.ofList s) ↔
      (Passes ((scanned s.length 0 s).countP isAlpha) ((scanned s.length 0 s).countP isNumber) ↔
        Good isAlpha isNumber s) := by
  rw [← verdict_ofNat (bytes (scanned s.length 0 s))]
  constructor
  · rintro ⟨n, hn⟩
    have hwhole := hn (max n s.length) (Nat.le_max_left _ _)
    rw [isGoodToken_ofList (Nat.le_max_right _ _), String.toList_ofList] at hwhole
    rw [Except.ok.inj hwhole, decide_eq_true_iff]
  · intro h
    refine ⟨s.length, fun fuel hfuel => ?_⟩
    rw [isGoodToken_ofList hfuel, String.toList_ofList]
    refine congrArg Except.ok (Bool.eq_iff_iff.mpr ?_)
    rw [h, decide_eq_true_iff]

/-- The tokens that are judged on the whole. -/
theorem isGoodToken_whole_iff (isAlpha isNumber : Char → Bool) (str : String) :
    Judged isAlpha isNumber str ↔
      DecidedEarly isAlpha isNumber str.toList ∧ Countable isAlpha isNumber str.toList := by
  obtain ⟨s, rfl⟩ : ∃ s, str = String.ofList s := ⟨str.toList, String.ofList_toList.symm⟩
  rw [judged_iff, String.toList_ofList]
  by_cases hgood : Good isAlpha isNumber s
  · rw [iff_true_right hgood, ← good_scanned_iff hgood]
    unfold Countable
    generalize scanned s.length 0 s = part
    rcases Nat.lt_or_ge (part.countP isAlpha + part.countP isNumber) (2 ^ 31) with hlt | hge
    · rw [passes_of_lt hlt]
      exact ⟨fun h => ⟨h, .inl hlt⟩, fun h => h.1⟩
    · have hpart : Good isAlpha isNumber part := by
        unfold Good
        omega
      rw [or_iff_right (Nat.not_lt.mpr hge), and_iff_right hpart]
  · have hpart : ¬Good isAlpha isNumber (scanned s.length 0 s) := fun h =>
      hgood (h.mono (scanned_isPrefix _ _ _))
    have hlt : (scanned s.length 0 s).countP isAlpha +
        (scanned s.length 0 s).countP isNumber < 2 ^ 31 := by
      unfold Good at hpart
      omega
    refine iff_of_true (iff_of_false ?_ hgood) ⟨?_, .inl hlt⟩
    · rwa [passes_of_lt hlt]
    · rintro u c v rfl - hc
      exact absurd (hc.mono ⟨v, (List.append_cons u c v).symm⟩) hgood

/-- Of a Russian word of three letters the loop gets to two. -/
theorem isGoodToken_russian :
    isGoodToken (fun c => c.isAlpha || ('а' ≤ c && c ≤ 'я')) Char.isDigit 3 "дом" = .ok false ∧
      ¬Judged (fun c => c.isAlpha || ('а' ≤ c && c ≤ 'я')) Char.isDigit "дом" := by
  have hchars : "дом" = String.ofList ['д', 'о', 'м'] := rfl
  refine ⟨by decide, ?_⟩
  rw [hchars, judged_iff]
  decide

end

/-! ## The counts without a bound -/

section
variable {V Q : Type} (env : Xapian.Env V Q)

theorem countToken_eq (count idx : ℕ) (s : List Char) :
    Xapian.countToken env count idx s =
      ((scanned count idx s).countP env.isAlpha, (scanned count idx s).countP env.isNumber) := by
  induction s generalizing idx with
  | nil => rfl
  | cons c s ih =>
    rw [Xapian.countToken, scanned]
    split
    · rw [ih, List.countP_cons, List.countP_cons]
    · rfl

/-- The model of the translation is this one as long as the counters do not wrap around. -/
theorem isGoodToken_eq {s : List Char} {fuel : ℕ} (hfuel : s.length ≤ fuel)
    (hlt : (scanned s.length 0 s).countP env.isAlpha +
      (scanned s.length 0 s).countP env.isNumber < 2 ^ 31) :
    isGoodToken env.isAlpha env.isNumber fuel (String.ofList s) =
      .ok (Xapian.isGoodToken env (String.ofList s)) := by
  rw [isGoodToken_ofList hfuel]
  refine congrArg Except.ok (Bool.eq_iff_iff.mpr ?_)
  rw [verdict_ofNat, passes_of_lt hlt, Xapian.isGoodToken, String.toList_ofList,
    String.length_ofList, countToken_eq]
  simp only [Bool.and_eq_true, Bool.not_eq_true', decide_eq_false_iff_not,
    Bool.and_eq_false_imp, decide_eq_true_iff, not_and]
  omega

end

end Veda.Search.GoodToken
