import Veda.Bj8individual.Compare
import Veda.Bj8individual.JsonIndividual
import Veda.FtIndexer.Slots
import Veda.Lib.Run

/-! # Module info

The file with the numbers of the last operation of a module and of the last one that is committed.
`put_info` overwrites the line in place, `get_info` reads what it finds. A reader that comes in
between sees the first bytes of the new line and the rest of the old one. -/

namespace Veda.Util.ModuleInfo

open Veda.Run Bj8individual Bj8individual.Json FtIndexer

/-- `struct MInfo` -/
structure MInfo where
  name : Text := []
  opId : BitVec 64 := 0
  committedOpId : BitVec 64 := 0
  isOk : Bool := false
  deriving DecidableEq

/-- The arguments of `put_info`. -/
structure Put where
  opId : BitVec 64
  committedOpId : BitVec 64
  deriving DecidableEq

/-- `op_id;committed_op_id;` -/
def Put.numbers (p : Put) : Text :=
  textOfInt p.opId.toInt ++ 59 :: (textOfInt p.committedOpId.toInt ++ [59])

section
variable (crc : Text → BitVec 32) (name : Text)

/-- The text of the hash. -/
def hashHex (data : Text) : Text :=
  (crcHexString (crc data)).map fun c => BitVec.ofNat 8 c.toNat

/-- The line that `put_info` writes. -/
def Put.record (p : Put) : Text :=
  let data := name ++ 59 :: p.numbers
  data ++ hashHex crc data ++ [10]

end

/-- The file when the first `k` bytes of the new text are written over the old one. -/
def torn (k : ℕ) (old new : Text) : Text := new.take k ++ old.drop k

/-- The text up to the first line feed. Without one the slice is out of range. -/
def firstLine (str : Text) : Option Text :=
  if str.contains 10 then some (str.takeWhile (· ≠ 10)) else none

def getInfo (content : Text) : MInfo :=
  let str := content.take 4096
  if 2 < str.length then
    match firstLine str with
    | none => {}
    | some str =>
      if 10 < str.length then
        match split str 59 with
        | [name, opId, committedOpId, _] =>
          match toLong opId with
          | .error _ => { name }
          | .ok opId =>
            match toLong committedOpId with
            | .error _ => { name, opId }
            | .ok committedOpId => { name, opId, committedOpId, isOk := true }
        | _ => {}
      else {}
  else {}

/-! ## Calls of `put_info` -/

/-- The content of the file, and what was put so far, the last one first. -/
structure File where
  content : Text
  written : List Put

section
variable (crc : Text → BitVec 32) (name : Text)

def Put.step (p : Put) (file : File) : File where
  content := torn (p.record crc name).length file.content (p.record crc name)
  written := p :: file.written

/-- Whatever is read during the call was put by it or before. -/
def Put.NeverTorn (p : Put) (file : File) : Prop :=
  ∀ k, (getInfo (torn k file.content (p.record crc name))).isOk = true →
    ∃ q ∈ p :: file.written,
      (getInfo (torn k file.content (p.record crc name))).opId = q.opId ∧
      (getInfo (torn k file.content (p.record crc name))).committedOpId = q.committedOpId

end

/-- Texts of the same length that differ in one place at most. -/
def Near : Text → Text → Prop
  | [], [] => True
  | a :: as, b :: bs => (a = b ∧ Near as bs) ∨ as = bs
  | _, _ => False

instance decidableNear : ∀ u v : Text, Decidable (Near u v)
  | [], [] => .isTrue trivial
  | a :: as, b :: bs =>
    have := decidableNear as bs
    inferInstanceAs (Decidable ((a = b ∧ Near as bs) ∨ as = bs))
  | [], _ :: _ => .isFalse id
  | _ :: _, [] => .isFalse id

/-- The numbers are written as those before, but for one character. -/
def Put.NearLast (p : Put) (file : File) : Prop :=
  ∀ q ∈ file.written.head?, Near q.numbers p.numbers

instance (p : Put) (file : File) : Decidable (p.NearLast file) :=
  inferInstanceAs (Decidable (∀ q ∈ file.written.head?, Near q.numbers p.numbers))

/-! ## The text of a number -/

theorem textOfInt_natCast (n : ℕ) :
    textOfInt (n : ℤ) = (Nat.toDigits 10 n).map fun c => BitVec.ofNat 8 c.toNat := by
  change ascii (toString n) = _
  rw [ascii, Nat.toString_eq_ofList_toDigits, String.toList_ofList]

theorem textOfInt_neg {n : ℕ} (h : 0 < n) : textOfInt (-(n : ℤ)) =
    45 :: (Nat.toDigits 10 n).map fun c => BitVec.ofNat 8 c.toNat := by
  obtain ⟨m, rfl⟩ := Nat.exists_eq_add_of_le' h
  change ascii ("-" ++ toString (m + 1)) = _
  rw [ascii, Nat.toString_eq_ofList_toDigits, String.toList_append, String.toList_ofList,
    String.toList_ofList]
  rfl

theorem toLong_textOfInt (n : BitVec 64) : toLong (textOfInt n.toInt) = .ok n := by
  have hlt : n.toInt < 2 ^ 63 := BitVec.toInt_lt
  have hle : -2 ^ 63 ≤ n.toInt := BitVec.le_toInt n
  have hn : BitVec.ofInt 64 n.toInt = n := BitVec.ofInt_toInt
  have hdigits (m : ℕ) : ∀ c ∈ Nat.toDigits 10 m, c.isDigit = true := fun c hc =>
    Nat.isDigit_of_mem_toDigits (by decide) (by decide) hc
  have hvalue (m : ℕ) : Nat.ofDigitChars 10 (Nat.toDigits 10 m) 0 = m :=
    Nat.ofDigitChars_ten_toDigits
  rcases Int.lt_or_le n.toInt 0 with hneg | hpos
  · obtain ⟨m, hm⟩ := Int.eq_ofNat_of_zero_le (Int.neg_nonneg_of_nonpos (Int.le_of_lt hneg))
    have hm' : n.toInt = -(m : ℤ) := by omega
    have hof : -BitVec.ofNat 64 m = n := by
      rw [← hn, hm', BitVec.ofInt_neg, BitVec.ofInt_natCast]
    rw [hm', textOfInt_neg (by omega),
      toLong_minus_digits (hdigits m) Nat.toDigits_ne_nil (by rw [hvalue]; omega), hvalue, hof]
  · obtain ⟨m, hm⟩ := Int.eq_ofNat_of_zero_le hpos
    have hof : BitVec.ofNat 64 m = n := by
      rw [← hn, hm, BitVec.ofInt_natCast]
    rw [hm, textOfInt_natCast,
      toLong_digits (hdigits m) Nat.toDigits_ne_nil (by rw [hvalue]; omega), hvalue, hof]

/-- Neither the separator nor the end of a line. -/
def Plain (text : Text) : Prop := 59 ∉ text ∧ 10 ∉ text

instance (text : Text) : Decidable (Plain text) := inferInstanceAs (Decidable (_ ∧ _))

theorem plain_of_forall {text : Text} (h : ∀ b ∈ text, b ≠ 59 ∧ b ≠ 10) : Plain text :=
  ⟨fun hmem => (h 59 hmem).1 rfl, fun hmem => (h 10 hmem).2 rfl⟩

theorem plain_toDigits (n : ℕ) :
    ∀ b ∈ (Nat.toDigits 10 n).map fun c => BitVec.ofNat 8 c.toNat, b ≠ 59 ∧ b ≠ 10 := by
  intro b hb
  obtain ⟨c, hc, rfl⟩ := List.mem_map.mp hb
  obtain ⟨hle, hge, hnat⟩ := toNat_ofNat_of_isDigit
    (Nat.isDigit_of_mem_toDigits (by decide) (by decide) hc)
  constructor <;>
  · intro heq
    rw [heq] at hnat
    simp only [BitVec.reduceToNat] at hnat
    omega

theorem plain_textOfInt (n : ℤ) : Plain (textOfInt n) := by
  refine plain_of_forall ?_
  rcases Int.lt_or_le n 0 with hneg | hpos
  · obtain ⟨m, hm⟩ := Int.eq_ofNat_of_zero_le (Int.neg_nonneg_of_nonpos (Int.le_of_lt hneg))
    obtain rfl : n = -(m : ℤ) := by omega
    rw [textOfInt_neg (by omega)]
    exact List.forall_mem_cons.mpr ⟨by decide, plain_toDigits m⟩
  · obtain ⟨m, rfl⟩ := Int.eq_ofNat_of_zero_le hpos
    rw [textOfInt_natCast]
    exact plain_toDigits m

theorem length_hashHex (crc : Text → BitVec 32) (data : Text) : (hashHex crc data).length = 8 := rfl

theorem plain_hashHex (crc : Text → BitVec 32) (data : Text) : Plain (hashHex crc data) := by
  have hdigit : ∀ d < 16, BitVec.ofNat 8 (hexDigit d).toNat ≠ 59 ∧
      BitVec.ofNat 8 (hexDigit d).toNat ≠ 10 := by decide
  refine plain_of_forall fun b hb => ?_
  obtain ⟨c, hc, rfl⟩ := List.mem_map.mp hb
  obtain ⟨shift, -, rfl⟩ := List.mem_map.mp hc
  exact hdigit _ (Nat.mod_lt _ (by decide))

/-! ## Reading a line -/

section
variable {name h h' rest str u v u' v' : Text} {p q : Put} {k n : ℕ} {crc : Text → BitVec 32}

theorem firstLine_take (hstr : 10 ∉ str) :
    firstLine ((str ++ 10 :: rest).take n) = if str.length < n then some str else none := by
  split
  next hlt =>
    obtain ⟨m, rfl⟩ := Nat.exists_eq_add_of_lt hlt
    have hall : ∀ b ∈ str, decide (b ≠ 10) = true :=
      fun b hb => decide_eq_true (ne_of_mem_of_not_mem hb hstr)
    rw [Nat.add_assoc, List.take_length_add_append, List.take_succ_cons, firstLine,
      if_pos (by simp), List.takeWhile_append_of_pos hall, List.takeWhile_cons_of_neg (by simp),
      List.append_nil]
  next hge =>
    rw [List.take_append_of_le_length (Nat.le_of_not_lt hge), firstLine,
      if_neg fun hmem => hstr (List.mem_of_mem_take (List.contains_iff_mem.mp hmem))]

/-- What has been read if all is well. -/
theorem getInfo_ok (hok : (getInfo str).isOk = true) : ∃ line n o c x,
    firstLine (str.take 4096) = some line ∧ split line 59 = [n, o, c, x] ∧
      toLong o = .ok (getInfo str).opId ∧ toLong c = .ok (getInfo str).committedOpId := by
  generalize hr : getInfo str = r at hok ⊢
  unfold getInfo at hr
  dsimp only at hr
  split at hr
  next =>
    split at hr
    next => simp [← hr] at hok
    next line hline =>
      split at hr
      next =>
        split at hr
        next n o c x hsplit =>
          split at hr
          next => simp [← hr] at hok
          next opId ho =>
            split at hr
            next => simp [← hr] at hok
            next committedOpId hc =>
              subst hr
              exact ⟨line, n, o, c, x, hline, hsplit, ho, hc⟩
        next => simp [← hr] at hok
      next => simp [← hr] at hok
  next => simp [← hr] at hok

theorem getInfo_of_notMem (hstr : 10 ∉ str) : (getInfo str).isOk = false := by
  by_contra hne
  obtain ⟨line, n, o, c, x, hline, -⟩ := getInfo_ok (Bool.eq_true_of_not_eq_false hne)
  rw [firstLine,
    if_neg fun hmem => hstr (List.mem_of_mem_take (List.contains_iff_mem.mp hmem))] at hline
  contradiction

theorem split_line (hh : 59 ∉ h) : split (name ++ 59 :: (p.numbers ++ h)) 59 =
    name.splitOn 59 ++ [textOfInt p.opId.toInt, textOfInt p.committedOpId.toInt, h] := by
  rw [split, if_neg (by simp), List.splitOn_append_cons_self, Put.numbers, List.append_assoc,
    List.cons_append, List.append_assoc, List.singleton_append, List.splitOn_append_cons_self,
    List.splitOn_append_cons_self, List.splitOn_eq_singleton hh,
    List.splitOn_eq_singleton (plain_textOfInt _).1,
    List.splitOn_eq_singleton (plain_textOfInt _).1]
  rfl

theorem notMem_numbers : 10 ∉ p.numbers := by
  simpa [Put.numbers] using
    And.intro (plain_textOfInt p.opId.toInt).2 (plain_textOfInt p.committedOpId.toInt).2

/-- The numbers that are read from a line are those in it. -/
theorem getInfo_line (hname : 10 ∉ name) (hh : Plain h)
    (hok : (getInfo (name ++ 59 :: (p.numbers ++ h) ++ 10 :: rest)).isOk = true) :
    (getInfo (name ++ 59 :: (p.numbers ++ h) ++ 10 :: rest)).opId = p.opId ∧
      (getInfo (name ++ 59 :: (p.numbers ++ h) ++ 10 :: rest)).committedOpId =
        p.committedOpId := by
  obtain ⟨line, n, o, c, x, hline, hsplit, ho, hc⟩ := getInfo_ok hok
  have hplain : 10 ∉ name ++ 59 :: (p.numbers ++ h) := by
    simpa using And.intro hname (And.intro (@notMem_numbers p) hh.2)
  rw [firstLine_take hplain] at hline
  split at hline
  next =>
    cases hline
    rw [split_line hh.1] at hsplit
    have hlength := congrArg List.length hsplit
    rw [List.length_append, List.length_cons] at hlength
    obtain ⟨m, hm⟩ := List.length_eq_one_iff.mp (Nat.add_right_cancel hlength)
    rw [hm] at hsplit
    cases hsplit
    rw [toLong_textOfInt] at ho hc
    exact ⟨(Except.ok.inj ho).symm, (Except.ok.inj hc).symm⟩
  next => contradiction

/-- What was put is read. -/
theorem getInfo_of_line (hname : Plain name) (hh : Plain h) (hlength : h.length = 8)
    (hlt : (name ++ 59 :: (p.numbers ++ h)).length < 4096) :
    getInfo (name ++ 59 :: (p.numbers ++ h) ++ 10 :: rest) =
      ⟨name, p.opId, p.committedOpId, true⟩ := by
  have hplain : 10 ∉ name ++ 59 :: (p.numbers ++ h) := by
    simpa using And.intro hname.2 (And.intro (@notMem_numbers p) hh.2)
  have hlong : 10 < (name ++ 59 :: (p.numbers ++ h)).length := by
    simp only [List.length_append, List.length_cons, Put.numbers, hlength]
    omega
  have hread : 2 < ((name ++ 59 :: (p.numbers ++ h) ++ 10 :: rest).take 4096).length := by
    rw [List.length_take, List.length_append]
    omega
  rw [getInfo, if_pos hread, firstLine_take hplain, if_pos hlt]
  dsimp only
  rw [if_pos hlong, split_line hh.1, List.splitOn_eq_singleton hname.1]
  simp only [List.singleton_append, toLong_textOfInt]

/-! ## Lines over lines -/

theorem torn_self : torn k u u = u := List.take_append_drop k u

theorem torn_append (hlength : v.length = u.length) :
    torn k (u ++ u') (v ++ v') = torn k u v ++ torn (k - u.length) u' v' := by
  rw [torn, torn, torn, List.take_append, List.drop_append, hlength]
  rcases Nat.le_total k u.length with hle | hge
  · rw [Nat.sub_eq_zero_of_le hle, List.take_zero, List.append_nil, List.nil_append,
      List.append_assoc]
  · rw [List.drop_of_length_le hge, List.nil_append, List.append_nil, List.append_assoc]

theorem mem_torn {b : Byte} (h : b ∈ torn k u v) : b ∈ u ∨ b ∈ v :=
  (List.mem_append.mp h).symm.imp List.mem_of_mem_drop List.mem_of_mem_take

theorem Plain.torn_text (hu : Plain u) (hv : Plain v) : Plain (torn k u v) :=
  ⟨fun hmem => (mem_torn hmem).elim hu.1 hv.1, fun hmem => (mem_torn hmem).elim hu.2 hv.2⟩

theorem Near.length_eq (h : Near u v) : u.length = v.length := by
  induction u generalizing v with
  | nil =>
    cases v with
    | nil => rfl
    | cons => exact h.elim
  | cons a u ih =>
    cases v with
    | nil => exact h.elim
    | cons b v =>
      rcases h with ⟨-, h⟩ | rfl
      · exact congrArg (· + 1) (ih h)
      · rfl

/-- One of two texts that are near is what is seen of them. -/
theorem Near.torn_eq (h : Near u v) : torn k u v = u ∨ torn k u v = v := by
  induction u generalizing v k with
  | nil =>
    cases v with
    | nil => exact .inl torn_self
    | cons => exact h.elim
  | cons a u ih =>
    cases v with
    | nil => exact h.elim
    | cons b v =>
      cases k with
      | zero => exact .inl rfl
      | succ k =>
        rcases h with ⟨rfl, h⟩ | rfl
        · exact (ih h).imp (congrArg (a :: ·)) (congrArg (a :: ·))
        · exact .inr (congrArg (b :: ·) torn_self)

theorem record_eq : p.record crc name =
    name ++ 59 :: (p.numbers ++ hashHex crc (name ++ 59 :: p.numbers)) ++ [10] := by
  rw [Put.record, List.append_assoc name, List.cons_append]

theorem Near.length_record (h : Near q.numbers p.numbers) :
    (q.record crc name).length = (p.record crc name).length := by
  simp only [record_eq, List.length_append, List.length_cons, h.length_eq, length_hashHex]

/-- A line over one that is near has the numbers of one of them. -/
theorem Near.torn_record (hnear : Near q.numbers p.numbers) : ∃ r h, (r = q ∨ r = p) ∧ Plain h ∧
    torn k (q.record crc name) (p.record crc name) =
      name ++ 59 :: (r.numbers ++ h) ++ 10 :: [] := by
  have hlength := hnear.length_eq.symm
  have hhash : Plain (torn (k - name.length - 1 - q.numbers.length)
      (hashHex crc (name ++ 59 :: q.numbers)) (hashHex crc (name ++ 59 :: p.numbers))) :=
    (plain_hashHex crc _).torn_text (plain_hashHex crc _)
  have heq : torn k (q.record crc name) (p.record crc name) =
      name ++ 59 :: (torn (k - name.length - 1) q.numbers p.numbers ++
        torn (k - name.length - 1 - q.numbers.length)
          (hashHex crc (name ++ 59 :: q.numbers)) (hashHex crc (name ++ 59 :: p.numbers))) ++
        10 :: [] := by
    have hline (r : Put) : r.record crc name =
        name ++ ([59] ++ (r.numbers ++ (hashHex crc (name ++ 59 :: r.numbers) ++ [10]))) := by
      simp [record_eq]
    rw [hline, hline, torn_append rfl, torn_append rfl, torn_append hlength,
      torn_append (length_hashHex crc _), torn_self, torn_self, torn_self]
    simp
  rcases hnear.torn_eq (k := k - name.length - 1) with hr | hr <;> rw [hr] at heq
  · exact ⟨q, _, .inl rfl, hhash, heq⟩
  · exact ⟨p, _, .inr rfl, hhash, heq⟩

/-! ## Any calls -/

/-- The file is empty, or it is the last line that was put. -/
def Inv (crc : Text → BitVec 32) (name : Text) (file : File) : Prop :=
  (file.content = [] ∧ file.written = []) ∨
    ∃ q, file.written.head? = some q ∧ file.content = q.record crc name

variable {file : File}

/-- A line over nothing is read when it is there as a whole. -/
theorem torn_nil (hname : 10 ∉ name) : 10 ∉ torn k [] (p.record crc name) ∨
    torn k [] (p.record crc name) = p.record crc name := by
  have hplain : 10 ∉ name ++ 59 :: (p.numbers ++ hashHex crc (name ++ 59 :: p.numbers)) := by
    simpa using And.intro hname (And.intro (@notMem_numbers p) (plain_hashHex crc _).2)
  rw [torn, List.drop_nil, List.append_nil, record_eq]
  rcases Nat.lt_or_ge (name ++ 59 :: (p.numbers ++ hashHex crc (name ++ 59 :: p.numbers))).length k
    with hlt | hge
  · exact .inr (List.take_of_length_le (by rw [List.length_append]; exact hlt))
  · rw [List.take_append_of_le_length hge]
    exact .inl fun hmem => hplain (List.mem_of_mem_take hmem)

theorem Inv.neverTorn_of_nearLast (hname : 10 ∉ name) (hfile : Inv crc name file)
    (hnear : p.NearLast file) : p.NeverTorn crc name file := by
  intro k hok
  obtain ⟨hcontent, -⟩ | ⟨q, hlast, hcontent⟩ := hfile <;> rw [hcontent] at hok ⊢
  · rcases @torn_nil name p k crc hname with hnot | hall
    · rw [getInfo_of_notMem hnot] at hok
      contradiction
    · rw [hall, record_eq] at hok ⊢
      exact ⟨p, List.mem_cons_self, getInfo_line hname (plain_hashHex crc _) hok⟩
  · obtain ⟨r, h, hr, hh, htorn⟩ : ∃ r h, (r = q ∨ r = p) ∧ Plain h ∧
        torn k (q.record crc name) (p.record crc name) =
          name ++ 59 :: (r.numbers ++ h) ++ 10 :: [] := (hnear q hlast).torn_record
    rw [htorn] at hok ⊢
    refine ⟨r, ?_, getInfo_line hname hh hok⟩
    rcases hr with rfl | rfl
    · exact List.mem_cons_of_mem _ (List.mem_of_mem_head? hlast)
    · exact List.mem_cons_self

theorem Inv.step (hfile : Inv crc name file) (hnear : p.NearLast file) :
    Inv crc name (p.step crc name file) := by
  refine .inr ⟨p, rfl, ?_⟩
  rw [Put.step, torn, List.take_length]
  obtain ⟨hcontent, -⟩ | ⟨q, hlast, hcontent⟩ := hfile
  · rw [hcontent, List.drop_nil, List.append_nil]
  · rw [hcontent, ← (hnear q hlast).length_record, List.drop_length, List.append_nil]

end

/-- **Module info is never read torn** in the calls that change one character of the numbers at
most. -/
theorem neverTorn {crc : Text → BitVec 32} {name : Text} {puts : List Put} (hname : 10 ∉ name)
    (h : Along (Put.step crc name) Put.NearLast ⟨[], []⟩ puts) :
    Along (Put.step crc name) (Put.NeverTorn crc name) ⟨[], []⟩ puts :=
  h.of_invariant (I := Inv crc name) (.inl ⟨rfl, rfl⟩) (fun _ _ hfile hp => hfile.step hp)
    fun _ _ hfile hp => hfile.neverTorn_of_nearLast hname hp

/-- Numbers that grow one at a time. -/
theorem neverTorn_steps : Along (Put.step (fun _ => 0) (ascii "scripts-main"))
    (Put.NeverTorn (fun _ => 0) (ascii "scripts-main")) ⟨[], []⟩
    [⟨18, 17⟩, ⟨19, 17⟩, ⟨19, 18⟩, ⟨29, 18⟩] :=
  neverTorn (by decide +kernel) (by decide +kernel)

/-- The ten over a nine is a one when half of it is there. -/
theorem not_neverTorn : ¬ ∃ crc, Along (Put.step crc (ascii "scripts-main"))
    (Put.NeverTorn crc (ascii "scripts-main")) ⟨[], []⟩ [⟨9, 9⟩, ⟨10, 10⟩] := by
  rintro ⟨crc, h⟩
  obtain ⟨-, htorn, -⟩ := h
  have hname : Plain (ascii "scripts-main") := by decide +kernel
  have hline (p : Put) : p.record crc (ascii "scripts-main") = ascii "scripts-main" ++
      ([59] ++ (p.numbers ++ (hashHex crc (ascii "scripts-main" ++ 59 :: p.numbers) ++ [10]))) := by
    simp [record_eq]
  have hnine : (⟨9, 9⟩ : Put).numbers = [57, 59, 57, 59] := by decide +kernel
  have hten : (⟨10, 10⟩ : Put).numbers = [49, 48, 59, 49, 48, 59] := by decide +kernel
  have hone : (⟨1, 9⟩ : Put).numbers = [49, 59, 57, 59] := by decide +kernel
  have hfile : (Put.step crc (ascii "scripts-main") ⟨9, 9⟩ ⟨[], []⟩).content =
      (⟨9, 9⟩ : Put).record crc (ascii "scripts-main") := by
    rw [Put.step, torn, List.take_length, List.drop_nil, List.append_nil]
  have hread : torn 14 ((⟨9, 9⟩ : Put).record crc (ascii "scripts-main"))
      ((⟨10, 10⟩ : Put).record crc (ascii "scripts-main")) =
      ascii "scripts-main" ++ 59 :: ((⟨1, 9⟩ : Put).numbers ++
        hashHex crc (ascii "scripts-main" ++ 59 :: (⟨9, 9⟩ : Put).numbers)) ++ 10 :: [] := by
    have hlength : (ascii "scripts-main").length = 12 := by decide +kernel
    rw [hline, hline, torn_append rfl, torn_append rfl, torn_self, torn_self, hlength, hten, hone,
      hnine]
    simp [torn]
  have hinfo : getInfo (ascii "scripts-main" ++ 59 :: ((⟨1, 9⟩ : Put).numbers ++
        hashHex crc (ascii "scripts-main" ++ 59 :: (⟨9, 9⟩ : Put).numbers)) ++ 10 :: []) =
      ⟨ascii "scripts-main", 1, 9, true⟩ :=
    getInfo_of_line hname (plain_hashHex crc _) rfl (by
      rw [hone, List.length_append, List.length_cons, List.length_append, length_hashHex]
      decide +kernel)
  have hwritten := htorn 14
  rw [hfile, hread, hinfo] at hwritten
  obtain ⟨q, hmem, hop, hcommitted⟩ := hwritten rfl
  have hq : (⟨1, 9⟩ : Put) = q := by
    cases q
    congr
  subst hq
  have hnot : (⟨1, 9⟩ : Put) ∉ [⟨10, 10⟩, ⟨9, 9⟩] := by decide
  exact hnot hmem

end Veda.Util.ModuleInfo
