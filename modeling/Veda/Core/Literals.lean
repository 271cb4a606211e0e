import Veda.Core.Uxxxx2utf8

/-! # Literals of ontology files

The escaped form in which the raptor library hands over a literal, and which literals `uxxxx2utf8`
gives back from it. -/

namespace Veda.Literals

/-! ## The escaped form -/

/-- A hexadecimal digit. -/
def hexDigit (d : ℕ) : UInt8 := if d < 10 then UInt8.ofNat (0x30 + d) else UInt8.ofNat (0x37 + d)

/-- The last `k` hexadecimal digits of a number. -/
def hexDigits : ℕ → ℕ → List UInt8
  | 0, _ => []
  | k + 1, n => hexDigits k (n / 16) ++ [hexDigit (n % 16)]

/-- The escaped form of a character. -/
def escapeChar (c : Char) : List UInt8 :=
  if c = '\\' then [0x5C, 0x5C]
  else if c = '"' then [0x5C, 0x22]
  else if c = '\n' then [0x5C, 0x6E]
  else if c = '\r' then [0x5C, 0x72]
  else if c = '\t' then [0x5C, 0x74]
  else if 0x20 ≤ c.toNat ∧ c.toNat < 0x7F then [UInt8.ofNat c.toNat]
  else if c.toNat ≤ 0xFFFF then 0x5C :: 0x75 :: hexDigits 4 c.toNat
  else 0x5C :: 0x55 :: hexDigits 8 c.toNat

/-- The escaped form of a text. -/
def escape (s : List Char) : List UInt8 := s.flatMap escapeChar

/-- The bytes of a text. -/
def utf8 (s : List Char) : List UInt8 := s.flatMap String.utf8EncodeChar

@[simp] theorem escape_nil : escape [] = [] := rfl

@[simp] theorem escape_cons (c : Char) (s : List Char) :
    escape (c :: s) = escapeChar c ++ escape s := rfl

@[simp] theorem escape_append (s t : List Char) : escape (s ++ t) = escape s ++ escape t :=
  List.flatMap_append

@[simp] theorem utf8_nil : utf8 [] = [] := rfl

@[simp] theorem utf8_cons (c : Char) (s : List Char) :
    utf8 (c :: s) = String.utf8EncodeChar c ++ utf8 s := rfl

@[simp] theorem utf8_append (s t : List Char) : utf8 (s ++ t) = utf8 s ++ utf8 t :=
  List.flatMap_append

/-! ## The kinds of characters -/

/-- Written as it is. -/
def Plain (c : Char) : Prop := 0x20 ≤ c.toNat ∧ c.toNat < 0x7F ∧ c ≠ '"' ∧ c ≠ '\\'

/-- Written as an escape of two characters that the loop knows. -/
def Short (c : Char) : Prop := c = '\n' ∨ c = '\t' ∨ c = '"'

/-- Written as `\uXXXX`. -/
def Coded (c : Char) : Prop :=
  (c.toNat < 0x20 ∧ c ≠ '\n' ∧ c ≠ '\r' ∧ c ≠ '\t') ∨ (0x7F ≤ c.toNat ∧ c.toNat ≤ 0xFFFF)

/-- Written as an escape that the loop does not know. -/
def Lost (c : Char) : Prop := c = '\r' ∨ 0xFFFF < c.toNat

theorem kinds (c : Char) : c = '\\' ∨ Lost c ∨ Plain c ∨ Short c ∨ Coded c := by
  unfold Lost Plain Short Coded
  rcases Nat.lt_or_ge c.toNat 0x20 with hlow | hlow
  · by_cases hn : c = '\n'
    · simp [hn]
    by_cases hr : c = '\r'
    · simp [hr]
    by_cases ht : c = '\t'
    · simp [ht]
    simp [hlow, hn, hr, ht]
  · by_cases hb : c = '\\'
    · simp [hb]
    by_cases hq : c = '"'
    · simp [hq]
    rcases Nat.lt_or_ge c.toNat 0x7F with hhigh | hhigh
    · exact .inr (.inr (.inl ⟨hlow, hhigh, hq, hb⟩))
    rcases Nat.lt_or_ge 0xFFFF c.toNat with hfar | hnear
    · exact .inr (.inl (.inr hfar))
    · exact .inr (.inr (.inr (.inr (.inr ⟨hhigh, hnear⟩))))

theorem toNat_ofNat {n : ℕ} (h : n < 256) : (UInt8.ofNat n).toNat = n :=
  Nat.mod_eq_of_lt h

theorem ofNat_ne {n m : ℕ} (h : n < 256) (hm : m < 256) (hne : n ≠ m) :
    UInt8.ofNat n ≠ UInt8.ofNat m := by
  intro heq
  apply hne
  rw [← toNat_ofNat h, heq, toNat_ofNat hm]

/-- No byte of another character is a backslash. -/
theorem backslash_notMem {c : Char} (h : c ≠ '\\') : 0x5C ∉ String.utf8EncodeChar c := by
  have hne : c.toNat ≠ 0x5C := fun heq => h (Char.toNat_inj.mp heq)
  have hval : c.val.toNat = c.toNat := rfl
  have hapart {n : ℕ} (hn : n < 256) (h : n ≠ 0x5C) : (0x5C : UInt8) ≠ UInt8.ofNat n :=
    (ofNat_ne hn (by decide) h).symm
  unfold String.utf8EncodeChar
  simp only [hval]
  split
  · simpa using hapart (by omega) hne
  split
  · simp only [List.mem_cons, not_or, List.not_mem_nil, not_false_iff, and_true]
    exact ⟨hapart (by omega) (by omega), hapart (by omega) (by omega)⟩
  split
  · simp only [List.mem_cons, not_or, List.not_mem_nil, not_false_iff, and_true]
    exact ⟨hapart (by omega) (by omega), hapart (by omega) (by omega),
      hapart (by omega) (by omega)⟩
  · simp only [List.mem_cons, not_or, List.not_mem_nil, not_false_iff, and_true]
    exact ⟨hapart (by omega) (by omega), hapart (by omega) (by omega),
      hapart (by omega) (by omega), hapart (by omega) (by omega)⟩

/-! ## The forms of the kinds -/

theorem escapeChar_of_plain {c : Char} (h : Plain c) :
    escapeChar c = [UInt8.ofNat c.toNat] := by
  obtain ⟨hlow, hhigh, hq, hb⟩ := h
  have hn : c ≠ '\n' := by rintro rfl; exact absurd hlow (by decide)
  have hr : c ≠ '\r' := by rintro rfl; exact absurd hlow (by decide)
  have ht : c ≠ '\t' := by rintro rfl; exact absurd hlow (by decide)
  simp [escapeChar, hq, hb, hn, hr, ht, hlow, hhigh]

theorem utf8EncodeChar_of_plain {c : Char} (h : Plain c) :
    String.utf8EncodeChar c = [UInt8.ofNat c.toNat] :=
  if_pos (Nat.le_of_lt_succ (Nat.lt_succ_of_lt h.2.1))

theorem byte_of_plain {c : Char} (h : Plain c) : UInt8.ofNat c.toNat ≠ 0x5C :=
  ofNat_ne (by have := h.2.1; omega) (by decide) fun heq => h.2.2.2 (Char.toNat_inj.mp heq)

theorem escapeChar_of_short {c : Char} (h : Short c) :
    ∃ e out, escapeChar c = [0x5C, e] ∧ shortOf e = some out ∧
      String.utf8EncodeChar c = [out] := by
  rcases h with rfl | rfl | rfl
  · exact ⟨0x6E, 0x0A, by decide, by decide, by decide⟩
  · exact ⟨0x74, 0x09, by decide, by decide, by decide⟩
  · exact ⟨0x22, 0x22, by decide, by decide, by decide⟩

theorem escapeChar_of_coded {c : Char} (h : Coded c) :
    escapeChar c = 0x5C :: 0x75 :: hexDigits 4 c.toNat := by
  have hne {d : Char} (hd : ¬Coded d) : c ≠ d := by rintro rfl; exact hd h
  have hb : c ≠ '\\' := hne (by unfold Coded; decide)
  have hq : c ≠ '"' := hne (by unfold Coded; decide)
  have hn : c ≠ '\n' := hne (by unfold Coded; decide)
  have hr : c ≠ '\r' := hne (by unfold Coded; decide)
  have ht : c ≠ '\t' := hne (by unfold Coded; decide)
  have hprint : ¬(0x20 ≤ c.toNat ∧ c.toNat < 0x7F) := by unfold Coded at h; omega
  have hnear : c.toNat ≤ 0xFFFF := by unfold Coded at h; omega
  rw [escapeChar, if_neg hb, if_neg hq, if_neg hn, if_neg hr, if_neg ht, if_neg hprint,
    if_pos hnear]

theorem escapeChar_of_far {c : Char} (h : 0xFFFF < c.toNat) :
    escapeChar c = 0x5C :: 0x55 :: hexDigits 8 c.toNat := by
  have hne {d : Char} (hd : d.toNat ≤ 0xFFFF) : c ≠ d := by
    rintro rfl
    exact absurd hd (Nat.not_le.mpr h)
  have hprint : ¬(0x20 ≤ c.toNat ∧ c.toNat < 0x7F) := by omega
  rw [escapeChar, if_neg (hne (by decide)), if_neg (hne (by decide)), if_neg (hne (by decide)),
    if_neg (hne (by decide)), if_neg (hne (by decide)), if_neg hprint,
    if_neg (Nat.not_le.mpr h)]

theorem escapeChar_of_lost {c : Char} (h : Lost c) :
    ∃ e rest, escapeChar c = 0x5C :: e :: rest ∧ e ≠ 0x75 ∧ e ≠ 0x5C ∧ shortOf e = none := by
  rcases h with rfl | hfar
  · exact ⟨0x72, [], by decide, by decide, by decide, by decide⟩
  · exact ⟨0x55, hexDigits 8 c.toNat, escapeChar_of_far hfar, by decide, by decide, by decide⟩

theorem hexValue_hexDigit {d : ℕ} (h : d < 16) : hexValue (hexDigit d) = some d := by
  have hall : ∀ d < 16, hexValue (hexDigit d) = some d := by decide
  exact hall d h

theorem length_hexDigits (k n : ℕ) : (hexDigits k n).length = k := by
  induction k generalizing n with
  | zero => rfl
  | succ k ih => rw [hexDigits, List.length_append, ih, List.length_singleton]

theorem toUint16_hexDigits {k n : ℕ} (h : n < 16 ^ k) : toUint16 (hexDigits k n) = some n := by
  induction k generalizing n with
  | zero =>
    rw [Nat.lt_one_iff.mp h]
    rfl
  | succ k ih =>
    have hdiv : n / 16 < 16 ^ k := by rw [Nat.pow_succ] at h; omega
    have ih := ih hdiv
    unfold toUint16 at ih ⊢
    rw [hexDigits, List.foldlM_append, ih]
    simp [hexValue_hexDigit (Nat.mod_lt n (by decide)), Nat.div_add_mod]

/-- The bytes of a character of the basic plane. -/
theorem appendDchar_toNat {c : Char} (h : c.toNat ≤ 0xFFFF) :
    appendDchar c.toNat = String.utf8EncodeChar c := by
  have hval : c.val.toNat = c.toNat := rfl
  unfold appendDchar String.utf8EncodeChar
  simp only [hval]
  split
  · rfl
  split
  · rw [Nat.add_comm 0xC0, Nat.add_comm 0x80, Nat.mod_eq_of_lt (b := 0x20) (by omega)]
  · rw [Nat.add_comm 0xE0, Nat.add_comm 0x80, Nat.add_comm 0x80,
      Nat.mod_eq_of_lt (b := 0x10) (by omega)]

/-! ## One character in the loop -/

/-- How far behind its first byte the loop looks at the form of a character. -/
def lookahead (c : Char) : ℕ := [0, 0, 1, 0, 0, 0, 6].getD (escapeChar c).length 0

/-- A character that is read as it was written. -/
def Copied (c : Char) : Prop := Plain c ∨ Short c ∨ Coded c

theorem lookahead_of_plain {c : Char} (h : Plain c) : lookahead c = 0 := by
  rw [lookahead, escapeChar_of_plain h]
  rfl

theorem lookahead_of_short {c : Char} (h : Short c) : lookahead c = 1 := by
  obtain ⟨e, out, hform, -, -⟩ := escapeChar_of_short h
  rw [lookahead, hform]
  rfl

theorem lookahead_of_coded {c : Char} (h : Coded c) : lookahead c = 6 := by
  rw [lookahead, escapeChar_of_coded h, List.length_cons, List.length_cons, length_hexDigits]
  rfl

theorem Coded.near {c : Char} (h : Coded c) : c.toNat ≤ 0xFFFF := by
  unfold Coded at h
  omega

theorem toUint16_of_coded {c : Char} (h : Coded c) (rest : List UInt8) :
    toUint16 ((hexDigits 4 c.toNat ++ rest).take 4) = some c.toNat := by
  have hlen := length_hexDigits 4 c.toNat
  rw [List.take_append_of_le_length (Nat.le_of_eq hlen.symm), List.take_of_length_le
    (Nat.le_of_eq hlen)]
  exact toUint16_hexDigits (Nat.lt_succ_of_le h.near)

section
variable {c : Char} {i : ℕ}

/-- The loop reads the form of a character. -/
theorem decode_copied (h : Copied c) (hlt : i + lookahead c < intEnd) (rest : List UInt8) :
    decode i (escapeChar c ++ rest) =
      (String.utf8EncodeChar c ++ ·) <$> decode (i + (escapeChar c).length) rest := by
  rcases h with h | h | h
  · rw [lookahead_of_plain h] at hlt
    rw [escapeChar_of_plain h, utf8EncodeChar_of_plain h]
    exact decode_byte hlt (byte_of_plain h)
  · rw [lookahead_of_short h] at hlt
    obtain ⟨e, out, hform, he, hbytes⟩ := escapeChar_of_short h
    rw [hform, hbytes]
    exact decode_short hlt he
  · rw [lookahead_of_coded h] at hlt
    rw [escapeChar_of_coded h, List.cons_append, List.cons_append,
      decode_u (Nat.lt_of_le_of_lt (by omega) hlt)]
    have hlen : (hexDigits 4 c.toNat ++ rest).length = 4 + rest.length := by
      rw [List.length_append, length_hexDigits]
    rw [if_pos ⟨hlt, by omega⟩, toUint16_of_coded h]
    have hdrop : (hexDigits 4 c.toNat ++ rest).drop 4 = rest :=
      List.drop_left' (length_hexDigits 4 _)
    simp only [hdrop, appendDchar_toNat h.near, List.length_cons, length_hexDigits]

/-- The counter gets too large for the form of a character. -/
theorem decode_cut (h : Copied c) (hge : ¬i + lookahead c < intEnd) (rest : List UInt8) :
    decode i (escapeChar c ++ rest) = .ok [] ∨
      decode i (escapeChar c ++ rest) = .error .rangeError := by
  rcases Nat.lt_or_ge i intEnd with hi | hi
  swap
  · exact .inl (decode_end hi _)
  rcases h with h | h | h
  · rw [lookahead_of_plain h] at hge
    exact absurd hi hge
  · rw [lookahead_of_short h] at hge
    obtain ⟨e, out, hform, -, -⟩ := escapeChar_of_short h
    rw [hform]
    exact .inr (decode_last hi (.inl (Nat.not_lt.mp hge)))
  · rw [lookahead_of_coded h] at hge
    rw [escapeChar_of_coded h]
    refine .inr ?_
    rcases Nat.lt_or_ge (i + 1) intEnd with hi' | hi'
    · exact (decode_u hi').trans (if_neg fun hcode => hge hcode.1)
    · exact decode_last hi (.inl hi')

theorem escapeChar_of_other (h : c = '\\' ∨ Lost c) :
    ∃ e rest, escapeChar c = 0x5C :: e :: rest ∧ e ≠ 0x75 ∧ shortOf e = none := by
  rcases h with rfl | h
  · exact ⟨0x5C, [], by decide, by decide, by decide⟩
  · obtain ⟨e, rest, hform, hu, -, he⟩ := escapeChar_of_lost h
    exact ⟨e, rest, hform, hu, he⟩

/-- Of another character the loop writes nothing or first a backslash. -/
theorem decode_other_head (h : c = '\\' ∨ Lost c) {rest r : List UInt8}
    (hr : decode i (escapeChar c ++ rest) = .ok r) : r = [] ∨ ∃ t, r = 0x5C :: t := by
  obtain ⟨e, tail, hform, hu, he⟩ := escapeChar_of_other h
  rw [hform] at hr
  rcases Nat.lt_or_ge i intEnd with hi | hi
  swap
  · rw [decode_end hi] at hr
    cases hr
    exact .inl rfl
  rcases Nat.lt_or_ge (i + 1) intEnd with hi' | hi'
  swap
  · rw [List.cons_append, decode_last hi (.inl hi')] at hr
    cases hr
  rw [List.cons_append, List.cons_append, decode_other hi' hu he] at hr
  obtain ⟨t, -, rfl⟩ := exists_of_map hr
  exact .inr ⟨t, rfl⟩

theorem Copied.ne (h : Copied c) : c ≠ '\\' := by
  rintro rfl
  revert h
  unfold Copied Plain Short Coded
  decide

/-- What is left of a row without backslashes behind a shorter one. -/
theorem exists_rest {a r w rest : List UInt8} (h : a ++ r = w ++ rest)
    (hlen : a.length < w.length) (hw : 0x5C ∉ w) :
    ∃ v, v ≠ [] ∧ 0x5C ∉ v ∧ r = v ++ rest := by
  obtain ⟨v, rfl, rfl⟩ | ⟨v, rfl, -⟩ := List.append_eq_append_iff.mp h
  · refine ⟨v, ?_, fun hmem => hw (List.mem_append_right _ hmem), rfl⟩
    rintro rfl
    rw [List.append_nil] at hlen
    exact Nat.lt_irrefl _ hlen
  · rw [List.length_append] at hlen
    omega

/-- What is written behind bytes that are no backslashes never makes up for them. -/
theorem decode_ne {w : List UInt8} (hne : w ≠ []) (hw : 0x5C ∉ w) (t : List Char) :
    decode i (escape t) ≠ .ok (w ++ utf8 t) := by
  induction t generalizing w i with
  | nil =>
    rw [escape_nil, decode_nil]
    intro h
    cases w with
    | nil => exact hne rfl
    | cons b w => cases h
  | cons c t ih =>
    intro h
    obtain ⟨b, w, rfl⟩ := List.exists_cons_of_ne_nil hne
    obtain ⟨hb, -⟩ := List.ne_and_not_mem_of_not_mem_cons hw
    rw [escape_cons, utf8_cons] at h
    have hkind : (c = '\\' ∨ Lost c) ∨ Copied c := or_assoc.mpr (kinds c)
    rcases hkind with hother | hcopied
    · obtain hnil | ⟨rest, hcons⟩ := decode_other_head hother h
      · cases hnil
      · exact hb (List.cons.inj hcons).1.symm
    by_cases hlt : i + lookahead c < intEnd
    swap
    · rcases decode_cut hcopied hlt (escape t) with hcut | hcut
      · rw [hcut] at h
        cases h
      · rw [hcut] at h
        cases h
    rw [decode_copied hcopied hlt] at h
    obtain ⟨r, hrest, heq⟩ := exists_of_map h
    rw [← List.append_assoc] at heq
    have hlen : (String.utf8EncodeChar c).length <
        (b :: w ++ String.utf8EncodeChar c).length := by
      rw [List.length_append, List.length_cons]
      omega
    have hno : 0x5C ∉ b :: w ++ String.utf8EncodeChar c := by
      intro hmem
      rcases List.mem_append.mp hmem with hmem | hmem
      · exact hw hmem
      · exact backslash_notMem hcopied.ne hmem
    obtain ⟨v, hv, hvno, rfl⟩ := exists_rest heq hlen hno
    exact ih hv hvno hrest

/-- The bytes of a text with another first character than a backslash do not begin with one. -/
theorem utf8_ne_cons (hc : c ≠ '\\') (t : List Char) (rest : List UInt8) :
    utf8 (c :: t) ≠ 0x5C :: rest := by
  intro h
  obtain ⟨b, bytes, hbytes⟩ := List.exists_cons_of_ne_nil (@String.utf8EncodeChar_ne_nil c)
  rw [utf8_cons, hbytes] at h
  apply backslash_notMem hc
  rw [hbytes, (List.cons.inj h).1]
  exact List.mem_cons_self

/-- A doubled backslash is never made up for. -/
theorem decode_doubled_ne (hi : i < intEnd) {t : List Char} {r : List UInt8} (j : ℕ)
    (hr : decode i (0x5C :: 0x5C :: escape t) = .ok r) :
    List.replicate j 0x5C ++ r ≠ utf8 t := by
  induction t generalizing i j r with
  | nil =>
    rcases Nat.lt_or_ge (i + 1) intEnd with hi' | hi'
    swap
    · rw [decode_last hi (.inl hi')] at hr
      cases hr
    rw [decode_other hi' (by decide) (by decide), escape_nil, decode_last hi' (.inr rfl)] at hr
    cases hr
  | cons c t ih =>
    rcases Nat.lt_or_ge (i + 1) intEnd with hi' | hi'
    swap
    · rw [decode_last hi (.inl hi')] at hr
      cases hr
    rw [decode_other hi' (by decide) (by decide)] at hr
    obtain ⟨r₁, hsecond, rfl⟩ := exists_of_map hr
    intro h
    have hfirst : utf8 (c :: t) = 0x5C :: (List.replicate j 0x5C ++ r₁) := by
      rw [← h, ← List.cons_append, ← List.replicate_succ, List.replicate_succ']
      simp
    by_cases hc : c = '\\'
    swap
    · exact utf8_ne_cons hc t _ hfirst
    subst hc
    -- the third backslash is read as the second one of a pair is
    have hform : escape ('\\' :: t) = 0x5C :: 0x5C :: escape t := rfl
    rcases Nat.lt_or_ge (i + 2) intEnd with hi₂ | hi₂
    swap
    · rw [hform, decode_last hi' (.inl hi₂)] at hsecond
      cases hsecond
    rw [hform, decode_other hi₂ (by decide) (by decide)] at hsecond
    obtain ⟨r₂, hthird, rfl⟩ := exists_of_map hsecond
    refine ih hi₂ (j + 1) hthird ?_
    have hrest : utf8 ('\\' :: t) = 0x5C :: utf8 t := rfl
    rw [hrest] at hfirst
    rw [(List.cons.inj hfirst).2, List.replicate_succ']
    simp

end

/-! ## Which literals arrive -/

/-- The character `c` is read back between `u` and `v`. The backslash of a text is read back where
the flag is set already and where it stands before a `u` that no four hexadecimal digits follow. -/
inductive ReadBack (u : List Char) : Char → List Char → Prop
  | plain : Plain c → (escape u).length < intEnd → ReadBack u c v
  | short : Short c → (escape u).length + 1 < intEnd → ReadBack u c v
  | coded : Coded c → (escape u).length + 6 < intEnd → ReadBack u c v
  | backslash : (∃ d ∈ u, Short d ∨ Coded d) → 4 ≤ (escape v).length →
    (∃ b ∈ (escape v).take 4, hexValue b = none) → (escape u).length + 7 < intEnd →
    ReadBack u '\\' ('u' :: v)

/-- Every character of `s` is read back behind `u`. -/
def AllBack (u s : List Char) : Prop := ∀ v c w, s = v ++ c :: w → ReadBack (u ++ v) c w

/-- The text is written as it is, or every character of it is read back. -/
def Arrives (s : List Char) : Prop := (∀ c ∈ s, Plain c) ∨ AllBack [] s

theorem allBack_nil (u : List Char) : AllBack u [] := by
  intro v c w h
  cases v <;> cases h

theorem allBack_cons {u s : List Char} {c : Char} :
    AllBack u (c :: s) ↔ ReadBack u c s ∧ AllBack (u ++ [c]) s := by
  constructor
  · intro h
    constructor
    · simpa using h [] c s rfl
    · intro v d w hs
      simpa using h (c :: v) d w (by rw [hs]; rfl)
  · rintro ⟨hc, hs⟩ v d w heq
    cases v with
    | nil =>
      cases heq
      simpa using hc
    | cons e v =>
      cases heq
      simpa using hs v d w rfl

theorem toUint16_eq_none_iff {qqq : List UInt8} :
    toUint16 qqq = none ↔ ∃ b ∈ qqq, hexValue b = none := by
  have hfold (v : ℕ) : qqq.foldlM (fun v c => (hexValue c).map (16 * v + ·)) v = none ↔
      ∃ b ∈ qqq, hexValue b = none := by
    induction qqq generalizing v with
    | nil => simp
    | cons b qqq ih =>
      simp only [List.foldlM_cons, List.mem_cons, exists_eq_or_imp]
      cases hb : hexValue b with
      | none => simp
      | some n => simpa using ih (16 * v + n)
  exact hfold 0

theorem Plain.not_short {c : Char} (h : Plain c) : ¬Short c := by
  rintro (rfl | rfl | rfl)
  · exact absurd h.1 (by decide)
  · exact absurd h.1 (by decide)
  · exact h.2.2.1 rfl

theorem Plain.not_coded {c : Char} (h : Plain c) : ¬Coded c := by
  have := h.1
  have := h.2.1
  unfold Coded
  omega

theorem Lost.not_copied {c : Char} (h : Lost c) : ¬Copied c := by
  rcases h with rfl | hfar
  · unfold Copied Plain Short Coded
    decide
  · rintro (h | h | h)
    · have := h.2.1
      omega
    · obtain rfl | rfl | rfl := h
      · exact absurd hfar (by decide)
      · exact absurd hfar (by decide)
      · exact absurd hfar (by decide)
    · have := h.near
      omega

theorem readBack_copied {u v : List Char} {c : Char} (h : Copied c) :
    ReadBack u c v ↔ (escape u).length + lookahead c < intEnd := by
  constructor
  · intro hback
    cases hback with
    | plain hkind hlt => rwa [lookahead_of_plain hkind]
    | short hkind hlt => rwa [lookahead_of_short hkind]
    | coded hkind hlt => rwa [lookahead_of_coded hkind]
    | backslash => exact absurd rfl h.ne
  · intro hlt
    rcases h with h | h | h
    · rw [lookahead_of_plain h] at hlt
      exact .plain h hlt
    · rw [lookahead_of_short h] at hlt
      exact .short h hlt
    · rw [lookahead_of_coded h] at hlt
      exact .coded h hlt

theorem readBack_backslash {u v : List Char} :
    ReadBack u '\\' v ↔ (∃ d ∈ u, Short d ∨ Coded d) ∧ ∃ w, v = 'u' :: w ∧
      4 ≤ (escape w).length ∧ (∃ b ∈ (escape w).take 4, hexValue b = none) ∧
      (escape u).length + 7 < intEnd := by
  constructor
  · intro h
    cases h with
    | plain hkind => exact absurd rfl (Copied.ne (.inl hkind))
    | short hkind => exact absurd rfl (Copied.ne (.inr (.inl hkind)))
    | coded hkind => exact absurd rfl (Copied.ne (.inr (.inr hkind)))
    | backslash hu hlen hnone hlt => exact ⟨hu, _, rfl, hlen, hnone, hlt⟩
  · rintro ⟨hu, w, rfl, hlen, hnone, hlt⟩
    exact .backslash hu hlen hnone hlt

/-- A character that is read back without the flag. -/
theorem ReadBack.copied {u v : List Char} {c : Char} (h : ReadBack u c v)
    (hu : ∀ d ∈ u, Plain d) : Copied c := by
  cases h with
  | plain h => exact .inl h
  | short h => exact .inr (.inl h)
  | coded h => exact .inr (.inr h)
  | backslash h =>
    obtain ⟨d, hd, hkind⟩ := h
    rcases hkind with hkind | hkind
    · exact absurd hkind (hu d hd).not_short
    · exact absurd hkind (hu d hd).not_coded

/-! ## Rows of characters that are written as they are -/

theorem escape_of_plain {x : List Char} (h : ∀ c ∈ x, Plain c) : escape x = utf8 x := by
  induction x with
  | nil => rfl
  | cons c x ih =>
    obtain ⟨hc, hx⟩ := List.forall_mem_cons.mp h
    rw [escape_cons, utf8_cons, escapeChar_of_plain hc, utf8EncodeChar_of_plain hc, ih hx]

theorem length_escape_of_plain {x : List Char} (h : ∀ c ∈ x, Plain c) :
    (escape x).length = x.length := by
  induction x with
  | nil => rfl
  | cons c x ih =>
    obtain ⟨hc, hx⟩ := List.forall_mem_cons.mp h
    rw [escape_cons, escapeChar_of_plain hc, List.length_append, ih hx, Nat.add_comm]
    rfl

theorem backslash_notMem_escape {x : List Char} (h : ∀ c ∈ x, Plain c) : 0x5C ∉ escape x := by
  intro hmem
  obtain ⟨c, hc, hmem⟩ := List.mem_flatMap.mp hmem
  rw [escapeChar_of_plain (h c hc), List.mem_singleton] at hmem
  exact byte_of_plain (h c hc) hmem.symm

theorem escapeChar_of_not_plain {c : Char} (h : ¬Plain c) :
    ∃ e rest, escapeChar c = 0x5C :: e :: rest := by
  rcases kinds c with rfl | hlost | hplain | hshort | hcoded
  · exact ⟨0x5C, [], rfl⟩
  · obtain ⟨e, rest, hform, -⟩ := escapeChar_of_lost hlost
    exact ⟨e, rest, hform⟩
  · exact absurd hplain h
  · obtain ⟨e, out, hform, -⟩ := escapeChar_of_short hshort
    exact ⟨e, [], hform⟩
  · exact ⟨0x75, _, escapeChar_of_coded hcoded⟩

/-- Bytes without a backslash are a row of such characters. -/
theorem exists_plain_of_take {n : ℕ} {s : List Char} (hlen : n ≤ (escape s).length)
    (hno : 0x5C ∉ (escape s).take n) :
    ∃ x t, s = x ++ t ∧ x.length = n ∧ ∀ c ∈ x, Plain c := by
  induction n generalizing s with
  | zero => exact ⟨[], s, rfl, rfl, by simp⟩
  | succ n ih =>
    cases s with
    | nil => cases hlen
    | cons c s =>
      by_cases hc : Plain c
      swap
      · obtain ⟨e, rest, hform⟩ := escapeChar_of_not_plain hc
        rw [escape_cons, hform] at hno
        exact absurd List.mem_cons_self hno
      rw [escape_cons, escapeChar_of_plain hc] at hlen hno
      obtain ⟨x, t, rfl, rfl, hx⟩ := ih (Nat.le_of_succ_le_succ hlen)
        (List.not_mem_of_not_mem_cons hno)
      exact ⟨c :: x, t, rfl, rfl, List.forall_mem_cons.mpr ⟨hc, hx⟩⟩

/-! ## The second backslash of a pair -/

theorem length_appendDchar_le (n : ℕ) : (appendDchar n).length ≤ 3 := by
  unfold appendDchar
  split
  · simp
  split
  · simp
  · simp

theorem hexValue_backslash : hexValue 0x5C = none := by decide

/-- A backslash that stands before the form of a hexadecimal number is read as an escape. -/
theorem decode_number_ne {k n : ℕ} {w : List Char} (hlen : 4 ≤ (escape w).length)
    (hq : toUint16 ((escape w).take 4) = some n) :
    (appendDchar n ++ ·) <$> decode k ((escape w).drop 4) ≠ .ok (utf8 ('u' :: w)) := by
  have hno : 0x5C ∉ (escape w).take 4 := by
    intro hmem
    rw [toUint16_eq_none_iff.mpr ⟨0x5C, hmem, hexValue_backslash⟩] at hq
    cases hq
  obtain ⟨x, t, rfl, hx4, hx⟩ := exists_plain_of_take hlen hno
  have hxlen : (escape x).length = 4 := (length_escape_of_plain hx).trans hx4
  rw [escape_append, List.drop_left' hxlen]
  intro h
  obtain ⟨r, hr, heq⟩ := exists_of_map h
  have hbytes : utf8 ('u' :: (x ++ t)) = (0x75 :: escape x) ++ utf8 t := by
    rw [utf8_cons, utf8_append, ← escape_of_plain hx]
    rfl
  rw [hbytes] at heq
  have hlen : (appendDchar n).length < (0x75 :: escape x).length := by
    have hcode := length_appendDchar_le n
    rw [List.length_cons, hxlen]
    omega
  have hno : 0x5C ∉ 0x75 :: escape x := by
    intro hmem
    rcases List.mem_cons.mp hmem with hmem | hmem
    · exact absurd hmem (by decide)
    · exact backslash_notMem_escape hx hmem
  obtain ⟨v, hv, hvno, rfl⟩ := exists_rest heq hlen hno
  exact decode_ne hv hvno t hr

theorem shortOf_ne {e out : UInt8} (he : shortOf e = some out) (hq : e ≠ 0x22) : out ≠ e := by
  unfold shortOf at he
  split at he
  · next hn =>
    cases he
    rw [hn]
    decide
  split at he
  · next ht =>
    cases he
    rw [ht]
    decide
  cases he

/-- Before any other character than a `u` the second backslash is one too many. -/
theorem decode_before_ne {k : ℕ} (hk : k + 1 < intEnd) {c : Char} (hu : c ≠ 'u')
    {v : List Char} : decode k (0x5C :: escape (c :: v)) ≠ .ok (utf8 (c :: v)) := by
  intro h
  by_cases hplain : Plain c
  · have hlt : c.toNat < 256 := by have := hplain.2.1; omega
    rw [escape_cons, escapeChar_of_plain hplain, List.singleton_append] at h
    have he : UInt8.ofNat c.toNat ≠ 0x75 :=
      ofNat_ne hlt (by decide) fun heq => hu (Char.toNat_inj.mp heq)
    have hq : UInt8.ofNat c.toNat ≠ 0x22 :=
      ofNat_ne hlt (by decide) fun heq => hplain.2.2.1 (Char.toNat_inj.mp heq)
    cases hshort : shortOf (UInt8.ofNat c.toNat) with
    | some out =>
      rw [decode_short hk hshort] at h
      obtain ⟨r, -, heq⟩ := exists_of_map h
      rw [utf8_cons, utf8EncodeChar_of_plain hplain] at heq
      exact shortOf_ne hshort hq (List.cons.inj heq).1
    | none =>
      rw [decode_other hk he hshort] at h
      obtain ⟨r, -, heq⟩ := exists_of_map h
      exact utf8_ne_cons hplain.2.2.2 v r heq.symm
  obtain ⟨e, rest, hform⟩ := escapeChar_of_not_plain hplain
  by_cases hb : c = '\\'
  · subst hb
    have hpair : escape ('\\' :: v) = 0x5C :: 0x5C :: escape v := rfl
    rw [hpair, decode_other hk (by decide) (by decide)] at h
    obtain ⟨r, hr, heq⟩ := exists_of_map h
    exact decode_doubled_ne hk 0 hr (List.cons.inj heq).2
  · rw [escape_cons, hform, List.cons_append, List.cons_append,
      decode_other hk (by decide) (by decide)] at h
    obtain ⟨r, -, heq⟩ := exists_of_map h
    exact utf8_ne_cons hb v r heq.symm

/-- The second backslash of a pair leaves nothing where it stands before a `u` without a number. -/
theorem decode_second {k : ℕ} (hk : k < intEnd) (v : List Char) :
    decode k (0x5C :: escape v) = .ok (utf8 v) ↔
      ∃ w, v = 'u' :: w ∧ 4 ≤ (escape w).length ∧
        (∃ b ∈ (escape w).take 4, hexValue b = none) ∧ k + 6 < intEnd ∧
        decode (k + 1) (escape v) = .ok (utf8 v) := by
  rcases Nat.lt_or_ge (k + 1) intEnd with hk' | hk'
  swap
  · rw [decode_last hk (.inl hk')]
    constructor
    · intro h
      cases h
    · rintro ⟨w, -, -, -, hlt, -⟩
      omega
  cases v with
  | nil =>
    rw [escape_nil, decode_last hk (.inr rfl)]
    constructor
    · intro h
      cases h
    · rintro ⟨w, hv, -⟩
      cases hv
  | cons c v =>
    by_cases hu : c = 'u'
    · subst hu
      have hform : escape ('u' :: v) = 0x75 :: escape v := rfl
      rw [hform, decode_u hk']
      by_cases hcode : k + 6 < intEnd ∧ 4 ≤ (escape v).length
      swap
      · rw [if_neg hcode]
        constructor
        · intro h
          cases h
        · rintro ⟨w, hw, hlen, -, hlt, -⟩
          cases hw
          exact absurd ⟨hlt, hlen⟩ hcode
      rw [if_pos hcode]
      cases hq : toUint16 ((escape v).take 4) with
      | some n =>
        refine iff_of_false (decode_number_ne hcode.2 hq) ?_
        rintro ⟨w, hw, -, hnone, -⟩
        cases hw
        rw [toUint16_eq_none_iff.mpr hnone] at hq
        cases hq
      | none =>
        constructor
        · intro h
          exact ⟨v, rfl, hcode.2, toUint16_eq_none_iff.mp hq, hcode.1, h⟩
        · rintro ⟨w, hw, -, -, -, h⟩
          exact h
    · refine iff_of_false ?_ (fun h => ?_)
      swap
      · obtain ⟨w, hw, -⟩ := h
        exact hu (List.cons.inj hw).1
      exact decode_before_ne hk' hu

theorem Lost.ne {c : Char} (h : Lost c) : c ≠ '\\' := by
  rintro rfl
  revert h
  unfold Lost
  decide

theorem ReadBack.not_lost {u v : List Char} {c : Char} (h : ReadBack u c v) : ¬Lost c := by
  intro hlost
  cases h with
  | plain hkind => exact hlost.not_copied (.inl hkind)
  | short hkind => exact hlost.not_copied (.inr (.inl hkind))
  | coded hkind => exact hlost.not_copied (.inr (.inr hkind))
  | backslash => exact hlost.ne rfl

/-! ## The loop over a text -/

/-- A character of the common kinds in front. -/
theorem decode_iff_cons {u s : List Char} {c : Char} (h : Copied c)
    (ih : decode (escape (u ++ [c])).length (escape s) = .ok (utf8 s) ↔ AllBack (u ++ [c]) s) :
    decode (escape u).length (escape (c :: s)) = .ok (utf8 (c :: s)) ↔ AllBack u (c :: s) := by
  rw [allBack_cons, readBack_copied h, ← ih, escape_cons, utf8_cons]
  by_cases hlt : (escape u).length + lookahead c < intEnd
  · have hlen : (escape (u ++ [c])).length = (escape u).length + (escapeChar c).length := by
      simp
    rw [decode_copied h hlt, hlen, and_iff_right hlt]
    constructor
    · intro hdecode
      obtain ⟨r, hr, heq⟩ := exists_of_map hdecode
      rw [hr, List.append_cancel_left heq]
    · intro hdecode
      rw [hdecode]
      rfl
  · refine iff_of_false ?_ (fun hback => hlt hback.1)
    intro hdecode
    rcases decode_cut h hlt (escape s) with hcut | hcut
    · rw [hcut] at hdecode
      have hnil := Except.ok.inj hdecode
      exact String.utf8EncodeChar_ne_nil (List.append_eq_nil_iff.mp hnil.symm).1
    · rw [hcut] at hdecode
      cases hdecode

/-- What the loop reads with the flag set. -/
theorem decode_iff {u : List Char} (hu : ∃ d ∈ u, Short d ∨ Coded d) (s : List Char) :
    decode (escape u).length (escape s) = .ok (utf8 s) ↔ AllBack u s := by
  induction s generalizing u with
  | nil =>
    rw [escape_nil, decode_nil]
    exact iff_of_true rfl (allBack_nil u)
  | cons c s ih =>
    have hu' : ∃ d ∈ u ++ [c], Short d ∨ Coded d := by
      obtain ⟨d, hd, hkind⟩ := hu
      exact ⟨d, List.mem_append_left _ hd, hkind⟩
    rcases kinds c with hb | hlost | hcopied
    · subst hb
      have hpair : escape ('\\' :: s) = 0x5C :: 0x5C :: escape s := rfl
      have hlen : (escape (u ++ ['\\'])).length = (escape u).length + 2 := by
        rw [escape_append, List.length_append]
        rfl
      rw [allBack_cons, ← ih hu', hlen, hpair, readBack_backslash]
      rcases Nat.lt_or_ge ((escape u).length + 1) intEnd with hk | hk
      swap
      · refine iff_of_false ?_ ?_
        · intro hdecode
          rcases Nat.lt_or_ge (escape u).length intEnd with hi | hi
          · rw [decode_last hi (.inl hk)] at hdecode
            cases hdecode
          · rw [decode_end hi] at hdecode
            cases hdecode
        · rintro ⟨⟨-, w, -, -, -, hlt⟩, -⟩
          omega
      have hfirst : decode (escape u).length (0x5C :: 0x5C :: escape s) =
          .ok (utf8 ('\\' :: s)) ↔
          decode ((escape u).length + 1) (0x5C :: escape s) = .ok (utf8 s) := by
        rw [decode_other hk (by decide) (by decide)]
        constructor
        · intro h
          obtain ⟨r, hr, heq⟩ := exists_of_map h
          exact hr.trans (congrArg Except.ok (List.cons.inj heq).2)
        · intro h
          rw [h]
          rfl
      rw [hfirst, decode_second hk]
      constructor
      · rintro ⟨w, hw, hlen4, hnone, hlt, hrest⟩
        exact ⟨⟨hu, w, hw, hlen4, hnone, hlt⟩, hrest⟩
      · rintro ⟨⟨-, w, hw, hlen4, hnone, hlt⟩, hrest⟩
        exact ⟨w, hw, hlen4, hnone, hlt, hrest⟩
    · refine iff_of_false ?_ ?_
      · intro hdecode
        have hne : c ≠ '\\' := hlost.ne
        obtain hnil | ⟨rest, hcons⟩ := decode_other_head (.inr hlost) hdecode
        · exact String.utf8EncodeChar_ne_nil (List.append_eq_nil_iff.mp hnil).1
        · exact utf8_ne_cons hne s rest hcons
      · intro hback
        exact (allBack_cons.mp hback).1.not_lost hlost
    · exact decode_iff_cons hcopied (ih hu')

/-! ## The loop before the flag is set -/

/-- Rows of characters that are written as they are, are read back as far as the counter goes. -/
theorem allBack_plain_append {u x s : List Char} (hx : ∀ c ∈ x, Plain c)
    (hlt : (escape u).length + x.length ≤ intEnd) :
    AllBack u (x ++ s) ↔ AllBack (u ++ x) s := by
  induction x generalizing u with
  | nil => rw [List.nil_append, List.append_nil]
  | cons c x ih =>
    obtain ⟨hc, hx⟩ := List.forall_mem_cons.mp hx
    have hlen : (escape (u ++ [c])).length = (escape u).length + 1 := by
      rw [escape_append, escape_cons, escapeChar_of_plain hc, List.length_append]
      rfl
    rw [List.length_cons] at hlt
    rw [List.cons_append, allBack_cons, ih hx (by omega), List.append_assoc,
      readBack_copied (.inl hc), lookahead_of_plain hc, and_iff_right (by omega)]
    rfl

/-- The text is cut at its first character that has another form. -/
theorem exists_first {s : List Char} (h : ¬∀ c ∈ s, Plain c) :
    ∃ x c t, s = x ++ c :: t ∧ (∀ c ∈ x, Plain c) ∧ ¬Plain c := by
  induction s with
  | nil => exact absurd (by simp) h
  | cons d s ih =>
    by_cases hd : Plain d
    · have hs : ¬∀ c ∈ s, Plain c := fun hs => h (List.forall_mem_cons.mpr ⟨hd, hs⟩)
      obtain ⟨x, c, t, rfl, hx, hc⟩ := ih hs
      exact ⟨d :: x, c, t, rfl, List.forall_mem_cons.mpr ⟨hd, hx⟩, hc⟩
    · exact ⟨[], d, s, rfl, by simp, hd⟩

theorem length_utf8EncodeChar_le (c : Char) : (String.utf8EncodeChar c).length ≤ 4 := by
  rw [String.length_utf8EncodeChar]
  exact Char.utf8Size_le_four c

theorem length_escapeChar {c : Char} :
    (String.utf8EncodeChar c).length ≤ (escapeChar c).length ∧
      (¬Plain c → (String.utf8EncodeChar c).length < (escapeChar c).length) := by
  have hfour := length_utf8EncodeChar_le c
  rcases kinds c with rfl | h | h | h | h
  · exact ⟨by decide, fun _ => by decide⟩
  · obtain rfl | hfar := h
    · exact ⟨by decide, fun _ => by decide⟩
    · have hlen : (escapeChar c).length = 10 := by
        rw [escapeChar_of_far hfar, List.length_cons, List.length_cons, length_hexDigits]
      omega
  · rw [escapeChar_of_plain h, utf8EncodeChar_of_plain h]
    exact ⟨Nat.le_refl 1, fun hne => absurd h hne⟩
  · obtain ⟨e, out, hform, -, hbytes⟩ := escapeChar_of_short h
    rw [hform, hbytes]
    exact ⟨by simp, fun _ => by simp⟩
  · have hlen : (escapeChar c).length = 6 := by
      rw [escapeChar_of_coded h, List.length_cons, List.length_cons, length_hexDigits]
    omega

theorem length_utf8_le (s : List Char) : (utf8 s).length ≤ (escape s).length := by
  induction s with
  | nil => exact Nat.le_refl 0
  | cons c s ih =>
    rw [utf8_cons, escape_cons, List.length_append, List.length_append]
    exact Nat.add_le_add (@length_escapeChar c).1 ih

/-- The escaped form of another text is not the text. -/
theorem escape_ne_utf8 {x t : List Char} {c : Char} (hc : ¬Plain c) :
    escape (x ++ c :: t) ≠ utf8 (x ++ c :: t) := by
  intro h
  have hlen := congrArg List.length h
  have hx := length_utf8_le x
  have ht := length_utf8_le t
  have hfirst := (@length_escapeChar c).2 hc
  rw [escape_append, utf8_append, escape_cons, utf8_cons] at hlen
  simp only [List.length_append] at hlen
  omega

/-- Backslashes behind which the escaped form of a text with a doubled one begins. -/
theorem doubled_take_ne {t : List Char} {p : ℕ} (hp : 1 ≤ p)
    (hb : (0x5C :: 0x5C :: escape t)[p]? = some 0x5C)
    (hnext : (0x5C :: 0x5C :: escape t)[p + 1]? ≠ some 0x5C) (j : ℕ) (rest : List UInt8) :
    List.replicate j 0x5C ++ (0x5C :: 0x5C :: escape t).take p ++ rest ≠ utf8 t := by
  induction t generalizing p j with
  | nil =>
    intro h
    obtain ⟨p, rfl⟩ := Nat.exists_eq_add_of_le' hp
    simp at h
  | cons c t ih =>
    obtain ⟨p, rfl⟩ := Nat.exists_eq_add_of_le' hp
    intro h
    have hfirst : utf8 (c :: t) =
        0x5C :: (List.replicate j 0x5C ++ (0x5C :: escape (c :: t)).take p ++ rest) := by
      rw [← h, List.take_succ_cons, ← List.cons_append, ← List.cons_append,
        ← List.replicate_succ, List.replicate_succ']
      simp
    by_cases hc : c = '\\'
    swap
    · exact utf8_ne_cons hc t _ hfirst
    subst hc
    have hform : escape ('\\' :: t) = 0x5C :: 0x5C :: escape t := rfl
    rw [hform] at hb hnext hfirst
    -- the escape that is undone is not one of the backslashes before the last pair
    match p, hb, hnext with
    | 0, _, hnext => exact hnext rfl
    | 1, _, hnext => exact hnext rfl
    | p + 2, hb, hnext =>
      refine ih (p := p + 1) (Nat.le_add_left 1 p) hb hnext (j + 1) ?_
      have hrest : utf8 ('\\' :: t) = 0x5C :: utf8 t := rfl
      rw [hrest] at hfirst
      rw [(List.cons.inj hfirst).2, List.replicate_succ', List.take_succ_cons]
      simp

/-- The loop comes to the first byte that is not copied by itself. -/
theorem uxxxx2utf8_skip {x : List Char} {so tail : List UInt8} {b : UInt8}
    (hx : ∀ d ∈ x, Plain d) (hi : (escape x).length < intEnd)
    (hso : so = escape x ++ b :: tail) :
    ∃ fuel, so.length ≤ fuel + 1 + (escape x).length ∧
      so.drop (escape x).length = b :: tail ∧
      uxxxx2utf8 so =
        Decoder.result so <$> loop so (fuel + 1) ⟨(escape x).length, [], false⟩ := by
  have hlen : so.length = (escape x).length + (tail.length + 1) := by
    rw [hso, List.length_append, List.length_cons]
  have hd : so.drop 0 = escape x ++ b :: tail := hso
  refine ⟨tail.length, by omega, by rw [hso, List.drop_left], ?_⟩
  rw [uxxxx2utf8_eq, hlen, loop_skip hd (backslash_notMem_escape hx) (by omega), Nat.zero_add]

/-- A text in which another escape comes first. -/
theorem uxxxx2utf8_ne {x t : List Char} {c : Char} (hx : ∀ d ∈ x, Plain d)
    (hc : c = '\\' ∨ Lost c) :
    uxxxx2utf8 (escape (x ++ c :: t)) ≠ .ok (utf8 (x ++ c :: t)) := by
  have hplain : ¬Plain c := by
    rcases hc with rfl | hlost
    · exact fun h => h.2.2.2 rfl
    · exact fun h => hlost.not_copied (.inl h)
  obtain ⟨e, tail, hform, hu, he⟩ := escapeChar_of_other hc
  intro hr
  have hne : escape (x ++ c :: t) ≠ utf8 (x ++ c :: t) := escape_ne_utf8 hplain
  generalize hso : escape (x ++ c :: t) = so at hr hne
  have hbytes : so = escape x ++ 0x5C :: e :: (tail ++ escape t) := by
    rw [← hso, escape_append, escape_cons, hform]
    rfl
  rcases Nat.lt_or_ge (escape x).length intEnd with hi | hi
  swap
  · have hd : so.drop 0 = escape x ++ 0x5C :: e :: (tail ++ escape t) := hbytes
    have hlen : (escape x).length ≤ so.length := by
      rw [hbytes, List.length_append]
      exact Nat.le_add_right _ _
    rw [uxxxx2utf8_eq, loop_plain hd (backslash_notMem_escape hx) (.inl (by omega)) hlen] at hr
    exact hne (Except.ok.inj hr)
  obtain ⟨fuel, hfuel, hat, hskip⟩ := uxxxx2utf8_skip hx hi hbytes
  rw [hskip] at hr
  rcases Nat.lt_or_ge ((escape x).length + 1) intEnd with hi' | hi'
  swap
  · rw [loop_turn hat hi, step_last hat hi (.inl hi')] at hr
    cases hr
  rw [loop_turn hat hi, step_other hat hi' hu he] at hr
  obtain hall | ⟨k, p, rest, hp, hb, hnext, hall⟩ :=
    loop_unstarted (i := (escape x).length + 1) (by omega) hr
  · exact hne hall.symm
  -- what is returned begins with the backslash that has been copied
  have hfirst : utf8 (x ++ c :: t) =
      0x5C :: (List.replicate k 0x5C ++ so.take p ++ rest) := by
    rw [hall]
    simp
  cases x with
  | cons d x =>
    have hdplain : Plain d := hx d List.mem_cons_self
    exact utf8_ne_cons hdplain.2.2.2 _ _ hfirst
  | nil =>
    rcases hc with rfl | hlost
    swap
    · exact utf8_ne_cons hlost.ne _ _ hfirst
    have hpair : so = 0x5C :: 0x5C :: escape t := hso.symm
    rw [hpair] at hb hnext hfirst
    exact doubled_take_ne hp hb hnext k rest (List.cons.inj hfirst).2.symm

/-- A text in which an escape that the loop knows comes first. -/
theorem uxxxx2utf8_first {x t : List Char} {c : Char} (hx : ∀ d ∈ x, Plain d)
    (hc : Short c ∨ Coded c) (hi : (escape x).length < intEnd) :
    uxxxx2utf8 (escape (x ++ c :: t)) =
      (escape x ++ ·) <$> decode (escape x).length (escape (c :: t)) := by
  have hform : ∃ e tail, escape (c :: t) = 0x5C :: e :: tail ∧
      (e = 0x75 → toUint16 (tail.take 4) ≠ none) ∧ (e ≠ 0x75 → shortOf e ≠ none) := by
    rcases hc with hshort | hcoded
    · obtain ⟨e, out, hform, he, -⟩ := escapeChar_of_short hshort
      refine ⟨e, escape t, by rw [escape_cons, hform]; rfl, ?_, ?_⟩
      · rintro rfl
        cases he
      · intro _ hnone
        rw [hnone] at he
        cases he
    · refine ⟨0x75, hexDigits 4 c.toNat ++ escape t, ?_, ?_, fun h => absurd rfl h⟩
      · rw [escape_cons, escapeChar_of_coded hcoded]
        rfl
      · intro _ hnone
        rw [toUint16_of_coded hcoded] at hnone
        cases hnone
  obtain ⟨e, tail, hform, hu, he⟩ := hform
  generalize hso : escape (x ++ c :: t) = so
  have hbytes : so = escape x ++ 0x5C :: e :: tail := by
    rw [← hso, escape_append, hform]
  have htake : so.take (escape x).length = escape x := by
    rw [hbytes, List.take_left]
  obtain ⟨fuel, hfuel, hat, hskip⟩ := uxxxx2utf8_skip hx hi hbytes
  rw [hskip, loop_first hat hi hfuel hu he, htake, hform]
  rfl

/-- The literals that arrive intact. -/
theorem uxxxx2utf8_escape_iff (s : List Char) :
    uxxxx2utf8 (escape s) = .ok (utf8 s) ↔ Arrives s := by
  by_cases hall : ∀ c ∈ s, Plain c
  · refine iff_of_true ?_ (.inl hall)
    have hd : (escape s).drop 0 = escape s ++ [] := by
      rw [List.drop_zero, List.append_nil]
    rw [uxxxx2utf8_eq, loop_plain hd (backslash_notMem_escape hall) (.inr rfl) (Nat.le_refl _),
      escape_of_plain hall]
  obtain ⟨x, c, t, rfl, hx, hc⟩ := exists_first hall
  have harrives : Arrives (x ++ c :: t) ↔ AllBack [] (x ++ c :: t) := or_iff_right hall
  rw [harrives]
  have hback (h : AllBack [] (x ++ c :: t)) : ReadBack x c t := h x c t rfl
  have hother (h : c = '\\' ∨ Lost c) :
      uxxxx2utf8 (escape (x ++ c :: t)) = .ok (utf8 (x ++ c :: t)) ↔
        AllBack [] (x ++ c :: t) := by
    refine iff_of_false (uxxxx2utf8_ne hx h) fun hall => ?_
    have hcopied := (hback hall).copied hx
    rcases h with rfl | hlost
    · exact hcopied.ne rfl
    · exact hlost.not_copied hcopied
  rcases kinds c with hb | hlost | hcopied
  · exact hother (.inl hb)
  · exact hother (.inr hlost)
  have hescape : Short c ∨ Coded c := hcopied.resolve_left hc
  rcases Nat.lt_or_ge (escape x).length intEnd with hi | hi
  swap
  · refine iff_of_false ?_ fun hall => ?_
    · have hd : (escape (x ++ c :: t)).drop 0 = escape x ++ escape (c :: t) := by
        rw [List.drop_zero, escape_append]
      rw [uxxxx2utf8_eq, loop_plain hd (backslash_notMem_escape hx) (.inl (by omega))
        (by rw [escape_append, List.length_append]; omega)]
      intro h
      exact escape_ne_utf8 hc (Except.ok.inj h)
    · have hlt := (readBack_copied hcopied).mp (hback hall)
      omega
  have hlen := length_escape_of_plain hx
  have hstarted : ∃ d ∈ x ++ [c], Short d ∨ Coded d :=
    ⟨c, List.mem_append_right _ List.mem_cons_self, hescape⟩
  have hnil : AllBack [] (x ++ c :: t) ↔ AllBack x (c :: t) :=
    allBack_plain_append hx (by rw [escape_nil, List.length_nil]; omega)
  rw [hnil, ← decode_iff_cons hcopied (decode_iff hstarted t), uxxxx2utf8_first hx hescape hi,
    utf8_append, ← escape_of_plain hx]
  constructor
  · intro h
    obtain ⟨r, hr, heq⟩ := exists_of_map h
    rw [hr, List.append_cancel_left heq]
  · intro h
    rw [h]
    rfl

/-- A path of Windows keeps its backslash doubled. -/
theorem uxxxx2utf8_path :
    uxxxx2utf8 (escape "C:\\dir".toList) = .ok (utf8 "C:\\\\dir".toList) ∧
      uxxxx2utf8 (escape "C:\\dir".toList) ≠ .ok (utf8 "C:\\dir".toList) := by
  decide

-- A tab is undone, and the loop looks for a number behind the last character.
example : uxxxx2utf8 (escape "\t\\u".toList) = .error .rangeError := by decide

end Veda.Literals
