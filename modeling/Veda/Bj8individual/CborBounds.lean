import Veda.Bj8individual.CborIndividual

/-! # Inside the input

Where the reader of `cbor8individual.d` goes in a string, whatever the individual is that it reads
into: what it takes of a string, and where it comes to a number that the end cuts off. -/

namespace Veda.Bj8individual.Cbor

/-! ## What the reader takes -/

/-- A header of `len` bytes begins the string. -/
inductive Head : List Byte → ℤ → ElementHeader → Prop
  | empty : Head [] 0 {}
  | plain (hn : readNumber (hh.toNat % 32) src = .ok (dPos, ld))
      (ht : MajorType.ofCode (hh.toNat / 32) = type) (hne : type ≠ .tag)
      (hl : type = .array ∨ type = .textString → ld.toNat ≤ (hh :: src).length) :
      Head (hh :: src) dPos { type := type, vLong := type.signed ld }
  | tagged (hn : readNumber (hh.toNat % 32) src = .ok (dPos, ld))
      (ht : MajorType.ofCode (hh.toNat / 32) = .tag) (hp : dPos ≤ (hh :: src).length)
      (h : Head ((hh :: src).drop dPos.toNat) len main) (hlen : 0 < len) :
      Head (hh :: src) (int (dPos + len)) { main with tag := ld.setWidth 8 }

/-- The reader comes to a header whose number of two, four or eight bytes is not all there. -/
inductive CutHead : List Byte → Prop
  | number (hl : 25 ≤ hh.toNat % 32 ∧ hh.toNat % 32 ≤ 27)
      (hs : src.length < 2 ^ (hh.toNat % 32 - 24)) : CutHead (hh :: src)
  | tagged (hn : readNumber (hh.toNat % 32) src = .ok (dPos, ld))
      (ht : MajorType.ofCode (hh.toNat / 32) = .tag) (hp : dPos ≤ (hh :: src).length)
      (h : CutHead ((hh :: src).drop dPos.toNat)) : CutHead (hh :: src)

/-- What the reader takes behind a header. -/
inductive Content where
  | nothing
  | text
  | decimal
  | elements (n : ℕ)

namespace ElementHeader

/-- A map has a key and a value whatever its number is, and a decimal two numbers. -/
def content (header : ElementHeader) : Content :=
  match header.type with
  | .textString => .text
  | .map => .elements (2 + 2 * (header.vLong.toInt - 1).toNat)
  | .array =>
    if header.tag = Tag.decimalFraction then .decimal else .elements header.vLong.toInt.toNat
  | _ => .nothing

/-- The number of a header is that of what is taken. -/
def announced (header : ElementHeader) : Bool :=
  match header.type with
  | .byteString => header.vLong = 0
  | .map => 1 ≤ header.vLong.toInt
  | .array =>
    if header.tag = Tag.decimalFraction then header.vLong = 2 else 0 ≤ header.vLong.toInt
  | _ => true

end ElementHeader

/-- A place in a string behind its begin. -/
abbrev Within (s : List Byte) (pos : ℤ) : Prop := 0 < pos ∧ pos ≤ s.length

/-- A place where a slice of the string may begin. -/
abbrev Inside (s : List Byte) (pos : ℤ) : Prop := 0 ≤ pos ∧ pos ≤ s.length

/-- What is left of a string from a place. -/
abbrev rest (s : List Byte) (pos : ℤ) : List Byte := s.drop pos.toNat

mutual

/-- An element of `len` bytes is taken of the string. It is marked by whether everything is there
that its headers announce. -/
inductive Takes : List Byte → ℤ → Bool → Prop
  | nothing (h : Head s pos hd) (hpos : pos ≠ 0) (hc : hd.content = .nothing) :
      Takes s pos (hd.announced && decide (pos ≤ s.length))
  | text (h : Head s pos hd) (hpos : pos ≠ 0) (hc : hd.content = .text) (hin : 0 ≤ pos)
      (he : int (pos + hd.vLong.toInt) = ep) (hle : pos ≤ ep ∧ ep ≤ s.length) :
      Takes s ep (decide (ep = pos + hd.vLong.toInt))
  | decimal (h : Head s pos hd) (hc : hd.content = .decimal) (hin : Within s pos)
      (hm : Head (rest s pos) len mantissa) (hp : int (pos + len) = pos') (hin' : Inside s pos')
      (he : Head (rest s pos') len' exponent) (hend : int (pos' + len') = ep) :
      Takes s ep (hd.announced && decide (0 < len ∧ 0 < len' ∧ ep ≤ s.length))
  | elements (h : Head s pos hd) (hpos : pos ≠ 0) (hc : hd.content = .elements n)
      (ha : TakesAll n s pos ep met) : Takes s ep (hd.announced && met)

/-- So many elements are taken of the string from a place to another one. -/
inductive TakesAll : ℕ → List Byte → ℤ → ℤ → Bool → Prop
  | nil : TakesAll 0 s pos pos (decide (pos ≤ s.length))
  | cons (hin : Within s pos) (he : Takes (rest s pos) len met) (hlen : 0 < len)
      (ha : TakesAll n s (int (pos + len)) ep met') : TakesAll (n + 1) s pos ep (met && met')

end

mutual

/-- The reader comes to a number that is cut off, in an element. -/
inductive Cut : List Byte → Prop
  | header (h : CutHead s) : Cut s
  | mantissa (h : Head s pos hd) (hc : hd.content = .decimal) (hin : Within s pos)
      (hm : CutHead (rest s pos)) : Cut s
  | exponent (h : Head s pos hd) (hc : hd.content = .decimal) (hin : Within s pos)
      (hm : Head (rest s pos) len mantissa) (hp : int (pos + len) = pos') (hin' : Inside s pos')
      (he : CutHead (rest s pos')) : Cut s
  | elements (h : Head s pos hd) (hpos : pos ≠ 0) (hc : hd.content = .elements n)
      (ha : CutAll n s pos) : Cut s

/-- The same in one of so many elements. -/
inductive CutAll : ℕ → List Byte → ℤ → Prop
  | here (hin : Within s pos) (he : Cut (rest s pos)) : CutAll (n + 1) s pos
  | later (hin : Within s pos) (he : Takes (rest s pos) len met) (hlen : 0 < len)
      (ha : CutAll n s (int (pos + len))) : CutAll (n + 1) s pos

end

/-! ## The property -/

/-- The reader ends without a read outside of the string: it rejects the string, or it takes an
element with everything that its headers announce. -/
def StaysInside (inStr : List Byte) : Prop :=
  ∀ individual, cbor2individual individual inStr = .error .thrown ∨
    ∃ pos individual', cbor2individual individual inStr = .ok (pos, individual') ∧
      (0 ≤ pos → Takes inStr pos true)

/-- The reader does not come to a number that the end cuts off, and where it takes an element,
everything is there that the headers of it announce. -/
structure Sound (inStr : List Byte) : Prop where
  whole : ¬Cut inStr
  met : ∀ pos, 0 ≤ pos → ¬Takes inStr pos false

/-! ## Headers -/

theorem int_lt (n : ℤ) : int n < 2147483648 := by
  unfold int
  omega

/-- A sum of places that does not become negative is the place behind. -/
theorem int_add {pos len : ℤ} (hpos : pos < 2147483648) (hlen : len < 2147483648)
    (h : 0 ≤ pos + len) (h' : 0 ≤ int (pos + len)) : int (pos + len) = pos + len := by
  unfold int at h' ⊢
  omega

theorem sliceFrom_eq (s : List Byte) (pos : ℤ) :
    sliceFrom s pos =
      if Inside s pos then .ok (rest s pos) else .error .thrown := by
  rw [sliceFrom, slice]
  by_cases h : Inside s pos
  · have hlen : ((s.length : ℤ) - pos).toNat = (s.drop pos.toNat).length := by
      rw [List.length_drop]
      omega
    rw [if_pos h, if_pos ⟨h.1, h.2, le_refl _⟩, hlen, List.take_length]
  · rw [if_neg h, if_neg fun h' => h ⟨h'.1, h'.2.1⟩]

section
variable {ld : ℕ} {src : List Byte}

/-- How the number of a header is read. -/
theorem readNumber_cases (hld : ld < 32) (src : List Byte) :
    (∃ dPos value, readNumber ld src = .ok (dPos, value) ∧ 0 < dPos ∧ dPos ≤ 129) ∨
      readNumber ld src = .error .thrown ∨
      readNumber ld src = .error .undefined ∧ (25 ≤ ld ∧ ld ≤ 27) ∧
        src.length < 2 ^ (ld - 24) := by
  have hpow : 2 ^ (ld - 24) ≤ 128 := Nat.pow_le_pow_right (by decide) (by omega : ld - 24 ≤ 7)
  have hnat : 0 < (if ld > 23 then 1 + 2 ^ (ld - 24) else 1) ∧
      (if ld > 23 then 1 + 2 ^ (ld - 24) else 1) ≤ 129 := by
    have := Nat.two_pow_pos (ld - 24)
    split <;> omega
  have hdPos : 0 < (((if ld > 23 then 1 + 2 ^ (ld - 24) else 1 : ℕ)) : ℤ) ∧
      (((if ld > 23 then 1 + 2 ^ (ld - 24) else 1 : ℕ)) : ℤ) ≤ 129 := by
    exact_mod_cast hnat
  rw [readNumber]
  by_cases hl : 24 ≤ ld ∧ ld ≤ 27
  · by_cases hs : 2 ^ (ld - 24) ≤ src.length
    · rw [if_pos hl, readWord, if_pos hs]
      exact .inl ⟨_, _, rfl, hdPos⟩
    · by_cases h1 : 2 ^ (ld - 24) = 1
      · rw [if_pos hl, readWord, if_neg hs, if_pos h1]
        exact .inr (.inl rfl)
      · have hne : ld ≠ 24 := by
          rintro rfl
          exact h1 rfl
        rw [if_pos hl, readWord, if_neg hs, if_neg h1]
        exact .inr (.inr ⟨rfl, by omega, by omega⟩)
  · rw [if_neg hl]
    exact .inl ⟨_, _, rfl, hdPos⟩

/-- A number that is cut off is read behind the end. -/
theorem readNumber_of_cut (hl : 25 ≤ ld ∧ ld ≤ 27) (hs : src.length < 2 ^ (ld - 24)) :
    readNumber ld src = .error .undefined := by
  have h1 : 2 ^ (ld - 24) ≠ 1 := by
    have := Nat.one_lt_two_pow (by omega : ld - 24 ≠ 0)
    omega
  rw [readNumber, if_pos (by omega), readWord, if_neg (by omega), if_neg h1]
  rfl

theorem readNumber_pos (hld : ld < 32) {dPos : ℤ} {value : BitVec 64}
    (h : readNumber ld src = .ok (dPos, value)) : 0 < dPos ∧ dPos ≤ 129 := by
  rcases readNumber_cases hld src with ⟨dPos', value', h', hp⟩ | h' | ⟨h', -⟩
  all_goals
    rw [h'] at h
    cases h
  exact hp

end

section
variable {hh : Byte} {src : List Byte} {fuel : ℕ} {dPos : ℤ} {ld : BitVec 64}

/-- The header of an element that is not tagged, behind its number. -/
theorem readTypeValue_plain {type : MajorType}
    (hn : readNumber (hh.toNat % 32) src = .ok (dPos, ld))
    (ht : MajorType.ofCode (hh.toNat / 32) = type) (hne : type ≠ .tag) :
    readTypeValue (fuel + 1) (hh :: src) =
      if (type = .array ∨ type = .textString) ∧ ld.toNat > (hh :: src).length then .error .thrown
      else .ok (dPos, { type := type, vLong := type.signed ld }) := by
  simp only [readTypeValue, hn, bind, Except.bind, ht, hne, if_false, MajorType.signed]
  split
  · rename_i hneg
    rw [hneg]
    rfl
  · split <;> rfl

/-- The header of a tagged element, behind the number of the tag. -/
theorem readTypeValue_tag (hn : readNumber (hh.toNat % 32) src = .ok (dPos, ld))
    (ht : MajorType.ofCode (hh.toNat / 32) = .tag) (hp : dPos ≤ (hh :: src).length) :
    readTypeValue (fuel + 1) (hh :: src) =
      match readTypeValue fuel (rest (hh :: src) dPos) with
      | .ok (len, main) =>
        if len ≤ 0 then .error .thrown
        else .ok (int (dPos + len), { main with tag := ld.setWidth 8 })
      | .error e => .error e := by
  have hin : Inside (hh :: src) dPos :=
    ⟨(readNumber_pos (Nat.mod_lt _ (by decide)) hn).1.le, hp⟩
  simp only [readTypeValue, hn, bind, Except.bind, ht, if_true, sliceFrom_eq, if_pos hin]
  cases readTypeValue fuel (rest (hh :: src) dPos) with
  | error e => rfl
  | ok p =>
    obtain ⟨len, main⟩ := p
    dsimp only
    split <;> rfl

theorem readTypeValue_error {e : Error} (hn : readNumber (hh.toNat % 32) src = .error e) :
    readTypeValue (fuel + 1) (hh :: src) = .error e := by
  simp only [readTypeValue, hn, bind, Except.bind]

theorem readTypeValue_tag_short (hn : readNumber (hh.toNat % 32) src = .ok (dPos, ld))
    (ht : MajorType.ofCode (hh.toNat / 32) = .tag) (hp : ¬dPos ≤ (hh :: src).length) :
    readTypeValue (fuel + 1) (hh :: src) = .error .thrown := by
  have hin : ¬Inside (hh :: src) dPos := fun h => hp h.2
  simp only [readTypeValue, hn, bind, Except.bind, ht, if_true, sliceFrom_eq, if_neg hin]

theorem length_rest_lt {s : List Byte} {pos : ℤ} (hs : s ≠ []) (hp : 0 < pos) :
    (rest s pos).length < s.length := by
  have := List.length_pos_iff.mpr hs
  rw [List.length_drop]
  omega

end

/-- What becomes of a header. -/
def HeadSpec (s : List Byte) : Except Error (ℤ × ElementHeader) → Prop
  | .ok (len, hd) => Head s len hd
  | .error .undefined => CutHead s
  | .error .thrown => True
  | .error .fuel => False

theorem readTypeValue_spec {fuel : ℕ} {s : List Byte} (hf : s.length < fuel) :
    HeadSpec s (readTypeValue fuel s) := by
  induction fuel generalizing s with
  | zero => exact absurd hf (Nat.not_lt_zero _)
  | succ fuel ih =>
    cases s with
    | nil => exact .empty
    | cons hh src =>
      have h32 : hh.toNat % 32 < 32 := Nat.mod_lt _ (by decide)
      rcases readNumber_cases h32 src with ⟨dPos, ld, hn, hpos, -⟩ | hn | ⟨hn, hl, hs⟩
      · by_cases ht : MajorType.ofCode (hh.toNat / 32) = .tag
        · by_cases hp : dPos ≤ (hh :: src).length
          · have hrest := length_rest_lt (List.cons_ne_nil hh src) hpos
            have hspec := @ih (rest (hh :: src) dPos) (by omega)
            rw [readTypeValue_tag hn ht hp]
            revert hspec
            cases readTypeValue fuel (rest (hh :: src) dPos) with
            | ok p =>
              obtain ⟨len, main⟩ := p
              intro hspec
              dsimp only
              split
              · trivial
              · rename_i hlen
                exact .tagged hn ht hp hspec (not_le.mp hlen)
            | error e =>
              cases e with
              | undefined => exact fun hspec => .tagged hn ht hp hspec
              | _ => exact fun hspec => hspec
          · rw [readTypeValue_tag_short hn ht hp]
            trivial
        · rw [readTypeValue_plain hn rfl ht]
          split
          · trivial
          · rename_i hl
            exact .plain hn rfl ht fun htype => not_lt.mp fun hgt => hl ⟨htype, hgt⟩
      · rw [readTypeValue_error hn]
        trivial
      · rw [readTypeValue_error hn]
        exact .number hl hs

theorem readTypeValue_of_head {fuel : ℕ} {s : List Byte} {len : ℤ} {hd : ElementHeader}
    (hf : s.length < fuel) (h : Head s len hd) : readTypeValue fuel s = .ok (len, hd) := by
  induction h generalizing fuel with
  | empty =>
    cases fuel with
    | zero => exact absurd hf (Nat.not_lt_zero _)
    | succ fuel => rfl
  | plain hn ht hne hl =>
    cases fuel with
    | zero => exact absurd hf (Nat.not_lt_zero _)
    | succ fuel =>
      rw [readTypeValue_plain hn ht hne, if_neg fun h => absurd (hl h.1) (not_le.mpr h.2)]
  | tagged hn ht hp h hlen ih =>
    cases fuel with
    | zero => exact absurd hf (Nat.not_lt_zero _)
    | succ fuel =>
      have hpos := (readNumber_pos (Nat.mod_lt _ (by decide)) hn).1
      rw [readTypeValue_tag hn ht hp, ih (lt_of_lt_of_le
        (length_rest_lt (List.cons_ne_nil _ _) hpos) (Nat.lt_succ_iff.mp hf))]
      exact if_neg (not_le.mpr hlen)

theorem readTypeValue_of_cutHead {fuel : ℕ} {s : List Byte} (hf : s.length < fuel)
    (h : CutHead s) : readTypeValue fuel s = .error .undefined := by
  induction h generalizing fuel with
  | number hl hs =>
    cases fuel with
    | zero => exact absurd hf (Nat.not_lt_zero _)
    | succ fuel => exact readTypeValue_error (readNumber_of_cut hl hs)
  | tagged hn ht hp h ih =>
    cases fuel with
    | zero => exact absurd hf (Nat.not_lt_zero _)
    | succ fuel =>
      have hpos := (readNumber_pos (Nat.mod_lt _ (by decide)) hn).1
      rw [readTypeValue_tag hn ht hp, ih (lt_of_lt_of_le
        (length_rest_lt (List.cons_ne_nil _ _) hpos) (Nat.lt_succ_iff.mp hf))]

theorem head_lt {s : List Byte} {len : ℤ} {hd : ElementHeader} (h : Head s len hd) :
    len < 2147483648 := by
  cases h with
  | empty => decide
  | plain hn =>
    have := (readNumber_pos (Nat.mod_lt _ (by decide)) hn).2
    omega
  | tagged => exact int_lt _

/-! ## Extents

What the reader does, without the individual: how far it goes, and whether everything is there that
the headers announce. -/

theorem Within.ne_nil {s : List Byte} {pos : ℤ} (h : Within s pos) : s ≠ [] := by
  rintro rfl
  exact absurd (lt_of_lt_of_le h.1 h.2) (lt_irrefl _)

theorem length_rest_within {s : List Byte} {pos : ℤ} (h : Within s pos) :
    (rest s pos).length < s.length := length_rest_lt h.ne_nil h.1

theorem length_rest_le (s : List Byte) (pos : ℤ) : (rest s pos).length ≤ s.length := by
  rw [List.length_drop]
  omega

/-- The extent of a decimal behind its header. -/
def decimalExtent (s : List Byte) (pos : ℤ) (announced : Bool) : Except Error (ℤ × Bool) :=
  if Within s pos then
    match readTypeValue (s.length + 1) (rest s pos) with
    | .ok (len, _) =>
      if Inside s (int (pos + len)) then
        match readTypeValue (s.length + 1) (rest s (int (pos + len))) with
        | .ok (len', _) =>
          let ep := int (int (pos + len) + len')
          .ok (ep, announced && decide (0 < len ∧ 0 < len' ∧ ep ≤ s.length))
        | .error e => .error e
      else .error .thrown
    | .error e => .error e
  else .error .thrown

mutual

/-- The extent of the element that begins a string. -/
def extent (s : List Byte) : Except Error (ℤ × Bool) :=
  match readTypeValue (s.length + 1) s with
  | .ok (pos, hd) =>
    if pos = 0 then .error .thrown
    else
      match hd.content with
      | .nothing => .ok (pos, hd.announced && decide (pos ≤ s.length))
      | .text =>
        let ep := int (pos + hd.vLong.toInt)
        if 0 ≤ pos ∧ pos ≤ ep ∧ ep ≤ s.length then .ok (ep, decide (ep = pos + hd.vLong.toInt))
        else .error .thrown
      | .decimal => decimalExtent s pos hd.announced
      | .elements n => (extentAll n s pos).map fun (ep, met) => (ep, hd.announced && met)
  | .error e => .error e
termination_by (s.length, 1, 0)

/-- The extent of so many elements. -/
def extentAll (n : ℕ) (s : List Byte) (pos : ℤ) : Except Error (ℤ × Bool) :=
  match n with
  | 0 => .ok (pos, decide (pos ≤ s.length))
  | n + 1 =>
    if _h : Within s pos then
      match extent (rest s pos) with
      | .ok (len, met) =>
        if 0 < len then
          (extentAll n s (int (pos + len))).map fun (ep, met') => (ep, met && met')
        else .error .thrown
      | .error e => .error e
    else .error .thrown
termination_by (s.length, 0, n)
decreasing_by
  · exact Prod.Lex.left _ _ (length_rest_within _h)
  · exact Prod.Lex.right _ (Prod.Lex.right _ (Nat.lt_succ_self _))

end

/-- What becomes of an element. -/
def Spec (s : List Byte) : Except Error (ℤ × Bool) → Prop
  | .ok (len, met) => Takes s len met
  | .error .undefined => Cut s
  | .error .thrown => True
  | .error .fuel => False

/-- What becomes of so many elements. -/
def SpecAll (n : ℕ) (s : List Byte) (pos : ℤ) : Except Error (ℤ × Bool) → Prop
  | .ok (ep, met) => TakesAll n s pos ep met
  | .error .undefined => CutAll n s pos
  | .error .thrown => True
  | .error .fuel => False

theorem extentAll_succ (n : ℕ) (s : List Byte) (pos : ℤ) :
    extentAll (n + 1) s pos =
      if Within s pos then
        match extent (rest s pos) with
        | .ok (len, met) =>
          if 0 < len then
            (extentAll n s (int (pos + len))).map fun (ep, met') => (ep, met && met')
          else .error .thrown
        | .error e => .error e
      else .error .thrown := by
  rw [extentAll]
  rfl

theorem decimalExtent_spec {s : List Byte} {pos : ℤ} {hd : ElementHeader} (h : Head s pos hd)
    (hc : hd.content = .decimal) : Spec s (decimalExtent s pos hd.announced) := by
  rw [decimalExtent]
  split
  · rename_i hin
    have hrest := length_rest_within hin
    have hm := @readTypeValue_spec (s.length + 1) (rest s pos) (by omega)
    revert hm
    cases readTypeValue (s.length + 1) (rest s pos) with
    | error e =>
      cases e with
      | undefined => exact fun hm => .mantissa h hc hin hm
      | _ => exact id
    | ok p =>
      obtain ⟨len, mantissa⟩ := p
      intro hm
      dsimp only
      split
      · rename_i hin'
        have hrest' := length_rest_le s (int (pos + len))
        have he := @readTypeValue_spec (s.length + 1) (rest s (int (pos + len))) (by omega)
        revert he
        cases readTypeValue (s.length + 1) (rest s (int (pos + len))) with
        | error e =>
          cases e with
          | undefined => exact fun he => .exponent h hc hin hm rfl hin' he
          | _ => exact id
        | ok p =>
          obtain ⟨len', exponent⟩ := p
          exact fun he => .decimal h hc hin hm rfl hin' he rfl
      · trivial
  · trivial

/-- The extent of elements, from those of shorter strings. -/
theorem extentAll_spec {s : List Byte}
    (ih : ∀ pos, Within s pos → Spec (rest s pos) (extent (rest s pos))) (n : ℕ) (pos : ℤ) :
    SpecAll n s pos (extentAll n s pos) := by
  induction n generalizing pos with
  | zero =>
    rw [extentAll]
    exact .nil
  | succ n ihn =>
    rw [extentAll_succ]
    split
    · rename_i hin
      have he := ih pos hin
      revert he
      cases extent (rest s pos) with
      | error e =>
        cases e with
        | undefined => exact fun he => .here hin he
        | _ => exact id
      | ok p =>
        obtain ⟨len, met⟩ := p
        intro he
        dsimp only
        split
        · rename_i hlen
          have ha := ihn (int (pos + len))
          revert ha
          cases extentAll n s (int (pos + len)) with
          | error e =>
            cases e with
            | undefined => exact fun ha => .later hin he hlen ha
            | _ => exact id
          | ok p => exact fun ha => .cons hin he hlen ha
        · trivial
    · trivial

/-- What is taken of a string, and where the reader comes to a number that is cut off, is as the
extents say. -/
theorem extent_spec (s : List Byte) : Spec s (extent s) := by
  induction hn : s.length using Nat.strong_induction_on generalizing s with
  | _ n ih =>
    subst hn
    have hshort : ∀ pos, Within s pos → Spec (rest s pos) (extent (rest s pos)) :=
      fun pos hin => ih _ (length_rest_within hin) _ rfl
    have hhead := @readTypeValue_spec (s.length + 1) s (Nat.lt_succ_self _)
    rw [extent]
    revert hhead
    cases readTypeValue (s.length + 1) s with
    | error e =>
      cases e with
      | undefined => exact fun h => .header h
      | _ => exact id
    | ok p =>
      obtain ⟨pos, hd⟩ := p
      intro h
      dsimp only
      split
      · trivial
      · rename_i hpos
        split
        · rename_i hc
          exact .nothing h hpos hc
        · rename_i hc
          split
          · rename_i hin
            exact .text h hpos hc hin.1 rfl hin.2
          · trivial
        · rename_i hc
          exact decimalExtent_spec h hc
        · rename_i n hc
          have ha := extentAll_spec hshort n pos
          revert ha
          cases extentAll n s pos with
          | error e =>
            cases e with
            | undefined => exact fun ha => .elements h hpos hc ha
            | _ => exact id
          | ok p => exact fun ha => .elements h hpos hc ha

/-- The extent of elements that are taken, from those of shorter strings. -/
theorem extentAll_of_takesAll {s : List Byte}
    (ih : ∀ pos len met, Within s pos → Takes (rest s pos) len met →
      extent (rest s pos) = .ok (len, met))
    {n : ℕ} {pos ep : ℤ} {met : Bool} (h : TakesAll n s pos ep met) :
    extentAll n s pos = .ok (ep, met) := by
  induction n generalizing pos met with
  | zero =>
    cases h
    rw [extentAll]
  | succ n ihn =>
    cases h with
    | cons hin he hlen ha =>
      rw [extentAll_succ, if_pos hin, ih _ _ _ hin he]
      dsimp only
      rw [if_pos hlen, ihn ha]
      rfl

/-- The extent of an element behind its header. -/
theorem extent_of_head {s : List Byte} {pos : ℤ} {hd : ElementHeader} (h : Head s pos hd)
    (hpos : pos ≠ 0) :
    extent s =
      match hd.content with
      | .nothing => .ok (pos, hd.announced && decide (pos ≤ s.length))
      | .text =>
        let ep := int (pos + hd.vLong.toInt)
        if 0 ≤ pos ∧ pos ≤ ep ∧ ep ≤ s.length then .ok (ep, decide (ep = pos + hd.vLong.toInt))
        else .error .thrown
      | .decimal => decimalExtent s pos hd.announced
      | .elements n => (extentAll n s pos).map fun (ep, met) => (ep, hd.announced && met) := by
  rw [extent, readTypeValue_of_head (Nat.lt_succ_self _) h]
  dsimp only
  rw [if_neg hpos]

theorem extent_of_takes {s : List Byte} {len : ℤ} {met : Bool} (h : Takes s len met) :
    extent s = .ok (len, met) := by
  induction hn : s.length using Nat.strong_induction_on generalizing s len met with
  | _ n ih =>
    subst hn
    have hlt := Nat.lt_succ_self s.length
    have hrest : ∀ pos, (rest s pos).length < s.length + 1 := fun pos =>
      lt_of_le_of_lt (length_rest_le s pos) hlt
    cases h with
    | nothing h hpos hc =>
      rw [extent_of_head h hpos, hc]
    | text h hpos hc hin he hle =>
      rw [extent_of_head h hpos, hc]
      dsimp only
      rw [he, if_pos ⟨hin, hle⟩]
    | decimal h hc hin hm hp hin' he hend =>
      rw [extent_of_head h (ne_of_gt hin.1), hc]
      dsimp only
      rw [decimalExtent, if_pos hin, readTypeValue_of_head (hrest _) hm]
      dsimp only
      rw [hp, if_pos hin', readTypeValue_of_head (hrest _) he]
      dsimp only
      rw [hend]
    | elements h hpos hc ha =>
      rw [extent_of_head h hpos, hc]
      dsimp only
      rw [extentAll_of_takesAll (fun pos len met hin he => ih _ (length_rest_within hin) he rfl) ha]
      rfl

theorem extentAll_of_cutAll {s : List Byte}
    (ih : ∀ pos, Within s pos → Cut (rest s pos) → extent (rest s pos) = .error .undefined)
    {n : ℕ} {pos : ℤ} (h : CutAll n s pos) : extentAll n s pos = .error .undefined := by
  induction n generalizing pos with
  | zero => cases h
  | succ n ihn =>
    cases h with
    | here hin he => rw [extentAll_succ, if_pos hin, ih _ hin he]
    | later hin he hlen ha =>
      rw [extentAll_succ, if_pos hin, extent_of_takes he]
      dsimp only
      rw [if_pos hlen, ihn ha]
      rfl

theorem extent_of_cut {s : List Byte} (h : Cut s) : extent s = .error .undefined := by
  induction hn : s.length using Nat.strong_induction_on generalizing s with
  | _ n ih =>
    subst hn
    have hlt := Nat.lt_succ_self s.length
    have hrest : ∀ pos, (rest s pos).length < s.length + 1 := fun pos =>
      lt_of_le_of_lt (length_rest_le s pos) hlt
    cases h with
    | header h => rw [extent, readTypeValue_of_cutHead hlt h]
    | mantissa h hc hin hm =>
      rw [extent_of_head h (ne_of_gt hin.1), hc]
      dsimp only
      rw [decimalExtent, if_pos hin, readTypeValue_of_cutHead (hrest _) hm]
    | exponent h hc hin hm hp hin' he =>
      rw [extent_of_head h (ne_of_gt hin.1), hc]
      dsimp only
      rw [decimalExtent, if_pos hin, readTypeValue_of_head (hrest _) hm]
      dsimp only
      rw [hp, if_pos hin', readTypeValue_of_cutHead (hrest _) he]
    | elements h hpos hc ha =>
      rw [extent_of_head h hpos, hc]
      dsimp only
      rw [extentAll_of_cutAll (fun pos hin he => ih _ (length_rest_within hin) he rfl) ha]
      rfl

/-! ## The reader -/

theorem takesAll_lt {n : ℕ} {s : List Byte} {pos ep : ℤ} {met : Bool} (h : TakesAll n s pos ep met)
    (hpos : pos < 2147483648) : ep < 2147483648 := by
  induction n generalizing pos met with
  | zero =>
    cases h
    exact hpos
  | succ n ih =>
    cases h with
    | cons hin he hlen ha => exact ih ha (int_lt _)

theorem takes_lt {s : List Byte} {len : ℤ} {met : Bool} (h : Takes s len met) :
    len < 2147483648 := by
  cases h with
  | nothing h => exact head_lt h
  | text h hpos hc hin he => exact he ▸ int_lt _
  | decimal h hc hin hm hp hin' he hend => exact hend ▸ int_lt _
  | elements h hpos hc ha => exact takesAll_lt ha (head_lt h)

/-- Two computations fail alike, or end at the same place. -/
def SamePlace {A B : Type} (x : Except Error (ℤ × A)) (y : Except Error (ℤ × B)) : Prop :=
  x.map (·.1) = y.map (·.1)

theorem SamePlace.cases {A B : Type} {x : Except Error (ℤ × A)} {y : Except Error (ℤ × B)}
    (h : SamePlace x y) :
    (∃ e, x = .error e ∧ y = .error e) ∨ ∃ len a b, x = .ok (len, a) ∧ y = .ok (len, b) := by
  cases x with
  | error e =>
    cases y with
    | error e' =>
      cases h
      exact .inl ⟨e, rfl, rfl⟩
    | ok q => cases h
  | ok p =>
    cases y with
    | error e' => cases h
    | ok q =>
      obtain ⟨len, a⟩ := p
      obtain ⟨len', b⟩ := q
      cases h
      exact .inr ⟨len, a, b, rfl, rfl⟩

theorem SamePlace.map_left {A B C : Type} {x : Except Error (ℤ × A)} {y : Except Error (ℤ × B)}
    (h : SamePlace x y) (f : A → C) : SamePlace (x.map fun p => (p.1, f p.2)) y := by
  rcases h.cases with ⟨e, rfl, rfl⟩ | ⟨len, a, b, rfl, rfl⟩
  · rfl
  · rfl

theorem SamePlace.map {A B C : Type} {x : Except Error (ℤ × A)} {y : Except Error (ℤ × B)}
    (h : SamePlace x y) (f : B → C) : SamePlace x (y.map fun q => (q.1, f q.2)) := by
  rcases h.cases with ⟨e, rfl, rfl⟩ | ⟨len, a, b, rfl, rfl⟩
  · rfl
  · rfl

/-- An element is read from a place on, and then the rest. -/
def withElement {A : Type} (fuel : ℕ) (individual : Individual) (src : List Byte) (pos : ℤ)
    (subjectUri predicateUri : Option Text)
    (f : ℤ → Option Text → Individual → Except Error A) : Except Error A :=
  match sliceFrom src pos with
  | .ok src =>
    match readElement fuel individual src subjectUri predicateUri with
    | .ok (len, key, individual) => if len ≤ 0 then .error .thrown else f len key individual
    | .error e => .error e
  | .error e => .error e

section
variable {fuel n : ℕ} {individual : Individual} {src : List Byte} {pos : ℤ}
  {subjectUri predicateUri : Option Text}

theorem readItems_withElement :
    readItems (fuel + 1) (n + 1) individual src pos subjectUri predicateUri =
      withElement fuel individual src pos subjectUri predicateUri fun len _ individual =>
        readItems fuel n individual src (int (pos + len)) subjectUri predicateUri := by
  rw [readItems, withElement]
  cases sliceFrom src pos with
  | error e => rfl
  | ok t =>
    simp only [bind, Except.bind]
    cases readElement fuel individual t subjectUri predicateUri with
    | error e => rfl
    | ok p =>
      dsimp only
      split <;> rfl

theorem readPairs_withElement :
    readPairs (fuel + 1) (n + 1) individual src pos subjectUri =
      withElement fuel individual src pos none none fun len key individual =>
        withElement fuel individual src (int (pos + len)) subjectUri key fun len' _ individual =>
          readPairs fuel n individual src (int (int (pos + len) + len')) subjectUri := by
  rw [readPairs, withElement]
  cases sliceFrom src pos with
  | error e => rfl
  | ok t =>
    simp only [bind, Except.bind]
    cases readElement fuel individual t none none with
    | error e => rfl
    | ok p =>
      obtain ⟨len, key, individual⟩ := p
      dsimp only
      split
      · rfl
      · rw [withElement]
        cases sliceFrom src (int (pos + len)) with
        | error e => rfl
        | ok t =>
          simp only
          cases readElement fuel individual t subjectUri key with
          | error e => rfl
          | ok p =>
            dsimp only
            split <;> rfl

/-- With this fuel an element ends where its extent does. -/
def ReadsExtent (fuel : ℕ) : Prop :=
  ∀ (s : List Byte) (individual : Individual) (subjectUri predicateUri : Option Text),
    2 * s.length + 4 ≤ fuel →
      SamePlace (readElement fuel individual s subjectUri predicateUri) (extent s)

/-- The fuel is enough for the elements from a place on. -/
structure Enough (fuel : ℕ) (src : List Byte) (pos : ℤ) : Prop where
  ne_zero : pos ≠ 0
  lt : pos < 2147483648
  enough : 0 < pos → pos ≤ src.length → 2 * (src.length - pos) + 4 ≤ fuel

theorem Enough.next {len : ℤ} (h : Enough fuel src pos) (hin : Within src pos) (hlen : 0 < len)
    (hlt : len < 2147483648) : Enough (fuel - 1) src (int (pos + len)) := by
  have hpos := h.lt
  have hfuel := h.enough hin.1 hin.2
  refine ⟨?_, int_lt _, fun h0 hle => ?_⟩
  · unfold int
    have := hin.1
    omega
  · rw [int_add hpos hlt (by have := hin.1; omega) h0.le] at hle ⊢
    omega

theorem Enough.mono {fuel' : ℕ} (h : Enough fuel src pos) (hle : fuel ≤ fuel') :
    Enough fuel' src pos :=
  ⟨h.ne_zero, h.lt, fun h0 hin => (h.enough h0 hin).trans (by exact_mod_cast hle)⟩

/-- An element and the rest end where the extents do, if the rest does. -/
theorem samePlace_withElement {A : Type} (hread : ReadsExtent fuel) (h : Enough fuel src pos)
    {f : ℤ → Option Text → Individual → Except Error (ℤ × A)}
    (hf : ∀ len key individual, Within src pos → 0 < len → len < 2147483648 →
      SamePlace (f len key individual) (extentAll n src (int (pos + len)))) :
    SamePlace (withElement fuel individual src pos subjectUri predicateUri f)
      (extentAll (n + 1) src pos) := by
  rw [withElement, extentAll_succ, sliceFrom_eq]
  by_cases hin : Within src pos
  · have hlen : 2 * (rest src pos).length + 4 ≤ fuel := by
      have := h.enough hin.1 hin.2
      have := hin.1
      have := hin.2
      rw [List.length_drop]
      omega
    rw [if_pos ⟨hin.1.le, hin.2⟩, if_pos hin]
    dsimp only
    rcases (hread _ individual subjectUri predicateUri hlen).cases with
      ⟨e, hr, he⟩ | ⟨len, p, met, hr, he⟩
    · rw [hr, he]
      rfl
    · rw [hr, he]
      dsimp only
      have htakes := extent_spec (rest src pos)
      rw [he] at htakes
      by_cases hle : len ≤ 0
      · rw [if_pos hle, if_neg (not_lt.mpr hle)]
        rfl
      · rw [if_neg hle, if_pos (not_le.mp hle)]
        exact (hf len p.1 p.2 hin (not_le.mp hle) (takes_lt htakes)).map _
  · have hpos := h.ne_zero
    rw [if_neg fun h' => hin ⟨lt_of_le_of_ne h'.1 hpos.symm, h'.2⟩, if_neg hin]
    rfl

theorem samePlace_readItems (hread : ∀ fuel' < fuel, ReadsExtent fuel')
    (h : Enough (fuel - 1) src pos) (hfuel : 0 < fuel) :
    SamePlace (readItems fuel n individual src pos subjectUri predicateUri)
      (extentAll n src pos) := by
  induction n generalizing fuel individual pos with
  | zero =>
    cases fuel <;> rw [extentAll, readItems] <;> rfl
  | succ n ih =>
    cases fuel with
    | zero => exact absurd hfuel (lt_irrefl _)
    | succ fuel =>
      rw [readItems_withElement]
      refine samePlace_withElement (hread fuel (Nat.lt_succ_self _)) h
        fun len key individual hin hlen hlt => ?_
      have hpos : 0 < fuel := by
        have := h.enough hin.1 hin.2
        have := hin.2
        simp only [Nat.add_sub_cancel] at *
        omega
      exact ih (fun fuel' hlt => hread fuel' (Nat.lt_succ_of_lt hlt)) (h.next hin hlen hlt) hpos

theorem samePlace_readPairs (hread : ∀ fuel' < fuel, ReadsExtent fuel')
    (h : Enough (fuel - 1) src pos) (hfuel : 0 < fuel) :
    SamePlace (readPairs fuel n individual src pos subjectUri) (extentAll (2 * n) src pos) := by
  induction n generalizing fuel individual pos with
  | zero =>
    cases fuel <;> rw [extentAll, readPairs] <;> rfl
  | succ n ih =>
    cases fuel with
    | zero => exact absurd hfuel (lt_irrefl _)
    | succ fuel =>
      rw [readPairs_withElement]
      refine samePlace_withElement (hread fuel (Nat.lt_succ_self _)) h
        fun len key individual hin hlen hlt => ?_
      have hnext := (h.next hin hlen hlt)
      refine samePlace_withElement (hread fuel (Nat.lt_succ_self _)) (hnext.mono (by omega))
        fun len' key individual hin' hlen' hlt' => ?_
      have hpos : 0 < fuel := by
        have := h.enough hin.1 hin.2
        have := hin.2
        simp only [Nat.add_sub_cancel] at *
        omega
      exact ih (fun fuel' hlt => hread fuel' (Nat.lt_succ_of_lt hlt))
        ((hnext.next hin' hlen' hlt').mono (by omega)) hpos

/-- The predicates of a map, behind its first key and value. -/
def readRest (fuel : ℕ) (hd : ElementHeader) (src : List Byte) (subjectUri key val : Option Text)
    (individual : Individual) (pos : ℤ) : Except Error (ℤ × Option Text × Individual) :=
  let count := (hd.vLong.toInt - 1).toNat
  if key = some atSign then
    if subjectUri.isSome then
      (readPairs fuel count { Individual.init with uri := val.getD [] } src pos val).map
        fun p => (p.1, none, individual)
    else
      (readPairs fuel count { individual with uri := val.getD [] } src pos val).map
        fun p => (p.1, none, p.2)
  else (readPairs fuel count individual src pos none).map fun p => (p.1, none, p.2)

theorem readElement_map {hd : ElementHeader}
    (hh : readTypeValue (src.length + 1) src = .ok (pos, hd)) (hpos : pos ≠ 0)
    (ht : hd.type = .map) :
    readElement (fuel + 1) individual src subjectUri predicateUri =
      withElement fuel individual src pos none none fun len key individual =>
        withElement fuel individual src (int (pos + len)) none none fun len' val individual =>
          readRest fuel hd src subjectUri key val individual (int (int (pos + len) + len')) := by
  rw [readElement, hh, withElement]
  simp only [bind, Except.bind, if_neg hpos, ht]
  cases sliceFrom src pos with
  | error e => rfl
  | ok t =>
    simp only
    cases readElement fuel individual t none none with
    | error e => rfl
    | ok p =>
      obtain ⟨len, key, individual⟩ := p
      dsimp only
      split
      · rfl
      · rw [withElement]
        cases sliceFrom src (int (pos + len)) with
        | error e => rfl
        | ok t =>
          simp only
          cases readElement fuel individual t none none with
          | error e => rfl
          | ok p =>
            obtain ⟨len', val, individual⟩ := p
            dsimp only
            split
            · rfl
            · rw [readRest]
              dsimp only
              split
              · split
                · cases readPairs _ _ _ _ _ _ <;> rfl
                · cases readPairs _ _ _ _ _ _ <;> rfl
              · cases readPairs _ _ _ _ _ _ <;> rfl

theorem readElement_array {hd : ElementHeader}
    (hh : readTypeValue (src.length + 1) src = .ok (pos, hd)) (hpos : pos ≠ 0)
    (ht : hd.type = .array) (htag : hd.tag ≠ Tag.decimalFraction) :
    readElement (fuel + 1) individual src subjectUri predicateUri =
      (readItems fuel hd.vLong.toInt.toNat individual src pos subjectUri predicateUri).map
        fun p => (p.1, none, p.2) := by
  rw [readElement, hh]
  simp only [bind, Except.bind, if_neg hpos, ht, if_neg htag]
  cases readItems fuel hd.vLong.toInt.toNat individual src pos subjectUri predicateUri <;> rfl

theorem samePlace_readRest {hd : ElementHeader} {key val : Option Text}
    (hread : ∀ fuel' < fuel, ReadsExtent fuel') (h : Enough (fuel - 1) src pos) (hfuel : 0 < fuel) :
    SamePlace (readRest fuel hd src subjectUri key val individual pos)
      (extentAll (2 * (hd.vLong.toInt - 1).toNat) src pos) := by
  rw [readRest]
  dsimp only
  split
  · split
    · exact (samePlace_readPairs hread h hfuel).map_left fun _ => (none, individual)
    · exact (samePlace_readPairs hread h hfuel).map_left fun individual => (none, individual)
  · exact (samePlace_readPairs hread h hfuel).map_left fun individual => (none, individual)

/-- The first key and value of a map, and its other predicates. -/
theorem samePlace_map {hd : ElementHeader} (hfirst : ReadsExtent fuel)
    (hread : ∀ fuel' < fuel, ReadsExtent fuel') (h : Enough (fuel - 1) src pos) (hfuel : 0 < fuel) :
    SamePlace
      (withElement fuel individual src pos none none fun len key individual =>
        withElement fuel individual src (int (pos + len)) none none fun len' val individual =>
          readRest fuel hd src subjectUri key val individual (int (int (pos + len) + len')))
      (extentAll (2 + 2 * (hd.vLong.toInt - 1).toNat) src pos) := by
  rw [Nat.add_comm 2]
  refine samePlace_withElement hfirst (h.mono (Nat.sub_le _ _))
    fun len key individual hin hlen hlt => ?_
  have hnext := h.next hin hlen hlt
  refine samePlace_withElement hfirst (hnext.mono (by omega))
    fun len' val individual hin' hlen' hlt' => ?_
  exact samePlace_readRest hread ((hnext.next hin' hlen' hlt').mono (by omega)) hfuel

theorem samePlace_readText {hd : ElementHeader} :
    SamePlace (readText individual src pos hd subjectUri predicateUri)
      (if 0 ≤ pos ∧ pos ≤ int (pos + hd.vLong.toInt) ∧
          int (pos + hd.vLong.toInt) ≤ src.length then
        .ok (int (pos + hd.vLong.toInt),
          decide (int (pos + hd.vLong.toInt) = pos + hd.vLong.toInt))
      else .error .thrown) := by
  rw [readText, slice]
  by_cases h : 0 ≤ pos ∧ pos ≤ int (pos + hd.vLong.toInt) ∧
      int (pos + hd.vLong.toInt) ≤ src.length
  · rw [if_pos h, if_pos h]
    cases subjectUri <;> cases predicateUri <;> rfl
  · rw [if_neg h, if_neg h]
    rfl

theorem samePlace_readDecimal {predicate : Text} {announced : Bool} (hpos : pos ≠ 0) :
    SamePlace (readDecimal individual src pos predicate) (decimalExtent src pos announced) := by
  rw [readDecimal, decimalExtent, sliceFrom_eq]
  by_cases hin : Within src pos
  · rw [if_pos ⟨hin.1.le, hin.2⟩, if_pos hin]
    simp only [bind, Except.bind]
    cases readTypeValue (src.length + 1) (rest src pos) with
    | error e => rfl
    | ok p =>
      obtain ⟨len, mantissa⟩ := p
      dsimp only
      rw [sliceFrom_eq]
      by_cases hin' : Inside src (int (pos + len))
      · rw [if_pos hin', if_pos hin']
        dsimp only
        cases readTypeValue (src.length + 1) (rest src (int (pos + len))) with
        | error e => rfl
        | ok p => rfl
      · rw [if_neg hin', if_neg hin']
        rfl
  · rw [if_neg fun h => hin ⟨lt_of_le_of_ne h.1 hpos.symm, h.2⟩, if_neg hin]
    rfl

/-- Enough fuel brings the reader to the end of an element. -/
theorem readsExtent (fuel : ℕ) : ReadsExtent fuel := by
  induction fuel using Nat.strong_induction_on with
  | _ fuel ih =>
    intro s individual subjectUri predicateUri hfuel
    cases fuel with
    | zero => omega
    | succ fuel =>
      have hread : ∀ fuel' < fuel, ReadsExtent fuel' := fun fuel' hlt => ih _ (by omega)
      have hspec := @readTypeValue_spec (s.length + 1) s (Nat.lt_succ_self _)
      rw [extent]
      cases hh : readTypeValue (s.length + 1) s with
      | error e =>
        rw [readElement, hh]
        rfl
      | ok p =>
        obtain ⟨pos, hd⟩ := p
        rw [hh] at hspec
        have hlt : pos < 2147483648 := head_lt hspec
        by_cases hpos : pos = 0
        · rw [readElement, hh]
          simp only [bind, Except.bind, if_pos hpos]
          rfl
        · have henough : Enough (fuel - 1) s pos := ⟨hpos, hlt, fun h0 hin => by omega⟩
          have hfuel0 : 0 < fuel := by omega
          dsimp only
          rw [if_neg hpos]
          cases ht : hd.type with
          | map =>
            have hcontent : hd.content = .elements (2 + 2 * (hd.vLong.toInt - 1).toNat) := by
              rw [ElementHeader.content, ht]
            rw [readElement_map hh hpos ht, hcontent]
            exact (samePlace_map (ih fuel (Nat.lt_succ_self _)) hread henough hfuel0).map _
          | textString =>
            have hcontent : hd.content = .text := by rw [ElementHeader.content, ht]
            rw [readElement, hh, hcontent]
            simp only [bind, Except.bind, if_neg hpos, ht]
            exact samePlace_readText
          | array =>
            by_cases htag : hd.tag = Tag.decimalFraction
            · have hcontent : hd.content = .decimal := by
                rw [ElementHeader.content, ht]
                exact if_pos htag
              rw [readElement, hh, hcontent]
              simp only [bind, Except.bind, if_neg hpos, ht, if_pos htag]
              exact samePlace_readDecimal hpos
            · have hcontent : hd.content = .elements hd.vLong.toInt.toNat := by
                rw [ElementHeader.content, ht]
                exact if_neg htag
              have hitems : SamePlace
                  (readItems fuel hd.vLong.toInt.toNat individual s pos subjectUri predicateUri)
                  (extentAll hd.vLong.toInt.toNat s pos) :=
                samePlace_readItems hread henough hfuel0
              rw [readElement_array hh hpos ht htag, hcontent]
              exact (hitems.map_left fun individual => (none, individual)).map _
          | _ =>
            have hcontent : hd.content = .nothing := by rw [ElementHeader.content, ht]
            rw [readElement, hh, hcontent]
            simp only [bind, Except.bind, if_neg hpos, ht]
            first
            | rfl
            | split <;> rfl

end

/-! ## Inside the input -/

/-- Elements that are all there end in the string. -/
theorem takesAll_le {n : ℕ} {s : List Byte} {pos ep : ℤ} (h : TakesAll n s pos ep true) :
    ep ≤ s.length := by
  generalize hm : true = met at h
  induction n generalizing pos met with
  | zero =>
    cases h
    exact of_decide_eq_true hm.symm
  | succ n ih =>
    cases h with
    | cons hin he hlen ha => exact ih _ (Bool.and_eq_true_iff.mp hm.symm).2.symm ha

/-- So does an element that is all there. -/
theorem takes_le {s : List Byte} {len : ℤ} (h : Takes s len true) : len ≤ s.length := by
  generalize hm : true = met at h
  cases h with
  | nothing => exact of_decide_eq_true (Bool.and_eq_true_iff.mp hm.symm).2
  | text h hpos hc hin he hle => exact hle.2
  | decimal => exact (of_decide_eq_true (Bool.and_eq_true_iff.mp hm.symm).2).2.2
  | elements h hpos hc ha =>
    obtain rfl := (Bool.and_eq_true_iff.mp hm.symm).2
    exact takesAll_le ha

theorem samePlace_cbor2individual (individual : Individual) (inStr : List Byte) :
    SamePlace (cbor2individual individual inStr) (extent inStr) := by
  have h := readsExtent (2 * inStr.length + 4) inStr individual none none (le_refl _)
  rw [cbor2individual]
  rcases h.cases with ⟨e, hr, he⟩ | ⟨len, p, met, hr, he⟩
  all_goals
    rw [hr, he]
    rfl

end Veda.Bj8individual.Cbor
