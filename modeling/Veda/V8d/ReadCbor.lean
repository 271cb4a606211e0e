import Veda.V8d.Cbor8json

/-! # Stored individuals as objects

What `cbor2jsobject` makes of the bytes that the store's own writer made of an individual. -/

namespace Veda.V8d.Cbor8json

open Bj8individual
open Bj8individual.Cbor (MajorType ElementHeader trueCode falseCode atSign)

/-! ## Headers -/

theorem readNumber_of_cbor {ld n : ℕ} {src : List Byte} {value : BitVec 64}
    (h : Cbor.readNumber ld src = .ok ((n : ℤ), value)) : readNumber ld src = .ok (n, value) := by
  have hword {n : ℕ} {value : BitVec 64} (h : Cbor.readWord n src = .ok value) :
      fromBuff n src = .ok value := by
    unfold Cbor.readWord at h
    unfold fromBuff
    split at h
    · next hle => rw [if_pos hle, ← h]
    · split at h <;> cases h
  unfold Cbor.readNumber at h
  unfold readNumber
  by_cases hld : 24 ≤ ld ∧ ld ≤ 27
  · simp only [if_pos hld] at h ⊢
    cases hw : Cbor.readWord (2 ^ (ld - 24)) src with
    | error e =>
      rw [hw] at h
      cases h
    | ok w =>
      rw [hw] at h
      have heq := Prod.mk.inj (Except.ok.inj h)
      rw [hword hw, ← heq.2]
      exact congrArg (fun n => Except.ok (n, w)) (Int.natCast_inj.mp heq.1)
  · simp only [if_neg hld] at h ⊢
    have heq := Prod.mk.inj (Except.ok.inj h)
    rw [← heq.2]
    exact congrArg (fun n => Except.ok (n, BitVec.ofNat 64 ld)) (Int.natCast_inj.mp heq.1)

section
variable {type : MajorType} {value : BitVec 64} {post : List Byte} {fuel : ℕ} {ePos : ℤ}

theorem readTypeValue_write (ht : type ≠ .tag ∧ type ≠ .none)
    (hv : type = .array ∨ type = .textString → value.toInt ≤ ePos) (header : ElementHeader) :
    readTypeValue (fuel + 1) (Cbor.writeTypeValue type value ++ post) ePos header =
      .ok ((Cbor.writeTypeValue type value).length,
        { header with type := type, vLong := type.signed value }) := by
  obtain ⟨hh, tail, hw, hc, hr⟩ := Cbor.writeTypeValue_eq type value
  have hr' := readNumber_of_cbor (hr post)
  have hlen : ¬((type = .array ∨ type = .textString) ∧ value.toInt > ePos) := by
    intro ⟨h, h'⟩
    have := hv h
    omega
  generalize (Cbor.writeTypeValue type value).length = n at hr'
  rw [hw, List.cons_append]
  simp only [readTypeValue, hc, MajorType.ofCode_code ht.2, hr', bind, Except.bind, ht.1, if_false,
    hlen, MajorType.signed]
  split <;> rfl

theorem readTypeValue_tagged {tag : BitVec 64} (ht : type ≠ .tag ∧ type ≠ .none)
    (hv : type = .array ∨ type = .textString → value.toInt ≤ ePos) (header : ElementHeader) :
    readTypeValue (fuel + 2)
        (Cbor.writeTypeValue .tag tag ++ (Cbor.writeTypeValue type value ++ post)) ePos header =
      .ok ((Cbor.writeTypeValue .tag tag ++ Cbor.writeTypeValue type value).length,
        { type := type, vLong := type.signed value, tag := tag.setWidth 8 }) := by
  obtain ⟨hh, tail, hw, hc, hr⟩ := Cbor.writeTypeValue_eq .tag tag
  have hr' := readNumber_of_cbor (hr (Cbor.writeTypeValue type value ++ post))
  have hmain := @readTypeValue_write type value post fuel ePos ht hv newHeader
  have hdrop : (Cbor.writeTypeValue .tag tag ++ (Cbor.writeTypeValue type value ++ post)).drop
      (Cbor.writeTypeValue .tag tag).length = Cbor.writeTypeValue type value ++ post :=
    List.drop_left
  rw [List.length_append]
  generalize (Cbor.writeTypeValue .tag tag).length = n at hr' hdrop
  rw [hw, List.cons_append] at hdrop ⊢
  simp only [readTypeValue, hc, MajorType.ofCode, MajorType.code, hr', bind, Except.bind, if_true,
    hdrop, hmain]
  rfl

end

/-! ## Positions -/

/-- The reader stands before the bytes `rest`, the last of which is the zero behind the message. -/
structure Stands (src : Source) (pos : BitVec 32) (rest : List Byte) : Prop where
  short : src.memory.length ≤ 2147483648
  size : src.size + 1 = src.memory.length
  exists_pre : ∃ pre, src.memory = pre ++ rest ∧ pos = BitVec.ofNat 32 pre.length

section
variable {src : Source} {pos : BitVec 32} {w rest : List Byte} {header header' : ElementHeader}

theorem Stands.of {inStr : List Byte} (h : inStr.length < 2147483648) :
    Stands (.of inStr) 0 (inStr ++ [0]) := by
  refine ⟨?_, ?_, [], rfl, rfl⟩
  · rw [Source.of, List.length_append, List.length_singleton]
    omega
  · simp only [Source.of, List.length_append, List.length_singleton]
    rw [int_eq (by omega) (by omega)]
    rfl

theorem Stands.length_le (h : Stands src pos rest) : rest.length ≤ src.memory.length := by
  obtain ⟨pre, hmem, -⟩ := h.exists_pre
  rw [hmem, List.length_append]
  omega

theorem Stands.next (h : Stands src pos (w ++ rest)) :
    Stands src (pos + BitVec.ofNat 32 w.length) rest := by
  obtain ⟨pre, hmem, rfl⟩ := h.exists_pre
  refine ⟨h.short, h.size, pre ++ w, ?_, ?_⟩
  · rw [hmem, List.append_assoc]
  · rw [List.length_append, BitVec.ofNat_add]

theorem Stands.drop (h : Stands src pos rest) (hrest : rest ≠ []) :
    ¬pos.toInt < 0 ∧ src.memory.drop pos.toNat = rest := by
  have hpos := List.length_pos_iff.mpr hrest
  have hshort := h.short
  obtain ⟨pre, hmem, rfl⟩ := h.exists_pre
  have hlen : pre.length < 2147483648 := by
    rw [hmem, List.length_append] at hshort
    omega
  have hnat : (BitVec.ofNat 32 pre.length).toNat = pre.length := by
    rw [BitVec.toNat_ofNat, Nat.mod_eq_of_lt (by omega)]
  constructor
  · rw [BitVec.toInt_eq_toNat_of_lt (by omega), hnat]
    omega
  · rw [hnat, hmem, List.drop_left]

theorem Stands.readHeader (h : Stands src pos (w ++ rest)) (hw : w ≠ [])
    (hr : readTypeValue (src.memory.length + 1) (w ++ rest) src.size header =
      .ok (w.length, header')) :
    ∃ pos', readHeader src pos header = .ok (pos', header') ∧ Stands src pos' rest := by
  obtain ⟨hneg, hdrop⟩ := h.drop (by simp [hw])
  refine ⟨_, ?_, h.next⟩
  rw [Cbor8json.readHeader, if_neg hneg, hdrop]
  dsimp only
  rw [hr]
  rfl

theorem Stands.readText {s : Text} (h : Stands src pos (s ++ rest)) (header : ElementHeader)
    (hv : header.vLong = BitVec.ofNat 64 s.length) (hrest : rest ≠ []) :
    ∃ pos', readText src pos header = .ok (pos', s) ∧ Stands src pos' rest := by
  obtain ⟨-, hdrop⟩ := h.drop (by simp [hrest])
  have hle := h.length_le
  have hshort := h.short
  have hpos := List.length_pos_iff.mpr hrest
  rw [List.length_append] at hle
  have hlen : s.length < 2147483648 := by omega
  have hint := Cbor.toInt_ofNat_length hlen
  have hnat := Cbor.toNat_ofNat_length hlen
  have hwidth : (BitVec.ofNat 64 s.length).setWidth 32 = BitVec.ofNat 32 s.length :=
    BitVec.setWidth_ofNat_of_le (by decide) _
  have hin : pos.toNat + s.length ≤ src.memory.length := by
    have := congrArg List.length hdrop
    rw [List.length_drop, List.length_append] at this
    omega
  refine ⟨_, ?_, h.next⟩
  rw [Cbor8json.readText, hv, hint, hnat, if_neg (by omega), if_pos hin, hdrop, List.take_left,
    hwidth]

/-- A header without a tag. -/
theorem Stands.readPlain {type : MajorType} {value : BitVec 64}
    (h : Stands src pos (Cbor.writeTypeValue type value ++ rest)) (header : ElementHeader)
    (ht : type ≠ .tag ∧ type ≠ .none)
    (hv : type = .array ∨ type = .textString → value.toNat ≤ rest.length) :
    ∃ pos', Cbor8json.readHeader src pos header =
        .ok (pos', { header with type := type, vLong := type.signed value }) ∧
      Stands src pos' rest := by
  have hpos := Cbor.writeTypeValue_length_pos type value
  have hle := h.length_le
  have hshort := h.short
  have hsize := h.size
  rw [List.length_append] at hle
  refine h.readHeader (List.length_pos_iff.mp hpos) (readTypeValue_write ht (fun h' => ?_) header)
  have := hv h'
  rw [BitVec.toInt_eq_toNat_of_lt (by omega)]
  omega

/-- A header with a tag. -/
theorem Stands.readTagged {tag : BitVec 64} {type : MajorType} {value : BitVec 64}
    (h : Stands src pos (Cbor.writeTypeValue .tag tag ++ (Cbor.writeTypeValue type value ++ rest)))
    (header : ElementHeader) (ht : type ≠ .tag ∧ type ≠ .none)
    (hv : type = .array ∨ type = .textString → value.toNat ≤ rest.length) :
    ∃ pos', Cbor8json.readHeader src pos header =
        .ok (pos', { type := type, vLong := type.signed value, tag := tag.setWidth 8 }) ∧
      Stands src pos' rest := by
  have hpos := Cbor.writeTypeValue_length_pos type value
  have hpos' := Cbor.writeTypeValue_length_pos .tag tag
  have hle := h.length_le
  have hshort := h.short
  have hsize := h.size
  rw [List.length_append, List.length_append] at hle
  obtain ⟨k, hk⟩ : ∃ k, src.memory.length + 1 = k + 2 := ⟨src.memory.length - 1, by omega⟩
  rw [← List.append_assoc] at h
  refine h.readHeader ?_ ?_
  · rw [← List.length_pos_iff, List.length_append]
    omega
  · rw [List.append_assoc, hk]
    refine readTypeValue_tagged ht (fun h' => ?_) header
    have := hv h'
    rw [BitVec.toInt_eq_toNat_of_lt (by omega)]
    omega

/-- A text behind its header. -/
theorem Stands.readString {s : Text} (h : Stands src pos (Cbor.writeString s ++ rest))
    (hrest : rest ≠ []) (header : ElementHeader) :
    ∃ pos₁ pos', Cbor8json.readHeader src pos header = .ok (pos₁,
        { header with type := .textString, vLong := BitVec.ofNat 64 s.length }) ∧
      Cbor8json.readText src pos₁
        { header with type := .textString, vLong := BitVec.ofNat 64 s.length } = .ok (pos', s) ∧
      Stands src pos' rest := by
  have hle := h.length_le
  have hshort := h.short
  have hpos := List.length_pos_iff.mpr hrest
  rw [Cbor.writeString, List.append_assoc] at h
  rw [List.length_append, Cbor.writeString_length] at hle
  obtain ⟨pos₁, hheader, h⟩ := h.readPlain header ⟨by decide, by decide⟩ fun _ => by
    rw [Cbor.toNat_ofNat_length (by omega), List.length_append]
    omega
  obtain ⟨pos', htext, h⟩ := h.readText
    { header with type := .textString, vLong := BitVec.ofNat 64 s.length } rfl hrest
  exact ⟨pos₁, pos', hheader, htext, h⟩

end

/-! ## Values -/

section
variable {Number : Type} (v8 : V8 Number)

/-- The tag in the header variable after a value was read. -/
def tagAfter (tag : Byte) : Resource → Byte
  | .uri _ => Tag.uri
  | .binary _ => 24
  | .datetime _ => Tag.epochDateTime
  | .decimal _ _ => Tag.decimalFraction
  | .str _ .ru => Tag.textRu
  | .str _ .en => Tag.textEn
  | _ => tag

/-- The value object that is made of a stored value, where the last tag that was read before it is
`tag`. -/
def made (tag : Byte) (r : Resource) : Option (Value Number) :=
  match r with
  | .uri s | .binary s | .str s _ => some (textValue v8 (tagAfter tag r) s)
  | .integer n | .datetime n => some (integerValue v8 (tagAfter tag r) n)
  | .boolean b => some (simpleValue v8 (if b then trueCode else falseCode))
  | .decimal mantissa exponent =>
    (exponentAndMantissaToString mantissa (exponent.signExtend 64)).map fun ss =>
      objectOf v8 [("data", .string (v8.string (Json.bytes ss))), ("type", literal v8 "Decimal")]

/-- The value objects of the values of a predicate. -/
def madeAll : Byte → Resources → Option (List (Value Number))
  | _, [] => some []
  | tag, r :: rs => do
    let value ← made v8 tag r
    let values ← madeAll (tagAfter tag r) rs
    return value :: values

/-- The object with the predicates set one after the other. -/
def setAll (jsMap : Object Number) : List (Text × Resources) → Option (Object Number)
  | [] => some jsMap
  | (p, rs) :: entries => do
    let resources ← madeAll v8 Tag.none rs
    setAll (jsMap.set (v8.string p) (.array resources)) entries

/-- A header and the value behind it. -/
def readItem (src : Source) (pos : BitVec 32) (header : ElementHeader) :
    Except Error (BitVec 32 × ElementHeader × Option (Value Number)) := do
  let (pos, header) ← readHeader src pos header
  readValue src v8 pos header

/-- A reading throws where nothing is made, and comes to what is made elsewhere. -/
def Makes (made : Option α) (result : Except Error β) (after : α → β → Prop) : Prop :=
  made.elim (result = .error .thrown) fun a => ∃ b, result = .ok b ∧ after a b

theorem makes_ok {after : α → β → Prop} {a : α} {b : β} (h : after a b) :
    Makes (some a) (.ok b) after := ⟨b, rfl, h⟩

theorem Makes.bind {made : Option α} {result : Except Error β} {after : α → β → Prop}
    {f : α → Option γ} {g : β → Except Error δ} {after' : γ → δ → Prop}
    (h : Makes made result after) (hf : ∀ a b, after a b → Makes (f a) (g b) after') :
    Makes (made >>= f) (result >>= g) after' := by
  cases made with
  | none =>
    have hthrown : result = .error .thrown := h
    rw [hthrown]
    rfl
  | some a =>
    obtain ⟨b, rfl, hb⟩ := h
    exact hf a b hb

/-- The value that was made is the one that is set, and the reader stands behind it. -/
def Read (src : Source) (rest : List Byte) (tag : Byte) (value : Value Number)
    (result : BitVec 32 × ElementHeader × Option (Value Number)) : Prop :=
  result.2.2 = some value ∧ result.2.1.tag = tag ∧ Stands src result.1 rest

variable {v8} {src : Source} {pos : BitVec 32} {rest : List Byte}

theorem readItem_text {type : Byte} {header header' : ElementHeader} {s : Text}
    (hh : ∃ pos₁ pos', readHeader src pos header = .ok (pos₁, header') ∧
      readText src pos₁ header' = .ok (pos', s) ∧ Stands src pos' rest)
    (ht : header'.type = .textString) (htag : header'.tag = type) :
    Makes (some (textValue v8 type s)) (readItem v8 src pos header) (Read src rest type) := by
  obtain ⟨pos₁, pos', hheader, htext, h⟩ := hh
  refine ⟨(pos', header', some (textValue v8 type s)), ?_, rfl, htag, h⟩
  rw [readItem, hheader, ok_bind]
  simp only [readValue, ht]
  rw [htext, ok_bind, htag]
  rfl

theorem readItem_integer {header : ElementHeader} (header' : ElementHeader) {n : BitVec 64}
    (hh : ∃ pos', readHeader src pos header = .ok (pos', header') ∧ Stands src pos' rest)
    (ht : header'.type = .unsignedInteger ∨ header'.type = .negativeInteger)
    (hv : header'.vLong = n) :
    Makes (some (integerValue v8 header'.tag n)) (readItem v8 src pos header)
      (Read src rest header'.tag) := by
  obtain ⟨pos', hheader, h⟩ := hh
  refine ⟨(pos', header', some (integerValue v8 header'.tag n)), ?_, rfl, rfl, h⟩
  rw [readItem, hheader, ok_bind]
  rcases ht with ht | ht
  all_goals
    simp only [readValue, ht, hv]
    rfl

/-- A tagged text. -/
theorem Stands.readTaggedString (tag : BitVec 64) {s : Text}
    (h : Stands src pos (Cbor.writeTypeValue .tag tag ++ Cbor.writeString s ++ rest))
    (hrest : rest ≠ []) (header : ElementHeader) :
    Makes (some (textValue v8 (tag.setWidth 8) s)) (readItem v8 src pos header)
      (Read src rest (tag.setWidth 8)) := by
  have hle := h.length_le
  have hshort := h.short
  have hpos := List.length_pos_iff.mpr hrest
  rw [Cbor.writeString, List.append_assoc, List.append_assoc] at h
  simp only [List.length_append, Cbor.writeString_length] at hle
  obtain ⟨pos₁, hheader, h⟩ := h.readTagged header ⟨by decide, by decide⟩ fun _ => by
    rw [Cbor.toNat_ofNat_length (by omega), List.length_append]
    omega
  obtain ⟨pos', htext, h⟩ := h.readText
    { type := .textString, vLong := BitVec.ofNat 64 s.length, tag := tag.setWidth 8 } rfl hrest
  exact readItem_text ⟨pos₁, pos', hheader, htext, h⟩ rfl rfl

/-- An integer, after which the tag is as before. -/
theorem Stands.readInteger {bytes : List Byte} {n : BitVec 64} (hn : Cbor.IsInteger bytes n)
    (h : Stands src pos (bytes ++ rest)) (header : ElementHeader) :
    ∃ type : MajorType, (type = .unsignedInteger ∨ type = .negativeInteger) ∧
      ∃ pos', Cbor8json.readHeader src pos header =
        .ok (pos', { header with type := type, vLong := n }) ∧ Stands src pos' rest := by
  cases hn with
  | unsigned value =>
    obtain ⟨pos', hheader, h⟩ := h.readPlain header ⟨by decide, by decide⟩ fun h => by simp at h
    exact ⟨_, .inl rfl, pos', hheader, h⟩
  | negative value =>
    obtain ⟨pos', hheader, h⟩ := h.readPlain header ⟨by decide, by decide⟩ fun h => by simp at h
    exact ⟨_, .inr rfl, pos', hheader, h⟩

theorem Stands.readDatetime {bytes : List Byte} {n : BitVec 64} (hn : Cbor.IsInteger bytes n)
    (h : Stands src pos (Cbor.writeTypeValue .tag 1 ++ bytes ++ rest)) (header : ElementHeader) :
    ∃ type : MajorType, (type = .unsignedInteger ∨ type = .negativeInteger) ∧
      ∃ pos', Cbor8json.readHeader src pos header =
        .ok (pos', { type := type, vLong := n, tag := Tag.epochDateTime }) ∧
      Stands src pos' rest := by
  rw [List.append_assoc] at h
  cases hn with
  | unsigned value =>
    obtain ⟨pos', hheader, h⟩ := h.readTagged header ⟨by decide, by decide⟩ fun h => by simp at h
    exact ⟨_, .inl rfl, pos', hheader, h⟩
  | negative value =>
    obtain ⟨pos', hheader, h⟩ := h.readTagged header ⟨by decide, by decide⟩ fun h => by simp at h
    exact ⟨_, .inr rfl, pos', hheader, h⟩

theorem Stands.readDecimal {mantissa : BitVec 64} {exponent : BitVec 8}
    (h : Stands src pos (Cbor.writeResource (.decimal mantissa exponent) ++ rest))
    (header : ElementHeader) (tag : Byte) :
    Makes (made v8 tag (.decimal mantissa exponent)) (readItem v8 src pos header)
      (Read src rest Tag.decimalFraction) := by
  rw [Cbor.writeResource] at h
  simp only [List.append_assoc] at h
  have hm := Cbor.isInteger_writeInteger mantissa
  have he := Cbor.isInteger_writeInteger (exponent.signExtend 64)
  have hmpos := hm.pos
  have hepos := he.pos
  obtain ⟨pos₁, hheader, h⟩ := h.readTagged header ⟨by decide, by decide⟩ fun _ => by
    have : (2 : BitVec 64).toNat = 2 := rfl
    simp only [List.length_append]
    omega
  obtain ⟨t, -, pos₂, hmantissa, h⟩ := h.readInteger hm
    { type := .array, vLong := 2, tag := Tag.decimalFraction }
  obtain ⟨t', -, pos₃, hexponent, h⟩ := h.readInteger he
    { type := t, vLong := mantissa, tag := Tag.decimalFraction }
  have hread : readItem v8 src pos header =
      (exponentAndMantissaToString mantissa (exponent.signExtend 64)).elim (.error .thrown)
        fun ss => .ok (pos₃,
          { type := t', vLong := exponent.signExtend 64, tag := Tag.decimalFraction },
          some (objectOf v8 [("data", .string (v8.string (Json.bytes ss))),
            ("type", literal v8 "Decimal")])) := by
    have hheader' : Cbor8json.readHeader src pos header =
        .ok (pos₁, { type := .array, vLong := 2, tag := Tag.decimalFraction }) := hheader
    rw [readItem, hheader', ok_bind]
    dsimp only
    rw [readValue]
    dsimp only
    rw [hmantissa, ok_bind]
    dsimp only
    rw [hexponent, ok_bind]
    dsimp only
    cases exponentAndMantissaToString mantissa (exponent.signExtend 64) <;> rfl
  rw [hread, made]
  cases exponentAndMantissaToString mantissa (exponent.signExtend 64) with
  | none => rfl
  | some ss => exact ⟨_, rfl, rfl, rfl, h⟩

/-- A value of a predicate. -/
theorem Stands.readItem {r : Resource} (h : Stands src pos (Cbor.writeResource r ++ rest))
    (hrest : rest ≠ []) (header : ElementHeader) :
    Makes (made v8 header.tag r) (Cbor8json.readItem v8 src pos header)
      (Read src rest (tagAfter header.tag r)) := by
  cases r with
  | uri s => exact Stands.readTaggedString 32 h hrest header
  | binary s => exact Stands.readTaggedString 24 h hrest header
  | integer n =>
    obtain ⟨type, ht, hread⟩ := h.readInteger (Cbor.isInteger_writeInteger n) header
    exact readItem_integer { header with type := type, vLong := n } hread ht rfl
  | datetime n =>
    obtain ⟨type, ht, hread⟩ := h.readDatetime (Cbor.isInteger_writeInteger n) header
    exact readItem_integer { type := type, vLong := n, tag := Tag.epochDateTime } hread ht rfl
  | decimal mantissa exponent => exact h.readDecimal header header.tag
  | boolean b =>
    obtain ⟨pos', hheader, h⟩ := h.readPlain header ⟨by decide, by decide⟩ fun h => by simp at h
    refine ⟨(pos', { header with
      type := .floatSimple, vLong := if b then trueCode else falseCode },
      some (simpleValue v8 (if b then trueCode else falseCode))), ?_, rfl, rfl, h⟩
    rw [Cbor8json.readItem, hheader, ok_bind]
    rfl
  | str s lang =>
    cases lang with
    | none =>
      obtain ⟨pos₁, pos', hheader, htext, h⟩ := Stands.readString (s := s) h hrest header
      exact readItem_text ⟨pos₁, pos', hheader, htext, h⟩ rfl rfl
    | ru => exact Stands.readTaggedString 42 h hrest header
    | en => exact Stands.readTaggedString 43 h hrest header

/-! ## The values of a predicate -/

theorem setAt_length (values : List (Value Number)) (value : Value Number) :
    setAt values values.length value = values ++ [value] := by
  rw [setAt, if_neg (by omega), Nat.sub_self, List.replicate_zero, List.append_nil]

theorem readItems_succ {j n : ℕ} {header : ElementHeader} {values : List (Value Number)} :
    readItems src v8 (n + 1) j pos header values =
      (do
        let (pos, header, value) ← Cbor8json.readItem v8 src pos header
        readItems src v8 n (j + 1) pos header (setValue values j value)) := by
  rw [readItems, Cbor8json.readItem]
  cases readHeader src pos header <;> rfl

/-- The elements of an array are read one after the other, behind those that are there. -/
theorem Stands.readItems {rs : Resources} (values : List (Value Number)) (header : ElementHeader)
    (h : Stands src pos (rs.flatMap Cbor.writeResource ++ rest)) (hrest : rest ≠ []) :
    Makes (madeAll v8 header.tag rs)
      (Cbor8json.readItems src v8 rs.length values.length pos header values)
      fun values' result => result.2 = values ++ values' ∧ Stands src result.1 rest := by
  induction rs generalizing values header pos with
  | nil => exact ⟨(pos, values), rfl, (List.append_nil _).symm, h⟩
  | cons r rs ih =>
    rw [List.flatMap_cons, List.append_assoc] at h
    rw [List.length_cons, readItems_succ, madeAll]
    refine (h.readItem (by simp [hrest]) header).bind fun value result hread => ?_
    obtain ⟨pos', header', _⟩ := result
    obtain ⟨rfl, htag, h⟩ := hread
    have hrec := ih (values ++ [value]) header' h
    rw [htag, List.length_append, List.length_singleton] at hrec
    have hset : setValue values values.length (some value) = values ++ [value] :=
      setAt_length values value
    change Makes _ (Cbor8json.readItems src v8 _ _ _ _ (setValue _ _ (some value))) _
    rw [hset, ← bind_pure (Cbor8json.readItems src v8 _ _ _ _ _)]
    refine hrec.bind fun values' result hread => makes_ok ?_
    rw [hread.1, List.append_assoc]
    exact ⟨rfl, hread.2⟩

/-- The elements of an array that starts with an element that is not set. -/
theorem Stands.readArray {rs : Resources} (header : ElementHeader) (hrs : rs ≠ [])
    (h : Stands src pos (rs.flatMap Cbor.writeResource ++ rest)) (hrest : rest ≠ []) :
    Makes (madeAll v8 header.tag rs)
      (Cbor8json.readItems src v8 rs.length 0 pos header [.undefined])
      fun values result => result.2 = values ∧ Stands src result.1 rest := by
  obtain ⟨r, rs, rfl⟩ := List.exists_cons_of_ne_nil hrs
  rw [List.flatMap_cons, List.append_assoc] at h
  rw [List.length_cons, readItems_succ, madeAll]
  refine (h.readItem (by simp [hrest]) header).bind fun value result hread => ?_
  obtain ⟨pos', header', _⟩ := result
  obtain ⟨rfl, htag, h⟩ := hread
  have hrec : Makes (madeAll v8 header'.tag rs) _ _ := Stands.readItems [value] header' h hrest
  rw [htag] at hrec
  change Makes _ (Cbor8json.readItems src v8 _ 1 _ _ [value]) _
  rw [← bind_pure (Cbor8json.readItems src v8 _ _ _ _ _)]
  exact hrec.bind fun values result hread => makes_ok hread

/-- The header of a value is not that of an array of values. -/
theorem Stands.not_array {r : Resource} (h : Stands src pos (Cbor.writeResource r ++ rest))
    (hrest : rest ≠ []) {header : ElementHeader} {result : BitVec 32 × ElementHeader}
    (hread : Cbor8json.readHeader src pos header = .ok result) :
    ¬(result.2.type = .array ∧ result.2.tag ≠ Tag.decimalFraction) := by
  have hle := h.length_le
  have hshort := h.short
  have hpos := List.length_pos_iff.mpr hrest
  have htagged (tag : BitVec 64) (s : Text)
      (h : Stands src pos (Cbor.writeTypeValue .tag tag ++ Cbor.writeString s ++ rest)) :
      result.2.type = .textString := by
    have hle := h.length_le
    rw [Cbor.writeString, List.append_assoc, List.append_assoc] at h
    simp only [List.length_append, Cbor.writeString_length] at hle
    obtain ⟨pos₁, hheader, -⟩ := h.readTagged header ⟨by decide, by decide⟩ fun _ => by
      rw [Cbor.toNat_ofNat_length (by omega), List.length_append]
      omega
    rw [Except.ok.inj (hread.symm.trans hheader)]
  have hnumber {type : MajorType} (ht : type = .unsignedInteger ∨ type = .negativeInteger)
      (hresult : result.2.type = type) :
      ¬(result.2.type = .array ∧ result.2.tag ≠ Tag.decimalFraction) := by
    rw [hresult]
    rcases ht with rfl | rfl <;> simp
  cases r with
  | uri s | binary s =>
    rw [htagged _ s h]
    simp
  | integer n =>
    obtain ⟨type, ht, _, hheader, -⟩ := h.readInteger (Cbor.isInteger_writeInteger n) header
    exact hnumber ht (by rw [Except.ok.inj (hread.symm.trans hheader)])
  | datetime n =>
    obtain ⟨type, ht, _, hheader, -⟩ := h.readDatetime (Cbor.isInteger_writeInteger n) header
    exact hnumber ht (by rw [Except.ok.inj (hread.symm.trans hheader)])
  | decimal mantissa exponent =>
    rw [Cbor.writeResource] at h
    simp only [List.append_assoc] at h
    have hm := (Cbor.isInteger_writeInteger mantissa).pos
    have he := (Cbor.isInteger_writeInteger (exponent.signExtend 64)).pos
    obtain ⟨_, hheader, -⟩ := h.readTagged header ⟨by decide, by decide⟩ fun _ => by
      have : (2 : BitVec 64).toNat = 2 := rfl
      simp only [List.length_append]
      omega
    rw [Except.ok.inj (hread.symm.trans hheader)]
    exact fun h => h.2 rfl
  | boolean b =>
    obtain ⟨_, hheader, -⟩ := h.readPlain header ⟨by decide, by decide⟩ fun h => by simp at h
    rw [Except.ok.inj (hread.symm.trans hheader)]
    simp
  | str s lang =>
    cases lang with
    | none =>
      obtain ⟨_, _, hheader, -, -⟩ := Stands.readString (s := s) h hrest header
      rw [Except.ok.inj (hread.symm.trans hheader)]
      simp
    | ru =>
      rw [htagged 42 s h]
      simp
    | en =>
      rw [htagged 43 s h]
      simp

/-- The values of a predicate, one or an array. -/
theorem Stands.readResources {rs : Resources} (header : ElementHeader) (hrs : rs ≠ [])
    (htag : header.tag ≠ Tag.decimalFraction)
    (h : Stands src pos (Cbor.writeValues rs ++ rest)) (hrest : rest ≠ []) :
    Makes (madeAll v8 header.tag rs)
      (do
        let (pos, header) ← Cbor8json.readHeader src pos header
        Cbor8json.readResources src v8 pos header)
      fun values result => result.2 = values ∧ Stands src result.1 rest := by
  by_cases hlen : rs.length > 1
  · have hle := h.length_le
    have hshort := h.short
    have hpos := List.length_pos_iff.mpr hrest
    have hcount := (Cbor.encodesAll_flatMap rs).length_le
    rw [Cbor.writeValues, if_pos hlen, List.append_assoc] at h
    rw [Cbor.writeValues, if_pos hlen, List.length_append, List.length_append] at hle
    have hn : rs.length < 2147483648 := by omega
    obtain ⟨pos', hheader, h⟩ := h.readPlain header ⟨by decide, by decide⟩ fun _ => by
      rw [Cbor.toNat_ofNat_length hn, List.length_append]
      omega
    have hint : ((BitVec.ofNat 64 rs.length).setWidth 32).toInt.toNat = rs.length := by
      rw [BitVec.setWidth_ofNat_of_le (by decide), BitVec.toInt_eq_toNat_of_lt]
      · rw [BitVec.toNat_ofNat, Nat.mod_eq_of_lt (by omega), Int.toNat_natCast]
      · rw [BitVec.toNat_ofNat, Nat.mod_eq_of_lt (by omega)]
        omega
    have harray : Makes (madeAll v8 header.tag rs) _ _ :=
      Stands.readArray { header with type := .array, vLong := BitVec.ofNat 64 rs.length } hrs h
        hrest
    have hsigned : MajorType.array.signed (BitVec.ofNat 64 rs.length) =
      BitVec.ofNat 64 rs.length := rfl
    rw [hheader, ok_bind, hsigned]
    simp only [Cbor8json.readResources]
    rw [if_pos ⟨trivial, htag⟩, hint]
    exact harray
  · have hone : rs.length = 1 := by
      have := List.length_pos_iff.mpr hrs
      omega
    obtain ⟨r, rfl⟩ := List.length_eq_one_iff.mp hone
    rw [Cbor.writeValues, if_neg hlen, List.nil_append, List.flatMap_singleton] at h
    have hitem : Makes (made v8 header.tag r) _ _ := h.readItem hrest header
    have hsame : (do
        let (pos, header) ← Cbor8json.readHeader src pos header
        Cbor8json.readResources src v8 pos header) =
        (do
          let (pos, _, value) ← Cbor8json.readItem v8 src pos header
          return (pos, setValue [.undefined] 0 value)) := by
      rw [Cbor8json.readItem]
      cases hread : Cbor8json.readHeader src pos header with
      | error e => rfl
      | ok result =>
        rw [ok_bind, ok_bind]
        simp only [Cbor8json.readResources]
        rw [if_neg (h.not_array hrest hread)]
    rw [hsame, madeAll]
    refine hitem.bind fun value result hread => makes_ok ?_
    obtain ⟨pos', header', _⟩ := result
    obtain ⟨rfl, -, h⟩ := hread
    exact ⟨rfl, h⟩

/-! ## Individuals -/

theorem Stands.readPredicate {p : Text} {rs : Resources} (hrs : rs ≠ [])
    (h : Stands src pos (Cbor.writeString p ++ (Cbor.writeValues rs ++ rest))) (hrest : rest ≠ []) :
    Makes (madeAll v8 Tag.none rs) (Cbor8json.readPredicate src v8 pos)
      fun values result => result.2 = (p, values) ∧ Stands src result.1 rest := by
  obtain ⟨pos₁, pos₂, hheader, htext, h⟩ := h.readString (by simp [hrest]) newHeader
  have htag : newHeader.tag ≠ Tag.decimalFraction := by decide
  have hvalues : Makes (madeAll v8 Tag.none rs) _ _ := h.readResources
    { newHeader with type := .textString, vLong := BitVec.ofNat 64 p.length } hrs htag hrest
  rw [Cbor8json.readPredicate, hheader, ok_bind]
  dsimp only
  rw [htext, ok_bind]
  rw [← bind_pure (madeAll v8 Tag.none rs)]
  have hpair (values : List (Value Number)) (result : BitVec 32 × List (Value Number))
      (hread : result.2 = values ∧ Stands src result.1 rest) :
      Makes (some values) (Except.ok (result.1, p, result.2)) fun values result =>
        result.2 = (p, values) ∧ Stands src result.1 rest :=
    makes_ok ⟨congrArg (p, ·) hread.1, hread.2⟩
  have hafter := hvalues.bind hpair
  dsimp only at hafter ⊢
  rcases hnext : Cbor8json.readHeader src pos₂ _ with e | ⟨pos₃, header₃⟩
  · rw [hnext] at hafter
    exact hafter
  · rw [hnext] at hafter
    exact hafter

/-- The predicates are read one after the other. -/
theorem Stands.readPredicates {entries : List (Text × Resources)} (jsMap : Object Number)
    (hv : ∀ entry ∈ entries, entry.2 ≠ [])
    (h : Stands src pos (Cbor.writeEntries entries ++ rest)) (hrest : rest ≠ []) :
    Makes (setAll v8 jsMap entries)
      (Cbor8json.readPredicates src v8 entries.length pos jsMap) Eq := by
  induction entries generalizing pos jsMap with
  | nil => exact ⟨jsMap, rfl, rfl⟩
  | cons entry entries ih =>
    obtain ⟨hentry, hentries⟩ := List.forall_mem_cons.mp hv
    rw [Cbor.writeEntries_cons, List.append_assoc, List.append_assoc] at h
    refine (h.readPredicate hentry (by simp [hrest])).bind fun values result hread => ?_
    obtain ⟨pos', _⟩ := result
    obtain ⟨rfl, h⟩ := hread
    exact ih _ hentries h

/-- There is nothing behind the zero. -/
theorem Stands.readHeader_end (h : Stands src pos []) (header : ElementHeader) :
    Cbor8json.readHeader src pos header = .error .undefined := by
  have hshort := h.short
  obtain ⟨pre, hmem, rfl⟩ := h.exists_pre
  rw [List.append_nil] at hmem
  have hnat : (BitVec.ofNat 32 pre.length).toNat = pre.length := by
    rw [hmem] at hshort
    rw [BitVec.toNat_ofNat, Nat.mod_eq_of_lt (by omega)]
  rw [Cbor8json.readHeader, hnat, hmem, List.drop_length]
  split <;> rfl

theorem Stands.readPredicate_end (h : Stands src pos [0]) :
    ∃ e, Cbor8json.readPredicate src v8 pos = .error e := by
  have hzero : readTypeValue (src.memory.length + 1) ([0] ++ []) src.size newHeader =
      .ok (1, { newHeader with type := .unsignedInteger, vLong := 0 }) := rfl
  have h' : Stands src pos ([0] ++ []) := h
  obtain ⟨pos', hheader, h⟩ := h'.readHeader (by simp) hzero
  rw [Cbor8json.readPredicate, hheader, ok_bind]
  simp only [Cbor8json.readText]
  rw [if_neg (by decide)]
  split
  · have hpos : pos' + (0 : BitVec 64).setWidth 32 = pos' := by simp
    rw [ok_bind, hpos]
    dsimp only
    rw [h.readHeader_end]
    exact ⟨_, rfl⟩
  · exact ⟨_, rfl⟩

/-- A predicate that is announced and missing is looked for behind the end. -/
theorem Stands.readPredicates_missing {entries : List (Text × Resources)} {n : ℕ}
    (jsMap jsMap' : Object Number) (hv : ∀ entry ∈ entries, entry.2 ≠ [])
    (h : Stands src pos (Cbor.writeEntries entries ++ [0])) :
    Cbor8json.readPredicates src v8 (n + 1 + entries.length) pos jsMap ≠ .ok jsMap' := by
  induction entries generalizing pos jsMap with
  | nil =>
    obtain ⟨e, he⟩ : ∃ e, Cbor8json.readPredicate src v8 pos = .error e := h.readPredicate_end
    rw [List.length_nil, Nat.add_zero, Cbor8json.readPredicates, he]
    exact fun h => by cases h
  | cons entry entries ih =>
    obtain ⟨hentry, hentries⟩ := List.forall_mem_cons.mp hv
    rw [Cbor.writeEntries_cons, List.append_assoc, List.append_assoc] at h
    have hread : Makes (madeAll v8 Tag.none entry.2) (Cbor8json.readPredicate src v8 pos) _ :=
      h.readPredicate hentry (by simp)
    rw [List.length_cons, ← Nat.add_assoc, Cbor8json.readPredicates]
    cases hmade : madeAll v8 Tag.none entry.2 with
    | none =>
      rw [hmade] at hread
      have hthrown : Cbor8json.readPredicate src v8 pos = .error .thrown := hread
      rw [hthrown]
      exact fun h => by cases h
    | some values =>
      rw [hmade] at hread
      obtain ⟨⟨pos', _⟩, hok, rfl, h⟩ := hread
      rw [hok]
      exact ih _ hentries h

/-- The object of an individual, where nothing throws: its uri, and its predicates with value
objects. -/
def objectOfIndividual (v8 : V8 Number) (x : Individual) : Option (Object Number) :=
  setAll v8 [(v8.string atSign, .string (v8.string x.uri))] x.valued

/-- What the reader makes of a stored individual. Predicates without values are announced and
missing. -/
theorem cbor2jsobject_iff {x : Individual} (hn : x.resources.entries.length < 2147483647)
    (hs : (Cbor.individual2cbor x).length < 2147483648) (obj : Object Number) :
    cbor2jsobject v8 (Cbor.individual2cbor x) = .ok obj ↔
      x.valued.length = x.resources.entries.length ∧ objectOfIndividual v8 x = some obj := by
  have hvl := Cbor.valued_length x
  have hv : ∀ entry ∈ x.valued, entry.2 ≠ [] := fun entry h => (Individual.mem_valued.mp h).2
  have h := Stands.of hs
  rw [Cbor.individual2cbor, Cbor.writeEntries_valued] at h
  generalize hsrc : Source.of _ = src at h
  simp only [List.append_assoc] at h
  have hzero : [(0 : Byte)] ≠ [] := List.cons_ne_nil _ _
  obtain ⟨pos₁, hmap, h⟩ := h.readPlain newHeader ⟨by decide, by decide⟩ fun h => by simp at h
  obtain ⟨pos₂, pos₃, hat, hatText, h⟩ := h.readString (by simp)
    { newHeader with
      type := .map, vLong := BitVec.ofNat 64 (x.resources.entries.length + 1) }
  obtain ⟨pos₄, pos₅, huri, huriText, h⟩ := h.readString (by simp)
    { newHeader with type := .textString, vLong := BitVec.ofNat 64 atSign.length }
  have hcount : (((BitVec.ofNat 64 (x.resources.entries.length + 1)).setWidth 32).toInt - 1).toNat =
      x.resources.entries.length := by
    rw [BitVec.setWidth_ofNat_of_le (by decide), BitVec.toInt_eq_toNat_of_lt]
    · rw [BitVec.toNat_ofNat, Nat.mod_eq_of_lt (by omega)]
      omega
    · rw [BitVec.toNat_ofNat, Nat.mod_eq_of_lt (by omega)]
      omega
  have hread : cbor2jsobject v8 (Cbor.individual2cbor x) =
      Cbor8json.readPredicates src v8 x.resources.entries.length pos₅
        [(v8.string atSign, .string (v8.string x.uri))] := by
    have hsrc' : Source.of (Cbor.individual2cbor x) = src := by
      rw [Cbor.individual2cbor, Cbor.writeEntries_valued]
      exact hsrc
    have hmap' : Cbor8json.readHeader src 0 newHeader = .ok (pos₁, { newHeader with
        type := .map, vLong := BitVec.ofNat 64 (x.resources.entries.length + 1) }) := hmap
    rw [cbor2jsobject, hsrc', hmap', ok_bind]
    dsimp only
    rw [hat, ok_bind]
    dsimp only
    rw [hatText, ok_bind]
    dsimp only
    rw [huri, ok_bind]
    dsimp only
    rw [huriText, ok_bind]
    dsimp only
    rw [hcount]
    rfl
  rw [hread]
  by_cases hall : x.valued.length = x.resources.entries.length
  · have hmakes : Makes (objectOfIndividual v8 x) _ _ := h.readPredicates _ hv hzero
    rw [← hall, and_iff_right rfl]
    cases hobj : objectOfIndividual v8 x with
    | none =>
      rw [hobj] at hmakes
      have hthrown : Cbor8json.readPredicates src v8 x.valued.length pos₅ _ = .error .thrown :=
        hmakes
      rw [hthrown]
      exact iff_of_false (fun h => by cases h) fun h => by cases h
    | some obj' =>
      rw [hobj] at hmakes
      obtain ⟨_, hok, rfl⟩ := hmakes
      rw [hok]
      exact ⟨fun h => congrArg some (Except.ok.inj h), fun h => congrArg Except.ok (Option.some_inj.mp h)⟩
  · obtain ⟨n, hN⟩ : ∃ n, x.resources.entries.length = n + 1 + x.valued.length :=
      ⟨x.resources.entries.length - x.valued.length - 1, by omega⟩
    rw [hN]
    exact iff_of_false (h.readPredicates_missing _ _ hv) fun h => hall (h.1.trans hN.symm)

end

end Veda.V8d.Cbor8json
