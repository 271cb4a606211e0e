import Veda.Bj8individual.Cbor

/-! # Individuals in CBOR

The model of `cbor8individual.d`. An individual is a map: the key `@` with the uri, then each
predicate with its value or with an array of its values. -/

namespace Veda.Bj8individual.Cbor

/-- `"@"`. -/
def atSign : Text := [0x40]

/-! ## Reading -/

/-- The copy of an empty text is `null`. -/
def keyOf (str : Text) : Option Text := if str = [] then none else some str

/-- The value of a text with a tag. -/
def textResource (tag : Byte) (str : Text) : Resource :=
  if tag = Tag.textRu then .str str .ru
  else if tag = Tag.textEn then .str str .en
  else if tag = Tag.uri then .uri str
  else if tag = Tag.cborEncoded then .binary str
  else .str str .none

/-- The value of an integer with a tag. -/
def integerResource (tag : Byte) (value : BitVec 64) : Resource :=
  if tag = Tag.epochDateTime then .datetime value else .integer value

/-- The values of a simple element. -/
def simpleResources (value : BitVec 64) : Resources :=
  if value = trueCode then [.boolean true]
  else if value = falseCode then [.boolean false]
  else []

/-- The end of `read_element` for a text. -/
def readText (individual : Individual) (src : List Byte) (pos : ℤ) (header : ElementHeader)
    (subjectUri predicateUri : Option Text) : Except Error (ℤ × Option Text × Individual) := do
  let ep := int (pos + header.vLong.toInt)
  let str ← slice src pos ep
  match subjectUri, predicateUri with
  | some _, some predicate =>
    return (ep, keyOf str, individual.add predicate [textResource header.tag str])
  | _, _ => return (ep, keyOf str, individual)

/-- The end of `read_element` for a decimal. -/
def readDecimal (individual : Individual) (src : List Byte) (pos : ℤ) (predicate : Text) :
    Except Error (ℤ × Option Text × Individual) := do
  let (len, mantissa) ← readTypeValue (src.length + 1) (← sliceFrom src pos)
  let pos := int (pos + len)
  let (len, exponent) ← readTypeValue (src.length + 1) (← sliceFrom src pos)
  let pos := int (pos + len)
  return (pos, none,
    individual.add predicate [.decimal mantissa.vLong (exponent.vLong.setWidth 8)])

mutual

/-- `read_element`: the bytes read, the text of the element, and the individual with the values that
were read. A map with `@` inside another one is read into an individual that is dropped. -/
def readElement : ℕ → Individual → List Byte → Option Text → Option Text →
    Except Error (ℤ × Option Text × Individual)
  | 0, _, _, _, _ => .error .fuel
  | fuel + 1, individual, src, subjectUri, predicateUri => do
    let (pos, header) ← readTypeValue (src.length + 1) src
    if pos = 0 then throw .thrown
    let predicate := predicateUri.getD []
    match header.type with
    | .map =>
      let (len, key, individual) ← readElement fuel individual (← sliceFrom src pos) none none
      if len ≤ 0 then throw .thrown
      let pos := int (pos + len)
      let (len, val, individual) ← readElement fuel individual (← sliceFrom src pos) none none
      if len ≤ 0 then throw .thrown
      let pos := int (pos + len)
      let count := (header.vLong.toInt - 1).toNat
      if key = some atSign then
        if subjectUri.isSome then
          let (pos, _) ← readPairs fuel count { Individual.init with uri := val.getD [] } src pos val
          return (pos, none, individual)
        else
          let (pos, individual) ← readPairs fuel count { individual with uri := val.getD [] } src
            pos val
          return (pos, none, individual)
      else
        let (pos, individual) ← readPairs fuel count individual src pos none
        return (pos, none, individual)
    | .textString => readText individual src pos header subjectUri predicateUri
    | .negativeInteger | .unsignedInteger =>
      return (pos, none, individual.add predicate [integerResource header.tag header.vLong])
    | .floatSimple =>
      if simpleResources header.vLong = [] then return (pos, none, individual)
      else return (pos, none, individual.add predicate (simpleResources header.vLong))
    | .array =>
      if header.tag = Tag.decimalFraction then readDecimal individual src pos predicate
      else
        let (pos, individual) ← readItems fuel header.vLong.toInt.toNat individual src pos
          subjectUri predicateUri
        return (pos, none, individual)
    | _ => return (pos, none, individual)

/-- The predicates of a map, `n` of them. -/
def readPairs : ℕ → ℕ → Individual → List Byte → ℤ → Option Text → Except Error (ℤ × Individual)
  | _, 0, individual, _, pos, _ => .ok (pos, individual)
  | 0, _ + 1, _, _, _, _ => .error .fuel
  | fuel + 1, n + 1, individual, src, pos, subjectUri => do
    let (len, key, individual) ← readElement fuel individual (← sliceFrom src pos) none none
    if len ≤ 0 then throw .thrown
    let pos := int (pos + len)
    let (len, _, individual) ← readElement fuel individual (← sliceFrom src pos) subjectUri key
    if len ≤ 0 then throw .thrown
    let pos := int (pos + len)
    readPairs fuel n individual src pos subjectUri

/-- The elements of an array, `n` of them. -/
def readItems : ℕ → ℕ → Individual → List Byte → ℤ → Option Text → Option Text →
    Except Error (ℤ × Individual)
  | _, 0, individual, _, pos, _, _ => .ok (pos, individual)
  | 0, _ + 1, _, _, _, _, _ => .error .fuel
  | fuel + 1, n + 1, individual, src, pos, subjectUri, predicateUri => do
    let (len, _, individual) ← readElement fuel individual (← sliceFrom src pos) subjectUri
      predicateUri
    if len ≤ 0 then throw .thrown
    let pos := int (pos + len)
    readItems fuel n individual src pos subjectUri predicateUri

end

/-- `cbor2individual`. Where it catches an exception it answers -1. A call goes at most two deep for
each byte. -/
def cbor2individual (individual : Individual) (inStr : List Byte) :
    Except Error (ℤ × Individual) := do
  let (pos, _, individual) ← readElement (2 * inStr.length + 4) individual inStr none none
  return (pos, individual)

/-! ## Writing -/

/-- The tag of a language. -/
def langTag : Lang → BitVec 64
  | .none => 41
  | .ru => 42
  | .en => 43

/-- A value in `write_resources`. -/
def writeResource : Resource → List Byte
  | .uri s => writeTypeValue .tag 32 ++ writeString s
  | .binary s => writeTypeValue .tag 24 ++ writeString s
  | .integer n => writeInteger n
  | .datetime n => writeTypeValue .tag 1 ++ writeInteger n
  | .decimal mantissa exponent =>
    writeTypeValue .tag 4 ++
      (writeTypeValue .array 2 ++ (writeInteger mantissa ++ writeInteger (exponent.signExtend 64)))
  | .boolean b => writeBool b
  | .str s lang => (if lang ≠ .none then writeTypeValue .tag (langTag lang) else []) ++ writeString s

/-- The values of a predicate in `write_resources`. -/
def writeValues (vv : Resources) : List Byte :=
  (if vv.length > 1 then writeTypeValue .array (BitVec.ofNat 64 vv.length) else []) ++
    vv.flatMap writeResource

/-- `write_resources`. -/
def writeResources (uri : Text) (vv : Resources) : List Byte := writeString uri ++ writeValues vv

/-- `write_individual`. -/
def individual2cbor (ii : Individual) : List Byte :=
  writeTypeValue .map (BitVec.ofNat 64 (ii.resources.entries.length + 1)) ++
    (writeString atSign ++ (writeString ii.uri ++
      ii.resources.entries.flatMap fun entry =>
        if entry.2.length > 0 then writeResources entry.1 entry.2 else []))

/-! ## A text -/

section
variable {individual : Individual} {post : List Byte} {fuel : ℕ}

theorem writeString_length (s : Text) :
    (writeString s).length =
      (writeTypeValue .textString (BitVec.ofNat 64 s.length)).length + s.length := by
  rw [writeString, List.length_append]

/-- A text behind its header, `pre`. -/
theorem readText_append {pre : List Byte} {s : Text} {header : ElementHeader}
    (hl : header.vLong.toInt = s.length) (hs : (pre ++ s).length < 2147483648)
    (subjectUri predicateUri : Option Text) :
    readText individual (pre ++ (s ++ post)) pre.length header subjectUri predicateUri =
      .ok ((pre ++ s).length, keyOf s,
        match subjectUri, predicateUri with
        | some _, some predicate => individual.add predicate [textResource header.tag s]
        | _, _ => individual) := by
  have hp : int (pre.length + header.vLong.toInt) = pre.length + s.length := by
    rw [List.length_append] at hs
    rw [hl, int_eq (by omega) (by omega)]
  have hslice := slice_append pre s post
  simp only [readText, hp, hslice, bind, Except.bind]
  split
  · rw [List.length_append]
    rfl
  · rw [List.length_append]
    rfl

theorem toNat_ofNat_length {n : ℕ} (hn : n < 2147483648) : (BitVec.ofNat 64 n).toNat = n := by
  rw [BitVec.toNat_ofNat, Nat.mod_eq_of_lt (by omega)]

theorem toInt_ofNat_length {n : ℕ} (hn : n < 2147483648) : (BitVec.ofNat 64 n).toInt = n := by
  have h := toNat_ofNat_length hn
  rw [BitVec.toInt_eq_toNat_of_lt (by omega), h]

theorem readTypeValue_string {s : Text} (hs : s.length < 2147483648) :
    readTypeValue (fuel + 1) (writeString s ++ post) =
      .ok ((writeTypeValue .textString (BitVec.ofNat 64 s.length)).length,
        { type := .textString, vLong := BitVec.ofNat 64 s.length }) := by
  rw [writeString, List.append_assoc]
  refine readTypeValue_write ⟨nofun, nofun⟩ fun _ => ?_
  rw [toNat_ofNat_length hs]
  simp only [List.length_append]
  omega

theorem readTypeValue_taggedString {tag : BitVec 64} {s : Text} (hs : s.length < 2147483648) :
    readTypeValue (fuel + 2) (writeTypeValue .tag tag ++ writeString s ++ post) =
      .ok ((writeTypeValue .tag tag ++
          writeTypeValue .textString (BitVec.ofNat 64 s.length)).length,
        { type := .textString, vLong := BitVec.ofNat 64 s.length, tag := tag.setWidth 8 }) := by
  rw [writeString, List.append_assoc, List.append_assoc]
  refine readTypeValue_tagged ⟨nofun, nofun⟩ fun _ => ?_
  rw [toNat_ofNat_length hs]
  simp only [List.length_append]
  omega

/-- An element that is a text, whatever stands before its bytes. -/
theorem readElement_text {pre : List Byte} {s : Text} {tag : Byte}
    (hh : readTypeValue ((pre ++ s ++ post).length + 1) (pre ++ s ++ post) =
      .ok (pre.length, { type := .textString, vLong := BitVec.ofNat 64 s.length, tag := tag }))
    (hp : pre ≠ []) (hs : (pre ++ s).length < 2147483648) (subjectUri predicateUri : Option Text) :
    readElement (fuel + 1) individual (pre ++ s ++ post) subjectUri predicateUri =
      .ok ((pre ++ s).length, keyOf s,
        match subjectUri, predicateUri with
        | some _, some predicate => individual.add predicate [textResource tag s]
        | _, _ => individual) := by
  have hpos : ¬((pre.length : ℤ) = 0) := by
    have := List.length_pos_iff.mpr hp
    omega
  have hl : (BitVec.ofNat 64 s.length).toInt = s.length := by
    rw [List.length_append] at hs
    exact toInt_ofNat_length (by omega)
  have hread := @readText_append individual post pre s
    { type := .textString, vLong := BitVec.ofNat 64 s.length, tag := tag } hl hs
    subjectUri predicateUri
  simp only [readElement, hh, bind, Except.bind, hpos, if_false]
  rw [List.append_assoc]
  exact hread

theorem writeString_pos (s : Text) : 0 < (writeString s).length := by
  have := writeTypeValue_length_pos .textString (BitVec.ofNat 64 s.length)
  rw [writeString_length]
  omega

theorem readElement_string {s : Text} (hs : (writeString s).length < 2147483648)
    (subjectUri predicateUri : Option Text) :
    readElement (fuel + 1) individual (writeString s ++ post) subjectUri predicateUri =
      .ok ((writeString s).length, keyOf s,
        match subjectUri, predicateUri with
        | some _, some predicate => individual.add predicate [.str s .none]
        | _, _ => individual) := by
  have hlen : s.length < 2147483648 := by
    rw [writeString_length] at hs
    omega
  refine readElement_text (readTypeValue_string hlen) ?_ hs subjectUri predicateUri
  exact List.length_pos_iff.mp (writeTypeValue_length_pos _ _)

theorem readElement_taggedString {tag : BitVec 64} {s : Text}
    (hs : (writeTypeValue .tag tag ++ writeString s).length < 2147483648)
    (subjectUri predicateUri : Option Text) :
    readElement (fuel + 1) individual (writeTypeValue .tag tag ++ writeString s ++ post)
        subjectUri predicateUri =
      .ok ((writeTypeValue .tag tag ++ writeString s).length, keyOf s,
        match subjectUri, predicateUri with
        | some _, some predicate =>
          individual.add predicate [textResource (tag.setWidth 8) s]
        | _, _ => individual) := by
  have hlen : s.length < 2147483648 := by
    rw [List.length_append, writeString_length] at hs
    omega
  have hpos := writeTypeValue_length_pos .tag tag
  have hfuel : ∃ n, (writeTypeValue .tag tag ++ writeString s ++ post).length + 1 = n + 2 := by
    refine ⟨(writeTypeValue .tag tag ++ writeString s ++ post).length - 1, ?_⟩
    simp only [List.length_append]
    omega
  obtain ⟨n, hn⟩ := hfuel
  have hh := @readTypeValue_taggedString post n tag s hlen
  rw [← hn] at hh
  rw [writeString, ← List.append_assoc] at hh hs ⊢
  refine readElement_text hh ?_ hs subjectUri predicateUri
  rw [← List.length_pos_iff, List.length_append]
  omega

/-! ## Encodings of values

What is read as a value, whoever wrote it. -/

/-- The bytes are a header that stands for the integer. -/
inductive IsInteger : List Byte → BitVec 64 → Prop where
  | unsigned (value : BitVec 64) : IsInteger (writeTypeValue .unsignedInteger value) value
  | negative (value : BitVec 64) : IsInteger (writeTypeValue .negativeInteger value) (-value)

theorem isInteger_writeInteger (n : BitVec 64) : IsInteger (writeInteger n) n := by
  unfold writeInteger
  split
  · exact .unsigned n
  · have h := IsInteger.negative (-n)
    rwa [BitVec.neg_neg] at h

section
variable {bytes : List Byte} {n : BitVec 64}

theorem IsInteger.length_le (h : IsInteger bytes n) : bytes.length ≤ 9 := by
  cases h with
  | unsigned => exact writeTypeValue_length_le _ _
  | negative => exact writeTypeValue_length_le _ _

theorem IsInteger.pos (h : IsInteger bytes n) : 0 < bytes.length := by
  cases h with
  | unsigned => exact writeTypeValue_length_pos _ _
  | negative => exact writeTypeValue_length_pos _ _

theorem IsInteger.readTypeValue (h : IsInteger bytes n) (post : List Byte) (fuel : ℕ) :
    ∃ type, (type = .unsignedInteger ∨ type = .negativeInteger) ∧
      readTypeValue (fuel + 1) (bytes ++ post) =
        .ok (bytes.length, { type := type, vLong := n }) := by
  cases h with
  | unsigned value =>
    exact ⟨_, .inl rfl, readTypeValue_write ⟨nofun, nofun⟩ fun h => by simp at h⟩
  | negative value =>
    exact ⟨_, .inr rfl, readTypeValue_write ⟨nofun, nofun⟩ fun h => by simp at h⟩

/-- A time with its tag. -/
theorem IsInteger.readTypeValue_tagged (h : IsInteger bytes n) (post : List Byte) (fuel : ℕ) :
    ∃ type, (type = .unsignedInteger ∨ type = .negativeInteger) ∧
      Cbor.readTypeValue (fuel + 2) (writeTypeValue .tag 1 ++ bytes ++ post) =
        .ok ((writeTypeValue .tag 1 ++ bytes).length,
          { type := type, vLong := n, tag := Tag.epochDateTime }) := by
  cases h with
  | unsigned value =>
    rw [List.append_assoc]
    exact ⟨_, .inl rfl, Cbor.readTypeValue_tagged ⟨nofun, nofun⟩ fun h => by simp at h⟩
  | negative value =>
    rw [List.append_assoc]
    exact ⟨_, .inr rfl, Cbor.readTypeValue_tagged ⟨nofun, nofun⟩ fun h => by simp at h⟩

end

/-- The bytes are an encoding of the value. -/
inductive Encodes : Resource → List Byte → Prop where
  | uri (s : Text) : Encodes (.uri s) (writeTypeValue .tag 32 ++ writeString s)
  | binary (s : Text) : Encodes (.binary s) (writeTypeValue .tag 24 ++ writeString s)
  | str (s : Text) : Encodes (.str s .none) (writeString s)
  | ru (s : Text) : Encodes (.str s .ru) (writeTypeValue .tag 42 ++ writeString s)
  | en (s : Text) : Encodes (.str s .en) (writeTypeValue .tag 43 ++ writeString s)
  | integer (h : IsInteger bytes n) : Encodes (.integer n) bytes
  | datetime (h : IsInteger bytes n) : Encodes (.datetime n) (writeTypeValue .tag 1 ++ bytes)
  | decimal (hm : IsInteger bytes mantissa) (he : IsInteger bytes' exponent) :
    Encodes (.decimal mantissa (exponent.setWidth 8))
      (writeTypeValue .tag 4 ++ (writeTypeValue .array 2 ++ (bytes ++ bytes')))
  | boolean (b : Bool) : Encodes (.boolean b) (writeBool b)

theorem setWidth_signExtend (exponent : BitVec 8) :
    (exponent.signExtend 64).setWidth 8 = exponent := by
  ext i hi
  rw [BitVec.getElem_setWidth, BitVec.getLsbD_signExtend, if_pos hi, BitVec.getLsbD_eq_getElem hi]
  simp only [show i < 64 by omega, decide_true, Bool.true_and]

theorem encodes_writeResource (r : Resource) : Encodes r (writeResource r) := by
  cases r with
  | uri s => exact .uri s
  | binary s => exact .binary s
  | integer n => exact .integer (isInteger_writeInteger n)
  | datetime n => exact .datetime (isInteger_writeInteger n)
  | decimal m e =>
    have h := Encodes.decimal (isInteger_writeInteger m) (isInteger_writeInteger (e.signExtend 64))
    rwa [setWidth_signExtend] at h
  | boolean b => exact .boolean b
  | str s lang =>
    cases lang with
    | none => exact .str s
    | ru => exact .ru s
    | en => exact .en s

/-- A text of any data type. -/
def isText : Resource → Bool
  | .uri _ | .binary _ | .str _ _ => true
  | _ => false

/-- The individual with a value that was read: a text is kept only where there are a subject and a
predicate. -/
def put (subjectUri predicateUri : Option Text) (individual : Individual) (r : Resource) :
    Individual :=
  if isText r ∧ ¬(subjectUri.isSome ∧ predicateUri.isSome) then individual
  else individual.add (predicateUri.getD []) [r]

/-- A text that was read. -/
theorem put_text {r : Resource} (h : isText r = true) (subjectUri predicateUri : Option Text) :
    (match subjectUri, predicateUri with
      | some _, some predicate => individual.add predicate [r]
      | _, _ => individual) = put subjectUri predicateUri individual r := by
  cases subjectUri with
  | none => rw [put, if_pos ⟨h, by simp⟩]
  | some _ =>
    cases predicateUri with
    | none => rw [put, if_pos ⟨h, by simp⟩]
    | some _ =>
      rw [put, if_neg (by simp)]
      rfl

theorem put_of_not_isText {r : Resource} (h : isText r = false)
    (subjectUri predicateUri : Option Text) :
    put subjectUri predicateUri individual r = individual.add (predicateUri.getD []) [r] := by
  rw [put, if_neg (by simp [h])]

theorem put_some (r : Resource) (subjectUri predicateUri : Text) :
    put (some subjectUri) (some predicateUri) individual r = individual.add predicateUri [r] := by
  rw [put, if_neg (by simp)]
  rfl

section
variable (subjectUri predicateUri : Option Text)

/-- An integer as an element. -/
theorem readElement_integer {bytes : List Byte} {n : BitVec 64} (h : IsInteger bytes n) :
    readElement (fuel + 1) individual (bytes ++ post) subjectUri predicateUri =
      .ok (bytes.length, none, individual.add (predicateUri.getD []) [.integer n]) := by
  obtain ⟨type, ht, hh⟩ := h.readTypeValue post (bytes ++ post).length
  have hp : ¬((bytes.length : ℤ) = 0) := by
    have := h.pos
    omega
  rcases ht with rfl | rfl
  all_goals
    simp only [readElement, hh, bind, Except.bind, hp, if_false]
    rfl

theorem readElement_datetime {bytes : List Byte} {n : BitVec 64} (h : IsInteger bytes n) :
    readElement (fuel + 1) individual (writeTypeValue .tag 1 ++ bytes ++ post) subjectUri
        predicateUri =
      .ok ((writeTypeValue .tag 1 ++ bytes).length, none,
        individual.add (predicateUri.getD []) [.datetime n]) := by
  have hpos := writeTypeValue_length_pos .tag 1
  obtain ⟨k, hk⟩ : ∃ k, (writeTypeValue .tag 1 ++ bytes ++ post).length + 1 = k + 2 := by
    refine ⟨(writeTypeValue .tag 1 ++ bytes ++ post).length - 1, ?_⟩
    simp only [List.length_append]
    omega
  obtain ⟨type, ht, hh⟩ := h.readTypeValue_tagged post k
  have hp : ¬(((writeTypeValue .tag 1 ++ bytes).length : ℤ) = 0) := by
    rw [List.length_append]
    omega
  rcases ht with rfl | rfl
  all_goals
    simp only [readElement, hk, hh, bind, Except.bind, hp, if_false]
    rfl

theorem readElement_boolean (b : Bool) :
    readElement (fuel + 1) individual (writeBool b ++ post) subjectUri predicateUri =
      .ok ((writeBool b).length, none, individual.add (predicateUri.getD []) [.boolean b]) := by
  have hh : readTypeValue ((writeBool b ++ post).length + 1) (writeBool b ++ post) =
      .ok ((writeBool b).length,
        { type := .floatSimple, vLong := if b then trueCode else falseCode }) :=
    readTypeValue_write ⟨nofun, nofun⟩ (fun h => by simp at h)
  have hp : ¬(((writeBool b).length : ℤ) = 0) := by
    have := writeTypeValue_length_pos .floatSimple (if b then trueCode else falseCode)
    rw [writeBool]
    omega
  simp only [readElement, hh, bind, Except.bind, hp, if_false]
  cases b <;> rfl

theorem readDecimal_append {pre bytes bytes' : List Byte} {mantissa exponent : BitVec 64}
    (hs : pre.length < 256) (hm : IsInteger bytes mantissa) (he : IsInteger bytes' exponent)
    (predicate : Text) :
    readDecimal individual (pre ++ (bytes ++ (bytes' ++ post))) pre.length predicate =
      .ok ((pre ++ (bytes ++ bytes')).length, none,
        individual.add predicate [.decimal mantissa (exponent.setWidth 8)]) := by
  have hl := hm.length_le
  have hl' := he.length_le
  generalize hsrc : pre ++ (bytes ++ (bytes' ++ post)) = src
  have hfrom : sliceFrom src pre.length = .ok (bytes ++ (bytes' ++ post)) := by
    rw [← hsrc, sliceFrom_append]
  have hfrom' : sliceFrom src (pre.length + bytes.length) = .ok (bytes' ++ post) := by
    rw [← hsrc, ← List.append_assoc, ← Int.natCast_add, ← List.length_append, sliceFrom_append]
  obtain ⟨t, -, hh⟩ := hm.readTypeValue (bytes' ++ post) src.length
  obtain ⟨t', -, hh'⟩ := he.readTypeValue post src.length
  have hi : int (pre.length + bytes.length) = pre.length + bytes.length :=
    int_eq (by omega) (by omega)
  have hi' : int (pre.length + bytes.length + bytes'.length) =
      (pre ++ (bytes ++ bytes')).length := by
    rw [int_eq (by omega) (by omega), List.length_append, List.length_append]
    omega
  unfold readDecimal
  rw [hfrom, ok_bind, hh, ok_bind]
  dsimp only
  rw [hi, hfrom', ok_bind, hh', ok_bind]
  dsimp only
  rw [hi']
  rfl

theorem readElement_decimal {bytes bytes' : List Byte} {mantissa exponent : BitVec 64}
    (hm : IsInteger bytes mantissa) (he : IsInteger bytes' exponent) :
    readElement (fuel + 1) individual
        (writeTypeValue .tag 4 ++ (writeTypeValue .array 2 ++ (bytes ++ bytes')) ++ post)
        subjectUri predicateUri =
      .ok ((writeTypeValue .tag 4 ++ (writeTypeValue .array 2 ++ (bytes ++ bytes'))).length, none,
        individual.add (predicateUri.getD []) [.decimal mantissa (exponent.setWidth 8)]) := by
  have hmpos := hm.pos
  have hepos := he.pos
  have hpos := writeTypeValue_length_pos .tag 4
  have hpre : (writeTypeValue .tag 4 ++ writeTypeValue .array 2).length < 256 := by
    have := writeTypeValue_length_le .tag 4
    have := writeTypeValue_length_le .array 2
    rw [List.length_append]
    omega
  have hread := @readDecimal_append individual post _ _ _ _ _ hpre hm he (predicateUri.getD [])
  generalize hsrc : writeTypeValue .tag 4 ++ writeTypeValue .array 2 ++
    (bytes ++ (bytes' ++ post)) = src at hread
  have hbytes : writeTypeValue .tag 4 ++ (writeTypeValue .array 2 ++ (bytes ++ bytes')) ++ post =
      src := by
    rw [← hsrc]
    simp only [List.append_assoc]
  obtain ⟨k, hk⟩ : ∃ k, src.length + 1 = k + 2 := by
    refine ⟨src.length - 1, ?_⟩
    rw [← hsrc]
    simp only [List.length_append]
    omega
  have hh : readTypeValue (k + 2) src =
      .ok ((writeTypeValue .tag 4 ++ writeTypeValue .array 2).length,
        { type := .array, vLong := 2, tag := Tag.decimalFraction }) := by
    rw [← hsrc, List.append_assoc]
    refine readTypeValue_tagged ⟨nofun, nofun⟩ fun _ => ?_
    simp only [List.length_append]
    have : (2 : BitVec 64).toNat = 2 := rfl
    omega
  have hp : ¬(((writeTypeValue .tag 4 ++ writeTypeValue .array 2).length : ℤ) = 0) := by
    rw [List.length_append]
    omega
  rw [hbytes]
  simp only [readElement, hk, hh, bind, Except.bind, hp, if_false, if_true]
  rw [hread, List.append_assoc]

/-- A text with its tag. -/
theorem readElement_taggedText {tag : BitVec 64} {r : Resource} {s : Text} (ht : isText r = true)
    (hr : textResource (tag.setWidth 8) s = r)
    (hs : (writeTypeValue .tag tag ++ writeString s).length < 2147483648) :
    ∃ key, readElement (fuel + 1) individual (writeTypeValue .tag tag ++ writeString s ++ post)
        subjectUri predicateUri =
      .ok ((writeTypeValue .tag tag ++ writeString s).length, key,
        put subjectUri predicateUri individual r) := by
  have h := @readElement_taggedString individual post fuel tag s hs subjectUri predicateUri
  rw [hr, put_text ht] at h
  exact ⟨_, h⟩

/-- A value of a predicate. -/
theorem readElement_encoded {r : Resource} {bytes : List Byte} (h : Encodes r bytes)
    (hs : bytes.length < 2147483648) :
    ∃ key, readElement (fuel + 1) individual (bytes ++ post) subjectUri predicateUri =
      .ok (bytes.length, key, put subjectUri predicateUri individual r) := by
  cases h with
  | uri s => exact readElement_taggedText subjectUri predicateUri rfl rfl hs
  | binary s => exact readElement_taggedText subjectUri predicateUri rfl rfl hs
  | ru s => exact readElement_taggedText subjectUri predicateUri rfl rfl hs
  | en s => exact readElement_taggedText subjectUri predicateUri rfl rfl hs
  | str s =>
    have h := @readElement_string individual post fuel s hs subjectUri predicateUri
    rw [put_text rfl] at h
    exact ⟨_, h⟩
  | integer h =>
    rw [put_of_not_isText rfl]
    exact ⟨_, readElement_integer subjectUri predicateUri h⟩
  | datetime h =>
    rw [put_of_not_isText rfl]
    exact ⟨_, readElement_datetime subjectUri predicateUri h⟩
  | decimal hm he =>
    rw [put_of_not_isText rfl]
    exact ⟨_, readElement_decimal subjectUri predicateUri hm he⟩
  | boolean b =>
    rw [put_of_not_isText rfl]
    exact ⟨_, readElement_boolean subjectUri predicateUri b⟩

end

/-! ## The values of a predicate -/

theorem Encodes.pos {r : Resource} {bytes : List Byte} (h : Encodes r bytes) :
    0 < bytes.length := by
  have hs := writeString_pos
  cases h with
  | uri s | binary s | ru s | en s =>
    rw [List.length_append]
    have := hs s
    omega
  | str s => exact hs s
  | integer h => exact h.pos
  | datetime h =>
    rw [List.length_append]
    have := h.pos
    omega
  | decimal hm he =>
    simp only [List.length_append]
    have := hm.pos
    omega
  | boolean b => exact writeTypeValue_length_pos _ _

/-- Values one after the other. -/
inductive EncodesAll : Resources → List Byte → Prop where
  | nil : EncodesAll [] []
  | cons (h : Encodes r bytes) (hs : EncodesAll rs bytes') :
    EncodesAll (r :: rs) (bytes ++ bytes')

theorem encodesAll_flatMap (rs : Resources) : EncodesAll rs (rs.flatMap writeResource) := by
  induction rs with
  | nil => exact .nil
  | cons r rs ih =>
    rw [List.flatMap_cons]
    exact .cons (encodes_writeResource r) ih

theorem EncodesAll.length_le {rs : Resources} {bytes : List Byte} (h : EncodesAll rs bytes) :
    rs.length ≤ bytes.length := by
  induction h with
  | nil => exact Nat.le_refl 0
  | cons h _ ih =>
    have := h.pos
    rw [List.length_append, List.length_cons]
    omega

theorem readItems_succ {src : List Byte} {pos len : ℤ} {n : ℕ} {rest : List Byte} {key}
    {subjectUri predicateUri : Option Text} {individual' : Individual}
    (hs : sliceFrom src pos = .ok rest)
    (he : readElement fuel individual rest subjectUri predicateUri = .ok (len, key, individual'))
    (hl : 0 < len) :
    readItems (fuel + 1) (n + 1) individual src pos subjectUri predicateUri =
      readItems fuel n individual' src (int (pos + len)) subjectUri predicateUri := by
  have hl' : ¬len ≤ 0 := by omega
  rw [readItems, hs, ok_bind, he, ok_bind]
  simp only [if_neg hl']

/-- The elements of an array are read one after the other. -/
theorem readItems_append {rs : Resources} {bytes src pre : List Byte} (h : EncodesAll rs bytes)
    (hf : rs.length ≤ fuel) (hsrc : pre ++ (bytes ++ post) = src)
    (hs : (pre ++ bytes).length < 2147483648) (subjectUri predicateUri : Option Text) :
    readItems fuel.succ rs.length individual src pre.length subjectUri predicateUri =
      .ok ((pre ++ bytes).length, rs.foldl (put subjectUri predicateUri) individual) := by
  induction h generalizing individual pre fuel with
  | nil =>
    rw [List.append_nil]
    rfl
  | cons h hrest ih =>
    rename_i r bytes rs bytes'
    obtain ⟨fuel, rfl⟩ : ∃ k, fuel = k + 1 := ⟨fuel - 1, by
      rw [List.length_cons] at hf
      omega⟩
    have hpos := h.pos
    simp only [List.length_append] at hs
    have hsrc' : pre ++ bytes ++ (bytes' ++ post) = src := by
      rw [← hsrc]
      simp only [List.append_assoc]
    have hfrom : sliceFrom src pre.length = .ok (bytes ++ (bytes' ++ post)) := by
      rw [← hsrc', List.append_assoc, sliceFrom_append]
    obtain ⟨key, he⟩ := @readElement_encoded individual (bytes' ++ post) fuel subjectUri predicateUri
      r bytes h (by omega)
    have hint : int (pre.length + bytes.length) = (pre ++ bytes).length := by
      rw [List.length_append, int_eq (by omega) (by omega), Int.natCast_add]
    rw [List.length_cons, readItems_succ hfrom he (by omega), hint,
      ih (Nat.le_of_succ_le_succ hf) hsrc' (by simp only [List.length_append]; omega)]
    rw [List.append_assoc]
    rfl

/-- The values of a predicate, one or an array. -/
inductive EncodesValues : Resources → List Byte → Prop where
  | single (h : Encodes r bytes) : EncodesValues [r] bytes
  | array (h : EncodesAll rs bytes) :
    EncodesValues rs (writeTypeValue .array (BitVec.ofNat 64 rs.length) ++ bytes)

theorem encodesValues_writeValues {rs : Resources} (hrs : rs ≠ []) :
    EncodesValues rs (writeValues rs) := by
  by_cases hlen : rs.length > 1
  · rw [writeValues, if_pos hlen]
    exact .array (encodesAll_flatMap rs)
  · have hone : rs.length = 1 := by
      have := List.length_pos_iff.mpr hrs
      omega
    obtain ⟨r, rfl⟩ := List.length_eq_one_iff.mp hone
    rw [writeValues, if_neg hlen, List.nil_append, List.flatMap_singleton]
    exact .single (encodes_writeResource r)

theorem EncodesValues.pos {rs : Resources} {bytes : List Byte} (h : EncodesValues rs bytes) :
    0 < bytes.length := by
  cases h with
  | single h => exact h.pos
  | array h =>
    rw [List.length_append]
    have := writeTypeValue_length_pos .array (BitVec.ofNat 64 rs.length)
    omega

theorem EncodesValues.length_le {rs : Resources} {bytes : List Byte}
    (h : EncodesValues rs bytes) : rs.length ≤ bytes.length := by
  cases h with
  | single h => exact h.pos
  | array h =>
    rw [List.length_append]
    have := h.length_le
    omega

theorem readElement_values {rs : Resources} {bytes : List Byte} (h : EncodesValues rs bytes)
    (hf : rs.length ≤ fuel) (hs : bytes.length < 2147483648)
    (subjectUri predicateUri : Option Text) :
    ∃ key, readElement (fuel + 2) individual (bytes ++ post) subjectUri predicateUri =
      .ok (bytes.length, key, rs.foldl (put subjectUri predicateUri) individual) := by
  cases h with
  | single h => exact readElement_encoded subjectUri predicateUri h hs
  | array h =>
    rename_i bytes
    -- the header of the array, and the elements behind it
    generalize hpre : writeTypeValue .array (BitVec.ofNat 64 rs.length) = pre at hs ⊢
    have hle := h.length_le
    have hn : rs.length < 2147483648 := by
      rw [List.length_append] at hs
      omega
    have hpos : 0 < pre.length := hpre ▸ writeTypeValue_length_pos _ _
    have hp : ¬((pre.length : ℤ) = 0) := by omega
    generalize hsrc : pre ++ (bytes ++ post) = src
    have hh : readTypeValue (src.length + 1) src =
        .ok (pre.length, { type := .array, vLong := BitVec.ofNat 64 rs.length }) := by
      rw [← hsrc, ← hpre]
      refine readTypeValue_write ⟨nofun, nofun⟩ fun _ => ?_
      rw [toNat_ofNat_length hn]
      simp only [List.length_append]
      omega
    have hitems := @readItems_append individual post fuel rs bytes src pre h hf hsrc hs subjectUri
      predicateUri
    refine ⟨none, ?_⟩
    rw [List.append_assoc, hsrc, readElement, hh, ok_bind]
    simp only [if_neg hp, toInt_ofNat_length hn, Int.toNat_natCast]
    change (do let (pos, individual) ← readItems fuel.succ rs.length individual src pre.length _ _
               return (pos, none, individual)) = _
    rw [hitems, ok_bind]
    rfl

/-! ## The predicates -/

/-- Predicates with their values. -/
inductive EncodesPairs : List (Text × Resources) → List Byte → Prop where
  | nil : EncodesPairs [] []
  | cons (p : Text) (h : EncodesValues rs bytes) (hs : EncodesPairs entries bytes') :
    EncodesPairs ((p, rs) :: entries) (writeString p ++ (bytes ++ bytes'))

theorem EncodesPairs.length_le {entries : List (Text × Resources)} {bytes : List Byte}
    (h : EncodesPairs entries bytes) : entries.length ≤ bytes.length := by
  induction h with
  | nil => exact Nat.le_refl 0
  | cons p h _ ih =>
    have := writeString_pos p
    rw [List.length_cons, List.length_append, List.length_append]
    omega

/-- The individual with the values of predicates that were read. -/
def putAll (subjectUri : Option Text) (individual : Individual)
    (entries : List (Text × Resources)) : Individual :=
  entries.foldl (fun individual entry => entry.2.foldl (put subjectUri (keyOf entry.1)) individual)
    individual

theorem readPairs_succ {src : List Byte} {pos len len' : ℤ} {n : ℕ} {rest rest' : List Byte}
    {key key' subjectUri : Option Text} {individual' individual'' : Individual}
    (hs : sliceFrom src pos = .ok rest)
    (he : readElement fuel individual rest none none = .ok (len, key, individual')) (hl : 0 < len)
    (hs' : sliceFrom src (int (pos + len)) = .ok rest')
    (he' : readElement fuel individual' rest' subjectUri key = .ok (len', key', individual''))
    (hl' : 0 < len') :
    readPairs (fuel + 1) (n + 1) individual src pos subjectUri =
      readPairs fuel n individual'' src (int (int (pos + len) + len')) subjectUri := by
  have hn : ¬len ≤ 0 := by omega
  have hn' : ¬len' ≤ 0 := by omega
  rw [readPairs, hs, ok_bind, he, ok_bind]
  simp only [if_neg hn]
  change (do let rest ← sliceFrom src (int (pos + len)); _) = _
  rw [hs', ok_bind, he', ok_bind]
  simp only [if_neg hn']

/-- The predicates are read one after the other. -/
theorem readPairs_append {entries : List (Text × Resources)} {bytes src pre : List Byte} {n : ℕ}
    (h : EncodesPairs entries bytes) (hsrc : pre ++ (bytes ++ post) = src)
    (hs : (pre ++ bytes).length < 2147483648) (hf : bytes.length + 2 ≤ fuel)
    (subjectUri : Option Text) :
    readPairs (fuel + entries.length) (n + entries.length) individual src pre.length subjectUri =
      readPairs fuel n (putAll subjectUri individual entries) src (pre ++ bytes).length
        subjectUri := by
  induction h generalizing individual pre with
  | nil =>
    rw [List.append_nil]
    rfl
  | cons p h _ ih =>
    rename_i rs bytes entries bytes' _
    have hval := h.pos
    have hkey := writeString_pos p
    have hle := h.length_le
    simp only [List.length_append] at hs hf
    obtain ⟨k, hk'⟩ : ∃ k, fuel + entries.length = k + 2 := ⟨fuel + entries.length - 2, by omega⟩
    have hfrom : sliceFrom src pre.length =
        .ok (writeString p ++ (bytes ++ (bytes' ++ post))) := by
      rw [← hsrc, sliceFrom_append]
      simp only [List.append_assoc]
    have hread := @readElement_string individual (bytes ++ (bytes' ++ post)) (k + 1) p (by omega)
      none none
    have hint : int (pre.length + (writeString p).length) = (pre ++ writeString p).length := by
      rw [int_eq (by omega) (by omega), List.length_append, Int.natCast_add]
    have hfrom' : sliceFrom src (int (pre.length + (writeString p).length)) =
        .ok (bytes ++ (bytes' ++ post)) := by
      have hsrc' : pre ++ writeString p ++ (bytes ++ (bytes' ++ post)) = src := by
        rw [← hsrc]
        simp only [List.append_assoc]
      rw [hint, ← hsrc', sliceFrom_append]
    obtain ⟨key, hread'⟩ := @readElement_values individual (bytes' ++ post) k rs bytes h
      (by omega) (by omega) subjectUri (keyOf p)
    have hint' : int (int (pre.length + (writeString p).length) + bytes.length) =
        (pre ++ (writeString p ++ bytes)).length := by
      rw [hint, List.length_append, int_eq (by omega) (by omega), List.length_append,
        List.length_append]
      omega
    have hsrc' : pre ++ (writeString p ++ bytes) ++ (bytes' ++ post) = src := by
      rw [← hsrc]
      simp only [List.append_assoc]
    rw [List.length_cons, ← Nat.add_assoc, ← Nat.add_assoc, hk',
      readPairs_succ hfrom hread (by omega) hfrom' hread' (by omega), hint', ← hk',
      ih hsrc' (by simp only [List.length_append]; omega) (by omega)]
    simp only [putAll, List.foldl_cons, List.append_assoc]

/-- What is written of a list of predicates. -/
def writeEntries (entries : List (Text × Resources)) : List Byte :=
  entries.flatMap fun entry => writeResources entry.1 entry.2

theorem writeEntries_cons (entry : Text × Resources) (entries : List (Text × Resources)) :
    writeEntries (entry :: entries) =
      writeString entry.1 ++ (writeValues entry.2 ++ writeEntries entries) := by
  rw [writeEntries, List.flatMap_cons, writeResources, List.append_assoc]
  rfl

theorem encodesPairs_writeEntries {entries : List (Text × Resources)}
    (hv : ∀ entry ∈ entries, entry.2 ≠ []) : EncodesPairs entries (writeEntries entries) := by
  induction entries with
  | nil => exact .nil
  | cons entry entries ih =>
    obtain ⟨hentry, hrest⟩ := List.forall_mem_cons.mp hv
    rw [writeEntries_cons]
    exact .cons entry.1 (encodesValues_writeValues hentry) (ih hrest)

/-- Where there is a subject all values of named predicates are kept. -/
theorem putAll_some {entries : List (Text × Resources)} (hk : ∀ entry ∈ entries, entry.1 ≠ [])
    (hv : ∀ entry ∈ entries, entry.2 ≠ []) (subjectUri : Text) :
    putAll (some subjectUri) individual entries = individual.addAll entries := by
  induction entries generalizing individual with
  | nil => rfl
  | cons entry entries ih =>
    obtain ⟨hkey, hkeys⟩ := List.forall_mem_cons.mp hk
    obtain ⟨hvalue, hvalues⟩ := List.forall_mem_cons.mp hv
    have hkeyOf : keyOf entry.1 = some entry.1 := if_neg hkey
    have hfold : entry.2.foldl (put (some subjectUri) (keyOf entry.1)) individual =
        individual.add entry.1 entry.2 := by
      rw [hkeyOf, ← Individual.foldl_add _ _ hvalue]
      exact List.foldl_ext _ _ _ fun individual r _ => put_some r subjectUri entry.1
    have hrest := @ih (individual.add entry.1 entry.2) hkeys hvalues
    rw [putAll] at hrest ⊢
    rw [List.foldl_cons, hfold, hrest, Individual.addAll_cons]

/-! ## Individuals -/

theorem writeEntries_valued (ii : Individual) :
    (ii.resources.entries.flatMap fun entry =>
      if entry.2.length > 0 then writeResources entry.1 entry.2 else []) =
      writeEntries ii.valued := by
  rw [Individual.valued]
  induction ii.resources.entries with
  | nil => rfl
  | cons entry entries ih =>
    rw [List.flatMap_cons, ih, List.map_cons]
    by_cases h : entry.2 = []
    · rw [List.filter_cons_of_neg (by simp [h]), h]
      rfl
    · rw [List.filter_cons_of_pos (by simp [h]), if_pos (List.length_pos_iff.mpr h)]
      rfl

theorem valued_length (ii : Individual) :
    ii.valued.length ≤ ii.resources.entries.length := by
  rw [Individual.valued]
  exact (List.length_filter_le _ _).trans (by rw [List.length_map])

theorem length_le_writeEntries (entries : List (Text × Resources)) :
    entries.length ≤ (writeEntries entries).length := by
  induction entries with
  | nil => exact Nat.le_refl 0
  | cons entry entries ih =>
    have := writeString_pos entry.1
    rw [writeEntries_cons, List.length_cons, List.length_append, List.length_append]
    omega

theorem key_mem_of_valued {ii : Individual} {entry : Text × Resources} (h : entry ∈ ii.valued) :
    entry.1 ∈ ii.resources.keys := by
  have := (Individual.mem_valued.mp h).1
  exact AList.lookup_isSome.mp (by rw [this]; rfl)

/-- Where the bytes end nothing more is read. -/
theorem readElement_nil (subjectUri predicateUri : Option Text) :
    readElement (fuel + 1) individual [] subjectUri predicateUri = .error .thrown := by
  rw [readElement]
  rfl

/-- Where the bytes end no predicate is read. -/
theorem readPairs_end {src : List Byte} {n : ℕ} (subjectUri : Option Text) :
    readPairs (fuel + 2) (n + 1) individual src src.length subjectUri = .error .thrown := by
  have h := sliceFrom_append src []
  rw [List.append_nil] at h
  rw [readPairs, h, ok_bind, readElement_nil]
  rfl

/-- The first key of a map and its value, and what is done with the others. -/
theorem readElement_firstKey {head v : List Byte} {k : Text} {src bytes : List Byte} {n : ℕ}
    {val : Option Text}
    (hhead : writeTypeValue .map (BitVec.ofNat 64 (n + 1)) = head)
    (hsrc : head ++ (writeString k ++ (v ++ bytes)) = src) (hn : n < 9223372036854775807)
    (hs : src.length < 2147483648) (hv : 0 < v.length)
    (hread : readElement (fuel + 1) .init (v ++ bytes) none none =
      .ok (v.length, val, individual)) :
    readElement (fuel + 2) .init src none none =
      (do
        if keyOf k = some atSign then
          let (pos, individual) ← readPairs (fuel + 1) n { individual with uri := val.getD [] } src
            (head ++ (writeString k ++ v)).length val
          return (pos, none, individual)
        else
          let (pos, individual) ← readPairs (fuel + 1) n individual src
            (head ++ (writeString k ++ v)).length none
          return (pos, none, individual)) := by
  have hlen := congrArg List.length hsrc
  simp only [List.length_append] at hlen
  have hhpos : 0 < head.length := hhead ▸ writeTypeValue_length_pos _ _
  have hkpos := writeString_pos k
  have hh : readTypeValue (src.length + 1) src =
      .ok (head.length, { type := .map, vLong := BitVec.ofNat 64 (n + 1) }) := by
    rw [← hsrc, ← hhead]
    exact readTypeValue_write ⟨nofun, nofun⟩ (fun h => by simp at h)
  have hp : ¬((head.length : ℤ) = 0) := by omega
  have hl : ¬(((writeString k).length : ℤ) ≤ 0) := by omega
  have hl' : ¬((v.length : ℤ) ≤ 0) := by omega
  have hfrom : sliceFrom src head.length = .ok (writeString k ++ (v ++ bytes)) := by
    rw [← hsrc, sliceFrom_append]
  have hreadKey := @readElement_string .init (v ++ bytes) fuel k (by omega) none none
  have hint : int (head.length + (writeString k).length) = (head ++ writeString k).length := by
    rw [int_eq (by omega) (by omega), List.length_append, Int.natCast_add]
  have hfrom' : sliceFrom src (head ++ writeString k).length = .ok (v ++ bytes) := by
    rw [← hsrc, ← List.append_assoc, sliceFrom_append]
  have hint' : int ((head ++ writeString k).length + v.length) =
      (head ++ (writeString k ++ v)).length := by
    simp only [List.length_append]
    rw [int_eq (by omega) (by omega)]
    omega
  have hcnt : ((BitVec.ofNat 64 (n + 1)).toInt - 1).toNat = n := by
    have : (BitVec.ofNat 64 (n + 1)).toNat = n + 1 := by
      rw [BitVec.toNat_ofNat, Nat.mod_eq_of_lt (by omega)]
    rw [BitVec.toInt_eq_toNat_of_lt (by omega), this]
    omega
  rw [readElement, hh, ok_bind]
  simp only [if_neg hp]
  rw [hfrom]
  change (do let (len, key, individual) ← readElement (fuel + 1) .init _ none none; _) = _
  rw [hreadKey, ok_bind]
  simp only [if_neg hl]
  rw [hint, hfrom', ok_bind, hread, ok_bind]
  simp only [if_neg hl', Option.isSome_none, Bool.false_eq_true, if_false]
  rw [hcnt, hint']

/-- A map that begins with `@` is read up to its last pair; announced pairs that are missing are
looked for behind the end. -/
theorem readElement_at {entries : List (Text × Resources)} {bytes : List Byte} {uri : Text} {n : ℕ}
    (h : EncodesPairs entries bytes) (hn : n + entries.length < 9223372036854775807)
    {src : List Byte} (hsrc : writeTypeValue .map (BitVec.ofNat 64 (n + entries.length + 1)) ++
      (writeString atSign ++ (writeString uri ++ bytes)) = src)
    (hs : src.length < 2147483648) (hf : 2 * src.length + 3 ≤ fuel) :
    readElement (fuel + 1) .init src none none =
      if n = 0 then .ok (src.length, none, putAll (keyOf uri) ⟨uri, ∅⟩ entries)
      else .error .thrown := by
  generalize hhead : writeTypeValue .map (BitVec.ofNat 64 (n + entries.length + 1)) = head at hsrc
  have hlen := congrArg List.length hsrc
  simp only [List.length_append] at hlen
  have hupos := writeString_pos uri
  have hcount := h.length_le
  obtain ⟨f, rfl⟩ : ∃ f, fuel = f + entries.length := ⟨fuel - entries.length, by omega⟩
  obtain ⟨k, hk⟩ : ∃ k, f + entries.length = k + 1 := ⟨f + entries.length - 1, by omega⟩
  have hread := @readElement_string .init bytes k uri (by omega) none none
  have huri : (keyOf uri).getD [] = uri := by
    unfold keyOf
    split
    · next hnil => exact hnil.symm
    · rfl
  have hat : keyOf atSign = some atSign := rfl
  have hsrc' : head ++ (writeString atSign ++ writeString uri) ++ (bytes ++ []) = src := by
    rw [← hsrc]
    simp only [List.append_nil, List.append_assoc]
  have hend : head ++ (writeString atSign ++ writeString uri) ++ bytes = src := by
    rw [← hsrc', List.append_nil]
  have hpairs := @readPairs_append ⟨uri, ∅⟩ [] f entries bytes src
    (head ++ (writeString atSign ++ writeString uri)) n h hsrc' (by rw [hend]; exact hs) (by omega)
    (keyOf uri)
  have hmap := readElement_firstKey hhead hsrc hn hs hupos hread
  rw [if_pos hat, huri] at hmap
  rw [hk, hmap, ← hk]
  change (do let (pos, individual) ← readPairs (f + entries.length) _ ⟨uri, ∅⟩ src _ _; _) = _
  rw [hpairs, hend]
  cases n with
  | zero =>
    rw [if_pos rfl, readPairs, ok_bind]
    rfl
  | succ n =>
    obtain ⟨g, rfl⟩ : ∃ g, f = g + 2 := ⟨f - 2, by omega⟩
    rw [if_neg (Nat.succ_ne_zero n), readPairs_end]
    rfl

/-- A map that begins with another key. Its values are read without a subject and a predicate. -/
theorem readElement_other {entries : List (Text × Resources)} {k : Text} {rs : Resources}
    {v bytes src : List Byte} (hk : k ≠ atSign) (hv : EncodesValues rs v)
    (h : EncodesPairs entries bytes) (hn : entries.length < 9223372036854775807)
    (hsrc : writeTypeValue .map (BitVec.ofNat 64 (entries.length + 1)) ++
      (writeString k ++ (v ++ bytes)) = src)
    (hs : src.length < 2147483648) (hf : 2 * src.length + 3 ≤ fuel) :
    readElement (fuel + 1) .init src none none =
      .ok (src.length, none,
        putAll none (rs.foldl (put none none) Individual.init) entries) := by
  generalize hhead : writeTypeValue .map (BitVec.ofNat 64 (entries.length + 1)) = head at hsrc
  have hlen := congrArg List.length hsrc
  simp only [List.length_append] at hlen
  have hcount := h.length_le
  have hle := hv.length_le
  obtain ⟨f, rfl⟩ : ∃ f, fuel = f + entries.length := ⟨fuel - entries.length, by omega⟩
  obtain ⟨g, hg⟩ : ∃ g, f + entries.length = g + 2 := ⟨f + entries.length - 2, by omega⟩
  obtain ⟨key, hread⟩ := @readElement_values .init bytes g rs v hv (by omega) (by omega) none none
  have hat : ¬keyOf k = some atSign := by
    unfold keyOf
    split
    · nofun
    · exact fun h => hk (Option.some_inj.mp h)
  have hsrc' : head ++ (writeString k ++ v) ++ (bytes ++ []) = src := by
    rw [← hsrc]
    simp only [List.append_nil, List.append_assoc]
  have hend : head ++ (writeString k ++ v) ++ bytes = src := by
    rw [← hsrc', List.append_nil]
  have hpairs := @readPairs_append (rs.foldl (put none none) Individual.init) [] f entries bytes src
    (head ++ (writeString k ++ v)) 0 h hsrc' (by rw [hend]; exact hs) (by omega) none
  rw [Nat.zero_add, hend] at hpairs
  have hmap := readElement_firstKey hhead hsrc hn hs hv.pos hread
  rw [if_neg hat] at hmap
  rw [hg, hmap]
  change (do let (pos, individual) ← readPairs (g + 2) _ _ src _ _; _) = _
  rw [← hg, hpairs, readPairs, ok_bind]
  rfl

/-- An individual is read up to its last predicate with a value; the announced predicates that are
then missing are looked for behind the end. -/
theorem readElement_individual {x : Individual} (hu : x.uri ≠ [])
    (hk : ∀ p ∈ x.resources.keys, p ≠ [])
    (hn : x.resources.entries.length < 9223372036854775807)
    (hs : (individual2cbor x).length < 2147483648)
    (hf : 2 * (individual2cbor x).length + 3 ≤ fuel) :
    readElement (fuel + 1) .init (individual2cbor x) none none =
      if x.valued.length = x.resources.entries.length then
        .ok ((individual2cbor x).length, none, Individual.addAll ⟨x.uri, ∅⟩ x.valued)
      else .error .thrown := by
  have hvl := valued_length x
  have hv : ∀ entry ∈ x.valued, entry.2 ≠ [] := fun entry h => (Individual.mem_valued.mp h).2
  obtain ⟨n, hN⟩ : ∃ n, x.resources.entries.length = n + x.valued.length :=
    ⟨x.resources.entries.length - x.valued.length, (Nat.sub_add_cancel hvl).symm⟩
  have hsrc : writeTypeValue .map (BitVec.ofNat 64 (n + x.valued.length + 1)) ++
      (writeString atSign ++ (writeString x.uri ++ writeEntries x.valued)) = individual2cbor x := by
    rw [individual2cbor, writeEntries_valued, hN]
  have hread := readElement_at (encodesPairs_writeEntries hv) (by rw [← hN]; exact hn) hsrc hs hf
  have huri : keyOf x.uri = some x.uri := if_neg hu
  rw [huri, putAll_some (fun entry h => hk _ (key_mem_of_valued h)) hv] at hread
  rw [hread, hN]
  refine if_congr ?_ rfl rfl
  omega

theorem valued_length_iff (x : Individual) :
    x.valued.length = x.resources.entries.length ↔
      ∀ p rs, x.resources.lookup p = some rs → rs ≠ [] := by
  have hl : x.resources.entries.length =
      (x.resources.entries.map fun entry => (entry.1, entry.2)).length := List.length_map _ |>.symm
  rw [Individual.valued, hl, List.length_filter_eq_length_iff]
  constructor
  · intro h p rs hl
    exact of_decide_eq_true (h (p, rs) (List.mem_map.mpr ⟨⟨p, rs⟩, AList.mem_lookup_iff.mp hl, rfl⟩))
  · intro h entry he
    obtain ⟨⟨p, rs⟩, hm, rfl⟩ := List.mem_map.mp he
    exact decide_eq_true (h p rs (AList.mem_lookup_iff.mpr hm))

theorem cbor2individual_eq {x : Individual} (hu : x.uri ≠ []) (hk : ∀ p ∈ x.resources.keys, p ≠ [])
    (hn : x.resources.entries.length < 9223372036854775807)
    (hs : (individual2cbor x).length < 2147483648) :
    cbor2individual .init (individual2cbor x) =
      if x.valued.length = x.resources.entries.length then
        .ok (((individual2cbor x).length : ℤ), Individual.addAll ⟨x.uri, ∅⟩ x.valued)
      else .error .thrown := by
  rw [cbor2individual, readElement_individual hu hk hn hs (Nat.le_refl _)]
  split <;> rfl

/-- Whether the bytes of an individual are read back as the individual: the answer is positive, and
the individual that was read carries the values. -/
def Returns (x : Individual) : Prop :=
  ∃ n individual, cbor2individual .init (individual2cbor x) = .ok (n, individual) ∧ 0 < n ∧
    x.Carries individual

/-- An individual comes back just if no predicate is without a value: such a predicate is counted in
the header of the map, and not written. -/
theorem returns_iff (x : Individual) (hu : x.uri ≠ []) (hk : ∀ p ∈ x.resources.keys, p ≠ [])
    (hn : x.resources.entries.length < 9223372036854775807)
    (hs : (individual2cbor x).length < 2147483648) :
    Returns x ↔ ∀ p rs, x.resources.lookup p = some rs → rs ≠ [] := by
  rw [← valued_length_iff, Returns, cbor2individual_eq hu hk hn hs]
  constructor
  · intro ⟨_, _, h, _⟩
    by_contra hne
    rw [if_neg hne] at h
    cases h
  · intro h
    refine ⟨_, _, if_pos h, ?_, x.carries_addAll⟩
    have := writeTypeValue_length_pos .map (BitVec.ofNat 64 (x.resources.entries.length + 1))
    rw [individual2cbor, List.length_append]
    omega

/-- `p` with a text and a number, `q` with a decimal. -/
def sample : Individual :=
  ⟨[0x61], AList.insert [0x70] [.str [0x78] .ru, .integer (-1)]
    (AList.insert [0x71] [.decimal 5 (-2)] ∅)⟩

theorem returns_iff_sample :
    Returns sample ↔ ∀ p rs, sample.resources.lookup p = some rs → rs ≠ [] :=
  returns_iff sample (by decide) (by decide) (by decide) (by decide)

/-- `p` without a value. -/
def valueless : Individual := ⟨[0x61], AList.insert [0x70] [] ∅⟩

theorem not_returns_valueless : ¬Returns valueless := by
  intro ⟨_, _, h, _⟩
  rw [cbor2individual_eq (by decide) (by decide) (by decide) (by decide), if_neg (by decide)] at h
  cases h

end

end Veda.Bj8individual.Cbor
