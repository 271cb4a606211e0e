import Veda.Bj8individual.MsgpackIndividual
import Veda.VOnto.Individual

/-! # Reading what has been written

The bytes that `msgpack8individual.d` writes for a value, a predicate and a row of predicates, and
what the functions of `msgpack8individual.rs` read from them. What the packer writes and `rmp` reads
is assumed as it is documented. -/

namespace Veda.VOnto

open Bj8individual (Byte Text Lang)
open Bj8individual.Msgpack (packValueText packValue writeResources)
open MsgPack (Token)

/-- A length is counted by at most 32 bits. -/
def Fits : Token → Prop
  | .raw s => s.length < 2 ^ 32
  | .array n | .map n => n < 2 ^ 32
  | _ => True

/-- The format as it is written, and that it is read. `utf8` are the bytes that are a text. -/
structure Documented (lib : Bj8individual.Msgpack.Library) (rmp : Rmp) (utf8 : Text → Bool) :
    Prop where
  packText : ∀ s, s ≠ [] → lib.packText s = .raw s
  packText_nil : lib.packText [] = .nil ∨ lib.packText [] = .raw []
  packLong : ∀ n, lib.packLong n = .int n ∨ 0 ≤ n.toInt ∧ lib.packLong n = .uint n
  encode_array : lib.encode (.array 2) = [146]
  encode_pos : ∀ token, lib.encode token ≠ []
  marker_end : rmp.readMarker [] = none
  marker_nil : ∀ rest, rmp.readMarker (lib.encode .nil ++ rest) = some (.null, rest)
  marker_array : ∀ n, n < 16 → ∀ rest,
    rmp.readMarker (lib.encode (.array n) ++ rest) = some (.fixArray n, rest)
  marker_raw : ∀ s, Fits (.raw s) → ∀ rest, ∃ marker rest',
    rmp.readMarker (lib.encode (.raw s) ++ rest) = some (marker, rest') ∧
      (marker = .fixStr s.length ∨ marker = .str16 ∨ marker = .str32)
  strLen : ∀ s, Fits (.raw s) → ∀ rest, ∃ rest',
    rmp.readStrLen (lib.encode (.raw s) ++ rest) = some (s.length, rest')
  str : ∀ s, Fits (.raw s) → ∀ rest, rmp.readStr s.length (lib.encode (.raw s) ++ rest) =
    (if utf8 s then .ok s else .error (.invalidUtf8 s), rest)
  utf8_nil : utf8 [] = true
  arrayLen : ∀ n, Fits (.array n) → ∀ rest,
    rmp.readArrayLen (lib.encode (.array n) ++ rest) = some (n, rest)
  mapLen : ∀ n, Fits (.map n) → ∀ rest,
    rmp.readMapLen (lib.encode (.map n) ++ rest) = some (n, rest)
  int : ∀ n rest, rmp.readInt (lib.encode (.int n) ++ rest) = some (n.toInt, rest)
  uint : ∀ n rest, rmp.readInt (lib.encode (.uint n) ++ rest) = some ((n.toNat : ℤ), rest)
  bool : ∀ b rest, rmp.readBool (lib.encode (.bool b) ++ rest) = some (b, rest)

/-! ## What a message says -/

section
variable (rmp : Rmp) (utf8 : Text → Bool)

/-- The text that is made of some bytes. -/
def textOf (s : Text) : Text := if utf8 s then s else rmp.fromUtf8Lossy s

/-- A value, as it is kept. -/
def valueOf (i : ℕ) : Bj8individual.Resource → Resource
  | .uri s => ⟨.uri, .ofNat 16 i, .str (textOf rmp utf8 s) .none⟩
  | .str s lang => ⟨.string, .ofNat 16 i, .str (textOf rmp utf8 s) lang⟩
  | .integer n => ⟨.integer, .ofNat 16 i, .int n⟩
  | .datetime n => ⟨.datetime, .ofNat 16 i, .int n⟩
  | .decimal mantissa exponent =>
    ⟨.decimal, .ofNat 16 i, .num mantissa (exponent.signExtend 64)⟩
  | .boolean b => ⟨.boolean, .ofNat 16 i, .bool b⟩
  | .binary s => ⟨.binary, 0, .binary s⟩

/-- The values of a predicate. -/
def valuesOf : ℕ → Bj8individual.Resources → List Resource
  | _, [] => []
  | i, r :: rs => valueOf rmp utf8 i r :: valuesOf (i + 1) rs

/-- A predicate with its values. -/
abbrev Entry := Text × Bj8individual.Resources

/-- The resources with those of a predicate. -/
def push (resources : Resources) (entry : Entry) : Resources :=
  resources.insert (textOf rmp utf8 entry.1)
    ((resources.lookup (textOf rmp utf8 entry.1)).getD [] ++ valuesOf rmp utf8 0 entry.2)

def pushAll (resources : Resources) (entries : List Entry) : Resources :=
  entries.foldl (push rmp utf8) resources

/-- `null` is no binary value. -/
def Sound (entry : Entry) : Prop := .binary [] ∉ entry.2

instance (entry : Entry) : Decidable (Sound entry) := inferInstanceAs (Decidable (¬_))

/-- The predicates that a search of at most so many turns reads, and those behind them. There is
nothing where the search fails. -/
def scan (predicate : Text) : ℕ → List Entry → Option (List Entry × List Entry)
  | 0, entries => some ([], entries)
  | _ + 1, [] => none
  | n + 1, entry :: entries =>
    if Sound entry then
      if textOf rmp utf8 entry.1 = predicate then some ([entry], entries)
      else (scan predicate n entries).map fun (front, back) => (entry :: front, back)
    else none

end

/-- The bytes of some predicates. -/
def bytesOf (lib : Bj8individual.Msgpack.Library) (entries : List Entry) : List Byte :=
  (entries.flatMap fun entry => writeResources lib entry.1 entry.2).flatMap lib.encode

/-! ## Reading what is written -/

section
variable {lib : Bj8individual.Msgpack.Library} {rmp : Rmp} {utf8 : Text → Bool}
  (hdoc : Documented lib rmp utf8) {rest : List Byte}
include hdoc

theorem bufferSize_raw {s : Text} (h : Fits (.raw s)) {marker : Marker}
    (hm : marker = .fixStr s.length ∨ marker = .str16 ∨ marker = .str32) :
    bufferSize rmp marker (lib.encode (.raw s) ++ rest) = some s.length := by
  obtain ⟨rest', hlen⟩ := hdoc.strLen s h rest
  rcases hm with rfl | rfl | rfl
  · rfl
  · rw [bufferSize, hlen]
    rfl
  · rw [bufferSize, hlen]
    rfl

theorem readStringFromMsgpack_raw {s : Text} (h : Fits (.raw s)) :
    readStringFromMsgpack rmp (lib.encode (.raw s) ++ rest) =
      some (textOf rmp utf8 s, rest) := by
  obtain ⟨marker, rest', hmarker, hm⟩ := hdoc.marker_raw s h rest
  have hsize : bufferSize rmp marker (lib.encode (.raw s) ++ rest) = some s.length :=
    bufferSize_raw hdoc h hm
  have hstr := hdoc.str s h rest
  unfold readStringFromMsgpack textOf
  rw [hmarker]
  simp only [Option.bind_eq_bind, Option.bind_some]
  have hread : ((bufferSize rmp marker (lib.encode (.raw s) ++ rest)).bind fun size =>
      textOfStr rmp.fromUtf8Lossy (rmp.readStr size (lib.encode (.raw s) ++ rest))) =
      some (if utf8 s = true then s else rmp.fromUtf8Lossy s, rest) := by
    rw [hsize, Option.bind_some, hstr]
    cases utf8 s with
    | true => rfl
    | false => rfl
  rcases hm with rfl | rfl | rfl
  · exact hread
  · exact hread
  · exact hread

theorem readStringFromMsgpack_nil :
    readStringFromMsgpack rmp (lib.encode .nil ++ rest) = some ([], rest) := by
  unfold readStringFromMsgpack
  rw [hdoc.marker_nil]
  rfl

theorem readBinobj_raw {s : Text} (h : Fits (.raw s)) :
    readBinobj rmp (lib.encode (.raw s) ++ rest) = some (s, rest) := by
  obtain ⟨marker, rest', hmarker, hm⟩ := hdoc.marker_raw s h rest
  unfold readBinobj
  rw [hmarker]
  simp only [Option.bind_eq_bind, Option.bind_some, bufferSize_raw hdoc h hm, hdoc.str s h rest]
  cases utf8 s with
  | true => rfl
  | false => rfl

theorem readBinobj_nil : readBinobj rmp (lib.encode .nil ++ rest) = none := by
  unfold readBinobj
  rw [hdoc.marker_nil]
  rfl

theorem readInt_packLong (n : BitVec 64) :
    rmp.readInt (lib.encode (lib.packLong n) ++ rest) = some (n.toInt, rest) := by
  rcases hdoc.packLong n with h | ⟨hpos, h⟩
  · rw [h, hdoc.int]
  · have hsmall : 2 * n.toNat < 2 ^ 64 := by
      rw [BitVec.toInt_eq_toNat_cond] at hpos
      omega
    rw [h, hdoc.uint, BitVec.toInt_eq_toNat_of_lt hsmall]

theorem readI64_packLong (n : BitVec 64) :
    readI64 rmp (lib.encode (lib.packLong n) ++ rest) = some (n, rest) := by
  have hle : -2 ^ 63 ≤ n.toInt := BitVec.le_toInt n
  have hlt : n.toInt < 2 ^ 63 := BitVec.toInt_lt
  unfold readI64
  rw [readInt_packLong hdoc]
  simp only [Option.bind_eq_bind, Option.bind_some]
  rw [if_pos ⟨hle, hlt⟩, BitVec.ofInt_toInt]

theorem readU8_packLong {n : BitVec 64} (h : n.toInt < 256) (h' : 0 ≤ n.toInt) :
    readU8 rmp (lib.encode (lib.packLong n) ++ rest) = some (n.toInt, rest) := by
  unfold readU8
  rw [readInt_packLong hdoc]
  simp only [Option.bind_eq_bind, Option.bind_some]
  rw [if_pos ⟨h', h⟩]

theorem textOf_nil : textOf rmp utf8 [] = [] := if_pos hdoc.utf8_nil

theorem readStringFromMsgpack_packText {s : Text} (h : Fits (lib.packText s)) :
    readStringFromMsgpack rmp (lib.encode (lib.packText s) ++ rest) =
      some (textOf rmp utf8 s, rest) := by
  by_cases hs : s = []
  · rw [hs] at h ⊢
    rcases hdoc.packText_nil with heq | heq
    · rw [heq, readStringFromMsgpack_nil hdoc, textOf_nil hdoc]
    · rw [heq] at h ⊢
      exact readStringFromMsgpack_raw hdoc h
  · rw [hdoc.packText s hs] at h ⊢
    exact readStringFromMsgpack_raw hdoc h

theorem readStringFromMsgpack_packValueText {s : Text} (h : Fits (packValueText lib s)) :
    readStringFromMsgpack rmp (lib.encode (packValueText lib s) ++ rest) =
      some (textOf rmp utf8 s, rest) := by
  unfold packValueText at h ⊢
  split
  · next hs => rw [hs, readStringFromMsgpack_nil hdoc, textOf_nil hdoc]
  · next hs =>
    rw [if_neg hs] at h
    exact readStringFromMsgpack_packText hdoc h

/-- A binary value that is empty is `null`, and that is not read. -/
theorem readBinobj_packValueText {s : Text} (h : Fits (packValueText lib s)) :
    readBinobj rmp (lib.encode (packValueText lib s) ++ rest) =
      if s = [] then none else some (s, rest) := by
  unfold packValueText at h ⊢
  split
  · next hs => rw [readBinobj_nil hdoc]
  · next hs =>
    rw [if_neg hs] at h
    rw [hdoc.packText s hs] at h ⊢
    exact readBinobj_raw hdoc h

theorem readValue_two {t : BitVec 64} (ht : 0 ≤ t.toInt ∧ t.toInt < 256) (i : ℕ)
    (cur : List Byte) :
    readValue rmp i (lib.encode (.array 2) ++ (lib.encode (lib.packLong t) ++ cur)) =
      readOfTwo rmp t.toInt (.ofNat 16 i) cur := by
  unfold readValue
  rw [hdoc.marker_array 2 (by decide)]
  simp only [Option.bind_eq_bind, Option.bind_some]
  rw [if_neg (by decide), readU8_packLong hdoc ht.2 ht.1]
  rfl

theorem readValue_three {t : BitVec 64} (ht : 0 ≤ t.toInt ∧ t.toInt < 256) (i : ℕ)
    (cur : List Byte) :
    readValue rmp i (lib.encode (.array 3) ++ (lib.encode (lib.packLong t) ++ cur)) =
      readOfThree rmp t.toInt (.ofNat 16 i) cur := by
  unfold readValue
  rw [hdoc.marker_array 3 (by decide)]
  simp only [Option.bind_eq_bind, Option.bind_some]
  rw [if_neg (by decide), readU8_packLong hdoc ht.2 ht.1]
  rfl

/-- A value is read unless it is an empty binary one. -/
theorem readValue_packValue {r : Bj8individual.Resource} (i : ℕ)
    (h : ∀ token ∈ packValue lib r, Fits token) :
    readValue rmp i ((packValue lib r).flatMap lib.encode ++ rest) =
      if r = .binary [] then none else some ([valueOf rmp utf8 i r], rest) := by
  cases r with
  | uri s =>
    have hs : Fits (packValueText lib s) := h _ (by simp [packValue])
    simp only [packValue, List.flatMap_cons, List.flatMap_nil, List.append_nil, List.append_assoc]
    rw [readValue_two hdoc (by decide), if_neg (by simp)]
    change (readStringFromMsgpack rmp _ >>= _) = _
    rw [readStringFromMsgpack_packValueText hdoc hs]
    rfl
  | binary s =>
    have hs : Fits (packValueText lib s) := h _ (by simp [packValue])
    simp only [packValue, List.flatMap_cons, List.flatMap_nil, List.append_nil, List.append_assoc]
    rw [readValue_two hdoc (by decide)]
    change (readBinobj rmp _ >>= _) = _
    rw [readBinobj_packValueText hdoc hs]
    by_cases hnil : s = []
    · rw [if_pos hnil, hnil, if_pos rfl]
      rfl
    · rw [if_neg hnil, if_neg fun heq => hnil (Bj8individual.Resource.binary.inj heq)]
      rfl
  | integer n =>
    simp only [packValue, List.flatMap_cons, List.flatMap_nil, List.append_nil, List.append_assoc]
    rw [readValue_two hdoc (by decide), if_neg (by simp)]
    change (readI64 rmp _ >>= _) = _
    rw [readI64_packLong hdoc]
    rfl
  | datetime n =>
    simp only [packValue, List.flatMap_cons, List.flatMap_nil, List.append_nil, List.append_assoc]
    rw [readValue_two hdoc (by decide), if_neg (by simp)]
    change (readI64 rmp _ >>= _) = _
    rw [readI64_packLong hdoc]
    rfl
  | boolean b =>
    simp only [packValue, List.flatMap_cons, List.flatMap_nil, List.append_nil, List.append_assoc]
    rw [readValue_two hdoc (by decide), if_neg (by simp)]
    change (rmp.readBool _ >>= _) = _
    rw [hdoc.bool]
    rfl
  | decimal mantissa exponent =>
    simp only [packValue, List.flatMap_cons, List.flatMap_nil, List.append_nil, List.append_assoc]
    rw [readValue_three hdoc (by decide), if_neg (by simp)]
    change (readI64 rmp _ >>= fun p => readI64 rmp p.2 >>= _) = _
    rw [readI64_packLong hdoc, Option.bind_eq_bind, Option.bind_some, readI64_packLong hdoc]
    rfl
  | str s lang =>
    have hs : Fits (packValueText lib s) := h _ (by simp only [packValue]; split <;> simp)
    have hthree : ∀ lang : Lang, readValue rmp i (lib.encode (.array 3) ++
        (lib.encode (lib.packLong Bj8individual.Msgpack.DataType.string.code) ++
          (lib.encode (packValueText lib s) ++
            (lib.encode (lib.packLong (Bj8individual.Msgpack.langCode lang)) ++ rest)))) =
        some ([⟨.string, .ofNat 16 i, .str (textOf rmp utf8 s) lang⟩], rest) := by
      intro lang
      rw [readValue_three hdoc (by decide)]
      change (readStringFromMsgpack rmp _ >>= fun p => readI64 rmp p.2 >>= _) = _
      rw [readStringFromMsgpack_packValueText hdoc hs, Option.bind_eq_bind, Option.bind_some,
        readI64_packLong hdoc]
      cases lang with
      | none => rfl
      | ru => rfl
      | en => rfl
    rw [if_neg (by simp)]
    cases lang with
    | none =>
      simp only [packValue, ne_eq, not_true_eq_false, if_false, List.flatMap_cons,
        List.flatMap_nil, List.append_nil, List.append_assoc]
      rw [readValue_two hdoc (by decide)]
      change (readStringFromMsgpack rmp _ >>= _) = _
      rw [readStringFromMsgpack_packValueText hdoc hs]
      rfl
    | ru =>
      have hread := hthree .ru
      simpa [packValue, valueOf] using hread
    | en =>
      have hread := hthree .en
      simpa [packValue, valueOf] using hread

theorem readValues_packValue {rs : Bj8individual.Resources} (i : ℕ) (values : List Resource)
    (h : ∀ token ∈ rs.flatMap (packValue lib), Fits token) (hsound : .binary [] ∉ rs) :
    readValues rmp rs.length i values ((rs.flatMap (packValue lib)).flatMap lib.encode ++ rest) =
      (values ++ valuesOf rmp utf8 i rs, some rest) := by
  induction rs generalizing i values with
  | nil =>
    rw [valuesOf, List.append_nil]
    rfl
  | cons r rs ih =>
    rw [List.mem_cons, not_or] at hsound
    rw [List.flatMap_cons, List.forall_mem_append] at h
    rw [List.flatMap_cons, List.flatMap_append, List.append_assoc, List.length_cons, readValues,
      readValue_packValue hdoc i h.1, if_neg (Ne.symm hsound.1)]
    dsimp only
    rw [ih (i + 1) _ h.2 hsound.2, valuesOf, List.append_assoc]
    rfl

/-- The values before an empty binary one are pushed. -/
theorem readValues_of_null {rs : Bj8individual.Resources} (i : ℕ) (values : List Resource)
    (h : ∀ token ∈ rs.flatMap (packValue lib), Fits token) (hnull : .binary [] ∈ rs) :
    (readValues rmp rs.length i values
      ((rs.flatMap (packValue lib)).flatMap lib.encode ++ rest)).2 = none := by
  induction rs generalizing i values with
  | nil => cases hnull
  | cons r rs ih =>
    rw [List.flatMap_cons, List.forall_mem_append] at h
    rw [List.flatMap_cons, List.flatMap_append, List.append_assoc, List.length_cons, readValues,
      readValue_packValue hdoc i h.1]
    by_cases hr : r = .binary []
    · rw [if_pos hr]
    · rw [if_neg hr]
      exact ih (i + 1) _ h.2 ((List.mem_cons.mp hnull).resolve_left (Ne.symm hr))

/-! ## Reading predicates -/

omit hdoc in
theorem fits_writeResources {entry : Entry}
    (h : ∀ token ∈ writeResources lib entry.1 entry.2, Fits token) :
    Fits (lib.packText entry.1) ∧ Fits (.array entry.2.length) ∧
      ∀ token ∈ entry.2.flatMap (packValue lib), Fits token := by
  rw [writeResources, List.forall_mem_cons, List.forall_mem_cons] at h
  exact h

theorem parsePredicate_of_sound {entry : Entry} (resources : Resources)
    (h : ∀ token ∈ writeResources lib entry.1 entry.2, Fits token) (hsound : Sound entry) :
    parsePredicate rmp resources
        ((writeResources lib entry.1 entry.2).flatMap lib.encode ++ rest) =
      (push rmp utf8 resources entry, some (textOf rmp utf8 entry.1, rest)) := by
  obtain ⟨hkey, hlength, hvalues⟩ := fits_writeResources h
  unfold parsePredicate
  rw [writeResources, List.flatMap_cons, List.flatMap_cons, List.append_assoc, List.append_assoc,
    readStringFromMsgpack_packText hdoc hkey]
  dsimp only
  rw [hdoc.arrayLen _ hlength]
  dsimp only
  rw [readValues_packValue hdoc 0 _ hvalues hsound]
  rfl

theorem parsePredicate_of_not_sound {entry : Entry} (resources : Resources)
    (h : ∀ token ∈ writeResources lib entry.1 entry.2, Fits token) (hsound : ¬Sound entry) :
    (parsePredicate rmp resources
      ((writeResources lib entry.1 entry.2).flatMap lib.encode ++ rest)).2 = none := by
  obtain ⟨hkey, hlength, hvalues⟩ := fits_writeResources h
  unfold parsePredicate
  rw [writeResources, List.flatMap_cons, List.flatMap_cons, List.append_assoc, List.append_assoc,
    readStringFromMsgpack_packText hdoc hkey]
  dsimp only
  rw [hdoc.arrayLen _ hlength]
  dsimp only
  rw [readValues_of_null hdoc 0 _ hvalues (not_not.mp hsound)]
  rfl

/-- There is nothing to read behind the last predicate. -/
theorem parsePredicate_nil (resources : Resources) :
    parsePredicate rmp resources [] = (resources, none) := by
  unfold parsePredicate readStringFromMsgpack
  rw [hdoc.marker_end]
  rfl

omit hdoc in
theorem bytesOf_cons (entry : Entry) (entries : List Entry) :
    bytesOf lib (entry :: entries) =
      (writeResources lib entry.1 entry.2).flatMap lib.encode ++ bytesOf lib entries := by
  rw [bytesOf, List.flatMap_cons, List.flatMap_append]
  rfl

/-- The search of the bytes is that of the predicates. -/
theorem parseLoop_bytesOf {entries : List Entry} (predicate : Text) (n : ℕ) (resources : Resources)
    (h : ∀ entry ∈ entries, ∀ token ∈ writeResources lib entry.1 entry.2, Fits token) :
    match scan rmp utf8 predicate n entries with
    | some (front, back) => parseLoop rmp predicate n resources (bytesOf lib entries) =
        (pushAll rmp utf8 resources front, some (bytesOf lib back))
    | none => (parseLoop rmp predicate n resources (bytesOf lib entries)).2 = none := by
  induction n generalizing entries resources with
  | zero => rfl
  | succ n ih =>
    cases entries with
    | nil =>
      have hnil : bytesOf lib [] = [] := rfl
      rw [scan, hnil, parseLoop, parsePredicate_nil hdoc]
    | cons entry entries =>
      obtain ⟨hentry, hentries⟩ := List.forall_mem_cons.mp h
      rw [scan, bytesOf_cons, parseLoop]
      by_cases hsound : Sound entry
      · rw [if_pos hsound, parsePredicate_of_sound hdoc resources hentry hsound]
        dsimp only
        by_cases hkey : textOf rmp utf8 entry.1 = predicate
        · rw [if_pos hkey, if_pos hkey]
          rfl
        · rw [if_neg hkey, if_neg hkey]
          have hrest := ih (push rmp utf8 resources entry) hentries
          cases hscan : scan rmp utf8 predicate n entries with
          | none =>
            rw [hscan] at hrest
            exact hrest
          | some found =>
            rw [hscan] at hrest
            exact hrest
      · have hnone : (parsePredicate rmp resources ((writeResources lib entry.1 entry.2).flatMap
            lib.encode ++ bytesOf lib entries)).2 = none :=
          parsePredicate_of_not_sound hdoc resources hentry hsound
        rw [if_neg hsound]
        cases hparse : parsePredicate rmp resources
            ((writeResources lib entry.1 entry.2).flatMap lib.encode ++ bytesOf lib entries) with
        | mk resources' found =>
          rw [hparse] at hnone
          obtain rfl : found = none := hnone
          rfl

end

/-! ## A reader -/

/-- `Marker::from_u8`, of the markers that are told apart. -/
def markerOf (b : Byte) : Marker :=
  if b = 0xC0 then .null
  else if 0x90 ≤ b ∧ b < 0xA0 then .fixArray (b - 0x90).toNat
  else if 0xA0 ≤ b ∧ b < 0xC0 then .fixStr (b - 0xA0).toNat
  else if b = 0xDA then .str16
  else if b = 0xDB then .str32
  else .other

/-- ASCII alone is taken for a text. -/
def isAscii (s : Text) : Bool := s.all fun b => b < 128

/-- What a text is read as, into a buffer. -/
def strOf (size : ℕ) (cur : List Byte) :
    Token × List Byte → Except DecodeStringError Text × List Byte
  | (.raw s, rest) =>
    if size < s.length then (.error .other, cur)
    else (if isAscii s then .ok s else .error (.invalidUtf8 s), rest)
  | _ => (.error .other, cur)

def strLenOf : Token × List Byte → Option (ℕ × List Byte)
  | (.raw s, rest) => some (s.length, s ++ rest)
  | _ => none

def arrayLenOf : Token × List Byte → Option (ℕ × List Byte)
  | (.array n, rest) => some (n, rest)
  | _ => none

def mapLenOf : Token × List Byte → Option (ℕ × List Byte)
  | (.map n, rest) => some (n, rest)
  | _ => none

def intOf : Token × List Byte → Option (ℤ × List Byte)
  | (.int n, rest) => some (n.toInt, rest)
  | (.uint n, rest) => some (n.toNat, rest)
  | _ => none

def boolOf : Token × List Byte → Option (Bool × List Byte)
  | (.bool b, rest) => some (b, rest)
  | _ => none

/-- A reader of the format. -/
def reader : Rmp where
  readMarker
    | [] => none
    | b :: rest => some (markerOf b, rest)
  readStrLen cur := (MsgPack.decodeToken cur).bind strLenOf
  readStr size cur := (MsgPack.decodeToken cur).elim (.error .other, cur) (strOf size cur)
  readArrayLen cur := (MsgPack.decodeToken cur).bind arrayLenOf
  readMapLen cur := (MsgPack.decodeToken cur).bind mapLenOf
  readInt cur := (MsgPack.decodeToken cur).bind intOf
  readBool cur := (MsgPack.decodeToken cur).bind boolOf
  fromUtf8Lossy s := s

theorem documented_reader : Documented Bj8individual.Msgpack.packer reader isAscii where
  packText s hs := if_neg hs
  packText_nil := .inl rfl
  packLong n := by
    cases h : n.msb with
    | true => exact .inl (if_pos h)
    | false => exact .inr ⟨BitVec.toInt_nonneg_of_msb_false h, if_neg (by simp [h])⟩
  encode_array := rfl
  encode_pos := MsgPack.encode_ne_nil
  marker_end := rfl
  marker_nil _ := rfl
  marker_array n hn rest := by
    have hbytes : Bj8individual.Msgpack.packer.encode (.array n) = [0x90 + BitVec.ofNat 8 n] :=
      MsgPack.header_short hn
    have hmarker : ∀ n < 16, markerOf (0x90 + BitVec.ofNat 8 n) = .fixArray n := by decide
    rw [hbytes]
    change some (markerOf (0x90 + BitVec.ofNat 8 n), rest) = _
    rw [hmarker n hn]
  marker_raw s _ rest := by
    change ∃ marker rest', reader.readMarker (MsgPack.encode (.raw s) ++ rest) =
      some (marker, rest') ∧ _
    rw [MsgPack.encode]
    by_cases hs : s.length < 32
    · refine ⟨.fixStr s.length, s ++ rest, ?_, .inl rfl⟩
      have hmarker : ∀ n < 32, markerOf (0xA0 + BitVec.ofNat 8 n) = .fixStr n := by decide
      rw [MsgPack.header_short hs]
      change some (markerOf (0xA0 + BitVec.ofNat 8 s.length), s ++ rest) = _
      rw [hmarker _ hs]
    · rw [MsgPack.header_long hs]
      exact ⟨.str32, MsgPack.unary s.length ++ s ++ rest, rfl, .inr (.inr rfl)⟩
  strLen s _ rest :=
    ⟨s ++ rest, congrArg (Option.bind · strLenOf) (MsgPack.decodeToken_encode (.raw s) rest)⟩
  str s _ rest := by
    have hread : reader.readStr s.length (MsgPack.encode (.raw s) ++ rest) =
        strOf s.length (MsgPack.encode (.raw s) ++ rest) (.raw s, rest) :=
      congrArg (Option.elim · _ _) (MsgPack.decodeToken_encode (.raw s) rest)
    refine hread.trans ?_
    exact if_neg (Nat.lt_irrefl _)
  utf8_nil := rfl
  arrayLen n _ rest :=
    congrArg (Option.bind · arrayLenOf) (MsgPack.decodeToken_encode (.array n) rest)
  mapLen n _ rest := congrArg (Option.bind · mapLenOf) (MsgPack.decodeToken_encode (.map n) rest)
  int n rest := congrArg (Option.bind · intOf) (MsgPack.decodeToken_encode (.int n) rest)
  uint n rest := congrArg (Option.bind · intOf) (MsgPack.decodeToken_encode (.uint n) rest)
  bool b rest := congrArg (Option.bind · boolOf) (MsgPack.decodeToken_encode (.bool b) rest)

end Veda.VOnto
