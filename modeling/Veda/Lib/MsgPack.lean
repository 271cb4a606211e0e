import Veda.Lib.LittleEndian

/-! # Values as sequences of tokens

A value in the format of MessagePack is a token with what belongs to it: the header of an array is
followed by as many values as it announces, that of a map by as many pairs. A parser needs all of
them (`parseMany_flatMap`), and waits for more where there are fewer (`parseMany_short`). -/

namespace Veda.MsgPack

inductive Token where
  | nil
  | bool (b : Bool)
  | uint (n : BitVec 64)
  | int (n : BitVec 64)
  | raw (s : List (BitVec 8))
  | array (n : ℕ)
  | map (n : ℕ)
  deriving DecidableEq

inductive Value where
  | nil
  | bool (b : Bool)
  | uint (n : BitVec 64)
  | int (n : BitVec 64)
  | raw (s : List (BitVec 8))
  | array (vs : List Value)
  | map (entries : List (Value × Value))

/-- `n` items one after the other. -/
def parseMany (item : List Token → Option (α × List Token)) :
    ℕ → List Token → Option (List α × List Token)
  | 0, ts => some ([], ts)
  | n + 1, ts => do
    let (a, ts) ← item ts
    let (as, ts) ← parseMany item n ts
    return (a :: as, ts)

def parsePair (item : List Token → Option (α × List Token)) (ts : List Token) :
    Option ((α × α) × List Token) := do
  let (k, ts) ← item ts
  let (v, ts) ← item ts
  return ((k, v), ts)

/-- The value that the tokens begin with, if all of it is there and not nested deeper than the
fuel. -/
def parse : ℕ → List Token → Option (Value × List Token)
  | _, [] => none
  | 0, _ => none
  | _ + 1, .nil :: ts => some (.nil, ts)
  | _ + 1, .bool b :: ts => some (.bool b, ts)
  | _ + 1, .uint n :: ts => some (.uint n, ts)
  | _ + 1, .int n :: ts => some (.int n, ts)
  | _ + 1, .raw s :: ts => some (.raw s, ts)
  | fuel + 1, .array n :: ts => (parseMany (parse fuel) n ts).map fun (vs, ts) => (.array vs, ts)
  | fuel + 1, .map n :: ts =>
    (parseMany (parsePair (parse fuel)) n ts).map fun (entries, ts) => (.map entries, ts)

variable {item : List Token → Option (α × List Token)} {tokens : β → List Token} {value : β → α}
  {bs : List β} {ts : List Token} {n : ℕ}

/-- Items that can be parsed. -/
theorem parseMany_flatMap (h : ∀ b ∈ bs, ∀ ts, item (tokens b ++ ts) = some (value b, ts)) :
    parseMany item bs.length (bs.flatMap tokens ++ ts) = some (bs.map value, ts) := by
  induction bs with
  | nil => rfl
  | cons b bs ih =>
    rw [List.flatMap_cons, List.append_assoc, List.length_cons, parseMany, h b List.mem_cons_self]
    simp only [Option.bind_eq_bind, Option.bind_some]
    rw [ih fun b hb => h b (List.mem_cons_of_mem _ hb)]
    rfl

/-- Fewer items than were announced. -/
theorem parseMany_short (h : ∀ b ∈ bs, ∀ ts, item (tokens b ++ ts) = some (value b, ts))
    (hnil : item [] = none) (hn : bs.length < n) : parseMany item n (bs.flatMap tokens) = none := by
  induction bs generalizing n with
  | nil =>
    obtain ⟨n, rfl⟩ := Nat.exists_eq_add_of_lt hn
    rw [List.flatMap_nil, parseMany, hnil]
    rfl
  | cons b bs ih =>
    obtain ⟨n, rfl⟩ : ∃ m, n = m + 1 := ⟨n - 1, by rw [List.length_cons] at hn; omega⟩
    rw [List.flatMap_cons, parseMany, h b List.mem_cons_self]
    simp only [Option.bind_eq_bind, Option.bind_some]
    rw [ih (fun b hb => h b (List.mem_cons_of_mem _ hb)) (Nat.lt_of_succ_lt_succ hn)]
    rfl

/-- A key and a value that can be parsed. -/
theorem parsePair_append {k v : List Token} {a b : α} (hk : ∀ ts, item (k ++ ts) = some (a, ts))
    (hv : ∀ ts, item (v ++ ts) = some (b, ts)) (ts : List Token) :
    parsePair item (k ++ v ++ ts) = some ((a, b), ts) := by
  rw [List.append_assoc, parsePair, hk]
  simp only [Option.bind_eq_bind, Option.bind_some]
  rw [hv]
  rfl

theorem parse_nil (fuel : ℕ) : parse fuel [] = none := by
  cases fuel <;> rfl

theorem parsePair_nil (h : item [] = none) : parsePair item [] = none := by
  rw [parsePair, h]
  rfl

/-! ## Bytes

The tokens as bytes, each with its first byte. A length that does not fit into the first byte is
counted by as many bytes after it, so that there is no longest one. -/

open LittleEndian (Byte)

/-- A number by as many ones. -/
def unary (n : ℕ) : List Byte := List.replicate n 1 ++ [0]

def ofUnary : List Byte → Option (ℕ × List Byte)
  | [] => none
  | b :: bytes =>
    if b = 0 then some (0, bytes) else (ofUnary bytes).map fun (n, bytes) => (n + 1, bytes)

/-- A word, the most significant byte first. -/
def word (n : BitVec 64) : List Byte := (LittleEndian.encode 8 n.toNat).reverse

def ofWord (bytes : List Byte) : Option (BitVec 64 × List Byte) :=
  if 8 ≤ bytes.length then
    some (BitVec.ofNat 64 (LittleEndian.decode (bytes.take 8).reverse), bytes.drop 8)
  else none

/-- A length in the first byte, or after it. -/
def header (short limit long : Byte) (n : ℕ) : List Byte :=
  if n < limit.toNat then [short + BitVec.ofNat 8 n] else long :: unary n

def encode : Token → List Byte
  | .nil => [0xC0]
  | .bool b => [if b then 0xC3 else 0xC2]
  | .uint n => if n.toNat < 128 then [n.setWidth 8] else 0xCF :: word n
  | .int n => 0xD3 :: word n
  | .raw s => header 0xA0 32 0xDB s.length ++ s
  | .array n => header 0x90 16 0xDD n
  | .map n => header 0x80 16 0xDF n

def ofRaw (n : ℕ) (bytes : List Byte) : Option (Token × List Byte) :=
  if n ≤ bytes.length then some (.raw (bytes.take n), bytes.drop n) else none

/-- The token that the bytes begin with. -/
def decodeToken : List Byte → Option (Token × List Byte)
  | [] => none
  | b :: bytes =>
    if b < 0x80 then some (.uint (b.setWidth 64), bytes)
    else if b < 0x90 then some (.map (b - 0x80).toNat, bytes)
    else if b < 0xA0 then some (.array (b - 0x90).toNat, bytes)
    else if b < 0xC0 then ofRaw (b - 0xA0).toNat bytes
    else if b = 0xC0 then some (.nil, bytes)
    else if b = 0xC2 then some (.bool false, bytes)
    else if b = 0xC3 then some (.bool true, bytes)
    else if b = 0xCF then (ofWord bytes).map fun (n, bytes) => (.uint n, bytes)
    else if b = 0xD3 then (ofWord bytes).map fun (n, bytes) => (.int n, bytes)
    else if b = 0xDB then (ofUnary bytes).bind fun (n, bytes) => ofRaw n bytes
    else if b = 0xDD then (ofUnary bytes).map fun (n, bytes) => (.array n, bytes)
    else if b = 0xDF then (ofUnary bytes).map fun (n, bytes) => (.map n, bytes)
    else none

/-- The tokens of bytes, of which there are not more than the fuel. -/
def decode : ℕ → List Byte → Option (List Token)
  | _, [] => some []
  | 0, _ => none
  | fuel + 1, b :: bytes => do
    let (token, bytes) ← decodeToken (b :: bytes)
    let tokens ← decode fuel bytes
    return token :: tokens

theorem ofUnary_unary (n : ℕ) (bytes : List Byte) :
    ofUnary (unary n ++ bytes) = some (n, bytes) := by
  induction n with
  | zero => rfl
  | succ n ih =>
    have hcons : unary (n + 1) ++ bytes = 1 :: (unary n ++ bytes) := rfl
    rw [hcons, ofUnary, if_neg (by decide), ih]
    rfl

theorem length_word (n : BitVec 64) : (word n).length = 8 := by
  rw [word, List.length_reverse, LittleEndian.length_encode]

theorem ofWord_word (n : BitVec 64) (bytes : List Byte) :
    ofWord (word n ++ bytes) = some (n, bytes) := by
  have hlength : 8 ≤ (word n ++ bytes).length := by
    rw [List.length_append, length_word]
    exact Nat.le_add_right 8 _
  have htake : (word n ++ bytes).take 8 = word n := List.take_left' (length_word n)
  have hdrop : (word n ++ bytes).drop 8 = bytes := List.drop_left' (length_word n)
  rw [ofWord, if_pos hlength, htake, hdrop, word, List.reverse_reverse,
    LittleEndian.ofNat_decode_encode 8 n rfl]

theorem ofRaw_append (s bytes : List Byte) :
    ofRaw s.length (s ++ bytes) = some (.raw s, bytes) := by
  have hlength : s.length ≤ (s ++ bytes).length := by
    rw [List.length_append]
    exact Nat.le_add_right _ _
  rw [ofRaw, if_pos hlength, List.take_left, List.drop_left]

theorem header_short {short limit long : Byte} {n : ℕ} (h : n < limit.toNat) :
    header short limit long n = [short + BitVec.ofNat 8 n] := if_pos h

theorem header_long {short limit long : Byte} {n : ℕ} (h : ¬n < limit.toNat) :
    header short limit long n = long :: unary n := if_neg h

theorem toNat_short {short : Byte} {n : ℕ} (h : short.toNat + n < 256) :
    (short + BitVec.ofNat 8 n).toNat = short.toNat + n := by
  rw [BitVec.toNat_add, BitVec.toNat_ofNat]
  omega

theorem short_lt {short limit : Byte} {n : ℕ} (h : short.toNat + n < limit.toNat) :
    short + BitVec.ofNat 8 n < limit := by
  rw [BitVec.lt_def, toNat_short (h.trans limit.isLt)]
  exact h

theorem not_short_lt {short limit : Byte} {n : ℕ} (h : short.toNat + n < 256)
    (hle : limit ≤ short) : ¬short + BitVec.ofNat 8 n < limit := by
  rw [BitVec.lt_def, toNat_short h, not_lt]
  exact le_add_right (BitVec.le_def.1 hle)

theorem toNat_short_sub (short : Byte) {n : ℕ} (h : n < 256) :
    (short + BitVec.ofNat 8 n - short).toNat = n := by
  rw [BitVec.add_comm, BitVec.add_sub_cancel, BitVec.toNat_ofNat]
  exact Nat.mod_eq_of_lt h

theorem decodeToken_uint {n : BitVec 64} (h : n.toNat < 128) (bytes : List Byte) :
    decodeToken (n.setWidth 8 :: bytes) = some (.uint n, bytes) := by
  have hb : (n.setWidth 8).toNat = n.toNat := by
    rw [BitVec.toNat_setWidth]
    omega
  have hlt : n.setWidth 8 < 0x80 := BitVec.lt_def.2 (hb ▸ h)
  have hn : (n.setWidth 8).setWidth 64 = n := by
    apply BitVec.eq_of_toNat_eq
    rw [BitVec.toNat_setWidth, hb]
    omega
  rw [decodeToken, if_pos hlt, hn]

theorem decodeToken_map {n : ℕ} (h : n < 16) (bytes : List Byte) :
    decodeToken ((0x80 + BitVec.ofNat 8 n) :: bytes) = some (.map n, bytes) := by
  have hn : (0x80 : Byte).toNat + n < (0x90 : Byte).toNat := Nat.add_lt_add_left h 128
  have hn' := hn.trans (BitVec.isLt _)
  rw [decodeToken, if_neg (not_short_lt hn' (by decide)), if_pos (short_lt hn),
    toNat_short_sub _ (by omega)]

theorem decodeToken_array {n : ℕ} (h : n < 16) (bytes : List Byte) :
    decodeToken ((0x90 + BitVec.ofNat 8 n) :: bytes) = some (.array n, bytes) := by
  have hn : (0x90 : Byte).toNat + n < (0xA0 : Byte).toNat := Nat.add_lt_add_left h 144
  have hn' := hn.trans (BitVec.isLt _)
  rw [decodeToken, if_neg (not_short_lt hn' (by decide)), if_neg (not_short_lt hn' (by decide)),
    if_pos (short_lt hn), toNat_short_sub _ (by omega)]

theorem decodeToken_raw {n : ℕ} (h : n < 32) (bytes : List Byte) :
    decodeToken ((0xA0 + BitVec.ofNat 8 n) :: bytes) = ofRaw n bytes := by
  have hn : (0xA0 : Byte).toNat + n < (0xC0 : Byte).toNat := Nat.add_lt_add_left h 160
  have hn' := hn.trans (BitVec.isLt _)
  rw [decodeToken, if_neg (not_short_lt hn' (by decide)), if_neg (not_short_lt hn' (by decide)),
    if_neg (not_short_lt hn' (by decide)), if_pos (short_lt hn), toNat_short_sub _ (by omega)]

theorem decodeToken_encode (token : Token) (bytes : List Byte) :
    decodeToken (encode token ++ bytes) = some (token, bytes) := by
  cases token with
  | nil => rfl
  | bool b => cases b <;> rfl
  | uint n =>
    rw [encode]
    split
    · rename_i h
      exact decodeToken_uint h bytes
    · change (ofWord (word n ++ bytes)).map (fun (n, bytes) => (Token.uint n, bytes)) = _
      rw [ofWord_word]
      rfl
  | int n =>
    change (ofWord (word n ++ bytes)).map (fun (n, bytes) => (Token.int n, bytes)) = _
    rw [ofWord_word]
    rfl
  | raw s =>
    rw [encode, List.append_assoc]
    by_cases h : s.length < 32
    · rw [header_short h]
      exact (decodeToken_raw h _).trans (ofRaw_append s bytes)
    · rw [header_long h]
      refine (congrArg (Option.bind · _) (ofUnary_unary s.length (s ++ bytes))).trans ?_
      exact ofRaw_append s bytes
  | array n =>
    rw [encode]
    by_cases h : n < 16
    · rw [header_short h]
      exact decodeToken_array h bytes
    · rw [header_long h]
      exact congrArg (Option.map _) (ofUnary_unary n bytes)
  | map n =>
    rw [encode]
    by_cases h : n < 16
    · rw [header_short h]
      exact decodeToken_map h bytes
    · rw [header_long h]
      exact congrArg (Option.map _) (ofUnary_unary n bytes)

theorem header_ne_nil (short limit long : Byte) (n : ℕ) : header short limit long n ≠ [] := by
  rw [header]
  split <;> exact List.cons_ne_nil _ _

theorem encode_ne_nil (token : Token) : encode token ≠ [] := by
  cases token with
  | uint n =>
    rw [encode]
    split <;> exact List.cons_ne_nil _ _
  | raw s => exact List.append_ne_nil_of_left_ne_nil (header_ne_nil _ _ _ _) s
  | array n => exact header_ne_nil _ _ _ _
  | map n => exact header_ne_nil _ _ _ _
  | _ => exact List.cons_ne_nil _ _

theorem decode_flatMap {tokens : List Token} {fuel : ℕ}
    (h : (tokens.flatMap encode).length ≤ fuel) :
    decode fuel (tokens.flatMap encode) = some tokens := by
  induction tokens generalizing fuel with
  | nil => cases fuel <;> rfl
  | cons token tokens ih =>
    rw [List.flatMap_cons, List.length_append] at h
    have hpos := List.length_pos_iff.2 (encode_ne_nil token)
    obtain ⟨fuel, rfl⟩ : ∃ m, fuel = m + 1 := ⟨fuel - 1, by omega⟩
    obtain ⟨b, rest, heq⟩ :=
      List.exists_cons_of_ne_nil (List.append_ne_nil_of_left_ne_nil (encode_ne_nil token) _)
    rw [List.flatMap_cons, heq, decode, ← heq, decodeToken_encode]
    simp only [Option.bind_eq_bind, Option.bind_some]
    rw [ih (by omega)]
    rfl

end Veda.MsgPack
