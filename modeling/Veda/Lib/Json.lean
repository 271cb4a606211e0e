import Mathlib.Data.List.Infix

/-! # Reading JSON

A reader in the manner of `parseJSON` of `std.json`, over lists of characters. Of a value it keeps
the strings and the arrays. What its versions disagree about (the characters that must be escaped,
white space, numbers and literals, what may follow the value) is a `Dialect`.

`Decodes` relates the text between two quotes to the string that it stands for. The lemmas on it
say what becomes of a text that was put between quotes without being escaped. -/

namespace Veda.Json

inductive Value where
  | str (s : List Char)
  | arr (l : List Value)
  /-- A number, a literal or an object. -/
  | other

/-- The string `s` occurs in a value. -/
inductive Value.Has (s : List Char) : Value → Prop
  | str : Has s (.str s)
  | arr {l : List Value} {v : Value} : v ∈ l → Has s v → Has s (.arr l)

structure Dialect where
  /-- The characters that a string cannot have unless they are escaped. -/
  isControl : Char → Bool
  isControl_lt : ∀ c, isControl c = true → c.toNat < 0x20 ∨ c.toNat = 0x7F
  isWhite : Char → Bool
  isWhite_le : ∀ c, isWhite c = true → c.toNat ≤ 0x20
  /-- Reads a number or a literal, and gives the rest of the text. -/
  scalar : List Char → Option (List Char)
  scalar_suffix : ∀ text rest, scalar text = some rest → rest <:+ text
  /-- What may stand after the value. -/
  ends : List Char → Bool
  ends_nil : ends [] = true

/-- One digit or more. -/
def readDigits (text : List Char) : Option (List Char) :=
  if (text.head?.any (·.isDigit)) = true then some (text.dropWhile (·.isDigit)) else none

def readFraction (text : List Char) : Option (List Char) :=
  if text.head? = some '.' then readDigits text.tail else some text

def readExponent (text : List Char) : Option (List Char) :=
  if text.head?.any (·.toLower = 'e') = true then
    readDigits (if text.tail.head?.any (['+', '-'].contains ·) = true then text.tail.tail
      else text.tail)
  else some text

/-- A number, whatever its size. -/
def readNumber (text : List Char) : Option (List Char) :=
  ((readDigits (if text.head? = some '-' then text.tail else text)).bind readFraction).bind
    readExponent

/-- A literal in letters of any case. -/
def readLiteral (text : List Char) : Option (List Char) :=
  ["true", "false", "null"].findSome? fun word =>
    if (text.take word.length).map Char.toLower = word.toList then some (text.drop word.length)
    else none

theorem readDigits_suffix (h : readDigits text = some rest) : rest <:+ text := by
  unfold readDigits at h
  split at h
  · cases h
    exact List.dropWhile_suffix _
  · cases h

theorem ite_tail_suffix (p : Prop) [Decidable p] (text : List Char) :
    (if p then text.tail else text) <:+ text := by
  split
  · exact List.tail_suffix _
  · exact List.suffix_refl _

theorem readFraction_suffix (h : readFraction text = some rest) : rest <:+ text := by
  unfold readFraction at h
  split at h
  · exact (readDigits_suffix h).trans (List.tail_suffix _)
  · cases h
    exact List.suffix_refl _

theorem readExponent_suffix (h : readExponent text = some rest) : rest <:+ text := by
  unfold readExponent at h
  split at h
  · exact (readDigits_suffix h).trans ((ite_tail_suffix _ _).trans (List.tail_suffix _))
  · cases h
    exact List.suffix_refl _

theorem readNumber_suffix (h : readNumber text = some rest) : rest <:+ text := by
  obtain ⟨rest₂, h₂, hexp⟩ := Option.bind_eq_some_iff.mp h
  obtain ⟨rest₁, hint, hfrac⟩ := Option.bind_eq_some_iff.mp h₂
  exact (readExponent_suffix hexp).trans ((readFraction_suffix hfrac).trans
    ((readDigits_suffix hint).trans (ite_tail_suffix _ _)))

theorem readLiteral_suffix (h : readLiteral text = some rest) : rest <:+ text := by
  obtain ⟨word, -, hword⟩ := List.exists_of_findSome?_eq_some h
  split at hword
  · cases hword
    exact List.drop_suffix _ _
  · cases hword

/-- A dialect that refuses the control characters of ASCII and does not look at what follows the
value. -/
def Dialect.ascii : Dialect where
  isControl c := c.toNat < 0x20 || c.toNat = 0x7F
  isControl_lt c h := by simpa using h
  isWhite c := c = ' ' || 9 ≤ c.toNat && c.toNat ≤ 13
  isWhite_le c h := by
    simp only [Bool.or_eq_true, Bool.and_eq_true, decide_eq_true_eq] at h
    rcases h with rfl | ⟨-, h⟩
    · decide
    · omega
  scalar text := (readLiteral text).or (readNumber text)
  scalar_suffix text rest h := by
    rcases Option.or_eq_some_iff.mp h with h | ⟨-, h⟩
    · exact readLiteral_suffix h
    · exact readNumber_suffix h
  ends _ := true
  ends_nil := rfl

def hexValue (c : Char) : Option Nat :=
  if '0' ≤ c ∧ c ≤ '9' then some (c.toNat - '0'.toNat)
  else if 'a' ≤ c ∧ c ≤ 'f' then some (c.toNat - 'a'.toNat + 10)
  else if 'A' ≤ c ∧ c ≤ 'F' then some (c.toNat - 'A'.toNat + 10)
  else none

/-- Four hexadecimal digits. -/
def parseWChar : List Char → Option (Nat × List Char)
  | a :: b :: c :: d :: rest => do
    let a ← hexValue a
    let b ← hexValue b
    let c ← hexValue c
    let d ← hexValue d
    some (((a * 16 + b) * 16 + c) * 16 + d, rest)
  | _ => none

/-- The escapes of one letter. -/
def simpleEscape (c : Char) : Option Char :=
  match c with
  | '"' => some '"'
  | '\\' => some '\\'
  | '/' => some '/'
  | 'b' => some (Char.ofNat 8)
  | 'f' => some (Char.ofNat 12)
  | 'n' => some '\n'
  | 'r' => some '\r'
  | 't' => some '\t'
  | _ => none

/-- What follows a backslash. A character beyond the first plane takes two escapes. -/
def parseEscape : List Char → Option (Char × List Char)
  | 'u' :: text => do
    let (wc, rest) ← parseWChar text
    if 0xD800 ≤ wc ∧ wc < 0xDC00 then
      match rest with
      | '\\' :: 'u' :: text => do
        let (lo, rest) ← parseWChar text
        if 0xDC00 ≤ lo ∧ lo < 0xE000 then
          some (Char.ofNat (0x10000 + (wc - 0xD800) * 0x400 + (lo - 0xDC00)), rest)
        else none
      | _ => none
    else if 0xDC00 ≤ wc ∧ wc < 0xE000 then none
    else some (Char.ofNat wc, rest)
  | c :: rest => (simpleEscape c).map (·, rest)
  | [] => none

/-- Reads a string after its opening quote. Each step takes a character. -/
def parseString (d : Dialect) : Nat → List Char → Option (List Char × List Char)
  | 0, _ => none
  | _ + 1, [] => none
  | n + 1, c :: rest =>
    if c = '"' then some ([], rest)
    else if c = '\\' then do
      let (c, rest) ← parseEscape rest
      let (s, rest) ← parseString d n rest
      some (c :: s, rest)
    else if d.isControl c then none
    else do
      let (s, rest) ← parseString d n rest
      some (c :: s, rest)

/-- A string with its closing quote. -/
def readString (d : Dialect) (text : List Char) : Option (List Char × List Char) :=
  parseString d (text.length + 1) text

def skipWhite (d : Dialect) (text : List Char) : List Char := text.dropWhile d.isWhite

mutual

/-- `parseValue`. The first argument bounds the calls that are open: each of them but the calls of
`parseValue` for an element or a member has taken a character. -/
def parseValue (d : Dialect) : Nat → List Char → Option (Value × List Char)
  | 0, _ => none
  | n + 1, text =>
    match skipWhite d text with
    | '"' :: text => (readString d text).map fun (s, rest) => (.str s, rest)
    | '[' :: text =>
      match skipWhite d text with
      | ']' :: rest => some (.arr [], rest)
      | text => (parseElements d n text).map fun (l, rest) => (.arr l, rest)
    | '\x7b' :: text =>
      match skipWhite d text with
      | '\x7d' :: rest => some (.other, rest)
      | text => (parseMembers d n text).map (.other, ·)
    | text => (d.scalar text).map (.other, ·)

/-- The elements of an array that is not empty, with the closing bracket. -/
def parseElements (d : Dialect) : Nat → List Char → Option (List Value × List Char)
  | 0, _ => none
  | n + 1, text => do
    let (v, rest) ← parseValue d n text
    match skipWhite d rest with
    | ',' :: rest => do
      let (l, rest) ← parseElements d n rest
      some (v :: l, rest)
    | ']' :: rest => some ([v], rest)
    | _ => none

/-- The members of an object that is not empty, with the closing brace. -/
def parseMembers (d : Dialect) : Nat → List Char → Option (List Char)
  | 0, _ => none
  | n + 1, text =>
    match skipWhite d text with
    | '"' :: text => do
      let (_, rest) ← readString d text
      match skipWhite d rest with
      | ':' :: text => do
        let (_, rest) ← parseValue d n text
        match skipWhite d rest with
        | ',' :: rest => parseMembers d n rest
        | '\x7d' :: rest => some rest
        | _ => none
      | _ => none
    | _ => none

end

/-- `parseJSON`. -/
def parseJSON (d : Dialect) (text : List Char) : Option Value :=
  match parseValue d (2 * text.length + 1) text with
  | some (v, rest) => if d.ends rest then some v else none
  | none => none

/-- The text of a string in `toJSON`. -/
def encodeChar (d : Dialect) (c : Char) : List Char :=
  match c with
  | '"' => ['\\', '"']
  | '\\' => ['\\', '\\']
  | '/' => ['\\', '/']
  | '\n' => ['\\', 'n']
  | '\r' => ['\\', 'r']
  | '\t' => ['\\', 't']
  | _ =>
    if c.toNat = 8 then ['\\', 'b']
    else if c.toNat = 12 then ['\\', 'f']
    else if d.isControl c then
      '\\' :: 'u' :: [4096, 256, 16, 1].map fun n => (Nat.digitChar (c.toNat / n % 16)).toUpper
    else [c]

/-- `toJSON` of an array of strings. -/
def encodeStrings (d : Dialect) (l : List (List Char)) : List Char :=
  '[' :: [','].intercalate (l.map fun s => '"' :: (s.flatMap (encodeChar d) ++ ['"'])) ++ [']']

/-! ## The text of a string -/

/-- The character cannot stand for itself in a string. -/
def Dialect.Special (d : Dialect) (c : Char) : Prop :=
  c = '"' ∨ c = '\\' ∨ d.isControl c = true

/-- The text `raw` between two quotes stands for the string `s`. An escape is known by its
character and by the fact that it ends with the quote that it escapes, if any. -/
inductive Decodes (d : Dialect) : List Char → List Char → Prop
  | nil : Decodes d [] []
  | plain {c : Char} {raw s : List Char} :
    ¬d.Special c → Decodes d raw s → Decodes d (c :: raw) (c :: s)
  | escape {c : Char} {esc raw s : List Char} :
    esc ≠ [] → ('"' ∈ esc → esc = ['"'] ∧ c = '"') → Decodes d raw s →
      Decodes d ('\\' :: (esc ++ raw)) (c :: s)

theorem parseWChar_eq (h : parseWChar text = some (wc, rest)) :
    ∃ digits : List Char, text = digits ++ rest ∧ '"' ∉ digits := by
  match text with
  | a :: b :: c :: e :: text =>
    simp only [parseWChar, Option.bind_eq_bind, Option.bind_eq_some_iff, Option.some.injEq,
      Prod.mk.injEq] at h
    obtain ⟨na, ha, nb, hb, nc, hc, ne, he, -, rfl⟩ := h
    have hquote : hexValue '"' = none := by decide
    refine ⟨[a, b, c, e], rfl, fun hmem => ?_⟩
    simp only [List.mem_cons, List.not_mem_nil, or_false] at hmem
    rcases hmem with rfl | rfl | rfl | rfl <;> simp_all
  | [] | [_] | [_, _] | [_, _, _] => cases h

theorem parseEscape_eq (h : parseEscape text = some (c, rest)) :
    ∃ esc : List Char, text = esc ++ rest ∧ esc ≠ [] ∧ ('"' ∈ esc → esc = ['"'] ∧ c = '"') := by
  unfold parseEscape at h
  split at h
  · next text =>
    simp only [Option.bind_eq_bind, Option.bind_eq_some_iff] at h
    obtain ⟨⟨wc, rest'⟩, hwc, h⟩ := h
    obtain ⟨digits, rfl, hdigits⟩ := parseWChar_eq hwc
    dsimp only at h
    split at h
    · split at h
      · next text =>
        obtain ⟨⟨lo, rest''⟩, hlo, hpair⟩ := Option.bind_eq_some_iff.mp h
        obtain ⟨digits', rfl, hdigits'⟩ := parseWChar_eq hlo
        split at hpair
        · obtain ⟨-, rfl⟩ := Prod.mk.inj (Option.some.inj hpair)
          exact ⟨'u' :: (digits ++ '\\' :: 'u' :: digits'), by simp, by simp,
            fun hmem => by simp_all⟩
        · cases hpair
      · cases h
    · split at h
      · cases h
      · cases h
        exact ⟨'u' :: digits, by simp, by simp, fun hmem => by simp_all⟩
  · next c' rest' _ =>
    obtain ⟨e, he, heq⟩ := Option.map_eq_some_iff.mp h
    cases heq
    refine ⟨[c'], rfl, by simp, fun hmem => ?_⟩
    obtain rfl : '"' = c' := by simpa using hmem
    exact ⟨rfl, (Option.some.inj he).symm⟩
  · cases h

theorem parseString_decodes {d : Dialect} (h : parseString d n text = some (s, rest)) :
    ∃ raw, text = raw ++ '"' :: rest ∧ Decodes d raw s := by
  induction n generalizing text s with
  | zero => cases h
  | succ n ih =>
    cases text with
    | nil => cases h
    | cons c text =>
    unfold parseString at h
    split at h
    · next hc =>
      cases h
      exact ⟨[], by rw [hc]; rfl, .nil⟩
    split at h
    · next hc =>
      simp only [Option.bind_eq_bind, Option.bind_eq_some_iff, Option.some.injEq,
        Prod.mk.injEq] at h
      obtain ⟨⟨e, rest'⟩, hesc, ⟨s', rest''⟩, hs, rfl, rfl⟩ := h
      obtain ⟨esc, rfl, hne, hquote⟩ := parseEscape_eq hesc
      obtain ⟨raw, hraw, hdec⟩ := ih hs
      refine ⟨'\\' :: (esc ++ raw), ?_, .escape hne hquote hdec⟩
      dsimp only at hraw
      rw [hc, hraw]
      simp
    split at h
    · cases h
    · next hq hb hctl =>
      simp only [Option.bind_eq_bind, Option.bind_eq_some_iff, Option.some.injEq,
        Prod.mk.injEq] at h
      obtain ⟨⟨s', rest''⟩, hs, rfl, rfl⟩ := h
      obtain ⟨raw, hraw, hdec⟩ := ih hs
      refine ⟨c :: raw, by rw [hraw]; rfl, .plain ?_ hdec⟩
      rintro (h | h | h)
      · exact hq h
      · exact hb h
      · exact hctl h

/-- A string without special characters is read as it is. -/
theorem readString_append {d : Dialect} {s rest : List Char} (h : ∀ c ∈ s, ¬d.Special c) :
    readString d (s ++ '"' :: rest) = some (s, rest) := by
  have hfuel : ∀ n, s.length < n → parseString d n (s ++ '"' :: rest) = some (s, rest) := by
    induction s with
    | nil =>
      rintro (_ | n) hn
      · simp at hn
      · simp [parseString]
    | cons c s ih =>
      rintro (_ | n) hn
      · simp at hn
      · have hc := h c List.mem_cons_self
        simp only [Dialect.Special, not_or] at hc
        have hs := ih (fun c' hc' => h c' (List.mem_cons_of_mem c hc')) n (by simpa using hn)
        rw [List.cons_append, parseString, if_neg hc.1, if_neg hc.2.1, if_neg hc.2.2, hs]
        rfl
  exact hfuel _ (by simp only [List.length_append, List.length_cons]; omega)

/-! ### Texts that were not escaped -/

section
variable {d : Dialect} {raw s : List Char}

/-- Without a backslash there is nothing to decode. -/
theorem Decodes.eq_self (h : Decodes d raw s) (hraw : '\\' ∉ raw) :
    s = raw ∧ ∀ c ∈ s, ¬d.Special c := by
  induction h with
  | nil => simp
  | plain hc _ ih =>
    rw [List.mem_cons, not_or] at hraw
    obtain ⟨rfl, hs⟩ := ih hraw.2
    exact ⟨rfl, List.forall_mem_cons.mpr ⟨hc, hs⟩⟩
  | escape => simp at hraw

/-- Decoding shortens a text with a backslash. -/
theorem Decodes.length_le (h : Decodes d raw s) :
    s.length ≤ raw.length ∧ ('\\' ∈ raw → s.length < raw.length) := by
  induction h with
  | nil => simp
  | plain hc _ ih =>
    simp only [List.length_cons, List.mem_cons]
    refine ⟨by omega, fun hmem => ?_⟩
    have hne : '\\' ≠ _ := fun heq => hc (.inr (.inl heq.symm))
    have := ih.2 (hmem.resolve_left hne)
    omega
  | escape hne _ _ ih =>
    have := List.length_pos_iff.mpr hne
    simp only [List.length_cons, List.length_append]
    exact ⟨by omega, fun _ => by omega⟩

/-- A quote inside a text stands after a backslash. -/
theorem Decodes.split_quote (h : Decodes d raw s) (heq : raw = a ++ '"' :: b) :
    (∃ a', a = a' ++ ['\\']) ∧ ∃ s₁ s₂, s = s₁ ++ '"' :: s₂ ∧ Decodes d b s₂ := by
  induction h generalizing a with
  | nil => simp at heq
  | plain hc _ ih =>
    cases a with
    | nil =>
      cases heq
      exact absurd (.inl rfl) hc
    | cons c a =>
      rw [List.cons_append, List.cons.injEq] at heq
      obtain ⟨rfl, heq⟩ := heq
      obtain ⟨⟨a', rfl⟩, s₁, s₂, rfl, hb⟩ := ih heq
      exact ⟨⟨_ :: a', rfl⟩, _ :: s₁, s₂, rfl, hb⟩
  | @escape c esc raw s hne hquote hraw ih =>
    cases a with
    | nil => simp at heq
    | cons c' a =>
      rw [List.cons_append, List.cons.injEq] at heq
      obtain ⟨rfl, heq⟩ := heq
      rcases List.append_eq_append_iff.mp heq with ⟨a', rfl, hraw'⟩ | ⟨t, rfl, ht⟩
      · obtain ⟨⟨a'', rfl⟩, s₁, s₂, rfl, hb⟩ := ih hraw'
        exact ⟨⟨'\\' :: (esc ++ a''), by simp⟩, c :: s₁, s₂, rfl, hb⟩
      · -- the quote is in the escape, which is the quote alone
        cases t with
        | nil =>
          obtain ⟨⟨a'', ha⟩, s₁, s₂, rfl, hb⟩ := ih (a := []) (by simpa using ht.symm)
          simp at ha
        | cons q t =>
          rw [List.cons_append, List.cons.injEq] at ht
          obtain ⟨rfl, rfl⟩ := ht
          obtain ⟨hesc, rfl⟩ := hquote (by simp)
          obtain ⟨rfl, rfl⟩ : a = [] ∧ t = [] := by
            have hlen := congrArg List.length hesc
            simp only [List.length_append, List.length_cons, List.length_nil] at hlen
            exact ⟨List.length_eq_zero_iff.mp (by omega), List.length_eq_zero_iff.mp (by omega)⟩
          exact ⟨⟨[], rfl⟩, [], s, rfl, by simpa using hraw⟩

/-- What is read from a text that starts inside `s` is not `s`, if `s` has a special character.
Either the text ends in `s` and is decoded to something shorter, or it goes on to the next quote
and what it stands for does not end like `s`. -/
theorem Decodes.ne_of_special {s' x y rest : List Char} (h : Decodes d raw str)
    (hs : ∃ c ∈ s, d.Special c) (hs' : s' <:+ s) (hx : ∀ c ∈ x, ¬d.Special c) (hne : x ≠ [])
    (heq : raw ++ '"' :: rest = s' ++ '"' :: (x ++ '"' :: y)) : str ≠ s := by
  rintro rfl
  rcases List.append_eq_append_iff.mp heq with ⟨t, rfl, ht⟩ | ⟨t, rfl, ht⟩
  · -- `raw` is a part of `s'`
    have hlen := h.length_le
    have hle := hs'.length_le
    rw [List.length_append] at hle
    have hback : '\\' ∉ raw := fun hmem => by
      have := hlen.2 hmem
      omega
    obtain ⟨c, hc, hspecial⟩ := hs
    exact (h.eq_self hback).2 c hc hspecial
  · cases t with
    | nil =>
      rw [List.append_nil] at h
      have hlen := h.length_le
      have hle := hs'.length_le
      have hback : '\\' ∉ s' := fun hmem => by
        have := hlen.2 hmem
        omega
      obtain ⟨c, hc, hspecial⟩ := hs
      exact (h.eq_self hback).2 c hc hspecial
    | cons q t =>
      -- the quote after `s'` is escaped
      rw [List.cons_append, List.cons.injEq] at ht
      obtain ⟨rfl, ht⟩ := ht
      obtain ⟨⟨a, rfl⟩, s₁, s₂, rfl, hdec⟩ := h.split_quote rfl
      obtain rfl : t = x := by
        rcases List.append_eq_append_iff.mp ht with ⟨u, rfl, hu⟩ | ⟨u, rfl, hu⟩
        · cases u with
          | nil => simp
          | cons q u =>
            rw [List.cons_append, List.cons.injEq] at hu
            obtain ⟨rfl, -⟩ := hu
            obtain ⟨⟨a', rfl⟩, -⟩ := hdec.split_quote rfl
            exact absurd (.inr (.inl rfl)) (hx '\\' (by simp))
        · cases u with
          | nil => simp
          | cons q u =>
            rw [List.cons_append, List.cons.injEq] at hu
            obtain ⟨rfl, -⟩ := hu
            exact absurd (.inl rfl) (hx '"' (by simp))
      have hback : '\\' ∉ t := fun hmem => hx _ hmem (.inr (.inl rfl))
      obtain ⟨rfl, -⟩ := hdec.eq_self hback
      have hlast : (s₁ ++ '"' :: s₂).getLast? = some '\\' := by
        obtain ⟨p, hp⟩ := hs'
        rw [← hp]
        simp
      have hlast' : (s₁ ++ '"' :: s₂).getLast? = s₂.getLast? := by
        rw [List.getLast?_append, List.getLast?_cons]
        cases s₂ with
        | nil => exact absurd rfl hne
        | cons c t => simp [List.getLast?_cons]
      exact hx '\\' (List.mem_of_getLast? (hlast'.symm.trans hlast)) (.inr (.inl rfl))

end

/-! ## The strings of a value -/

/-- The string stands in the text, between quotes. -/
def Quoted (d : Dialect) (text s : List Char) : Prop :=
  ∃ raw rest, '"' :: (raw ++ '"' :: rest) <:+ text ∧ Decodes d raw s

theorem Quoted.mono (h : Quoted d text s) (hsub : text <:+ text') : Quoted d text' s := by
  obtain ⟨raw, rest, hraw, hdec⟩ := h
  exact ⟨raw, rest, hraw.trans hsub, hdec⟩

theorem Quoted.of_cons (h : Quoted d (c :: text) s) (hc : c ≠ '"') : Quoted d text s := by
  obtain ⟨raw, rest, hraw, hdec⟩ := h
  rcases List.suffix_cons_iff.mp hraw with heq | hraw
  · exact absurd (List.cons.inj heq).1.symm hc
  · exact ⟨raw, rest, hraw, hdec⟩

theorem readString_quoted (h : readString d text = some (s, rest)) :
    rest <:+ text ∧ Quoted d ('"' :: text) s := by
  obtain ⟨raw, rfl, hdec⟩ := parseString_decodes h
  exact ⟨⟨raw ++ ['"'], by simp⟩, raw, rest, List.suffix_refl _, hdec⟩

theorem skipWhite_suffix (h : skipWhite d text = rest) : rest <:+ text :=
  h ▸ List.dropWhile_suffix _

theorem skipWhite_cons_suffix (h : skipWhite d text = c :: rest) : rest <:+ text :=
  (List.suffix_cons c rest).trans (skipWhite_suffix h)

/-- What the three readers leave is the end of their text, and the strings that they find stand
in it. -/
structure ReadsText (d : Dialect) (n : Nat) : Prop where
  value : ∀ text v rest, parseValue d n text = some (v, rest) →
    rest <:+ text ∧ ∀ s, v.Has s → Quoted d text s
  elements : ∀ text l rest, parseElements d n text = some (l, rest) →
    rest <:+ text ∧ ∀ v ∈ l, ∀ s, v.Has s → Quoted d text s
  members : ∀ text rest, parseMembers d n text = some rest → rest <:+ text

theorem ReadsText.value_succ (h : ReadsText d n) (text : List Char) (v : Value)
    (rest : List Char) (heq : parseValue d (n + 1) text = some (v, rest)) :
    rest <:+ text ∧ ∀ s, v.Has s → Quoted d text s := by
  have hother : ∀ s, ¬Value.other.Has s := fun s hs => by cases hs
  rw [parseValue] at heq
  split at heq
  · next text' htext =>
    obtain ⟨⟨s, rest'⟩, hs, heq⟩ := Option.map_eq_some_iff.mp heq
    cases heq
    obtain ⟨hrest, hquoted⟩ := readString_quoted hs
    refine ⟨hrest.trans (skipWhite_cons_suffix htext), fun s' hs' => ?_⟩
    cases hs'
    exact hquoted.mono (skipWhite_suffix htext)
  · next text' htext =>
    have hsub := skipWhite_cons_suffix htext
    split at heq
    · next rest' hempty =>
      cases heq
      refine ⟨(skipWhite_cons_suffix hempty).trans hsub, fun s hs => ?_⟩
      cases hs with
      | arr hmem => cases hmem
    · obtain ⟨⟨l, rest'⟩, hl, heq⟩ := Option.map_eq_some_iff.mp heq
      cases heq
      have hskip : skipWhite d text' <:+ text := (List.dropWhile_suffix _).trans hsub
      obtain ⟨hrest, hquoted⟩ := h.elements _ _ _ hl
      refine ⟨hrest.trans hskip, fun s hs => ?_⟩
      cases hs with
      | arr hmem hs => exact (hquoted _ hmem s hs).mono hskip
  · next text' htext =>
    have hsub := skipWhite_cons_suffix htext
    split at heq
    · next rest' hempty =>
      cases heq
      exact ⟨(skipWhite_cons_suffix hempty).trans hsub, fun s hs => absurd hs (hother s)⟩
    · obtain ⟨rest', hrest, heq⟩ := Option.map_eq_some_iff.mp heq
      cases heq
      exact ⟨(h.members _ _ hrest).trans ((List.dropWhile_suffix _).trans hsub),
        fun s hs => absurd hs (hother s)⟩
  · obtain ⟨rest', hrest, heq⟩ := Option.map_eq_some_iff.mp heq
    cases heq
    exact ⟨(d.scalar_suffix _ _ hrest).trans (List.dropWhile_suffix _),
      fun s hs => absurd hs (hother s)⟩

theorem ReadsText.elements_succ (h : ReadsText d n) (text : List Char) (l : List Value)
    (rest : List Char) (heq : parseElements d (n + 1) text = some (l, rest)) :
    rest <:+ text ∧ ∀ v ∈ l, ∀ s, v.Has s → Quoted d text s := by
  rw [parseElements] at heq
  obtain ⟨⟨v, rest₁⟩, hv, heq⟩ := Option.bind_eq_some_iff.mp heq
  obtain ⟨hrest₁, hquoted⟩ := h.value _ _ _ hv
  dsimp only at heq
  split at heq
  · next rest₂ hcomma =>
    obtain ⟨⟨l', rest₃⟩, hl, heq⟩ := Option.bind_eq_some_iff.mp heq
    cases heq
    have hsub := (skipWhite_cons_suffix hcomma).trans hrest₁
    obtain ⟨hrest₃, hquoted'⟩ := h.elements _ _ _ hl
    exact ⟨hrest₃.trans hsub, List.forall_mem_cons.mpr
      ⟨hquoted, fun v' hv' s hs => (hquoted' v' hv' s hs).mono hsub⟩⟩
  · next rest₂ hclose =>
    cases heq
    exact ⟨(skipWhite_cons_suffix hclose).trans hrest₁, by simpa using hquoted⟩
  · cases heq

theorem ReadsText.members_succ (h : ReadsText d n) (text rest : List Char)
    (heq : parseMembers d (n + 1) text = some rest) : rest <:+ text := by
  rw [parseMembers] at heq
  split at heq
  · next text₁ hkey =>
    obtain ⟨⟨s, rest₁⟩, hs, heq⟩ := Option.bind_eq_some_iff.mp heq
    have hrest₁ := (readString_quoted hs).1.trans (skipWhite_cons_suffix hkey)
    dsimp only at heq
    split at heq
    · next text₂ hcolon =>
      obtain ⟨⟨v, rest₂⟩, hv, heq⟩ := Option.bind_eq_some_iff.mp heq
      have hrest₂ := ((h.value _ _ _ hv).1.trans (skipWhite_cons_suffix hcolon)).trans hrest₁
      dsimp only at heq
      split at heq
      · next rest₃ hcomma =>
        exact (h.members _ _ heq).trans ((skipWhite_cons_suffix hcomma).trans hrest₂)
      · next rest₃ hclose =>
        cases heq
        exact (skipWhite_cons_suffix hclose).trans hrest₂
      · cases heq
    · cases heq
  · cases heq

theorem readsText (d : Dialect) (n : Nat) : ReadsText d n := by
  induction n with
  | zero =>
    refine ⟨fun text v rest h => ?_, fun text l rest h => ?_, fun text rest h => ?_⟩
    · rw [parseValue] at h; cases h
    · rw [parseElements] at h; cases h
    · rw [parseMembers] at h; cases h
  | succ n ih => exact ⟨ih.value_succ, ih.elements_succ, ih.members_succ⟩

/-- A string that was put between quotes without being escaped is not found again, if it has a
special character. -/
theorem Quoted.ne_of_special {s x y : List Char}
    (h : Quoted d ('"' :: (s ++ '"' :: (x ++ '"' :: y))) str) (hs : ∃ c ∈ s, d.Special c)
    (hx : ∀ c ∈ x, ¬d.Special c) (hne : x ≠ []) (hy : '\\' ∉ y) : str ≠ s := by
  obtain ⟨raw, rest, ⟨p, hp⟩, hdec⟩ := h
  have hsuffix : raw ++ '"' :: rest <:+ s ++ '"' :: (x ++ '"' :: y) := by
    cases p with
    | nil => exact ⟨[], by simpa using hp⟩
    | cons c p => exact ⟨p ++ ['"'], by simpa using (List.cons.inj hp).2⟩
  obtain ⟨q, hq⟩ := hsuffix
  rcases List.append_eq_append_iff.mp hq with ⟨s', rfl, heq⟩ | ⟨t, rfl, heq⟩
  · exact hdec.ne_of_special hs (List.suffix_append q s') hx hne heq
  · -- the string starts after `s`, where there is no backslash
    rintro rfl
    have hback : '\\' ∉ raw := fun hmem => by
      have hmem' : '\\' ∈ '"' :: (x ++ '"' :: y) := by
        rw [heq]
        simp [hmem]
      simp only [List.mem_cons, List.mem_append] at hmem'
      rcases hmem' with h | h | h | h
      · cases h
      · exact hx _ h (.inr (.inl rfl))
      · cases h
      · exact hy h
    obtain ⟨c, hc, hspecial⟩ := hs
    exact (hdec.eq_self hback).2 c hc hspecial

theorem skipWhite_cons (d : Dialect) (c : Char) (rest : List Char) (hc : 0x20 < c.toNat) :
    skipWhite d (c :: rest) = c :: rest := by
  have hwhite : d.isWhite c = false := by
    by_contra h
    have := d.isWhite_le c (by simpa using h)
    omega
  simp [skipWhite, hwhite]

/-- An array that starts with a string. -/
theorem parseValue_string_array {T : List Char}
    (h : parseValue d n ('[' :: '"' :: T) = some (v, rest)) :
    ∃ s rest' l, readString d T = some (s, rest') ∧ v = .arr (.str s :: l) ∧
      ∀ v ∈ l, ∀ s, v.Has s → Quoted d rest' s := by
  match n with
  | 0 => rw [parseValue] at h; cases h
  | n + 1 =>
  rw [parseValue, skipWhite_cons _ _ _ (by decide)] at h
  simp only [skipWhite_cons d '"' T (by decide)] at h
  obtain ⟨⟨l, rest₁⟩, hl, heq⟩ := Option.map_eq_some_iff.mp h
  cases heq
  match n with
  | 0 => rw [parseElements] at hl; cases hl
  | n + 1 =>
  rw [parseElements] at hl
  obtain ⟨⟨v, rest'⟩, hv, hl⟩ := Option.bind_eq_some_iff.mp hl
  match n with
  | 0 => rw [parseValue] at hv; cases hv
  | n + 1 =>
  rw [parseValue, skipWhite_cons _ _ _ (by decide)] at hv
  obtain ⟨⟨s, rest''⟩, hs, heq⟩ := Option.map_eq_some_iff.mp hv
  cases heq
  dsimp only at hl
  split at hl
  · next rest₂ hcomma =>
    obtain ⟨⟨l', rest₃⟩, hl', heq⟩ := Option.bind_eq_some_iff.mp hl
    cases heq
    exact ⟨s, rest', l', hs, rfl, fun v hv s hhas =>
      (((readsText d (n + 1)).elements _ _ _ hl').2 v hv s hhas).mono
        (skipWhite_cons_suffix hcomma)⟩
  · cases hl
    exact ⟨s, rest', [], hs, rfl, by simp⟩
  · cases hl

/-! ## Reading what is well formed -/

theorem parseValue_str (h : ∀ c ∈ s, ¬d.Special c) :
    parseValue d (n + 1) ('"' :: (s ++ '"' :: rest)) = some (.str s, rest) := by
  rw [parseValue, skipWhite_cons _ _ _ (by decide)]
  simp only [readString_append h, Option.map_some]

theorem parseValue_arr (hc : 0x20 < c.toNat) (hclose : c ≠ ']')
    (h : parseElements d n (c :: text) = some (l, rest)) :
    parseValue d (n + 1) ('[' :: c :: text) = some (.arr l, rest) := by
  rw [parseValue, skipWhite_cons _ _ _ (by decide)]
  simp only [skipWhite_cons d c text hc]
  split
  · next heq => exact absurd (List.cons.inj heq).1 hclose
  · rw [h, Option.map_some]

theorem parseElements_cons (hv : parseValue d n text = some (v, ',' :: rest))
    (hl : parseElements d n rest = some (l, rest')) :
    parseElements d (n + 1) text = some (v :: l, rest') := by
  rw [parseElements, hv, Option.bind_eq_bind, Option.bind_some]
  simp only [skipWhite_cons d ',' rest (by decide), hl,
    Option.bind_eq_bind, Option.bind_some]

theorem parseElements_singleton (hv : parseValue d n text = some (v, ']' :: rest)) :
    parseElements d (n + 1) text = some ([v], rest) := by
  rw [parseElements, hv, Option.bind_eq_bind, Option.bind_some]
  simp only [skipWhite_cons d ']' rest (by decide)]

/-- An array of strings without special characters, after its opening bracket. -/
theorem parseElements_strings (names : List (List Char)) (name : List Char)
    (h : ∀ s ∈ name :: names, ∀ c ∈ s, ¬d.Special c) (n : Nat) :
    parseElements d (n + names.length + 2) ('"' :: (name ++ '"' ::
      (names.flatMap (fun s => ',' :: '"' :: (s ++ ['"'])) ++ ']' :: rest))) =
        some (.str name :: names.map .str, rest) := by
  induction names generalizing name with
  | nil => exact parseElements_singleton (parseValue_str (h name (by simp)))
  | cons next names ih =>
    have hnext := ih next fun s hs => h s (List.mem_cons_of_mem _ hs)
    refine parseElements_cons (l := .str next :: names.map .str) ?_ hnext
    simpa [Nat.add_assoc] using parseValue_str (n := n + names.length + 1) (h name (by simp))

/-! ## The length of a text -/

mutual

/-- The characters that a value takes at least, each element of an array with one character before
or behind it. -/
def Value.size : Value → Nat
  | .str s => s.length + 2
  | .arr l => 1 + sizes l
  | .other => 0

def sizes : List Value → Nat
  | [] => 0
  | v :: l => v.size + 1 + sizes l

end

/-- What the readers take is not shorter than what they find. -/
structure ReadsSize (d : Dialect) (n : Nat) : Prop where
  value : ∀ text v rest, parseValue d n text = some (v, rest) →
    v.size + rest.length ≤ text.length
  elements : ∀ text l rest, parseElements d n text = some (l, rest) →
    sizes l + rest.length ≤ text.length

theorem skipWhite_length_le (text : List Char) : (skipWhite d text).length ≤ text.length :=
  (List.dropWhile_suffix _).length_le

theorem skipWhite_cons_length_lt (h : skipWhite d text = c :: rest) : rest.length < text.length := by
  have := skipWhite_length_le (d := d) text
  rw [h, List.length_cons] at this
  omega

theorem readString_length (h : readString d text = some (s, rest)) :
    s.length + 1 + rest.length ≤ text.length := by
  obtain ⟨raw, rfl, hdec⟩ := parseString_decodes h
  have := hdec.length_le.1
  simp only [List.length_append, List.length_cons]
  omega

theorem ReadsSize.value_succ (h : ReadsSize d n) (text : List Char) (v : Value) (rest : List Char)
    (heq : parseValue d (n + 1) text = some (v, rest)) : v.size + rest.length ≤ text.length := by
  have hsuffix := ((readsText d (n + 1)).value text v rest heq).1.length_le
  rw [parseValue] at heq
  split at heq
  · next text' htext =>
    obtain ⟨⟨s, rest'⟩, hs, heq⟩ := Option.map_eq_some_iff.mp heq
    cases heq
    have hlt := skipWhite_cons_length_lt htext
    have hstring := readString_length hs
    rw [Value.size]
    omega
  · next text' htext =>
    have hlt := skipWhite_cons_length_lt htext
    split at heq
    · next rest' hempty =>
      cases heq
      have := skipWhite_cons_length_lt hempty
      rw [Value.size, sizes]
      omega
    · obtain ⟨⟨l, rest'⟩, hl, heq⟩ := Option.map_eq_some_iff.mp heq
      cases heq
      have hle := skipWhite_length_le (d := d) text'
      have helements := h.elements _ _ _ hl
      rw [Value.size]
      omega
  · split at heq
    · cases heq
      rw [Value.size]
      omega
    · obtain ⟨rest', -, heq⟩ := Option.map_eq_some_iff.mp heq
      cases heq
      rw [Value.size]
      omega
  · obtain ⟨rest', -, heq⟩ := Option.map_eq_some_iff.mp heq
    cases heq
    rw [Value.size]
    omega

theorem ReadsSize.elements_succ (h : ReadsSize d n) (text : List Char) (l : List Value)
    (rest : List Char) (heq : parseElements d (n + 1) text = some (l, rest)) :
    sizes l + rest.length ≤ text.length := by
  rw [parseElements] at heq
  obtain ⟨⟨v, rest₁⟩, hv, heq⟩ := Option.bind_eq_some_iff.mp heq
  have hvalue := h.value _ _ _ hv
  dsimp only at heq
  split at heq
  · next rest₂ hcomma =>
    obtain ⟨⟨l', rest₃⟩, hl, heq⟩ := Option.bind_eq_some_iff.mp heq
    cases heq
    have hlt := skipWhite_cons_length_lt hcomma
    have helements := h.elements _ _ _ hl
    simp only [sizes]
    omega
  · next rest₂ hclose =>
    cases heq
    have hlt := skipWhite_cons_length_lt hclose
    simp only [sizes]
    omega
  · cases heq

theorem readsSize (d : Dialect) (n : Nat) : ReadsSize d n := by
  induction n with
  | zero =>
    refine ⟨fun text v rest h => ?_, fun text l rest h => ?_⟩
    · rw [parseValue] at h; cases h
    · rw [parseElements] at h; cases h
  | succ n ih => exact ⟨ih.value_succ, ih.elements_succ⟩

/-- A text is not shorter than its value. -/
theorem size_le_of_parseJSON (h : parseJSON d text = some v) : v.size ≤ text.length := by
  unfold parseJSON at h
  split at h
  · next v' rest hv =>
    have := (readsSize d _).value _ _ _ hv
    split at h
    · cases h
      omega
    · cases h
  · cases h

end Veda.Json
