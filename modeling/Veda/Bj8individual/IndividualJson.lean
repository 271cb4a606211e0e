import Veda.Bj8individual.StoredWhole
import Veda.Bj8individual.SysTime
import Veda.Common.Decimal

/-! # Individuals to JSON and back

The model of `resource_to_json` and `individual_to_json` in `individual8json.d`, and what
`json_to_individual` reads of what they have written. -/

namespace Veda.Bj8individual.Json

variable {F : Type}

/-! ## Writing JSON -/

/-- The bytes of a text in ASCII. -/
def bytes (s : List Char) : Text := s.map fun c => BitVec.ofNat 8 c.toNat

/-- `text(resource.lang)`. -/
def langText : Lang → Text
  | .none => ascii "NONE"
  | .ru => ascii "RU"
  | .en => ascii "EN"

/-- A value with a type and data. -/
def typed (type : String) (data : JSONValue F) : JSONValue F :=
  .object [(ascii "type", .string (ascii type)), (ascii "data", data)]

/-- `resource.get!decimal`. -/
def Decimal.toCommon (d : Decimal) : Common.Decimal := ⟨.ofBitVec d.mantissa, .ofBitVec d.exponent⟩

/-- `resource_to_json`; `none` is an error of a slice. -/
def resourceToJson : Bj8individual.Resource → Option (JSONValue F)
  | .uri s => some (typed "Uri" (.string s))
  | .binary s => some (typed "Binary" (.string s))
  | .str s lang => some (.object [(ascii "type", .string (ascii "String")),
      (ascii "data", .string s), (ascii "lang", .string (langText lang))])
  | .integer n => some (typed "Integer" (.integer n))
  | .decimal mantissa exponent => do
    let s ← (Decimal.mk mantissa exponent).toCommon.asString
    return typed "Decimal" (.string (bytes s))
  | .boolean b => some (typed "Boolean" (if b then .true else .false))
  | .datetime n =>
    some (typed "Datetime" (.string (SysTime.toISOExtString (SysTime.unixTimeToStdTime n))))

/-- `json[key] = value`. -/
def assign (json : List (Entry F)) (key : Text) (value : JSONValue F) : List (Entry F) :=
  (key, value) :: json.filter fun entry => entry.1 ≠ key

/-- One turn of the loop of `individual_to_json`. -/
def writeProperty (json : List (Entry F)) (property : (_ : Text) × Resources) :
    Option (List (Entry F)) := do
  let jsonVals ← property.2.mapM resourceToJson
  return assign json property.1 (.array jsonVals)

/-- `individual_to_json`: the entries of the object. -/
def individualToJson (individual : Bj8individual.Individual) : Option (List (Entry F)) :=
  individual.resources.entries.foldlM writeProperty [(ascii "@", .string individual.uri)]

/-! ## The property -/

/-- A library with the times of `std.datetime`. -/
def Library.withTimes (base : Library F) (other : Text → Option (BitVec 64)) : Library F :=
  { base with
    fromISOExtString := fun val =>
      (SysTime.fromISOExtString other val).map SysTime.stdTimeToUnixTime }

/-- The same value; decimals are compared as the numbers that they denote. -/
def Same : Bj8individual.Resource → Resource → Prop
  | .uri s, r => r = ⟨.uri, 0, .text s⟩
  | .binary s, r => r = ⟨.binary, 0, .text s⟩
  | .str s lang, r => r = ⟨.string, (match lang with | .none => 0 | .ru => 1 | .en => 2), .text s⟩
  | .integer n, r => r = ⟨.integer, 0, .long n⟩
  | .decimal mantissa exponent, r => ∃ d, r = ⟨.decimal, 0, .decimal d⟩ ∧
      d.toCommon.toRat = (Decimal.mk mantissa exponent).toCommon.toRat
  | .boolean b, r => r = ⟨.boolean, 0, .bool b⟩
  | .datetime n, r => r = ⟨.datetime, 0, .long n⟩

/-- The decimals and times that are read as they are written. -/
def Survives : Bj8individual.Resource → Prop
  | .decimal mantissa exponent => Int64.ofBitVec mantissa ≠ Int64.minValue ∧
      exponent.toInt ≤ 0 ∧ -exponent.toInt ≤ Common.digits (.ofBitVec mantissa) + 32
  | .datetime n => SysTime.InRange n
  | _ => True

section
variable (lib : Library F)

/-- The same uri and, for each predicate, the same values. -/
structure SameIndividual (x : Bj8individual.Individual) (y : Individual) : Prop where
  uri : y.uri = x.uri
  values : ∀ p, Option.Rel (List.Forall₂ Same) (x.resources.lookup p) (y.resources.lookup p)

/-- The individual is written, and in whatever order the loop over the object goes, it is read. -/
def ComesBack (x : Bj8individual.Individual) : Prop :=
  ∃ json, individualToJson x = some json ∧ ∀ order : List (Entry F), order.Perm json →
    ∃ y, jsonToIndividual lib (.object order) = .ok y ∧ SameIndividual x y

end

/-! ## Values -/

section
variable {lib : Library F}

theorem jsonToResource_eq {json data : JSONValue F} {type : DataType}
    (htype : typeOf json = .ok type) (hdata : json.get (ascii "data") = .ok data) :
    jsonToResource lib json =
      (convert lib json type data).map fun resource => { resource with type := type } := by
  rw [jsonToResource, htype, hdata]
  change (convert lib json type data >>= fun resource =>
    pure { resource with type := type }) = _
  cases convert lib json type data with
  | error failure => rfl
  | ok resource => rfl

theorem jsonToResource_decimal (s : Text) :
    jsonToResource lib (typed "Decimal" (.string s)) =
      (decimalOfString (some s)).map fun d => ⟨.decimal, 0, .decimal d⟩ := by
  have htype : typeOf (typed "Decimal" (.string s) : JSONValue F) = .ok .decimal := rfl
  have hdata : (typed "Decimal" (.string s) : JSONValue F).get (ascii "data") =
    .ok (.string s) := rfl
  have hs : getString (typed "Decimal" (.string s) : JSONValue F) (ascii "data") =
    .ok (some s) := rfl
  rw [jsonToResource_eq htype hdata, convert, if_neg (by decide), if_neg (by decide),
    if_neg (by decide), if_pos rfl]
  simp only [hs]
  cases h : decimalOfString (some s) with
  | error failure => simp only [bind, Except.bind, h]; rfl
  | ok d => simp only [bind, Except.bind, h]; rfl

theorem jsonToResource_datetime (s : Text) :
    jsonToResource lib (typed "Datetime" (.string s)) =
      (timeOf lib (some s)).map fun n => ⟨.datetime, 0, .long n⟩ := by
  have htype : typeOf (typed "Datetime" (.string s) : JSONValue F) = .ok .datetime := rfl
  have hdata : (typed "Datetime" (.string s) : JSONValue F).get (ascii "data") =
    .ok (.string s) := rfl
  have hs : getString (typed "Datetime" (.string s) : JSONValue F) (ascii "data") =
    .ok (some s) := rfl
  rw [jsonToResource_eq htype hdata, convert, if_neg (by decide), if_neg (by decide),
    if_neg (by decide), if_neg (by decide), if_neg (by decide), if_pos rfl]
  simp only [hs]
  cases h : timeOf lib (some s) with
  | error failure => simp only [bind, Except.bind, h]; rfl
  | ok n => simp only [bind, Except.bind, h]; rfl

end

/-! ## Decimals -/

section
variable {mantissa : BitVec 64} {exponent : BitVec 8} {s : List Char}

theorem bytes_append (s s' : List Char) : bytes (s ++ s') = bytes s ++ bytes s' :=
  List.map_append

/-- Neither digits nor a minus separate anything. -/
theorem notMem_bytes {separator : Byte} (hsep : separator.toNat < 48 ∧ separator ≠ 45)
    (h : ∀ c ∈ s, c.isDigit = true ∨ c = '-') : separator ∉ bytes s := by
  intro hmem
  obtain ⟨c, hc, rfl⟩ := List.mem_map.mp hmem
  rcases h c hc with hc | rfl
  · obtain ⟨hle, -, hnat⟩ := toNat_ofNat_of_isDigit hc
    omega
  · exact hsep.2 rfl

theorem decimalOfString_point {whole fraction : Text} (hw : 44 ∉ whole ∧ 46 ∉ whole)
    (hf : 44 ∉ fraction ∧ 46 ∉ fraction) :
    decimalOfString (some (whole ++ 46 :: fraction)) =
      (toLong (whole ++ fraction)).map fun n => ⟨n, -BitVec.ofNat 8 fraction.length⟩ := by
  have hcomma : 44 ∉ whole ++ 46 :: fraction := by
    intro h
    rcases List.mem_append.mp h with h | h
    · exact hw.1 h
    rcases List.mem_cons.mp h with h | h
    · exact absurd h (by decide)
    · exact hf.1 h
  have hparts : decimalParts (whole ++ 46 :: fraction) = [whole, fraction] := by
    rw [decimalParts, if_neg fun h => hcomma h.2, split, if_neg (by simp),
      List.splitOn_append_cons_self, List.splitOn_eq_singleton hw.2,
      List.splitOn_eq_singleton hf.2]
    rfl
  rw [decimalOfString]
  simp only [hparts]
  cases toLong (whole ++ fraction) with
  | error failure => rfl
  | ok n => rfl

/-- What is read of a text that shows the digits of a mantissa. -/
theorem decimalOfString_of_shows {m : Int64} {text : List Char} {places : ℕ}
    (h : Common.Shows m text places) : ∃ zeros, decimalOfString (some (bytes text)) =
      (toLong (bytes (Common.signOf m ++
        (List.replicate zeros '0' ++ (Common.signAndMantissa m).2)))).map
        fun n => ⟨n, -BitVec.ofNat 8 places⟩ := by
  obtain ⟨whole, fraction, zeros, rfl, hbody, rfl⟩ := h.shape
  have hsign : ∀ c ∈ Common.signOf m, c = '-' := by
    intro c hc
    unfold Common.signOf at hc
    split at hc
    · exact List.mem_singleton.mp hc
    · cases hc
  have hall : ∀ c ∈ whole ++ fraction, c.isDigit = true ∨ c = '-' := by
    intro c hc
    rw [hbody] at hc
    rcases List.mem_append.mp hc with hc | hc
    · exact .inl (Numeral.isDigits_zeros zeros c hc)
    by_cases hm : m = Int64.minValue
    · subst hm
      rw [Common.signAndMantissa_minValue] at hc
      rcases List.mem_cons.mp hc with hc | hc
      · exact .inr hc
      · exact .inl (Numeral.isDigits_toDigits _ c hc)
    · rw [Common.signAndMantissa_of_ne hm] at hc
      exact .inl (Numeral.isDigits_toDigits _ c hc)
  have hwhole : ∀ c ∈ Common.signOf m ++ whole, c.isDigit = true ∨ c = '-' := by
    intro c hc
    rcases List.mem_append.mp hc with hc | hc
    · exact .inr (hsign c hc)
    · exact hall c (List.mem_append_left _ hc)
  have hfraction : ∀ c ∈ fraction, c.isDigit = true ∨ c = '-' := fun c hc =>
    hall c (List.mem_append_right _ hc)
  refine ⟨zeros, ?_⟩
  have htext : bytes (Common.signOf m ++ (whole ++ '.' :: fraction)) =
      bytes (Common.signOf m ++ whole) ++ 46 :: bytes fraction := by
    rw [← List.append_assoc, bytes_append]
    rfl
  have hlength : (bytes fraction).length = fraction.length := List.length_map _
  rw [htext, decimalOfString_point
    ⟨notMem_bytes (by decide) hwhole, notMem_bytes (by decide) hwhole⟩
    ⟨notMem_bytes (by decide) hfraction, notMem_bytes (by decide) hfraction⟩, ← bytes_append,
    List.append_assoc, hbody, hlength]

/-- The digits of any mantissa but the smallest are read. -/
theorem toLong_mantissa {m : Int64} (hm : m ≠ Int64.minValue) (zeros : ℕ) :
    toLong (bytes (Common.signOf m ++ (List.replicate zeros '0' ++ (Common.signAndMantissa m).2))) =
      .ok m.toBitVec := by
  have hne : m.toInt ≠ -2 ^ 63 := by
    rw [← Int64.toInt_minValue]
    exact fun heq => hm (Int64.toInt_inj.mp heq)
  have hle : -2 ^ 63 ≤ m.toInt := m.minValue_le_toInt
  have hlt : m.toInt < 2 ^ 63 := Int64.toInt_lt m
  have hall := (Numeral.isDigits_zeros zeros).append (Numeral.isDigits_toDigits m.toInt.natAbs)
  have hbody : List.replicate zeros '0' ++ Nat.toDigits 10 m.toInt.natAbs ≠ [] := fun h =>
    Nat.toDigits_ne_nil (List.append_eq_nil_iff.mp h).2
  have hvalue : Nat.ofDigitChars 10
      (List.replicate zeros '0' ++ Nat.toDigits 10 m.toInt.natAbs) 0 = m.toInt.natAbs :=
    (Numeral.digitsValue_zeros_append _ _).trans (Numeral.digitsValue_toDigits _)
  rw [Common.signAndMantissa_of_ne hm, Common.signOf]
  split
  · next hneg =>
    rw [Int64.lt_iff_toInt_lt, Int64.toInt_zero] at hneg
    have hminus := toLong_minus_digits hall hbody (by rw [hvalue]; omega)
    rw [hvalue, ← BitVec.ofInt_natCast, ← BitVec.ofInt_neg] at hminus
    have habs : -(m.toInt.natAbs : ℤ) = m.toInt := by omega
    rw [habs] at hminus
    refine hminus.trans ?_
    rw [← Int64.toInt_toBitVec, BitVec.ofInt_toInt]
  · next hneg =>
    rw [Int64.lt_iff_toInt_lt, Int64.toInt_zero] at hneg
    have hplain := toLong_digits hall hbody (by rw [hvalue]; omega)
    rw [hvalue, ← BitVec.ofInt_natCast] at hplain
    have habs : (m.toInt.natAbs : ℤ) = m.toInt := by omega
    rw [habs] at hplain
    refine hplain.trans ?_
    rw [← Int64.toInt_toBitVec, BitVec.ofInt_toInt]

/-- The digits of the smallest mantissa have a sign of their own. -/
theorem toLong_minValue (zeros : ℕ) :
    toLong (bytes (Common.signOf Int64.minValue ++
      (List.replicate zeros '0' ++ (Common.signAndMantissa Int64.minValue).2))) =
      .error .exception := by
  refine SysTime.toLong_minus ?_
  rw [Common.signAndMantissa_minValue]
  exact List.mem_map_of_mem (f := fun c : Char => BitVec.ofNat 8 c.toNat)
    (List.mem_append_right _ List.mem_cons_self)

theorem decimalOfString_asString {text : List Char} (hm : Int64.ofBitVec mantissa ≠ Int64.minValue)
    (hpos : exponent.toInt ≤ 0)
    (h : Common.Shows (.ofBitVec mantissa) text (-exponent.toInt).toNat) :
    decimalOfString (some (bytes text)) = .ok ⟨mantissa, exponent⟩ := by
  obtain ⟨zeros, hread⟩ := decimalOfString_of_shows h
  have hexponent : -BitVec.ofNat 8 (-exponent.toInt).toNat = exponent := by
    rw [← BitVec.ofInt_natCast, ← BitVec.ofInt_neg, Int.toNat_of_nonneg (by omega), Int.neg_neg,
      BitVec.ofInt_toInt]
  rw [hread, toLong_mantissa hm, hexponent]
  rfl

end

/-! ## What is read of a value -/

section
variable {base : Library F} {other : Text → Option (BitVec 64)}

/-- The value is written and read. -/
def Reads (lib : Library F) (r : Bj8individual.Resource) : Prop :=
  ∃ json r', resourceToJson r = some json ∧ jsonToResource lib json = .ok r' ∧ Same r r'

theorem reads_decimal_iff {lib : Library F} (mantissa : BitVec 64) (exponent : BitVec 8) :
    Reads lib (.decimal mantissa exponent) ↔ Survives (.decimal mantissa exponent) := by
  have hwritten : ∀ json : JSONValue F, resourceToJson (.decimal mantissa exponent) = some json ↔
      ∃ text, (Decimal.mk mantissa exponent).toCommon.asString = some text ∧
        typed "Decimal" (.string (bytes text)) = json := by
    intro json
    rw [resourceToJson, Option.bind_eq_bind, Option.bind_eq_some_iff]
    simp only [Option.pure_def, Option.some_inj]
  constructor
  · rintro ⟨json, r', hjson, hread, -⟩
    obtain ⟨text, htext, rfl⟩ := (hwritten json).mp hjson
    have hpos : exponent.toInt ≤ 0 := by
      by_contra hpos
      have hnone := Common.asString_of_pos (.ofBitVec mantissa) (.ofBitVec exponent)
        (Int.not_le.mp hpos)
      exact nomatch htext.symm.trans hnone
    have hlong : -exponent.toInt ≤
        (Common.signAndMantissa (.ofBitVec mantissa)).2.length + 32 := by
      by_contra hlong
      have hnone := Common.asString_of_long (.ofBitVec mantissa) (.ofBitVec exponent)
        (Int.not_le.mp hlong)
      exact nomatch htext.symm.trans hnone
    have hm : Int64.ofBitVec mantissa ≠ Int64.minValue := by
      intro hm
      obtain ⟨text', htext', hshows⟩ :=
        Common.asString_shows (.ofBitVec mantissa) (.ofBitVec exponent) hpos hlong
      obtain rfl : text = text' := Option.some_inj.mp (htext.symm.trans htext')
      rw [hm] at hshows
      obtain ⟨zeros, hparse⟩ := decimalOfString_of_shows hshows
      rw [jsonToResource_decimal, hparse, toLong_minValue] at hread
      cases hread
    rw [Common.length_signAndMantissa _ hm] at hlong
    exact ⟨hm, hpos, hlong⟩
  · rintro ⟨hm, hpos, hlong⟩
    rw [← Common.length_signAndMantissa _ hm] at hlong
    obtain ⟨text, htext, hshows⟩ :=
      Common.asString_shows (.ofBitVec mantissa) (.ofBitVec exponent) hpos hlong
    refine ⟨_, ⟨.decimal, 0, .decimal ⟨mantissa, exponent⟩⟩,
      (hwritten _).mpr ⟨text, htext, rfl⟩, ?_, _, rfl, rfl⟩
    rw [jsonToResource_decimal, decimalOfString_asString hm hpos hshows]
    rfl

theorem reads_datetime_iff (n : BitVec 64) :
    Reads (base.withTimes other) (.datetime n) ↔ Survives (.datetime n) := by
  have htime : timeOf (base.withTimes other)
      (some (SysTime.toISOExtString (SysTime.unixTimeToStdTime n))) = .ok n ↔
      Survives (.datetime n) := SysTime.timeOf_toISOExtString_iff rfl n
  rw [← htime]
  constructor
  · rintro ⟨json, r', hjson, hread, hsame⟩
    cases hjson
    cases hsame
    rw [jsonToResource_datetime] at hread
    cases h : timeOf (base.withTimes other)
        (some (SysTime.toISOExtString (SysTime.unixTimeToStdTime n))) with
    | error failure =>
      rw [h] at hread
      cases hread
    | ok n' =>
      rw [h] at hread
      cases hread
      rfl
  · intro h
    refine ⟨_, ⟨.datetime, 0, .long n⟩, rfl, ?_, rfl⟩
    rw [jsonToResource_datetime, h]
    rfl

/-- Every value comes back but some decimals and times. -/
theorem reads_iff (r : Bj8individual.Resource) :
    Reads (base.withTimes other) r ↔ Survives r := by
  cases r with
  | decimal mantissa exponent => exact reads_decimal_iff mantissa exponent
  | datetime n => exact reads_datetime_iff n
  | uri s => exact iff_of_true ⟨_, _, rfl, rfl, rfl⟩ trivial
  | binary s => exact iff_of_true ⟨_, _, rfl, rfl, rfl⟩ trivial
  | integer n => exact iff_of_true ⟨_, _, rfl, rfl, rfl⟩ trivial
  | str s lang =>
    refine iff_of_true ?_ trivial
    cases lang with
    | none => exact ⟨_, _, rfl, rfl, rfl⟩
    | ru => exact ⟨_, _, rfl, rfl, rfl⟩
    | en => exact ⟨_, _, rfl, rfl, rfl⟩
  | boolean b =>
    refine iff_of_true ?_ trivial
    cases b with
    | false => exact ⟨_, _, rfl, rfl, rfl⟩
    | true => exact ⟨_, _, rfl, rfl, rfl⟩

end

/-! ## What is written of an individual -/

section
variable {json json' : List (Entry F)} {properties : List ((_ : Text) × Resources)}
  {write : Bj8individual.Resource → Option (JSONValue F)}

/-- One turn of a loop that writes the values of an individual with `write`. -/
def writeWith (write : Bj8individual.Resource → Option (JSONValue F)) (json : List (Entry F))
    (property : (_ : Text) × Resources) : Option (List (Entry F)) := do
  let jsonVals ← property.2.mapM write
  return assign json property.1 (.array jsonVals)

theorem mem_assign {key p : Text} {value v : JSONValue F} :
    (p, v) ∈ assign json key value ↔ p = key ∧ v = value ∨ p ≠ key ∧ (p, v) ∈ json := by
  rw [assign, List.mem_cons, List.mem_filter, Prod.mk.injEq, decide_eq_true_eq]
  exact or_congr_right and_comm

theorem nodup_assign (h : (json.map Prod.fst).Nodup) (key : Text) (value : JSONValue F) :
    ((assign json key value).map Prod.fst).Nodup := by
  rw [assign, List.map_cons, List.nodup_cons]
  refine ⟨fun hmem => ?_, ?_⟩
  · obtain ⟨entry, hentry, heq⟩ := List.mem_map.mp hmem
    exact of_decide_eq_true (List.mem_filter.mp hentry).2 heq
  · exact h.sublist (List.filter_sublist.map Prod.fst)

theorem mapM_some_iff {rs : Resources} {values : List (JSONValue F)} :
    rs.mapM write = some values ↔
      List.Forall₂ (fun r value => write r = some value) rs values := by
  induction rs generalizing values with
  | nil =>
    rw [List.mapM_nil, List.forall₂_nil_left_iff]
    exact ⟨fun h => (Option.some_inj.mp h).symm, fun h => by rw [h]; rfl⟩
  | cons r rs ih =>
    rw [List.mapM_cons, List.forall₂_cons_left_iff, Option.bind_eq_bind,
      Option.bind_eq_some_iff]
    constructor
    · rintro ⟨value, hvalue, hrest⟩
      obtain ⟨values', hvalues, heq⟩ := Option.bind_eq_some_iff.mp hrest
      exact ⟨value, values', hvalue, ih.mp hvalues, (Option.some_inj.mp heq).symm⟩
    · rintro ⟨value, values', hvalue, hvalues, rfl⟩
      refine ⟨value, hvalue, Option.bind_eq_some_iff.mpr ⟨values', ih.mpr hvalues, rfl⟩⟩

theorem writeWith_eq_some_iff {property : (_ : Text) × Resources} :
    writeWith write json property = some json' ↔ ∃ values,
      property.2.mapM write = some values ∧
        assign json property.1 (.array values) = json' := by
  rw [writeWith, Option.bind_eq_bind, Option.bind_eq_some_iff]
  simp only [Option.pure_def, Option.some_inj]

/-- The loop ends where all values can be written. -/
theorem exists_foldlM (h : ∀ property ∈ properties, ∃ values : List (JSONValue F),
    property.2.mapM write = some values) (json : List (Entry F)) :
    ∃ json', properties.foldlM (writeWith write) json = some json' := by
  induction properties generalizing json with
  | nil => exact ⟨json, rfl⟩
  | cons property properties ih =>
    obtain ⟨⟨values, hvalues⟩, hrest⟩ := List.forall_mem_cons.mp h
    have hstep : writeWith write json property = some (assign json property.1 (.array values)) :=
      writeWith_eq_some_iff.mpr ⟨values, hvalues, rfl⟩
    obtain ⟨json', hjson'⟩ := ih hrest (assign json property.1 (.array values))
    refine ⟨json', ?_⟩
    rw [List.foldlM_cons, hstep]
    exact hjson'

/-- No two entries of what is written have a name. -/
theorem nodup_foldlM (hnodup : (json.map Prod.fst).Nodup)
    (h : properties.foldlM (writeWith write) json = some json') : (json'.map Prod.fst).Nodup := by
  induction properties generalizing json with
  | nil =>
    cases h
    exact hnodup
  | cons property properties ih =>
    rw [List.foldlM_cons, Option.bind_eq_bind, Option.bind_eq_some_iff] at h
    obtain ⟨next, hnext, hrest⟩ := h
    obtain ⟨values, -, rfl⟩ := writeWith_eq_some_iff.mp hnext
    exact ih (nodup_assign hnodup _ _) hrest

/-- An entry that no property has stays. -/
theorem mem_foldlM_of_notMem {p : Text} {value : JSONValue F} (hp : p ∉ properties.keys)
    (h : properties.foldlM (writeWith write) json = some json') :
    (p, value) ∈ json' ↔ (p, value) ∈ json := by
  induction properties generalizing json with
  | nil =>
    cases h
    exact Iff.rfl
  | cons property properties ih =>
    rw [List.keys_cons, List.mem_cons, not_or] at hp
    rw [List.foldlM_cons, Option.bind_eq_bind, Option.bind_eq_some_iff] at h
    obtain ⟨next, hnext, hrest⟩ := h
    obtain ⟨values, -, rfl⟩ := writeWith_eq_some_iff.mp hnext
    rw [ih hp.2 hrest, mem_assign, and_iff_right hp.1]
    exact or_iff_right fun heq => hp.1 heq.1

/-- A property is written with all its values. -/
theorem mem_foldlM (hnodup : properties.NodupKeys) {p : Text} {rs : Resources}
    (hmem : ⟨p, rs⟩ ∈ properties) (h : properties.foldlM (writeWith write) json = some json') :
    ∃ values, rs.mapM write = some values ∧
      ∀ value, (p, value) ∈ json' ↔ value = .array values := by
  induction properties generalizing json with
  | nil => cases hmem
  | cons property properties ih =>
    rw [List.nodupKeys_cons] at hnodup
    rw [List.foldlM_cons, Option.bind_eq_bind, Option.bind_eq_some_iff] at h
    obtain ⟨next, hnext, hrest⟩ := h
    rcases List.mem_cons.mp hmem with rfl | hmem
    · obtain ⟨values, hvalues, rfl⟩ := writeWith_eq_some_iff.mp hnext
      refine ⟨values, hvalues, fun value => ?_⟩
      rw [mem_foldlM_of_notMem hnodup.1 hrest, mem_assign]
      constructor
      · rintro (⟨-, rfl⟩ | ⟨hne, -⟩)
        · rfl
        · exact absurd rfl hne
      · rintro rfl
        exact .inl ⟨rfl, rfl⟩
    · exact ih hnodup.2 hmem hrest

end

/-! ## What is read of an individual -/

section
variable {lib : Library F} {x : Bj8individual.Individual} {json : List (Entry F)}
  {write : Bj8individual.Resource → Option (JSONValue F)}

theorem lookup_of_mem {p : Text} {value : JSONValue F} (h : (json.map Prod.fst).Nodup)
    (hmem : (p, value) ∈ json) : json.lookup p = some value := by
  obtain ⟨front, back, rfl⟩ := List.append_of_mem hmem
  refine List.lookup_eq_some_iff.mpr ⟨front, back, rfl, fun entry hentry => ?_⟩
  rw [List.map_append, List.nodup_append] at h
  exact bne_iff_ne.mpr
    (h.2.2 entry.1 (List.mem_map_of_mem hentry) p List.mem_cons_self).symm

/-- The value that `write` makes is read. -/
def ReadsAs (lib : Library F) (write : Bj8individual.Resource → Option (JSONValue F))
    (r : Bj8individual.Resource) : Prop :=
  ∃ json r', write r = some json ∧ jsonToResource lib json = .ok r' ∧ Same r r'

/-- Values that are each written and read are all written and read. -/
theorem forall_readsAs_iff {rs : Resources} : (∀ r ∈ rs, ReadsAs lib write r) ↔ ∃ values rs',
    List.Forall₂ (fun r value => write r = some value) rs values ∧
      List.Forall₂ (fun value r => jsonToResource lib value = .ok r) values rs' ∧
      List.Forall₂ Same rs rs' := by
  induction rs with
  | nil => exact iff_of_true (fun r hr => nomatch hr) ⟨[], [], .nil, .nil, .nil⟩
  | cons r rs ih =>
    rw [List.forall_mem_cons, ih]
    constructor
    · rintro ⟨⟨value, r', hvalue, hread, hsame⟩, values, rs', hvalues, hreads, hsames⟩
      exact ⟨value :: values, r' :: rs', .cons hvalue hvalues, .cons hread hreads,
        .cons hsame hsames⟩
    · rintro ⟨_, _, hwritten, hreads, hsames⟩
      cases hwritten with
      | cons hvalue hvalues =>
        cases hreads with
        | cons hread hreads =>
          cases hsames with
          | cons hsame hsames =>
            exact ⟨⟨_, _, hvalue, hread, hsame⟩, _, _, hvalues, hreads, hsames⟩

/-- The entries of an object are the uri and the predicates with the values that `write` makes. A
predicate with the name of the uri takes its place. -/
structure WrittenWith (write : Bj8individual.Resource → Option (JSONValue F))
    (x : Bj8individual.Individual) (json : List (Entry F)) : Prop where
  nodup : (json.map Prod.fst).Nodup
  uri : ∀ p value, x.resources.lookup p = none →
    ((p, value) ∈ json ↔ p = ascii "@" ∧ value = .string x.uri)
  values : ∀ p rs, x.resources.lookup p = some rs → ∃ values,
    List.Forall₂ (fun r value => write r = some value) rs values ∧
      ∀ value, (p, value) ∈ json ↔ value = .array values

/-- What an individual has under a predicate has been read from an entry. -/
theorem exists_of_lookup {p : Text} {rs : List Resource} (h : (json.map Prod.fst).Nodup)
    (hlookup : (Individual.of lib json).resources.lookup p = some rs) :
    p ≠ ascii "@" ∧ ∃ value, (p, value) ∈ json ∧ resourcesOf lib (p, value) = rs := by
  by_cases hin : p ∈ json.map Prod.fst
  · obtain ⟨⟨p, value⟩, hmem, rfl⟩ := List.mem_map.mp hin
    constructor
    · intro hp
      have hnone := lookup_of_eq_none h hmem (@resourcesOf_eq_nil_of_uri F lib (p, value) hp)
      exact Option.some_ne_none rs (hlookup.symm.trans hnone)
    · refine ⟨value, hmem, ?_⟩
      have hfold := @lookup_foldl F lib .init _ json h hmem
      rw [Individual.of] at hlookup
      rw [hlookup] at hfold
      cases hresources : resourcesOf lib (p, value) with
      | nil =>
        rw [hresources] at hfold
        cases hfold
      | cons r rs =>
        rw [hresources] at hfold
        exact (Option.some_inj.mp hfold).symm
  · rw [Individual.of, lookup_foldl_of_notMem hin] at hlookup
    cases hlookup

/-- What has come back can be written and read, and no predicate is that of the uri. -/
theorem WrittenWith.reads_of_read (h : WrittenWith write x json) {y : Individual}
    (hy : jsonToIndividual lib (.object json) = .ok y) (hsame : SameIndividual x y) :
    ascii "@" ∉ x.resources ∧
      ∀ p rs, x.resources.lookup p = some rs → ∀ r ∈ rs, ReadsAs lib write r := by
  have hends : ¬Hangs lib (.object json) := fun hhangs =>
    nomatch (jsonToIndividual_of_hangs hhangs).symm.trans hy
  rw [jsonToIndividual_of_not_hangs hends] at hy
  cases hy
  have hsub : (survivors lib (.object json)).Sublist json := List.takeWhile_sublist _
  have hback {p : Text} {rs : Resources} (hlookup : x.resources.lookup p = some rs) :
      ∃ rs', (Individual.of lib (survivors lib (.object json))).resources.lookup p = some rs' ∧
        List.Forall₂ Same rs rs' := by
    have hrel := hsame.values p
    rw [hlookup] at hrel
    generalize (Individual.of lib (survivors lib (.object json))).resources.lookup p = found at hrel
    cases hrel with
    | some hrel => exact ⟨_, rfl, hrel⟩
  constructor
  · intro hmem
    obtain ⟨rs, hlookup⟩ := Option.isSome_iff_exists.mp (AList.lookup_isSome.mpr hmem)
    obtain ⟨rs', hlookup', -⟩ := hback hlookup
    exact (exists_of_lookup (h.nodup.sublist (hsub.map _)) hlookup').1 rfl
  · intro p rs hlookup
    obtain ⟨rs', hlookup', hsames⟩ := hback hlookup
    obtain ⟨hp, value, hmem, hresources⟩ :=
      exists_of_lookup (h.nodup.sublist (hsub.map _)) hlookup'
    obtain ⟨values, hvalues, hentry⟩ := h.values p rs hlookup
    obtain rfl := (hentry value).mp (hsub.subset hmem)
    have hreadable := List.mem_takeWhile_imp hmem
    rw [readable, if_neg hp] at hreadable
    rw [resourcesOf, if_neg hp] at hresources
    refine forall_readsAs_iff.mpr ⟨values, rs', hvalues, ?_, hsames⟩
    rw [← hresources]
    exact forall₂_resources hreadable

/-- What can be written and read comes back, in whatever order the entries are. -/
theorem WrittenWith.read_of_reads (h : WrittenWith write x json)
    (hvalued : ∀ p rs, x.resources.lookup p = some rs → rs ≠ [])
    (huri : ascii "@" ∉ x.resources)
    (hreads : ∀ p rs, x.resources.lookup p = some rs → ∀ r ∈ rs, ReadsAs lib write r)
    {order : List (Entry F)} (hperm : order.Perm json) :
    ∃ y, jsonToIndividual lib (.object order) = .ok y ∧ SameIndividual x y := by
  have hentry {p : Text} {rs : Resources} (hlookup : x.resources.lookup p = some rs) :
      ∃ values rs', (∀ value, (p, value) ∈ json ↔ value = .array values) ∧ p ≠ ascii "@" ∧
        List.Forall₂ (fun value r => jsonToResource lib value = .ok r) values rs' ∧
        List.Forall₂ Same rs rs' := by
    obtain ⟨values, hvalues, hmem⟩ := h.values p rs hlookup
    obtain ⟨values', rs', hvalues', hback, hsames⟩ :=
      forall_readsAs_iff.mp (hreads p rs hlookup)
    have hunique : Relator.RightUnique fun r value => write r = some value :=
      fun r value value' hr hr' => Option.some_inj.mp (hr.symm.trans hr')
    have heq : values = values' := List.right_unique_forall₂' hunique hvalues hvalues'
    refine ⟨values, rs', hmem, ?_, heq ▸ hback, hsames⟩
    rintro rfl
    exact huri (AList.lookup_isSome.mp (by rw [hlookup]; rfl))
  have huri' : (ascii "@", .string x.uri) ∈ json :=
    (h.uri _ _ (AList.lookup_eq_none.mpr huri)).mpr ⟨rfl, rfl⟩
  have hnodup' : (order.map Prod.fst).Nodup := (hperm.map Prod.fst).nodup_iff.mpr h.nodup
  have hall : ∀ property ∈ order, readable lib property = true := by
    rintro ⟨p, value⟩ hmem
    have hmem := hperm.mem_iff.mp hmem
    cases hlookup : x.resources.lookup p with
    | none =>
      obtain ⟨rfl, rfl⟩ := (h.uri p value hlookup).mp hmem
      rw [readable, if_pos rfl]
      rfl
    | some rs =>
      obtain ⟨values, rs', hiff, hp, hback, -⟩ := hentry hlookup
      obtain rfl := (hiff value).mp hmem
      rw [readable, if_neg hp]
      exact isOk_of_forall₂ hback
  have hread : jsonToIndividual lib (.object order) = .ok (.of lib order) :=
    @jsonToIndividual_of_readable F lib (.object order) hall
  refine ⟨_, hread, ?_, fun p => ?_⟩
  · rw [Individual.of, foldl_uri hnodup', lookup_of_mem hnodup' (hperm.mem_iff.mpr huri')]
    rfl
  · cases hlookup : x.resources.lookup p with
    | none =>
      have hnone : (Individual.of lib order).resources.lookup p = none := by
        cases hof : (Individual.of lib order).resources.lookup p with
        | none => rfl
        | some rs =>
          obtain ⟨hp, value, hmem, -⟩ := exists_of_lookup hnodup' hof
          exact absurd ((h.uri p value hlookup).mp (hperm.mem_iff.mp hmem)).1 hp
      rw [hnone]
      exact .none
    | some rs =>
      obtain ⟨values, rs', hiff, hp, hback, hsames⟩ := hentry hlookup
      have hmem : (p, .array values) ∈ order := hperm.mem_iff.mpr ((hiff _).mpr rfl)
      have hfold := @lookup_foldl F lib .init _ order hnodup' hmem
      have hresources : resourcesOf lib (p, .array values) = rs' := by
        rw [resourcesOf, if_neg hp]
        have hfilter := mapM_ok_iff.mpr (forall₂_resources (isOk_of_forall₂ hback))
        rw [mapM_ok_iff.mpr hback] at hfilter
        exact (Except.ok.inj hfilter).symm
      rw [hresources] at hfold
      cases hsames with
      | nil => exact absurd rfl (hvalued p _ hlookup)
      | cons hsame hsames =>
        rw [Individual.of, hfold]
        exact .some (.cons hsame hsames)

/-- What `individual_to_json` writes. -/
theorem writtenWith_of_individualToJson (h : individualToJson x = some json) :
    WrittenWith resourceToJson x json := by
  have hfirst : (([(ascii "@", .string x.uri)] : List (Entry F)).map Prod.fst).Nodup :=
    List.nodup_singleton _
  refine ⟨nodup_foldlM hfirst h, fun p value hlookup => ?_, fun p rs hlookup => ?_⟩
  · rw [mem_foldlM_of_notMem (AList.lookup_eq_none.mp hlookup) h, List.mem_singleton,
      Prod.mk.injEq]
  · obtain ⟨values, hvalues, hentry⟩ :=
      mem_foldlM x.resources.nodupKeys (AList.mem_lookup_iff.mp hlookup) h
    exact ⟨values, mapM_some_iff.mp hvalues, hentry⟩

/-- What has come back can be written and read, and no predicate is that of the uri. -/
theorem reads_of_comesBack (h : ComesBack lib x) :
    ascii "@" ∉ x.resources ∧
      ∀ p rs, x.resources.lookup p = some rs → ∀ r ∈ rs, Reads lib r := by
  obtain ⟨json, hjson, hread⟩ := h
  obtain ⟨y, hy, hsame⟩ := hread json (.refl json)
  exact (writtenWith_of_individualToJson hjson).reads_of_read hy hsame

/-- What can be written and read comes back. -/
theorem comesBack_of_reads (hvalued : ∀ p rs, x.resources.lookup p = some rs → rs ≠ [])
    (huri : ascii "@" ∉ x.resources)
    (hreads : ∀ p rs, x.resources.lookup p = some rs → ∀ r ∈ rs, Reads lib r) :
    ComesBack lib x := by
  have hwrites : ∀ property ∈ x.resources.entries, ∃ values : List (JSONValue F),
      property.2.mapM resourceToJson = some values := by
    intro property hmem
    obtain ⟨values, _, hvalues, -⟩ := forall_readsAs_iff.mp
      (hreads property.1 property.2 (AList.mem_lookup_iff.mpr hmem))
    exact ⟨values, mapM_some_iff.mpr hvalues⟩
  obtain ⟨json, hjson⟩ := exists_foldlM hwrites [(ascii "@", .string x.uri)]
  exact ⟨json, hjson, fun order hperm =>
    (writtenWith_of_individualToJson hjson).read_of_reads hvalued huri hreads hperm⟩

end

/-! ## The round trip -/

/-- An individual with values comes back just if no predicate is that of the uri and all decimals
and times survive. -/
theorem json_comesBack_iff (base : Library F) (other : Text → Option (BitVec 64))
    (x : Bj8individual.Individual)
    (hvalued : ∀ p rs, x.resources.lookup p = some rs → rs ≠ []) :
    ComesBack (base.withTimes other) x ↔ ascii "@" ∉ x.resources ∧
      ∀ p rs, x.resources.lookup p = some rs → ∀ r ∈ rs, Survives r := by
  constructor
  · intro h
    obtain ⟨huri, hreads⟩ := reads_of_comesBack h
    exact ⟨huri, fun p rs hlookup r hr => (reads_iff r).mp (hreads p rs hlookup r hr)⟩
  · rintro ⟨huri, hsurvive⟩
    exact comesBack_of_reads hvalued huri fun p rs hlookup r hr =>
      (reads_iff r).mpr (hsurvive p rs hlookup r hr)

/-- An individual with one predicate. -/
def withValues (rs : Resources) : Bj8individual.Individual :=
  ⟨ascii "d:a", .singleton (ascii "v-s:sum") rs⟩

theorem eq_of_lookup_withValues {rs rs' : Resources} {p : Text}
    (h : (withValues rs).resources.lookup p = some rs') : rs' = rs := by
  have hmem : ⟨p, rs'⟩ ∈ (withValues rs).resources.entries := AList.mem_lookup_iff.mp h
  cases List.mem_singleton.mp hmem
  rfl

/-- A text, a decimal and a time come back. -/
theorem json_comesBack_values : ComesBack (noLibrary.withTimes fun _ => none)
    (withValues [.str (ascii "a") .ru, .decimal 5 (-3), .datetime 1514764800]) := by
  refine (json_comesBack_iff noLibrary (fun _ => none) _ fun p rs hlookup => ?_).mpr
    ⟨by decide, fun p rs hlookup => ?_⟩
  · rw [eq_of_lookup_withValues hlookup]
    exact List.cons_ne_nil _ _
  · rw [eq_of_lookup_withValues hlookup]
    have hdecimal : Survives (.decimal 5 (-3)) := ⟨by decide, by decide, by decide⟩
    have htime : Survives (.datetime 1514764800) := ⟨by decide, by decide⟩
    simp only [List.forall_mem_cons]
    exact ⟨trivial, hdecimal, htime, fun r hr => nomatch hr⟩

/-- `5 * 10 ^ 3` cannot be written. -/
theorem not_json_comesBack : ¬∀ {F : Type} (base : Library F) (other : Text → Option (BitVec 64))
    (x : Bj8individual.Individual), (∀ p rs, x.resources.lookup p = some rs → rs ≠ []) →
      ComesBack (base.withTimes other) x := by
  intro h
  obtain ⟨json, hjson, -⟩ := h noLibrary (fun _ => none) (withValues [.decimal 5 3])
    fun p rs hlookup => by
      rw [eq_of_lookup_withValues hlookup]
      exact List.cons_ne_nil _ _
  have hnone : individualToJson (withValues [.decimal 5 3]) = (none : Option (List (Entry Unit))) :=
    rfl
  exact nomatch hjson.symm.trans hnone

end Veda.Bj8individual.Json
