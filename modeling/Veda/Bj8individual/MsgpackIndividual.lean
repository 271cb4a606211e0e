import Mathlib.Data.List.Perm.Basic
import Veda.Bj8individual.Individual
import Veda.Lib.MsgPack

/-! # Individuals in MessagePack

The model of `msgpack8individual.d`: an array of the uri and a map from the predicates to arrays of
their values. What the packer and the unpacker of `msgpack-d` do is a parameter. -/

namespace Veda.Bj8individual.Msgpack

open MsgPack Individual

/-! ## The packer and the unpacker -/

structure Library where
  /-- What the packer writes for the header of an array or a map, or for a single value. -/
  encode : Token → List Byte
  /-- What it packs a text as. -/
  packText : Text → Token
  /-- What it packs a number as, given as its bits. -/
  packLong : BitVec 64 → Token
  /-- `execute`, and the elements that `purge` gives if all of the first value is there. -/
  execute : List Byte → Option (List Value)
  /-- The entries of an associative array in the order of `byKey`. -/
  byKey : List (Value × Value) → List (Value × Value)
  /-- `via.raw`, whatever the value is. -/
  viaRaw : Value → Text
  /-- `via.uinteger` and `via.integer`, which are the same bits. -/
  viaNumber : Value → BitVec 64
  /-- `via.boolean` -/
  viaBoolean : Value → Bool
  /-- `via.array` -/
  viaArray : Value → List Value

/-- The value of a token that is not a header. -/
def single : Token → Value
  | .nil => .nil
  | .bool b => .bool b
  | .uint n => .uint n
  | .int n => .int n
  | .raw s => .raw s
  | .array _ => .array []
  | .map _ => .map []

def elements : Value → List Value
  | .array vs => vs
  | _ => []

/-- The format, and that the unpacker reads it. It is left open what an empty text is packed as, and
what `via` has that is asked for another type. -/
structure Documented (lib : Library) : Prop where
  /-- No value is nested deeper than it has tokens. -/
  execute : ∀ tokens, lib.execute (tokens.flatMap lib.encode) =
    (parse (2 * tokens.length) tokens).map fun parsed => elements parsed.1
  packText : ∀ s, s ≠ [] → lib.packText s = .raw s
  packText_nil : lib.packText [] = .nil ∨ lib.packText [] = .raw []
  packLong : ∀ n, lib.packLong n = .uint n ∨ lib.packLong n = .int n
  byKey : ∀ entries, (entries.map Prod.fst).Nodup → (lib.byKey entries).Perm entries
  viaRaw : ∀ s, lib.viaRaw (.raw s) = s
  viaUinteger : ∀ n, lib.viaNumber (.uint n) = n
  viaInteger : ∀ n, lib.viaNumber (.int n) = n
  viaBoolean : ∀ b, lib.viaBoolean (.bool b) = b
  viaArray : ∀ vs, lib.viaArray (.array vs) = vs
  encode_array : lib.encode (.array 2) = [146]
  encode_pos : ∀ token, lib.encode token ≠ []
  encode_raw : ∀ s, s.length < 32 → (lib.encode (.raw s)).length = s.length + 1
  encode_raw_le : ∀ s, s.length ≤ (lib.encode (.raw s)).length
  encode_map : (lib.encode (.map 0)).length = 1

/-! ## Writing -/

/-- `enum DataType`. -/
inductive DataType where
  | uri
  | string
  | integer
  | datetime
  | decimal
  | boolean
  | binary

def DataType.code : DataType → BitVec 64
  | uri => 1
  | string => 2
  | integer => 4
  | datetime => 8
  | decimal => 32
  | boolean => 64
  | binary => 128

def langCode : Lang → BitVec 64
  | .none => 0
  | .ru => 1
  | .en => 2

/-- `predicate_order_l`, the keys of `predicate_2_order`. -/
def predicateOrder : List Text :=
  ["assigned_subsystems", "u_count", "new_type", "prev_type", "new_state", "prev_state", "user_uri",
    "rdf:type", "v-s:deleted", "v-s:isDraftOf", "v-s:actualVersion", "v-s:previousVersion",
    "v-s:created", "v-s:runAt"].map ascii

variable (lib : Library)

/-- A text of a value, or `null`. -/
def packValueText (s : Text) : Token := if s = [] then .nil else lib.packText s

/-- A value in `write_resources`. -/
def packValue : Resource → List Token
  | .uri s => [.array 2, lib.packLong DataType.uri.code, packValueText lib s]
  | .binary s => [.array 2, lib.packLong DataType.binary.code, packValueText lib s]
  | .integer n => [.array 2, lib.packLong DataType.integer.code, lib.packLong n]
  | .datetime n => [.array 2, lib.packLong DataType.datetime.code, lib.packLong n]
  | .boolean b => [.array 2, lib.packLong DataType.boolean.code, .bool b]
  | .decimal mantissa exponent =>
    [.array 3, lib.packLong DataType.decimal.code, lib.packLong mantissa,
      lib.packLong (exponent.signExtend 64)]
  | .str s lang =>
    if lang ≠ .none then
      [.array 3, lib.packLong DataType.string.code, packValueText lib s,
        lib.packLong (langCode lang)]
    else [.array 2, lib.packLong DataType.string.code, packValueText lib s]

def writeResources (uri : Text) (vv : Resources) : List Token :=
  lib.packText uri :: .array vv.length :: vv.flatMap (packValue lib)

/-- The predicates that are written: those of `predicate_order_l` come first. -/
def written (ii : Individual) : List (Text × Resources) :=
  (predicateOrder.map (fun key => (key, ii.get key)) ++
    (ii.resources.entries.filter (·.1 ∉ predicateOrder)).map fun entry => (entry.1, entry.2)).filter
      fun entry => entry.2.length > 0

/-- `write_individual`. The map is said to have all the predicates. -/
def writeIndividual (ii : Individual) : List Token :=
  .array 2 :: lib.packText ii.uri :: .map ii.resources.entries.length ::
    (written ii).flatMap fun entry => writeResources lib entry.1 entry.2

def individual2msgpack (ii : Individual) : List Byte := (writeIndividual lib ii).flatMap lib.encode

/-! ## Reading -/

/-- `cast(LANG)lang`, where it is one. -/
def langOf (lang : BitVec 64) : Lang :=
  if lang.setWidth 8 = 1#8 then .ru else if lang.setWidth 8 = 2#8 then .en else .none

/-- The text of a value of two elements, if it has one. -/
def textOf : Value → Option Text
  | .raw s => some s
  | .nil => some []
  | _ => none

/-- The values of one element of the array of a predicate. There is nothing where the function
returns -1. -/
def readResource : Value → Option Resources
  | .array [t, x] =>
    let type := lib.viaNumber t
    if type = DataType.datetime.code then some [.datetime (lib.viaNumber x)]
    else if type = DataType.string.code then some ((textOf x).map (.str · .none)).toList
    else if type = DataType.binary.code then some ((textOf x).map .binary).toList
    else if type = DataType.uri.code then some ((textOf x).map .uri).toList
    else if type = DataType.integer.code then some [.integer (lib.viaNumber x)]
    else if type = DataType.boolean.code then some [.boolean (lib.viaBoolean x)]
    else none
  | .array [t, x, y] =>
    let type := lib.viaNumber t
    if type = DataType.decimal.code then
      some [.decimal (lib.viaNumber x) ((lib.viaNumber y).setWidth 8)]
    else if type = DataType.string.code then
      some [.str (lib.viaRaw x) (langOf (lib.viaNumber y))]
    else none
  | _ => some []

def readResources : List Value → Option Resources
  | [] => some []
  | v :: vs => do
    let r ← readResource lib v
    let rs ← readResources vs
    return r ++ rs

/-- The loop over the keys of the map. -/
def readMap : List (Value × Value) → Individual → Option Individual
  | [], individual => some individual
  | (key, vals) :: entries, individual => do
    let resources ← readResources lib (lib.viaArray vals)
    readMap entries (individual.set (lib.viaRaw key) resources)

def readObject (individual : Individual) : Value → Option Individual
  | .raw s => some { individual with uri := s }
  | .map entries => readMap lib (lib.byKey entries) individual
  | _ => some individual

def magicHeader : Byte := 146

/-- `msgpack2individual`. There is nothing where it returns -1. -/
def msgpack2individual (individual : Individual) (src : List Byte) : Option Individual :=
  if src.head? ≠ some magicHeader then none
  else if src.length < 5 then none
  else
    match lib.execute src with
    | none => none
    | some unpacked =>
      if unpacked.length ≠ 2 then none else unpacked.foldlM (readObject lib) individual

/-! ## Single values -/

variable {lib : Library} {fuel : ℕ} {ts : List Token}

def IsSingle : Token → Prop
  | .array _ => False
  | .map _ => False
  | _ => True

theorem parse_single {t : Token} (h : IsSingle t) :
    parse (fuel + 1) (t :: ts) = some (single t, ts) := by
  cases t with
  | array => exact h.elim
  | map => exact h.elim
  | _ => rfl

theorem isSingle_bool (b : Bool) : IsSingle (.bool b) := trivial

@[simp] theorem single_bool (b : Bool) : single (.bool b) = .bool b := rfl

namespace Documented
variable (hlib : Documented lib)
include hlib

theorem isSingle_packText (s : Text) : IsSingle (lib.packText s) := by
  by_cases hs : s = []
  · obtain h | h := hlib.packText_nil
    · rw [hs, h]
      trivial
    · rw [hs, h]
      trivial
  · rw [hlib.packText s hs]
    trivial

theorem isSingle_packLong (n : BitVec 64) : IsSingle (lib.packLong n) := by
  obtain h | h := hlib.packLong n
  · rw [h]
    trivial
  · rw [h]
    trivial

theorem viaNumber_packLong (n : BitVec 64) : lib.viaNumber (single (lib.packLong n)) = n := by
  obtain h | h := hlib.packLong n
  · rw [h]
    exact hlib.viaUinteger n
  · rw [h]
    exact hlib.viaInteger n

theorem isSingle_packValueText (s : Text) : IsSingle (packValueText lib s) := by
  unfold packValueText
  split
  · trivial
  · exact hlib.isSingle_packText s

theorem textOf_packValueText (s : Text) : textOf (single (packValueText lib s)) = some s := by
  unfold packValueText
  split
  · rename_i hs
    rw [hs]
    rfl
  · rename_i hs
    rw [hlib.packText s hs]
    rfl

theorem viaRaw_packText {s : Text} (hs : s ≠ []) : lib.viaRaw (single (lib.packText s)) = s := by
  rw [hlib.packText s hs]
  exact hlib.viaRaw s

end Documented

/-! ## One value -/

/-- What belongs to the header of a value. -/
def fields (lib : Library) (r : Resource) : List Token := (packValue lib r).tail

theorem packValue_eq (r : Resource) :
    packValue lib r = .array (fields lib r).length :: fields lib r := by
  cases r with
  | str s lang => cases lang <;> rfl
  | _ => rfl

def valueOf (lib : Library) (r : Resource) : Value := .array ((fields lib r).map single)

/-- What is read for a value: an empty text with a language is asked for where there is `null`. -/
def back (lib : Library) : Resource → Resource
  | .str s lang => .str (if s = [] ∧ lang ≠ .none then lib.viaRaw .nil else s) lang
  | r => r

section
variable (hlib : Documented lib)
include hlib

theorem isSingle_fields (r : Resource) : ∀ t ∈ fields lib r, IsSingle t := by
  have hlong := hlib.isSingle_packLong
  have htext := hlib.isSingle_packValueText
  cases r with
  | str s lang => cases lang <;> simp [fields, packValue, hlong, htext]
  | boolean b => simp [fields, packValue, hlong, isSingle_bool]
  | _ => simp [fields, packValue, hlong, htext]

theorem parse_packValue (r : Resource) :
    parse (fuel + 2) (packValue lib r ++ ts) = some (valueOf lib r, ts) := by
  have hmany : parseMany (parse (fuel + 1)) (fields lib r).length
      ((fields lib r).flatMap (fun t => [t]) ++ ts) = some ((fields lib r).map single, ts) :=
    parseMany_flatMap fun t ht ts => parse_single (isSingle_fields hlib r t ht)
  rw [List.flatMap_singleton'] at hmany
  rw [packValue_eq, List.cons_append, parse, hmany]
  rfl

theorem viaRaw_packValueText (s : Text) :
    lib.viaRaw (single (packValueText lib s)) = if s = [] then lib.viaRaw .nil else s := by
  unfold packValueText
  split
  · rfl
  · rename_i hs
    exact hlib.viaRaw_packText hs

/-- What is read for a value. -/
theorem readResource_valueOf (r : Resource) :
    readResource lib (valueOf lib r) = some [back lib r] := by
  have hlong := hlib.viaNumber_packLong
  have htext := hlib.textOf_packValueText
  cases r with
  | uri s => simp [readResource, valueOf, fields, packValue, hlong, htext, DataType.code, back]
  | binary s => simp [readResource, valueOf, fields, packValue, hlong, htext, DataType.code, back]
  | integer n => simp [readResource, valueOf, fields, packValue, hlong, DataType.code, back]
  | datetime n => simp [readResource, valueOf, fields, packValue, hlong, DataType.code, back]
  | boolean b =>
    simp [readResource, valueOf, fields, packValue, hlong, DataType.code, back, hlib.viaBoolean]
  | decimal m e =>
    have he : (e.signExtend 64).setWidth 8 = e := by
      ext i hi
      rw [BitVec.getElem_setWidth, BitVec.getLsbD_signExtend, if_pos hi,
        BitVec.getLsbD_eq_getElem hi]
      simp only [show i < 64 by omega, decide_true, Bool.true_and]
    simp [readResource, valueOf, fields, packValue, hlong, DataType.code, back, he]
  | str s lang =>
    have hraw := viaRaw_packValueText hlib s
    cases lang with
    | none => simp [readResource, valueOf, fields, packValue, hlong, htext, DataType.code, back]
    | ru =>
      simp [readResource, valueOf, fields, packValue, hlong, hraw, DataType.code, back, langCode,
        langOf]
    | en =>
      simp [readResource, valueOf, fields, packValue, hlong, hraw, DataType.code, back, langCode,
        langOf]

theorem readResources_map (rs : Resources) :
    readResources lib (rs.map (valueOf lib)) = some (rs.map (back lib)) := by
  induction rs with
  | nil => rfl
  | cons r rs ih =>
    rw [List.map_cons, readResources, readResource_valueOf hlib, ih]
    rfl

end

/-! ## The message -/

/-- The entry of a predicate. -/
def entryOf (lib : Library) (entry : Text × Resources) : Value × Value :=
  (single (lib.packText entry.1), .array (entry.2.map (valueOf lib)))

/-- What is read for an entry. -/
def backEntry (lib : Library) (entry : Text × Resources) : Text × Resources :=
  (lib.viaRaw (single (lib.packText entry.1)), entry.2.map (back lib))

section
variable (hlib : Documented lib)
include hlib

theorem parsePair_writeResources (entry : Text × Resources) :
    parsePair (parse (fuel + 3)) (writeResources lib entry.1 entry.2 ++ ts) =
      some (entryOf lib entry, ts) := by
  refine parsePair_append (k := [_]) (fun ts => parse_single (hlib.isSingle_packText _))
    (fun ts => ?_) ts
  have hmany : parseMany (parse (fuel + 2)) entry.2.length (entry.2.flatMap (packValue lib) ++ ts) =
      some (entry.2.map (valueOf lib), ts) :=
    parseMany_flatMap fun r _ ts => parse_packValue hlib r
  rw [List.cons_append, parse, hmany]
  rfl

/-- All the predicates are there. -/
theorem parse_writeIndividual {ii : Individual}
    (h : (written ii).length = ii.resources.entries.length) :
    parse (fuel + 5) (writeIndividual lib ii) =
      some (.array [single (lib.packText ii.uri), .map ((written ii).map (entryOf lib))], []) := by
  have hmany : parseMany (parsePair (parse (fuel + 3))) (written ii).length
      ((written ii).flatMap (fun entry => writeResources lib entry.1 entry.2) ++ []) =
        some ((written ii).map (entryOf lib), []) :=
    parseMany_flatMap fun entry _ ts => parsePair_writeResources hlib entry
  rw [List.append_nil] at hmany
  rw [writeIndividual, parse, parseMany, parse_single (hlib.isSingle_packText _)]
  simp only [Option.bind_eq_bind, Option.bind_some]
  rw [parseMany, parse, ← h, hmany]
  rfl

/-- Some predicates are missing. -/
theorem parse_writeIndividual_short {ii : Individual}
    (h : (written ii).length < ii.resources.entries.length) :
    parse (fuel + 5) (writeIndividual lib ii) = none := by
  have hmany : parseMany (parsePair (parse (fuel + 3))) ii.resources.entries.length
      ((written ii).flatMap fun entry => writeResources lib entry.1 entry.2) = none :=
    parseMany_short (fun entry _ ts => parsePair_writeResources hlib entry)
      (parsePair_nil (parse_nil _)) h
  rw [writeIndividual, parse, parseMany, parse_single (hlib.isSingle_packText _)]
  simp only [Option.bind_eq_bind, Option.bind_some]
  rw [parseMany, parse, hmany]
  rfl

end

/-! ## What is written -/

theorem nodup_predicateOrder : predicateOrder.Nodup := by decide

theorem mem_written {ii : Individual} {p : Text} {rs : Resources} :
    (p, rs) ∈ written ii ↔ ii.resources.lookup p = some rs ∧ rs ≠ [] := by
  rw [written, List.mem_filter, List.mem_append, List.mem_map, List.mem_map, decide_eq_true_eq,
    gt_iff_lt, List.length_pos_iff]
  refine and_congr_left fun hrs => ⟨?_, fun h => ?_⟩
  · rintro (⟨key, -, heq⟩ | ⟨entry, hentry, heq⟩)
    · cases heq
      cases hl : ii.resources.lookup p with
      | none => simp [Individual.get, hl] at hrs
      | some rs => rw [Individual.get, hl, Option.getD_some]
    · cases heq
      exact AList.mem_lookup_iff.2 (List.mem_of_mem_filter hentry)
  · by_cases hp : p ∈ predicateOrder
    · refine .inl ⟨p, hp, ?_⟩
      rw [Individual.get, h, Option.getD_some]
    · exact .inr ⟨⟨p, rs⟩, List.mem_filter.2 ⟨AList.mem_lookup_iff.1 h, decide_eq_true hp⟩, rfl⟩

theorem nodup_written (ii : Individual) : ((written ii).map Prod.fst).Nodup := by
  refine (List.filter_sublist.map Prod.fst).nodup ?_
  rw [List.map_append, List.map_map, List.map_map]
  refine List.nodup_append.2 ⟨?_, ?_, ?_⟩
  · exact (List.map_id predicateOrder).symm ▸ nodup_predicateOrder
  · exact (List.filter_sublist.map _).nodup ii.resources.keys_nodup
  · intro p hp q hq heq
    obtain ⟨key, hkey, rfl⟩ := List.mem_map.1 hp
    obtain ⟨entry, hentry, rfl⟩ := List.mem_map.1 hq
    have hnot := of_decide_eq_true (List.mem_filter.1 hentry).2
    exact hnot ((show key = entry.1 from heq) ▸ hkey)

/-- The predicates with values are written. -/
theorem written_perm (ii : Individual) : (written ii).Perm ii.valued := by
  refine (List.perm_ext_iff_of_nodup (nodup_written ii).of_map ii.nodup_valued.of_map).2 ?_
  rintro ⟨p, rs⟩
  rw [mem_written, Individual.mem_valued]

theorem length_written_eq {ii : Individual} :
    (written ii).length = ii.resources.entries.length ↔
      ∀ entry ∈ ii.resources.entries, entry.2 ≠ [] := by
  have hlength : (ii.resources.entries.map fun entry => (entry.1, entry.2)).length =
      ii.resources.entries.length := List.length_map _
  rw [(written_perm ii).length_eq, Individual.valued, ← hlength,
    List.length_filter_eq_length_iff, List.forall_mem_map]
  simp only [decide_eq_true_eq]

theorem length_written_le (ii : Individual) :
    (written ii).length ≤ ii.resources.entries.length := by
  rw [(written_perm ii).length_eq, Individual.valued]
  exact (List.length_filter_le ..).trans (List.length_map _).le

/-! ## What is read -/

section
variable (hlib : Documented lib)
include hlib

/-- Different texts are different keys. -/
theorem single_packText_inj {s s' : Text}
    (h : single (lib.packText s) = single (lib.packText s')) : s = s' := by
  have hnil : ∀ {s : Text}, s ≠ [] → single (lib.packText s) ≠ single (lib.packText []) := by
    intro s hs heq
    rw [hlib.packText s hs] at heq
    obtain h | h := hlib.packText_nil
    · rw [h] at heq
      cases heq
    · rw [h] at heq
      exact hs (Value.raw.inj heq)
  rcases eq_or_ne s [] with rfl | hs
  · rcases eq_or_ne s' [] with rfl | hs'
    · rfl
    · exact absurd h.symm (hnil hs')
  · rcases eq_or_ne s' [] with rfl | hs'
    · exact absurd h (hnil hs)
    · rw [hlib.packText s hs, hlib.packText s' hs'] at h
      exact Value.raw.inj h

/-- The keys are gone through in some order. -/
theorem exists_byKey (ii : Individual) : ∃ entries : List (Text × Resources),
    entries.Perm (written ii) ∧
      lib.byKey ((written ii).map (entryOf lib)) = entries.map (entryOf lib) := by
  have hn : (((written ii).map (entryOf lib)).map Prod.fst).Nodup := by
    have hmap : ((written ii).map (entryOf lib)).map Prod.fst =
        ((written ii).map Prod.fst).map fun s => single (lib.packText s) := by
      rw [List.map_map, List.map_map]
      rfl
    rw [hmap]
    exact (nodup_written ii).map fun _ _ h => single_packText_inj hlib h
  have hsame : List.Forall₂ (fun x entry => x = entryOf lib entry)
      ((written ii).map (entryOf lib)) (written ii) :=
    List.forall₂_map_left_iff.2 (List.forall₂_same.2 fun _ _ => rfl)
  obtain ⟨entries, hentries, hperm⟩ := List.perm_comp_forall₂ (hlib.byKey _ hn) hsame
  refine ⟨entries, hperm, ?_⟩
  rwa [← List.forall₂_map_right_iff (R := Eq), List.forall₂_eq_eq_eq] at hentries

/-- The entries of the map, one after the other. -/
theorem readMap_map (entries : List (Text × Resources)) (indv : Individual) :
    readMap lib (entries.map (entryOf lib)) indv =
      some (indv.setAll (entries.map (backEntry lib))) := by
  induction entries generalizing indv with
  | nil => rfl
  | cons entry entries ih =>
    rw [List.map_cons, entryOf, readMap, hlib.viaArray, readResources_map hlib]
    simp only [Option.bind_eq_bind, Option.bind_some]
    rw [ih]
    rfl

end

/-! ## The length of the message -/

section
variable (hlib : Documented lib) {ii : Individual}
include hlib

theorem individual2msgpack_eq (huri : ii.uri ≠ []) :
    individual2msgpack lib ii = magicHeader :: (lib.encode (.raw ii.uri) ++
      (lib.encode (.map ii.resources.entries.length) ++ ((written ii).flatMap fun entry =>
        writeResources lib entry.1 entry.2).flatMap lib.encode)) := by
  rw [individual2msgpack, writeIndividual, List.flatMap_cons, List.flatMap_cons, List.flatMap_cons,
    hlib.encode_array, hlib.packText _ huri]
  rfl

/-- Whatever is written takes a byte. -/
theorem length_flatMap_encode_pos {tokens : List Token} (h : tokens ≠ []) :
    0 < (tokens.flatMap lib.encode).length := by
  obtain ⟨token, tokens, rfl⟩ := List.exists_cons_of_ne_nil h
  rw [List.flatMap_cons, List.length_append]
  exact Nat.add_pos_left (List.length_pos_iff.2 (hlib.encode_pos token)) _

theorem five_le_length (huri : ii.uri ≠ []) (h : ii.uri.length ≠ 1 ∨ written ii ≠ []) :
    5 ≤ (individual2msgpack lib ii).length := by
  have hmap : 0 < (lib.encode (.map ii.resources.entries.length)).length :=
    List.length_pos_iff.2 (hlib.encode_pos _)
  have hpos : 0 < ii.uri.length := List.length_pos_iff.2 huri
  have hraw := hlib.encode_raw ii.uri
  have hrawLe := hlib.encode_raw_le ii.uri
  rw [individual2msgpack_eq hlib huri, List.length_cons, List.length_append, List.length_append]
  obtain hlength | hwritten := h
  · omega
  · have hne : ((written ii).flatMap fun entry => writeResources lib entry.1 entry.2) ≠ [] := by
      obtain ⟨entry, entries, heq⟩ := List.exists_cons_of_ne_nil hwritten
      rw [heq, List.flatMap_cons, writeResources]
      exact List.cons_ne_nil _ _
    have hrest := length_flatMap_encode_pos hlib hne
    omega

/-- A message of a byte for each header, and of two for the uri. -/
theorem length_lt_five (huri : ii.uri.length = 1) (hentries : ii.resources.entries = []) :
    (individual2msgpack lib ii).length < 5 := by
  have hle := length_written_le ii
  rw [hentries, List.length_nil] at hle
  have hwritten : written ii = [] := List.eq_nil_of_length_eq_zero (Nat.le_zero.1 hle)
  have hne : ii.uri ≠ [] := List.length_pos_iff.1 (huri ▸ Nat.one_pos)
  have hraw := hlib.encode_raw ii.uri
  have hmap := hlib.encode_map
  rw [individual2msgpack_eq hlib hne, hwritten, hentries, List.length_cons, List.length_append,
    List.length_append, List.flatMap_nil, List.flatMap_nil]
  simp only [List.length_nil]
  omega

end

/-! ## Round trips -/

/-- There are three tokens at least. -/
theorem exists_fuel (lib : Library) (ii : Individual) :
    ∃ fuel, 2 * (writeIndividual lib ii).length = fuel + 5 := by
  refine ⟨2 * (writeIndividual lib ii).length - 5, ?_⟩
  rw [writeIndividual, List.length_cons, List.length_cons, List.length_cons]
  omega

section
variable (hlib : Documented lib) {ii : Individual}
include hlib

/-- What is done with a message that is not too short. -/
theorem msgpack2individual_of_le (huri : ii.uri ≠ [])
    (hlong : 5 ≤ (individual2msgpack lib ii).length) :
    msgpack2individual lib .init (individual2msgpack lib ii) =
      match lib.execute (individual2msgpack lib ii) with
      | none => none
      | some unpacked =>
        if unpacked.length ≠ 2 then none else unpacked.foldlM (readObject lib) .init := by
  have hhead : (individual2msgpack lib ii).head? = some magicHeader := by
    rw [individual2msgpack_eq hlib huri, List.head?_cons]
  rw [msgpack2individual, if_neg (not_not.2 hhead), if_neg hlong.not_gt]

/-- Nothing is read where a predicate has no values. -/
theorem msgpack2individual_short (huri : ii.uri ≠ [])
    (hlong : 5 ≤ (individual2msgpack lib ii).length)
    (h : (written ii).length < ii.resources.entries.length) :
    msgpack2individual lib .init (individual2msgpack lib ii) = none := by
  obtain ⟨fuel, hfuel⟩ := exists_fuel lib ii
  rw [msgpack2individual_of_le hlib huri hlong, individual2msgpack, hlib.execute, hfuel,
    parse_writeIndividual_short hlib h]
  rfl

/-- All the predicates are read, in some order. -/
theorem msgpack2individual_eq (huri : ii.uri ≠ [])
    (hlong : 5 ≤ (individual2msgpack lib ii).length)
    (h : (written ii).length = ii.resources.entries.length) :
    ∃ entries : List (Text × Resources), entries.Perm (written ii) ∧
      msgpack2individual lib .init (individual2msgpack lib ii) =
        some (setAll ⟨ii.uri, ∅⟩ (entries.map (backEntry lib))) := by
  obtain ⟨fuel, hfuel⟩ := exists_fuel lib ii
  obtain ⟨entries, hperm, hkeys⟩ := exists_byKey hlib ii
  refine ⟨entries, hperm, ?_⟩
  rw [msgpack2individual_of_le hlib huri hlong, individual2msgpack, hlib.execute, hfuel,
    parse_writeIndividual hlib h, hlib.packText _ huri]
  have hread : readMap lib (lib.byKey ((written ii).map (entryOf lib))) ⟨ii.uri, ∅⟩ =
      some (setAll ⟨ii.uri, ∅⟩ (entries.map (backEntry lib))) := by
    rw [hkeys, readMap_map hlib]
  exact congrArg (· >>= some) hread

/-- Less than five bytes are no individual. -/
theorem msgpack2individual_of_lt (huri : ii.uri ≠ [])
    (hshort : (individual2msgpack lib ii).length < 5) :
    msgpack2individual lib .init (individual2msgpack lib ii) = none := by
  have hhead : (individual2msgpack lib ii).head? = some magicHeader := by
    rw [individual2msgpack_eq hlib huri, List.head?_cons]
  rw [msgpack2individual, if_neg (not_not.2 hhead), if_pos hshort]

/-- A predicate is read as it was, unless it is the empty text. -/
theorem fst_backEntry {entry : Text × Resources}
    (h : entry.1 = [] → lib.viaRaw (single (lib.packText [])) = []) :
    (backEntry lib entry).1 = entry.1 := by
  by_cases hnil : entry.1 = []
  · rw [backEntry, hnil, h hnil]
  · exact hlib.viaRaw_packText hnil

omit hlib in
/-- A value is read as it was, unless it is an empty text with a language. -/
theorem back_eq {r : Resource}
    (h : ∀ lang, r = .str [] lang → lang ≠ .none → lib.viaRaw .nil = []) : back lib r = r := by
  cases r with
  | str s lang =>
    rw [back]
    split
    · rename_i hs
      rw [h lang (by rw [hs.1]) hs.2, hs.1]
    · rfl
  | _ => rfl

end

/-- The individuals that are read as they were written. -/
structure Readable (lib : Library) (ii : Individual) : Prop where
  /-- A predicate without values is in the number of predicates, and is not written. -/
  valued : ∀ entry ∈ ii.resources.entries, entry.2 ≠ []
  /-- There are four bytes for a uri of one byte and nothing else. -/
  long : ii.uri.length ≠ 1 ∨ ii.resources.entries ≠ []
  /-- The bytes of the key are taken without looking at its type. -/
  key : ∀ rs, ii.resources.lookup [] = some rs → lib.viaRaw (single (lib.packText [])) = []
  /-- So are those of a text with a language, which is `null` where the text is empty. -/
  text : ∀ p rs lang, ii.resources.lookup p = some rs → .str [] lang ∈ rs → lang ≠ .none →
    lib.viaRaw .nil = []

section
variable (hlib : Documented lib) {ii : Individual}
include hlib

/-- The predicates have their texts when the individual is carried over. -/
theorem key_of_carries {entries : List (Text × Resources)}
    (hvalued : ∀ entry ∈ ii.resources.entries, entry.2 ≠ [])
    (h : ii.Carries (setAll ⟨ii.uri, ∅⟩ (entries.map (backEntry lib)))) {rs : Resources}
    (hrs : ii.resources.lookup [] = some rs) : lib.viaRaw (single (lib.packText [])) = [] := by
  by_contra hne
  have hnot : [] ∉ (entries.map (backEntry lib)).map Prod.fst := by
    rw [List.map_map, List.mem_map]
    rintro ⟨entry, -, heq⟩
    change lib.viaRaw (single (lib.packText entry.1)) = [] at heq
    by_cases hnil : entry.1 = []
    · rw [hnil] at heq
      exact hne heq
    · rw [hlib.viaRaw_packText hnil] at heq
      exact hnil heq
  have hnonempty : rs ≠ [] := hvalued ⟨[], rs⟩ (AList.mem_lookup_iff.1 hrs)
  have hlookup := h.2 []
  rw [lookup_setAll_of_notMem _ hnot, hrs, Option.filter_some, if_pos (decide_eq_true hnonempty)]
    at hlookup
  cases hlookup

/-- What is found when the predicates have their texts. -/
theorem lookup_setAll_back {entries : List (Text × Resources)} (hperm : entries.Perm (written ii))
    (hkey : ∀ rs, ii.resources.lookup [] = some rs → lib.viaRaw (single (lib.packText [])) = [])
    {p : Text} {rs : Resources} (h : (p, rs) ∈ written ii) :
    (setAll ⟨ii.uri, ∅⟩ (entries.map (backEntry lib))).resources.lookup p =
      some (rs.map (back lib)) := by
  have hfst : (entries.map (backEntry lib)).map Prod.fst = entries.map Prod.fst := by
    rw [List.map_map]
    refine List.map_congr_left fun entry hentry => fst_backEntry hlib fun hnil => ?_
    exact hkey entry.2 (hnil ▸ (mem_written.1 (hperm.mem_iff.1 hentry)).1)
  have hn : (entries.map Prod.fst).Nodup := (hperm.map _).nodup_iff.2 (nodup_written ii)
  have hmem : (p, rs.map (back lib)) ∈ entries.map (backEntry lib) := by
    refine List.mem_map.2 ⟨(p, rs), hperm.mem_iff.2 h, Prod.ext ?_ rfl⟩
    exact fst_backEntry hlib fun hnil => hkey rs ((show p = [] from hnil) ▸ (mem_written.1 h).1)
  rw [← addAll_eq_setAll (hfst ▸ hn) fun _ _ => rfl]
  exact lookup_addAll (hfst ▸ hn) (fun _ _ => rfl) hmem

/-- The round trip of individuals. -/
theorem roundTrips_iff (huri : ii.uri ≠ []) :
    (∃ result, msgpack2individual lib .init (individual2msgpack lib ii) = some result ∧
      ii.Carries result) ↔ Readable lib ii := by
  constructor
  · rintro ⟨result, hresult, hcarries⟩
    have hlong : 5 ≤ (individual2msgpack lib ii).length := by
      by_contra hshort
      rw [msgpack2individual_of_lt hlib huri (not_le.1 hshort)] at hresult
      cases hresult
    have hlength : (written ii).length = ii.resources.entries.length := by
      by_contra hne
      have hlt := lt_of_le_of_ne (length_written_le ii) hne
      rw [msgpack2individual_short hlib huri hlong hlt] at hresult
      cases hresult
    have hvalued := length_written_eq.1 hlength
    obtain ⟨entries, hperm, hread⟩ := msgpack2individual_eq hlib huri hlong hlength
    rw [hread] at hresult
    cases hresult
    have hkey : ∀ rs, ii.resources.lookup [] = some rs →
        lib.viaRaw (single (lib.packText [])) = [] :=
      fun _ hrs => key_of_carries hlib hvalued hcarries hrs
    refine ⟨hvalued, ?_, hkey, fun p rs lang hrs hmem hlang => ?_⟩
    · by_contra hnot
      rw [not_or, not_not, not_not] at hnot
      exact hlong.not_gt (length_lt_five hlib hnot.1 hnot.2)
    · have hnonempty : rs ≠ [] := List.ne_nil_of_mem hmem
      have hlookup := hcarries.2 p
      rw [lookup_setAll_back hlib hperm hkey (mem_written.2 ⟨hrs, hnonempty⟩), hrs,
        Option.filter_some, if_pos (decide_eq_true hnonempty), Option.some_inj] at hlookup
      have hback := List.map_inj_left.1 (hlookup.trans (List.map_id rs).symm) _ hmem
      rw [back, if_pos ⟨rfl, hlang⟩] at hback
      exact (Resource.str.inj hback).1
  · intro h
    have hlength := length_written_eq.2 h.valued
    have hlong : 5 ≤ (individual2msgpack lib ii).length := by
      refine five_le_length hlib huri (h.long.imp_right fun hne hnil => hne ?_)
      exact List.eq_nil_of_length_eq_zero (hlength.symm.trans (congrArg List.length hnil))
    obtain ⟨entries, hperm, hread⟩ := msgpack2individual_eq hlib huri hlong hlength
    have hsame : entries.map (backEntry lib) = entries := by
      refine (List.map_congr_left fun entry hentry => ?_).trans (List.map_id entries)
      have hentry := (mem_written.1 (hperm.mem_iff.1 hentry)).1
      refine Prod.ext (fst_backEntry hlib fun hnil => h.key entry.2 (hnil ▸ hentry)) ?_
      refine (List.map_congr_left fun r hr => ?_).trans (List.map_id entry.2)
      exact back_eq fun lang hr' hlang => h.text entry.1 entry.2 lang hentry (hr' ▸ hr) hlang
    have hn : (entries.map Prod.fst).Nodup := (hperm.map _).nodup_iff.2 (nodup_written ii)
    refine ⟨_, hread, ?_⟩
    rw [hsame, ← addAll_eq_setAll hn fun _ _ => rfl]
    exact carries_of_perm (hperm.trans (written_perm ii))

end

/-! ## A packer -/

/-- A packer of the format that packs an empty text as `null`, and an unpacker that gives nothing
where another type is asked for. -/
def packer : Library where
  encode := encode
  packText s := if s = [] then .nil else .raw s
  packLong n := if n.msb then .int n else .uint n
  execute bytes := do
    let tokens ← decode bytes.length bytes
    let (value, _) ← parse (2 * tokens.length) tokens
    return elements value
  byKey entries := entries
  viaRaw
    | .raw s => s
    | _ => []
  viaNumber
    | .uint n => n
    | .int n => n
    | _ => 0
  viaBoolean
    | .bool b => b
    | _ => false
  viaArray := elements

theorem documented_packer : Documented packer where
  execute tokens := by
    change (decode (tokens.flatMap encode).length (tokens.flatMap encode) >>= fun tokens =>
      parse (2 * tokens.length) tokens >>= fun parsed => some (elements parsed.1)) = _
    rw [decode_flatMap le_rfl]
    simp only [Option.bind_eq_bind, Option.bind_some]
    rw [Option.map_eq_bind]
    rfl
  packText s hs := if_neg hs
  packText_nil := .inl rfl
  packLong n := by
    cases h : n.msb with
    | false => exact .inl (if_neg (by simp [h]))
    | true => exact .inr (if_pos h)
  byKey entries _ := .refl entries
  viaRaw _ := rfl
  viaUinteger _ := rfl
  viaInteger _ := rfl
  viaBoolean _ := rfl
  viaArray _ := rfl
  encode_array := rfl
  encode_pos := encode_ne_nil
  encode_raw s hs := by
    change (encode (.raw s)).length = s.length + 1
    rw [encode, header_short hs, List.length_append, List.length_singleton, Nat.add_comm]
  encode_raw_le s := by
    change s.length ≤ (encode (.raw s)).length
    rw [encode, List.length_append]
    exact Nat.le_add_left _ _
  encode_map := rfl

/-- `p` with a text and a number, `q` with a decimal. -/
def sample : Individual :=
  ⟨[0x61], AList.insert [0x70] [.str [0x78] .ru, .integer (-1)]
    (AList.insert [0x71] [.decimal 5 (-2)] ∅)⟩

theorem roundTrips_iff_sample :
    (∃ result, msgpack2individual packer .init (individual2msgpack packer sample) = some result ∧
      sample.Carries result) ↔ Readable packer sample :=
  roundTrips_iff documented_packer (by decide)

/-- `p` without a value. -/
def valueless : Individual := ⟨[0x61, 0x62], AList.insert [0x70] [] ∅⟩

theorem not_roundTrips_valueless :
    ¬∃ result, msgpack2individual packer .init (individual2msgpack packer valueless) = some result ∧
      valueless.Carries result := by
  rintro ⟨result, hresult, -⟩
  rw [msgpack2individual_short documented_packer (by decide) (by decide) (by decide)] at hresult
  cases hresult

end Veda.Bj8individual.Msgpack
