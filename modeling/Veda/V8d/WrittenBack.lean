import Veda.V8d.ValueBack

/-! # Individuals that a script writes back

A script that gets an individual and writes it unchanged goes through `cbor2jsobject` and
`jsobject2cbor`; the bytes are then read by `cbor2individual`. -/

namespace Veda.V8d.Cbor8json

open Bj8individual
open Bj8individual.Cbor (atSign EncodesValues EncodesPairs isText put putAll keyOf)

section
variable {Number : Type} {v8 : V8 Number}

/-! ## The object -/

theorem set_of_notMem {object : Object Number} {key : JsString} (value : Value Number)
    (h : key ∉ object.keys) : object.set key value = object ++ [(key, value)] := if_neg h

theorem keys_set_of_notMem {object : Object Number} {key : JsString} (value : Value Number)
    (h : key ∉ object.keys) : (object.set key value).keys = object.keys ++ [key] := by
  rw [set_of_notMem value h, Object.keys, List.map_append]
  rfl

theorem get_set_self {object : Object Number} {key : JsString} (value : Value Number)
    (h : key ∉ object.keys) : (object.set key value).get key = value := by
  have hnone : object.lookup key = none := by
    rw [List.lookup_eq_none_iff]
    intro property hp
    rw [bne_iff_ne]
    rintro rfl
    exact h (List.mem_map_of_mem hp)
  rw [set_of_notMem value h, Object.get, List.lookup_append, hnone, List.lookup_cons,
    beq_self_eq_true]
  rfl

theorem get_set_ne {object : Object Number} {key key' : JsString} (value : Value Number)
    (h : key ∉ object.keys) (hne : key' ≠ key) :
    (object.set key value).get key' = object.get key' := by
  have hbeq : (key' == key) = false := beq_false_of_ne hne
  rw [set_of_notMem value h, Object.get, List.lookup_append, List.lookup_cons, hbeq,
    List.lookup_nil]
  simp [Object.get]

/-- The keys of different predicates are set one after the other. -/
theorem setAll_some {entries : List (Text × Resources)} {jsMap obj : Object Number}
    (hn : (jsMap.keys ++ entries.map fun entry => v8.string entry.1).Nodup)
    (h : setAll v8 jsMap entries = some obj) :
    obj.keys = jsMap.keys ++ entries.map (fun entry => v8.string entry.1) ∧
      (∀ entry ∈ entries, ∃ values, madeAll v8 Tag.none entry.2 = some values ∧
        obj.get (v8.string entry.1) = .array values) ∧
      ∀ key ∉ entries.map fun entry => v8.string entry.1, obj.get key = jsMap.get key := by
  induction entries generalizing jsMap with
  | nil =>
    obtain rfl := Option.some_inj.mp h
    exact ⟨(List.append_nil _).symm, nofun, fun _ _ => rfl⟩
  | cons entry entries ih =>
    rw [setAll, Option.bind_eq_bind, Option.bind_eq_some_iff] at h
    obtain ⟨values, hmade, h⟩ := h
    have hkey : v8.string entry.1 ∉ jsMap.keys := fun hmem =>
      (List.nodup_append.mp hn).2.2 _ hmem _ List.mem_cons_self rfl
    have hkeys := keys_set_of_notMem (.array values) hkey
    have hn' : ((jsMap.set (v8.string entry.1) (.array values)).keys ++
        entries.map fun entry => v8.string entry.1).Nodup := by
      rw [hkeys, List.append_assoc]
      exact hn
    obtain ⟨hobj, hvalues, hother⟩ := ih hn' h
    have hnot : v8.string entry.1 ∉ entries.map fun entry => v8.string entry.1 :=
      (List.nodup_cons.mp (List.nodup_append.mp hn).2.1).1
    refine ⟨?_, ?_, ?_⟩
    · rw [hobj, hkeys, List.append_assoc]
      rfl
    · refine List.forall_mem_cons.mpr ⟨⟨values, hmade, ?_⟩, hvalues⟩
      rw [hother _ hnot, get_set_self _ hkey]
    · intro key hk
      rw [List.map_cons, List.mem_cons, not_or] at hk
      rw [hother _ hk.2, get_set_ne _ hkey hk.1]

theorem setAll_none {entries : List (Text × Resources)} {jsMap : Object Number}
    (h : setAll v8 jsMap entries = none) :
    ∃ entry ∈ entries, madeAll v8 Tag.none entry.2 = none := by
  induction entries generalizing jsMap with
  | nil => cases h
  | cons entry entries ih =>
    rw [setAll, Option.bind_eq_bind] at h
    cases hmade : madeAll v8 Tag.none entry.2 with
    | none => exact ⟨entry, List.mem_cons_self, hmade⟩
    | some values =>
      rw [hmade] at h
      obtain ⟨entry', hmem, hnone⟩ := ih h
      exact ⟨entry', List.mem_cons_of_mem _ hmem, hnone⟩

/-! ## The message -/

/-- The bytes of a predicate; the value of `@` is one text. -/
structure Written (entry : Text × Resources) (bytes : List Byte) : Prop where
  exists_values : ∃ v, bytes = Cbor.writeString entry.1 ++ v ∧ EncodesValues entry.2 v ∧
    (entry.1 = atSign → ∃ s, entry.2 = [.str s .none] ∧ v = Cbor.writeString s)

/-- A predicate with the values that come back. -/
def entryBack (entry : Text × Resources) : Option (Text × Resources) :=
  (valuesBack Tag.none entry.2).map fun rs => (entry.1, rs)

/-- The uri and the predicates of an individual, as they are written. -/
def entriesOf (x : Individual) : List (Text × Resources) := (atSign, [.str x.uri .none]) :: x.valued

theorem encodesPairs_written {entries : List (Text × Resources)} {properties : List (List Byte)}
    (h : List.Forall₂ Written entries properties) : EncodesPairs entries properties.flatten := by
  induction h with
  | nil => exact .nil
  | @cons entry bytes _ _ hw _ ih =>
    obtain ⟨v, rfl, hv, -⟩ := hw.exists_values
    rw [List.flatten_cons, List.append_assoc]
    exact .cons entry.1 hv ih

/-- The text of a value. -/
def textOf (rs : Resources) : Text :=
  match rs with
  | [.str s _] => s
  | _ => []

/-- What is read of the entries of a message that was written back. It may not begin with the uri:
then there is no subject, and the first predicate is read as a part of the individual. -/
def readBack : List (Text × Resources) → Individual
  | [] => .init
  | (p, rs) :: entries =>
    if p = atSign then putAll (keyOf (textOf rs)) ⟨textOf rs, ∅⟩ entries
    else putAll none .init (([], rs) :: entries)

theorem cbor2individual_written {entries : List (Text × Resources)}
    {properties : List (List Byte)} (h : List.Forall₂ Written entries properties)
    (hne : entries ≠ []) {bytes : List Byte}
    (hbytes : Cbor.writeTypeValue .map (BitVec.ofNat 64 entries.length) ++
      properties.flatten = bytes) (hs : bytes.length < 2147483648) :
    Cbor.cbor2individual .init bytes = .ok (bytes.length, readBack entries) := by
  obtain ⟨⟨p, rs⟩, entries, rfl⟩ := List.exists_cons_of_ne_nil hne
  rw [List.forall₂_cons_left_iff] at h
  obtain ⟨first, properties, hw, hrest, rfl⟩ := h
  have hpairs := encodesPairs_written hrest
  have hle := hpairs.length_le
  rw [List.flatten_cons, List.length_cons] at hbytes
  have hlen := congrArg List.length hbytes
  simp only [List.length_append] at hlen
  obtain ⟨v, rfl, hv, hat⟩ := hw.exists_values
  by_cases hp : p = atSign
  · obtain ⟨s, rfl, rfl⟩ : ∃ s, rs = [.str s .none] ∧ v = Cbor.writeString s := hat hp
    have hread := Cbor.readElement_at (n := 0) hpairs (by omega)
      (by rw [Nat.zero_add, ← hbytes, List.append_assoc, hp]) hs (Nat.le_refl _)
    rw [Cbor.cbor2individual, hread, if_pos rfl, readBack, if_pos hp]
    rfl
  · have hread := Cbor.readElement_other hp hv hpairs (by omega)
      (by rw [← hbytes, List.append_assoc]) hs (Nat.le_refl _)
    rw [Cbor.cbor2individual, hread, readBack, if_neg hp]
    rfl

theorem madeAll_length {tag : Byte} {rs : Resources} {values : List (Value Number)}
    (h : madeAll v8 tag rs = some values) : values.length = rs.length := by
  induction rs generalizing tag values with
  | nil =>
    obtain rfl := Option.some_inj.mp h
    rfl
  | cons r rs ih =>
    rw [madeAll, Option.bind_eq_bind, Option.bind_eq_some_iff] at h
    obtain ⟨value, -, h⟩ := h
    rw [Option.bind_eq_bind, Option.bind_eq_some_iff] at h
    obtain ⟨values, hall, h⟩ := h
    obtain rfl := Option.some_inj.mp h
    rw [List.length_cons, List.length_cons, ih hall]

theorem length_le_flatMap {α β : Type} (f : α → List β) {a : α} {as : List α} (h : a ∈ as) :
    (f a).length ≤ (as.flatMap f).length := by
  rw [List.flatMap_def]
  exact (List.infix_of_mem_flatten (List.mem_map_of_mem h)).length_le

/-- The parts of a message that is not too long. -/
theorem valued_lt {x : Individual} (hs : (Cbor.individual2cbor x).length < 2147483648)
    {entry : Text × Resources} (h : entry ∈ x.valued) :
    entry.1.length < 2147483648 ∧ entry.2.length < 2147483648 ∧
      ∀ r ∈ entry.2, (Cbor.writeResource r).length < 2147483648 := by
  have hle := @length_le_flatMap _ Byte (fun entry => Cbor.writeResources entry.1 entry.2) entry
    x.valued h
  rw [← Cbor.writeEntries] at hle
  have hcount := (Cbor.encodesAll_flatMap entry.2).length_le
  rw [Cbor.individual2cbor, Cbor.writeEntries_valued] at hs
  simp only [List.length_append] at hs
  simp only [Cbor.writeResources, List.length_append, Cbor.writeString_length, Cbor.writeValues]
    at hle
  refine ⟨by omega, by omega, fun r hr => ?_⟩
  have := length_le_flatMap Cbor.writeResource hr
  omega

/-- A predicate with its value objects. -/
theorem writeProperty_array (hv8 : Documented v8) {obj : Object Number} {p : Text} {rs : Resources}
    (hp : IsUtf8 p) (hzero : 0 ∉ p) (hne : p ≠ atSign) (hlen : p.length < 2147483648)
    (hcount : rs.length < 2147483648) (hr : ∀ r ∈ rs, TextIsUtf8 r)
    (hs : ∀ r ∈ rs, (Cbor.writeResource r).length < 2147483648) {values : List (Value Number)}
    (hmade : madeAll v8 Tag.none rs = some values)
    (hget : obj.get (v8.string p) = .array values) :
    Makes (entryBack (p, rs)) (writeProperty v8 obj (v8.string p)) Written := by
  have htext := text_string hv8 hp
  rw [cString_of_notMem hzero] at htext
  have hcount' := madeAll_length hmade
  have hwrite : writeProperty v8 obj (v8.string p) = (do
      let items ← values.mapM (writeItem v8)
      .ok (writeString p ++
        (writeTypeValue .array (BitVec.ofNat 64 values.length) ++ items.flatten))) := by
    simp only [writeProperty, htext, if_neg hne, hget]
    rfl
  have hback : entryBack (p, rs) = (valuesBack Tag.none rs).bind fun rs' => some (p, rs') := by
    rw [entryBack, Option.map_eq_bind]
    rfl
  rw [hwrite, hback]
  cases hrs : valuesBack Tag.none rs with
  | none =>
    have hitems := writeItems_made hv8 hr hs hmade
    rw [hrs] at hitems
    have hthrown : values.mapM (writeItem v8) = .error .thrown := hitems
    rw [hthrown]
    rfl
  | some rs' =>
    have hitems := writeItems_made hv8 hr hs hmade
    rw [hrs] at hitems
    obtain ⟨items, hok, hall⟩ := hitems
    have hcount'' := valuesBack_length hrs
    rw [hok]
    refine makes_ok ⟨_, congrArg (· ++ _) (writeString_eq hlen), ?_, fun h => absurd h hne⟩
    rw [writeTypeValue_ofNat (by omega), hcount', ← hcount'']
    exact .array hall

/-- The uri of an object. -/
theorem writeProperty_uri (hv8 : Documented v8) {obj : Object Number} {uri : Text}
    (hu : IsUtf8 uri) (hlen : uri.length < 2147483648)
    (hget : obj.get (v8.string atSign) = .string (v8.string uri)) :
    Makes (entryBack (atSign, [.str uri .none])) (writeProperty v8 obj (v8.string atSign))
      Written := by
  have hat : v8.text (.string (v8.string atSign)) = atSign :=
    text_literal (s := "@") hv8 rfl
  have hle : (cString uri).length ≤ uri.length := (List.takeWhile_prefix _).length_le
  have hwrite : writeProperty v8 obj (v8.string atSign) =
      .ok (writeString atSign ++ writeString (cString uri)) := by
    simp only [writeProperty, hat, if_pos, hget, text_string hv8 hu]
  have hback : entryBack (atSign, [.str uri .none]) = some (atSign, [.str (cString uri) .none]) :=
    rfl
  have hatLength : atSign.length < 2147483648 := by decide
  have huri : writeString (cString uri) = Cbor.writeString (cString uri) :=
    writeString_eq (by omega)
  rw [hwrite, hback, writeString_eq hatLength, huri]
  exact makes_ok ⟨_, rfl, .single (.str _), fun _ => ⟨_, rfl, rfl⟩⟩

/-! ## The way back -/

/-- The texts of an individual are in UTF-8, its predicates are names of properties, and the message
is not too long. -/
structure Storable (x : Individual) : Prop where
  uri : IsUtf8 x.uri
  predicate : ∀ p ∈ x.resources.keys, IsUtf8 p ∧ 0 ∉ p ∧ p ≠ atSign
  text : ∀ entry ∈ x.valued, ∀ r ∈ entry.2, TextIsUtf8 r
  count : x.resources.entries.length < 2147483647
  size : (Cbor.individual2cbor x).length < 2147483648

/-- The keys of the object of an individual. -/
def keysOf (v8 : V8 Number) (entries : List (Text × Resources)) : List JsString :=
  entries.map fun entry => v8.string entry.1

theorem string_inj (hv8 : Documented v8) {s s' : Text} (hs : IsUtf8 s ∧ 0 ∉ s)
    (hs' : IsUtf8 s' ∧ 0 ∉ s') (h : v8.string s = v8.string s') : s = s' := by
  have htext := text_string hv8 hs.1
  rw [h, text_string hv8 hs'.1, cString_of_notMem hs.2, cString_of_notMem hs'.2] at htext
  exact htext.symm

section
variable {x : Individual}

theorem names_entriesOf (hx : Storable x) :
    ((entriesOf x).map Prod.fst).Nodup ∧ ∀ entry ∈ entriesOf x, IsUtf8 entry.1 ∧ 0 ∉ entry.1 := by
  have hat : IsUtf8 atSign ∧ 0 ∉ atSign := ⟨⟨['@'], by decide⟩, by decide⟩
  refine ⟨?_, List.forall_mem_cons.mpr ⟨hat, fun entry h => ?_⟩⟩
  · rw [entriesOf, List.map_cons, List.nodup_cons]
    refine ⟨fun hmem => ?_, x.nodup_valued⟩
    obtain ⟨entry, he, hat⟩ := List.mem_map.mp hmem
    exact (hx.predicate _ (Cbor.key_mem_of_valued he)).2.2 hat
  · have := hx.predicate _ (Cbor.key_mem_of_valued h)
    exact ⟨this.1, this.2.1⟩

theorem nodup_keysOf (hv8 : Documented v8) (hx : Storable x) :
    (keysOf v8 (entriesOf x)).Nodup := by
  obtain ⟨hn, hutf8⟩ := names_entriesOf hx
  have hkeys : keysOf v8 (entriesOf x) = ((entriesOf x).map Prod.fst).map v8.string := by
    rw [keysOf, List.map_map]
    rfl
  rw [hkeys]
  refine List.Nodup.map_on (fun s hs s' hs' h => ?_) hn
  obtain ⟨entry, he, rfl⟩ := List.mem_map.mp hs
  obtain ⟨entry', he', rfl⟩ := List.mem_map.mp hs'
  exact string_inj hv8 (hutf8 _ he) (hutf8 _ he') h

/-- The properties of the object of an individual. -/
theorem objectOfIndividual_some (hv8 : Documented v8) (hx : Storable x) {obj : Object Number}
    (h : objectOfIndividual v8 x = some obj) :
    obj.keys = keysOf v8 (entriesOf x) ∧ ∀ entry ∈ entriesOf x,
      Makes (entryBack entry) (writeProperty v8 obj (v8.string entry.1)) Written := by
  let jsMap : Object Number := [(v8.string atSign, .string (v8.string x.uri))]
  have hn : (jsMap.keys ++ x.valued.map fun entry => v8.string entry.1).Nodup :=
    nodup_keysOf hv8 hx
  obtain ⟨hkeys, hvalues, hother⟩ := setAll_some hn h
  refine ⟨hkeys, List.forall_mem_cons.mpr ⟨?_, fun entry he => ?_⟩⟩
  · have hget := hother _ (List.nodup_cons.mp hn).1
    have hsize := hx.size
    have hself : jsMap.get (v8.string atSign) = .string (v8.string x.uri) := by
      rw [Object.get, List.lookup_cons, beq_self_eq_true]
      rfl
    rw [Cbor.individual2cbor] at hsize
    simp only [List.length_append, Cbor.writeString_length] at hsize
    exact writeProperty_uri hv8 hx.uri (by omega) (hget.trans hself)
  · obtain ⟨values, hmade, hget⟩ := hvalues entry he
    obtain ⟨hutf8, hzero, hne⟩ := hx.predicate _ (Cbor.key_mem_of_valued he)
    obtain ⟨hlen, hcount, hs⟩ := valued_lt hx.size he
    exact writeProperty_array hv8 hutf8 hzero hne hlen hcount (hx.text entry he) hs hmade hget

/-- The order in which the keys are listed. -/
theorem exists_order (hv8 : Documented v8) (x : Individual) :
    ∃ entries, entries.Perm (entriesOf x) ∧
      v8.getPropertyNames (keysOf v8 (entriesOf x)) = keysOf v8 entries := by
  have hperm := hv8.getPropertyNames (keysOf v8 (entriesOf x))
  obtain ⟨entries, heq, hperm⟩ := (congrFun₂ (List.eq_map_comp_perm _) _ _).mpr hperm
  exact ⟨entries, hperm, heq⟩

theorem properties_made {obj : Object Number} {entries : List (Text × Resources)}
    (h : ∀ entry ∈ entries,
      Makes (entryBack entry) (writeProperty v8 obj (v8.string entry.1)) Written) :
    Makes (entries.mapM entryBack) ((keysOf v8 entries).mapM (writeProperty v8 obj))
      (List.Forall₂ Written) := by
  induction entries with
  | nil => exact makes_ok .nil
  | cons entry entries ih =>
    obtain ⟨hentry, hrest⟩ := List.forall_mem_cons.mp h
    rw [keysOf, List.map_cons, List.mapM_cons, List.mapM_cons]
    refine hentry.bind fun entry' property hw => ?_
    exact (ih hrest).bind fun entries' properties hall => makes_ok (.cons hw hall)

end

theorem mapM_eq_some_iff {α β : Type} {f : α → Option β} {as : List α} {bs : List β} :
    as.mapM f = some bs ↔ List.Forall₂ (fun a b => f a = some b) as bs := by
  induction as generalizing bs with
  | nil =>
    rw [List.mapM_nil, List.forall₂_nil_left_iff]
    exact ⟨fun h => (Option.some_inj.mp h).symm, fun h => congrArg some h.symm⟩
  | cons a as ih =>
    rw [List.mapM_cons, List.forall₂_cons_left_iff, Option.bind_eq_bind, Option.bind_eq_some_iff]
    refine exists_congr fun b => ?_
    rw [Option.bind_eq_bind, Option.bind_eq_some_iff]
    constructor
    · rintro ⟨hb, bs, hbs, h⟩
      exact ⟨bs, hb, ih.mp hbs, (Option.some_inj.mp h).symm⟩
    · rintro ⟨bs, hb, hbs, rfl⟩
      exact ⟨hb, bs, ih.mpr hbs, rfl⟩

theorem exists_of_forall₂ {α β : Type} {R : α → β → Prop} {as : List α} {bs : List β}
    (h : List.Forall₂ R as bs) {a : α} (ha : a ∈ as) : ∃ b ∈ bs, R a b := by
  induction h with
  | nil => cases ha
  | cons hab _ ih =>
    rcases List.mem_cons.mp ha with rfl | ha
    · exact ⟨_, List.mem_cons_self, hab⟩
    · obtain ⟨b, hb, hab⟩ := ih ha
      exact ⟨b, List.mem_cons_of_mem _ hb, hab⟩

/-- An individual that a script has read and has written back unchanged is the same individual, up to
the order of its predicates. -/
def ComesBack (v8 : V8 Number) (x : Individual) : Prop :=
  ∃ obj bytes n y, cbor2jsobject v8 (Cbor.individual2cbor x) = .ok obj ∧
    jsobject2cbor v8 obj = .ok bytes ∧ Cbor.cbor2individual .init bytes = .ok (n, y) ∧ 0 < n ∧
    x.Carries y

section
variable {x : Individual} {entries : List (Text × Resources)}

/-- The message that is written back is not too long to be read. -/
def Short (v8 : V8 Number) (x : Individual) : Prop :=
  ∀ obj bytes, cbor2jsobject v8 (Cbor.individual2cbor x) = .ok obj →
    jsobject2cbor v8 obj = .ok bytes → bytes.length < 2147483648

theorem jsobject2cbor_made (hv8 : Documented v8) (hx : Storable x)
    (hperm : entries.Perm (entriesOf x))
    (horder : v8.getPropertyNames (keysOf v8 (entriesOf x)) = keysOf v8 entries)
    {obj : Object Number} (h : objectOfIndividual v8 x = some obj) :
    Makes (entries.mapM entryBack) (jsobject2cbor v8 obj) fun back bytes =>
      ∃ properties, List.Forall₂ Written back properties ∧
        Cbor.writeTypeValue .map (BitVec.ofNat 64 back.length) ++ properties.flatten = bytes := by
  obtain ⟨hkeys, hwritten⟩ := objectOfIndividual_some hv8 hx h
  have hmade := properties_made fun entry he => hwritten entry (hperm.mem_iff.mp he)
  have hlen : entries.length < 9223372036854775808 := by
    have hcount := hx.count
    have hle := Cbor.valued_length x
    rw [hperm.length_eq, entriesOf, List.length_cons]
    omega
  have hkeysLength : (keysOf v8 entries).length = entries.length := List.length_map _
  rw [jsobject2cbor, hkeys, horder, hkeysLength]
  cases hback : entries.mapM entryBack with
  | none =>
    rw [hback] at hmade
    have hthrown : (keysOf v8 entries).mapM (writeProperty v8 obj) = .error .thrown := hmade
    rw [hthrown]
    rfl
  | some back =>
    rw [hback] at hmade
    obtain ⟨properties, hok, hall⟩ := hmade
    have hsame := (mapM_eq_some_iff.mp hback).length_eq
    rw [hok]
    refine makes_ok ⟨properties, hall, ?_⟩
    rw [writeTypeValue_ofNat hlen, hsame]

theorem comesBack_iff_readBack (hv8 : Documented v8) (hx : Storable x) (hs : Short v8 x)
    (hperm : entries.Perm (entriesOf x))
    (horder : v8.getPropertyNames (keysOf v8 (entriesOf x)) = keysOf v8 entries) :
    ComesBack v8 x ↔ x.valued.length = x.resources.entries.length ∧
      ∃ back, entries.mapM entryBack = some back ∧ x.Carries (readBack back) := by
  have hread : ∀ obj, cbor2jsobject v8 (Cbor.individual2cbor x) = .ok obj ↔
      x.valued.length = x.resources.entries.length ∧ objectOfIndividual v8 x = some obj :=
    cbor2jsobject_iff hx.count hx.size
  have hpos : 0 < entries.length := by
    rw [hperm.length_eq, entriesOf, List.length_cons]
    omega
  constructor
  · rintro ⟨obj, bytes, n, y, hobj, hbytes, hback, -, hcarries⟩
    have hlen := hs obj bytes hobj hbytes
    obtain ⟨hvalued, hmade⟩ := (hread obj).mp hobj
    refine ⟨hvalued, ?_⟩
    have hwrite := jsobject2cbor_made hv8 hx hperm horder hmade
    cases hentries : entries.mapM entryBack with
    | none =>
      rw [hentries] at hwrite
      have hthrown : jsobject2cbor v8 obj = .error .thrown := hwrite
      rw [hthrown] at hbytes
      cases hbytes
    | some back =>
      rw [hentries] at hwrite
      obtain ⟨bytes', hok, properties, hall, heq⟩ := hwrite
      obtain rfl := Except.ok.inj (hbytes.symm.trans hok)
      have hne : back ≠ [] := by
        rintro rfl
        have := (mapM_eq_some_iff.mp hentries).length_eq
        rw [List.length_nil] at this
        omega
      rw [cbor2individual_written hall hne heq hlen] at hback
      obtain ⟨-, rfl⟩ := Prod.mk.inj (Except.ok.inj hback)
      exact ⟨back, rfl, hcarries⟩
  · rintro ⟨hvalued, back, hentries, hcarries⟩
    have hsome := mapM_eq_some_iff.mp hentries
    cases hobj : objectOfIndividual v8 x with
    | none =>
      obtain ⟨entry, he, hnone⟩ := setAll_none hobj
      obtain ⟨entry', -, hentry⟩ := exists_of_forall₂ hsome
        (hperm.mem_iff.mpr (List.mem_cons_of_mem _ he))
      rw [entryBack, valuesBack_of_madeAll hnone] at hentry
      cases hentry
    | some obj =>
      have hwrite := jsobject2cbor_made hv8 hx hperm horder hobj
      rw [hentries] at hwrite
      obtain ⟨bytes, hok, properties, hall, heq⟩ := hwrite
      have hobj' := (hread obj).mpr ⟨hvalued, hobj⟩
      have hne : back ≠ [] := by
        rintro rfl
        have := hsome.length_eq
        rw [List.length_nil] at this
        omega
      refine ⟨obj, bytes, bytes.length, readBack back, hobj', hok,
        cbor2individual_written hall hne heq (hs obj bytes hobj' hok), ?_, hcarries⟩
      have := Cbor.writeTypeValue_length_pos .map (BitVec.ofNat 64 back.length)
      rw [← heq, List.length_append]
      omega

/-! ## What is kept of the entries -/

/-- Whether a value is kept: a text needs a subject and a predicate. -/
def keeps (subjectUri : Option Text) (p : Text) (r : Resource) : Bool :=
  !isText r || (subjectUri.isSome && p != [])

/-- The values that are kept, and the predicates that then have one. -/
def keptOf (subjectUri : Option Text) (entries : List (Text × Resources)) :
    List (Text × Resources) :=
  (entries.map fun (p, rs) => (p, rs.filter (keeps subjectUri p))).filter fun entry => entry.2 ≠ []

theorem put_keyOf (subjectUri : Option Text) (p : Text) (individual : Individual) (r : Resource) :
    put subjectUri (keyOf p) individual r =
      if keeps subjectUri p r then individual.add p [r] else individual := by
  have hget : (keyOf p).getD [] = p := by
    unfold keyOf
    split
    · next hnil => exact hnil.symm
    · rfl
  have hsome : (keyOf p).isSome = (p != []) := by
    unfold keyOf
    split
    · next hnil =>
      rw [hnil]
      rfl
    · next hne => exact (bne_iff_ne.mpr hne).symm
  rw [put, hget, hsome, keeps]
  cases isText r
  · rfl
  · cases subjectUri
    · rfl
    · cases p != [] <;> rfl

theorem putAll_eq (subjectUri : Option Text) (individual : Individual)
    (entries : List (Text × Resources)) :
    putAll subjectUri individual entries = individual.addAll (keptOf subjectUri entries) := by
  induction entries generalizing individual with
  | nil => rfl
  | cons entry entries ih =>
    obtain ⟨p, rs⟩ := entry
    have hput : putAll subjectUri individual ((p, rs) :: entries) =
        putAll subjectUri (rs.foldl (put subjectUri (keyOf p)) individual) entries := rfl
    have hfold : rs.foldl (put subjectUri (keyOf p)) individual =
        (rs.filter (keeps subjectUri p)).foldl (fun indv r => indv.add p [r]) individual := by
      rw [List.foldl_filter]
      exact List.foldl_ext _ _ _ fun individual r _ => put_keyOf subjectUri p individual r
    rw [hput, ih, hfold, keptOf, keptOf, List.map_cons]
    by_cases hrs : rs.filter (keeps subjectUri p) = []
    · rw [List.filter_cons_of_neg (by simp only [hrs]; decide), hrs]
      rfl
    · rw [List.filter_cons_of_pos (by simp only [ne_eq, hrs, not_false_iff, decide_true]),
        Individual.foldl_add _ _ hrs, Individual.addAll_cons]

theorem mem_keptOf {subjectUri : Option Text} {p : Text} {rs : Resources} :
    (p, rs) ∈ keptOf subjectUri entries ↔
      rs ≠ [] ∧ ∃ rs', (p, rs') ∈ entries ∧ rs'.filter (keeps subjectUri p) = rs := by
  rw [keptOf, List.mem_filter, List.mem_map, and_comm, decide_eq_true_iff]
  refine and_congr_right fun _ => ?_
  constructor
  · rintro ⟨⟨p, rs'⟩, hmem, heq⟩
    obtain ⟨rfl, rfl⟩ := Prod.mk.inj heq
    exact ⟨rs', hmem, rfl⟩
  · rintro ⟨rs', hmem, rfl⟩
    exact ⟨(p, rs'), hmem, rfl⟩

theorem nodup_keptOf {subjectUri : Option Text} (h : (entries.map Prod.fst).Nodup) :
    ((keptOf subjectUri entries).map Prod.fst).Nodup := by
  have hmap : (entries.map fun (p, rs) => (p, rs.filter (keeps subjectUri p))).map Prod.fst =
      entries.map Prod.fst := by
    rw [List.map_map]
    rfl
  rw [← hmap] at h
  exact h.sublist (List.filter_sublist.map _)

/-- When the values that are kept are those of an individual. -/
theorem carries_keptOf_iff {subjectUri : Option Text} (hn : (entries.map Prod.fst).Nodup)
    (hsub : ∀ p rs, (p, rs) ∈ keptOf subjectUri entries → p ∈ x.valued.map Prod.fst) :
    x.Carries (.addAll ⟨x.uri, ∅⟩ (keptOf subjectUri entries)) ↔
      ∀ p rs, (p, rs) ∈ x.valued → (p, rs) ∈ keptOf subjectUri entries := by
  have hnodup : ((keptOf subjectUri entries).map Prod.fst).Nodup := nodup_keptOf hn
  constructor
  · intro h p rs hmem
    obtain ⟨hl, hrs⟩ := Individual.mem_valued.mp hmem
    have hlookup := h.2 p
    rw [hl, Option.filter_some, if_pos (decide_eq_true hrs)] at hlookup
    by_cases hp : p ∈ (keptOf subjectUri entries).map Prod.fst
    · obtain ⟨⟨_, rs'⟩, hmem', rfl⟩ := List.mem_map.mp hp
      rw [Individual.lookup_addAll hnodup (fun _ _ => rfl) hmem'] at hlookup
      rwa [← Option.some_inj.mp hlookup]
    · rw [Individual.lookup_addAll_of_notMem _ hp] at hlookup
      cases hlookup
  · intro h
    refine Individual.carries_of_perm ?_
    refine (List.perm_ext_iff_of_nodup hnodup.of_map x.nodup_valued.of_map).mpr fun entry => ?_
    refine ⟨fun hmem => ?_, fun hmem => h entry.1 entry.2 hmem⟩
    obtain ⟨entry', hmem', heq⟩ := List.mem_map.mp (hsub entry.1 entry.2 hmem)
    rwa [List.inj_on_of_nodup_map hnodup hmem (h _ _ hmem') heq.symm]

theorem keeps_keyOf {uri p : Text} {r : Resource} :
    keeps (keyOf uri) p r = true ↔ (isText r = true → uri ≠ [] ∧ p ≠ []) := by
  have hsome : (keyOf uri).isSome = true ↔ uri ≠ [] := by
    unfold keyOf
    split
    · next hnil => exact iff_of_false nofun fun h => h hnil
    · next hne => exact iff_of_true rfl hne
  rw [keeps, Bool.or_eq_true, Bool.and_eq_true, hsome, bne_iff_ne, Bool.not_eq_true']
  cases isText r
  · exact iff_of_true (.inl rfl) nofun
  · exact ⟨fun h _ => h.resolve_left nofun, fun h => .inr (h rfl)⟩

/-- The uri and the predicates are different keys. -/
theorem entriesOf_unique (hx : Storable x) {p : Text} {rs rs' : Resources}
    (h : (p, rs) ∈ entriesOf x) (h' : (p, rs') ∈ entriesOf x) : rs = rs' :=
  (Prod.mk.inj (List.inj_on_of_nodup_map (names_entriesOf hx).1 h h' rfl)).2

/-- What of the entries that come back is in the individual that is read. -/
theorem mem_keptOf_back (hx : Storable x) {back : List (Text × Resources)}
    (hback : List.Forall₂ (fun entry entry' => entryBack entry = some entry') entries back)
    (hsub : ∀ entry ∈ entries, entry ∈ entriesOf x) {subjectUri : Option Text} {p : Text}
    {rs : Resources} (hmem : (p, rs) ∈ entriesOf x) (h : (p, rs) ∈ keptOf subjectUri back) :
    valuesBack Tag.none rs = some rs ∧ ∀ r ∈ rs, keeps subjectUri p r = true := by
  obtain ⟨-, rs', hmem', hfilter⟩ := mem_keptOf.mp h
  obtain ⟨⟨p', rs''⟩, he, hentry⟩ := exists_of_forall₂ hback.flip hmem'
  obtain ⟨rs₁, hvalues, heq⟩ := Option.map_eq_some_iff.mp hentry
  obtain ⟨rfl, rfl⟩ := Prod.mk.inj heq
  obtain rfl := entriesOf_unique hx hmem (hsub _ he)
  have hlen := valuesBack_length hvalues
  rw [← congrArg List.length hfilter] at hlen
  have hall := List.length_filter_eq_length_iff.mp hlen.symm
  obtain rfl : rs₁ = rs := (List.filter_eq_self.mpr hall).symm.trans hfilter
  exact ⟨hvalues, hall⟩

theorem names_back {back : List (Text × Resources)}
    (h : List.Forall₂ (fun entry entry' => entryBack entry = some entry') entries back) :
    back.map Prod.fst = entries.map Prod.fst := by
  induction h with
  | nil => rfl
  | cons hentry _ ih =>
    obtain ⟨rs, -, rfl⟩ := Option.map_eq_some_iff.mp hentry
    rw [List.map_cons, List.map_cons, ih]

/-- When an individual comes back: all predicates have values, the uri is the first property that is
listed, and each value is kept. An individual without a uri has no texts. -/
structure KeptWhole (v8 : V8 Number) (x : Individual) : Prop where
  valued : ∀ p rs, x.resources.lookup p = some rs → rs ≠ []
  uri : 0 ∉ x.uri
  first : (v8.getPropertyNames (keysOf v8 (entriesOf x))).head? = some (v8.string atSign) ∨
    x.uri = [] ∧ (v8.getPropertyNames (keysOf v8 (entriesOf x))).head? = some (v8.string [])
  named : ∀ entry ∈ x.valued, ∀ r ∈ entry.2, isText r = true → x.uri ≠ [] ∧ entry.1 ≠ []
  values : ∀ entry ∈ x.valued, KeptAll Tag.none entry.2

/-- What is read of a message that begins with the uri. -/
theorem readBack_uri (uri : Text) (back : List (Text × Resources)) :
    readBack ((atSign, [.str uri .none]) :: back) =
      .addAll ⟨uri, ∅⟩ (keptOf (keyOf uri) back) := by
  rw [readBack, if_pos rfl, putAll_eq]
  rfl

/-- What is read of a message that begins with a predicate. -/
theorem readBack_predicate {p : Text} (hp : p ≠ atSign) (rs : Resources)
    (back : List (Text × Resources)) :
    readBack ((p, rs) :: back) = .addAll ⟨[], ∅⟩ (keptOf none (([], rs) :: back)) := by
  rw [readBack, if_neg hp, putAll_eq]
  rfl

/-- Without a uri nothing is kept of the key `@`. -/
theorem mem_valued_of_keptOf (huri : x.uri = []) {back : List (Text × Resources)}
    (hback : List.Forall₂ (fun entry entry' => entryBack entry = some entry') entries back)
    (hsub : ∀ entry ∈ entries, entry ∈ entriesOf x) {p : Text} {rs : Resources}
    (h : (p, rs) ∈ keptOf (keyOf x.uri) back) : p ∈ x.valued.map Prod.fst := by
  obtain ⟨hne, rs', hmem, hfilter⟩ := mem_keptOf.mp h
  obtain ⟨⟨p', rs''⟩, he, hentry⟩ := exists_of_forall₂ hback.flip hmem
  obtain ⟨rs₁, hvalues, heq⟩ := Option.map_eq_some_iff.mp hentry
  obtain ⟨rfl, rfl⟩ := Prod.mk.inj heq
  rcases List.mem_cons.mp (hsub _ he) with heq | hmem
  · obtain ⟨rfl, rfl⟩ := Prod.mk.inj heq
    obtain rfl : [.str (cString x.uri) .none] = rs₁ := Option.some_inj.mp hvalues
    rw [huri] at hfilter
    exact absurd hfilter.symm hne
  · exact List.mem_map_of_mem hmem

theorem keptWhole_of_carries (hx : Storable x)
    (hperm : entries.Perm (entriesOf x))
    (horder : v8.getPropertyNames (keysOf v8 (entriesOf x)) = keysOf v8 entries)
    (hvalued : ∀ p rs, x.resources.lookup p = some rs → rs ≠ [])
    {back : List (Text × Resources)} (hback : entries.mapM entryBack = some back)
    (h : x.Carries (readBack back)) : KeptWhole v8 x := by
  have hall := mapM_eq_some_iff.mp hback
  have hkept {entries back : List (Text × Resources)}
      (hall : List.Forall₂ (fun entry entry' => entryBack entry = some entry') entries back)
      (hsub : ∀ entry ∈ entries, entry ∈ entriesOf x)
      (h : ∀ p rs, (p, rs) ∈ x.valued → (p, rs) ∈ keptOf (keyOf x.uri) back) :
      (∀ entry ∈ x.valued, ∀ r ∈ entry.2, isText r = true → x.uri ≠ [] ∧ entry.1 ≠ []) ∧
        ∀ entry ∈ x.valued, KeptAll Tag.none entry.2 := by
    have hmem entry (he : entry ∈ x.valued) :=
      mem_keptOf_back hx hall hsub (List.mem_cons_of_mem _ he) (h _ _ he)
    exact ⟨fun entry he r hr => keeps_keyOf.mp ((hmem entry he).2 r hr),
      fun entry he => valuesBack_iff.mp (hmem entry he).1⟩
  have hsub : ∀ entry ∈ entries, entry ∈ entriesOf x := fun entry he => hperm.mem_iff.mp he
  have hn : (entries.map Prod.fst).Nodup :=
    (hperm.map _).nodup_iff.mpr (names_entriesOf hx).1
  cases hall with
  | nil => cases hperm.length_eq
  | @cons entry entry' rest back' hentry hall' =>
    obtain ⟨p, rs⟩ := entry
    obtain ⟨rs', hrs', rfl⟩ := Option.map_eq_some_iff.mp hentry
    have hhead : (v8.getPropertyNames (keysOf v8 (entriesOf x))).head? = some (v8.string p) := by
      rw [horder]
      rfl
    obtain ⟨hfirst, hrest⟩ := List.forall_mem_cons.mp hsub
    have hnames := names_back hall'
    by_cases hp : p = atSign
    · subst hp
      obtain rfl := entriesOf_unique hx hfirst List.mem_cons_self
      obtain rfl : [.str (cString x.uri) .none] = rs' := Option.some_inj.mp hrs'
      have huri : cString x.uri = x.uri := by
        have := h.1
        rwa [readBack_uri, Individual.addAll_uri] at this
      have hvaluedPerm : rest.Perm x.valued := hperm.cons_inv
      rw [readBack_uri, huri] at h
      rw [List.map_cons, List.nodup_cons] at hn
      have hall := (carries_keptOf_iff (by rw [hnames]; exact hn.2) fun p rs hmem => ?_).mp h
      · obtain ⟨hnamed, hvalues⟩ := hkept hall' hrest hall
        exact ⟨hvalued, cString_eq_iff.mp huri, .inl hhead, hnamed, hvalues⟩
      · obtain ⟨-, rs', hmem', -⟩ := mem_keptOf.mp hmem
        rw [← (hvaluedPerm.map Prod.fst).mem_iff, ← hnames]
        exact List.mem_map_of_mem hmem'
    · rw [readBack_predicate hp] at h
      have huri : x.uri = [] := by
        have := h.1
        rwa [Individual.addAll_uri, eq_comm] at this
      have hmem : (p, rs) ∈ x.valued := by
        rcases List.mem_cons.mp hfirst with heq | hmem
        · exact absurd (Prod.mk.inj heq).1 hp
        · exact hmem
      have hnil : p = [] := by
        by_contra hne
        have hlookup := h.2 p
        obtain ⟨hl, hrs⟩ := Individual.mem_valued.mp hmem
        rw [hl, Option.filter_some, if_pos (decide_eq_true hrs),
          Individual.lookup_addAll_of_notMem] at hlookup
        · cases hlookup
        · intro hmem'
          obtain ⟨⟨_, ks⟩, hks, rfl⟩ := List.mem_map.mp hmem'
          obtain ⟨-, ks', hks', -⟩ := mem_keptOf.mp hks
          rcases List.mem_cons.mp hks' with heq | hks'
          · exact hne (Prod.mk.inj heq).1
          · refine (List.nodup_cons.mp hn).1 ?_
            rw [← hnames]
            exact List.mem_map.mpr ⟨_, hks', rfl⟩
      subst hnil
      have hall : List.Forall₂ (fun entry entry' => entryBack entry = some entry')
          (([], rs) :: rest) (([], rs') :: back') := .cons hentry hall'
      have h' : x.Carries (.addAll ⟨x.uri, ∅⟩ (keptOf (keyOf x.uri) (([], rs') :: back'))) := by
        rw [huri]
        exact h
      have hkeptAll := (carries_keptOf_iff (by rw [names_back hall]; exact hn)
        fun q ks hks => ?_).mp h'
      · obtain ⟨hnamed, hvalues⟩ := hkept hall hsub hkeptAll
        exact ⟨hvalued, by rw [huri]; decide, .inr ⟨huri, hhead⟩, hnamed, hvalues⟩
      · exact mem_valued_of_keptOf huri hall hsub hks

theorem carries_of_keptWhole (hv8 : Documented v8) (hx : Storable x)
    (hperm : entries.Perm (entriesOf x))
    (horder : v8.getPropertyNames (keysOf v8 (entriesOf x)) = keysOf v8 entries)
    (h : KeptWhole v8 x) :
    entries.mapM entryBack = some entries ∧ x.Carries (readBack entries) := by
  have hsub : ∀ entry ∈ entries, entry ∈ entriesOf x := fun entry he => hperm.mem_iff.mp he
  have hself : ∀ entry ∈ entriesOf x, entryBack entry = some entry := by
    refine List.forall_mem_cons.mpr ⟨?_, fun entry he => ?_⟩
    · have hback : entryBack (atSign, [.str x.uri .none]) =
          some (atSign, [.str (cString x.uri) .none]) := rfl
      rw [hback, cString_of_notMem h.uri]
    · rw [entryBack, valuesBack_iff.mpr (h.values entry he)]
      rfl
  have hall : List.Forall₂ (fun entry entry' => entryBack entry = some entry') entries entries :=
    List.forall₂_same.mpr fun entry he => hself entry (hsub entry he)
  refine ⟨mapM_eq_some_iff.mpr hall, ?_⟩
  have hn : (entries.map Prod.fst).Nodup :=
    (hperm.map _).nodup_iff.mpr (names_entriesOf hx).1
  -- what is written of a predicate is kept
  have hkept {entries : List (Text × Resources)} {p : Text} {rs : Resources}
      (hmem : (p, rs) ∈ x.valued) (he : (p, rs) ∈ entries) :
      (p, rs) ∈ keptOf (keyOf x.uri) entries :=
    mem_keptOf.mpr ⟨(Individual.mem_valued.mp hmem).2, rs, he,
      List.filter_eq_self.mpr fun r hr => keeps_keyOf.mpr (h.named _ hmem r hr)⟩
  cases entries with
  | nil => cases hperm.length_eq
  | cons entry rest =>
    obtain ⟨p, rs⟩ := entry
    obtain ⟨hfirst, hrest⟩ := List.forall_mem_cons.mp hsub
    have hnames := (names_entriesOf hx).2
    have hhead : (v8.getPropertyNames (keysOf v8 (entriesOf x))).head? = some (v8.string p) := by
      rw [horder]
      rfl
    have hp := h.first
    rw [hhead, Option.some_inj, Option.some_inj] at hp
    rcases hp with hp | ⟨huri, hp⟩
    · obtain rfl := string_inj hv8 (hnames _ hfirst) (hnames _ List.mem_cons_self) hp
      obtain rfl := entriesOf_unique hx hfirst List.mem_cons_self
      have hvaluedPerm : rest.Perm x.valued := hperm.cons_inv
      rw [readBack_uri]
      rw [List.map_cons, List.nodup_cons] at hn
      refine (carries_keptOf_iff hn.2 fun p rs hmem => ?_).mpr fun p rs hmem =>
        hkept hmem (hvaluedPerm.mem_iff.mpr hmem)
      obtain ⟨-, rs', hmem', -⟩ := mem_keptOf.mp hmem
      exact List.mem_map_of_mem (hvaluedPerm.mem_iff.mp hmem')
    · obtain rfl := string_inj hv8 (hnames _ hfirst) ⟨⟨[], rfl⟩, by decide⟩ hp
      have h' := (carries_keptOf_iff hn fun p rs hmem =>
        mem_valued_of_keptOf huri hall hsub hmem).mpr fun p rs hmem =>
          hkept hmem (hperm.mem_iff.mpr (List.mem_cons_of_mem _ hmem))
      rw [readBack_predicate (by decide)]
      rw [huri] at h'
      exact h'

end

end

/-! ## An individual that comes back -/

/-- Keys that are numbers are listed first. -/
def isIndex (key : JsString) : Bool := key ≠ [] && key.all fun c => 48 ≤ c.toNat && c.toNat ≤ 57

/-- A V8 for texts in ASCII and integers. -/
def plainV8 : V8 (BitVec 64) where
  newFromUtf8 s := s.map (BitVec.setWidth 16)
  utf8Value
    | .string s => s.map (BitVec.setWidth 8)
    | _ => []
  newInteger n := n.signExtend 64
  newDate ms := if InTime ms then ms else 0
  toInteger
    | .number x | .date x => x
    | _ => 0
  toBoolean
    | .boolean b => b
    | _ => false
  getPropertyNames keys := keys.filter isIndex ++ keys.filter (!isIndex ·)
  toMantissaExponent
    | .number x => some (x, 0)
    | _ => none

theorem documented_plainV8 : Documented plainV8 where
  utf8Value s _ _ := by
    have hback : (BitVec.setWidth 8 ∘ BitVec.setWidth 16 : Byte → Byte) = id := by
      funext c
      exact BitVec.setWidth_setWidth_of_le c (by decide)
    change (s.map (BitVec.setWidth 16)).map (BitVec.setWidth 8) = s
    rw [List.map_map, hback, List.map_id]
  toInteger_undefined := rfl
  toInteger_newInteger _ := rfl
  toInteger_newDate _ := rfl
  toBoolean _ := rfl
  getPropertyNames keys := List.filter_append_perm isIndex keys

theorem storable_sample : Storable Cbor.sample where
  uri := ⟨['a'], by decide⟩
  predicate := by
    have hkeys : ∀ p ∈ Cbor.sample.resources.keys, p = [0x70] ∨ p = [0x71] := by decide
    intro p hp
    rcases hkeys p hp with rfl | rfl
    · exact ⟨⟨['p'], by decide⟩, by decide, by decide⟩
    · exact ⟨⟨['q'], by decide⟩, by decide, by decide⟩
  text := by
    have hvalues : ∀ entry ∈ Cbor.sample.valued, ∀ r ∈ entry.2,
        r = .str [0x78] .ru ∨ isText r = false := by decide
    intro entry he r hr
    rcases hvalues entry he r hr with rfl | hr
    · exact ⟨['x'], by decide⟩
    · cases r with
      | uri | str | binary => cases hr
      | _ => trivial
  count := by decide
  size := by decide

theorem short_sample : Short plainV8 Cbor.sample := by
  intro obj bytes hobj hbytes
  have hlen : ((cbor2jsobject plainV8 (Cbor.individual2cbor Cbor.sample) >>=
      jsobject2cbor plainV8).map List.length).toOption.all (· < 2147483648) = true := by decide
  rw [hobj, ok_bind, hbytes] at hlen
  exact of_decide_eq_true hlen

end Veda.V8d.Cbor8json
