import Mathlib.Data.List.AList
import Mathlib.Data.List.Perm.Basic
import Mathlib.Tactic.IntervalCases
import Veda.Authorization.Index

/-! # Records of the ACL index as the indexer writes them

The model of `right_set.d`. The indexer keeps the entries of a record in an associative array
and writes them in the order of its keys, which is not specified: `rightsAsString` takes the
keys in the order in which the array yields them. -/

namespace Veda.Acl

open Authorization (StrMap Access noMarker mIsExclusive mIgnoreExclusive toDigit16)

/-- `struct Right`. -/
structure Right where
  id : String
  access : Access
  marker : Char
  isDeleted : Bool := false
  deriving DecidableEq, Repr

/-- `class RightSet`. An entry is filed under its id. -/
structure RightSet where
  data : StrMap Right
  id_eq : ∀ key right, data.lookup key = some right → right.id = key

namespace RightSet

def empty : RightSet := ⟨∅, fun _ _ h => by cases h⟩

/-- `data[right.id] = right`. -/
def put (rs : RightSet) (right : Right) : RightSet where
  data := rs.data.insert right.id right
  id_eq key r h := by
    by_cases hk : key = right.id
    · subst hk
      rw [AList.lookup_insert, Option.some.injEq] at h
      rw [← h]
    · rw [AList.lookup_insert_ne hk] at h
      exact rs.id_eq key r h

end RightSet

/-! ## Writing -/

/-- An upper-case hexadecimal digit. -/
def hexDigit (n : Nat) : Char :=
  if n < 10 then Char.ofNat ('0'.toNat + n) else Char.ofNat ('A'.toNat + (n - 10))

/-- `to!string(access, 16)`: the most significant digit first, no leading zeros. -/
def toStringHex (access : Access) : List Char :=
  if access.toNat < 16 then [hexDigit access.toNat]
  else [hexDigit (access.toNat / 16), hexDigit (access.toNat % 16)]

/-- The access token of an entry: the numeral and the marker, if there is one. -/
def accessToken (right : Right) : List Char :=
  toStringHex right.access ++ if right.marker = noMarker then [] else [right.marker]

/-- What `rights_as_string` writes for one entry. -/
def entryAsString (right : Right) : List Char :=
  right.id.toList ++ ';' :: (accessToken right ++ [';'])

/-- The entries that are written, in the order of the keys. -/
def written (keys : List String) (rs : RightSet) : List Right :=
  (keys.filterMap rs.data.lookup).filter (!·.isDeleted)

/-- `rights_as_string`. -/
def rightsAsString (keys : List String) (rs : RightSet) : String :=
  String.ofList ((written keys rs).flatMap entryAsString)

/-! ## Reading -/

/-- `parse!ubyte(s, 16)` on the first two characters: leading hexadecimal digits, at least one. -/
def parseUbyte (s : List Char) : Option Access :=
  match s.map toDigit16 with
  | some hi :: some lo :: _ => some (BitVec.ofNat 8 (16 * hi + lo))
  | some d :: _ => some (BitVec.ofNat 8 d)
  | _ => none

/-- The entry `key;token;`. The source takes the first two characters of the token without
looking at its length; after a token of one character that reads the `;` behind it. -/
def rightOfToken (key token : List Char) : Option Right :=
  (parseUbyte ((token ++ [';']).take 2)).map fun access =>
    { id := String.ofList key
      access := access
      marker := match token with
        | _ :: c :: _ => c
        | _ => noMarker }

/-- The loop over the tokens, two at a time. `none` is the exception of a numeral that cannot be
parsed. -/
def rightsFromTokens : List (List Char) → RightSet → Option RightSet
  | key :: token :: rest, rs =>
    if key = [] then rightsFromTokens rest rs
    else (rightOfToken key token).bind fun right => rightsFromTokens rest (rs.put right)
  | _, rs => some rs

/-- `rights_from_string`. -/
def rightsFromString (src : String) (rs : RightSet) : Option RightSet :=
  let tokens := src.toList.splitOn ';'
  if tokens.length > 2 then rightsFromTokens tokens rs else some rs

/-! ## The tokens of a record -/

/-- The id can be written: it is not empty and has no separator. -/
def WritableId (id : String) : Prop := id ≠ "" ∧ ';' ∉ id.toList

/-- The marker of an entry before it was ever written. -/
def PlainMarker (c : Char) : Prop := c = noMarker ∨ c = mIsExclusive ∨ c = mIgnoreExclusive

theorem toDigit16_hexDigit (h : n < 16) : toDigit16 (hexDigit n) = some n := by
  interval_cases n <;> decide

theorem hexDigit_ne (h : n < 16) : hexDigit n ≠ ';' ∧ hexDigit n ≠ mIsExclusive ∧
    hexDigit n ≠ mIgnoreExclusive := by
  interval_cases n <;> decide

theorem access_div_lt (access : Access) : access.toNat / 16 < 16 := by
  have := access.isLt
  omega

theorem separator_notMem_accessToken (h : right.marker ≠ ';') : ';' ∉ accessToken right := by
  have hlo := (hexDigit_ne (Nat.mod_lt right.access.toNat (by decide : 16 > 0))).1
  have hhi := (hexDigit_ne (access_div_lt right.access)).1
  unfold accessToken toStringHex
  split
  · next hlt =>
    have := (hexDigit_ne hlt).1
    split <;> simp [this.symm, h.symm]
  · split <;> simp [hlo.symm, hhi.symm, h.symm]

/-- A record splits into the tokens that were written. -/
theorem splitOn_flatMap (l : List Right)
    (h : ∀ r ∈ l, ';' ∉ r.id.toList ∧ r.marker ≠ ';') :
    (l.flatMap entryAsString).splitOn ';' =
      l.flatMap (fun r => [r.id.toList, accessToken r]) ++ [[]] := by
  induction l with
  | nil => rfl
  | cons r l ih =>
    obtain ⟨hid, hm⟩ := h r List.mem_cons_self
    have ih := ih fun r' hr' => h r' (List.mem_cons_of_mem _ hr')
    have hsplit : (r :: l).flatMap entryAsString =
        r.id.toList ++ ';' :: (accessToken r ++ ';' :: l.flatMap entryAsString) := by
      simp [entryAsString]
    rw [hsplit, List.splitOn_append_cons_self_of_not_mem hid,
      List.splitOn_append_cons_self_of_not_mem (separator_notMem_accessToken hm), ih]
    rfl

/-! ## What the authorization library reads -/

/-- The entry as the authorization library should see it. -/
def Right.asElement (right : Right) : Authorization.Right where
  id := right.id
  access := right.access
  marker := right.marker
  isDeleted := false
  level := 0

/-- The access the library reads: it takes the first digit as the lowest one. -/
def readAccess (access : Access) : Access :=
  if access.toNat < 16 then access
  else BitVec.ofNat 8 (16 * (access.toNat % 16) + access.toNat / 16)

theorem push_hexDigit (e : Authorization.Element) (h : n < 16) :
    e.push (hexDigit n) =
      { e with
        access := e.access ||| (BitVec.ofNat 32 n <<< (e.shift % 32))
        shift := e.shift + 4 } := by
  obtain ⟨-, hx, hn⟩ := hexDigit_ne h
  simp [Authorization.Element.push, hx, hn, toDigit16_hexDigit h]

theorem push_marker (e : Authorization.Element) (h : PlainMarker c) (hc : c ≠ noMarker) :
    e.push c = { e with marker := c } := by
  rw [Authorization.Element.push, if_pos (h.resolve_left hc)]

theorem foldl_toStringHex (access : Access) :
    ∃ shift, (toStringHex access).foldl Authorization.Element.push
        { access := 0, shift := 0, marker := noMarker } =
      { access := (readAccess access).setWidth 32, shift := shift, marker := noMarker } := by
  unfold toStringHex readAccess
  split
  · next h =>
    refine ⟨4, ?_⟩
    rw [List.foldl_cons, List.foldl_nil, push_hexDigit _ h]
    congr 1
    apply BitVec.eq_of_toNat_eq
    simp
  · refine ⟨8, ?_⟩
    have hhi := access_div_lt access
    have hlo := Nat.mod_lt access.toNat (by decide : 16 > 0)
    rw [List.foldl_cons, List.foldl_cons, List.foldl_nil, push_hexDigit _ hhi,
      push_hexDigit _ hlo]
    have hall : ∀ hi lo : Fin 16, (0 ||| BitVec.ofNat 32 hi <<< (0 % 32)) |||
        (BitVec.ofNat 32 lo <<< ((0 + 4) % 32)) =
          (BitVec.ofNat 8 (16 * lo + hi)).setWidth 32 := by
      decide +kernel
    congr 1
    exact hall ⟨_, hhi⟩ ⟨_, hlo⟩

theorem rightOfToken_accessToken (right : Right) (h : PlainMarker right.marker) :
    Authorization.rightOfToken right.id.toList (accessToken right) =
      { right.asElement with access := readAccess right.access } := by
  obtain ⟨shift, hshift⟩ := foldl_toStringHex right.access
  unfold Authorization.rightOfToken accessToken
  rw [List.foldl_append, hshift]
  split
  · next hm => simp [hm, Right.asElement]
  · next hm => simp [push_marker _ h hm, Right.asElement]

theorem rightsOfTokens_flatMap (l : List Right) :
    Authorization.rightsOfTokens (l.flatMap (fun r => [r.id.toList, accessToken r]) ++ [[]]) =
      l.map fun r => Authorization.rightOfToken r.id.toList (accessToken r) := by
  induction l with
  | nil => rfl
  | cons r l ih =>
    rw [List.flatMap_cons, List.map_cons, ← ih]
    rfl

/-- What the library reads from a written record. -/
theorem elements_rightsAsString (keys : List String) (rs : RightSet)
    (hids : ∀ r ∈ written keys rs, ';' ∉ r.id.toList)
    (hmarkers : ∀ r ∈ written keys rs, PlainMarker r.marker) :
    Authorization.elements (rightsAsString keys rs) =
      (written keys rs).map fun r => { r.asElement with access := readAccess r.access } := by
  have hmarker : ∀ r ∈ written keys rs, r.marker ≠ ';' := by
    intro r hr
    rcases hmarkers r hr with h | h | h <;> rw [h] <;> decide
  have hlist : Authorization.elements (rightsAsString keys rs) =
      Authorization.rightsOfTokens (((written keys rs).flatMap entryAsString).splitOn ';') := by
    unfold Authorization.elements Authorization.getElementsFromIndex rightsAsString
    split
    · next h =>
      have : (written keys rs).flatMap entryAsString = [] := by
        simpa [String.isEmpty_iff] using h
      rw [this]
      rfl
    · simp
  rw [hlist, splitOn_flatMap _ fun r hr => ⟨hids r hr, hmarker r hr⟩, rightsOfTokens_flatMap]
  exact List.map_congr_left fun r hr => rightOfToken_accessToken r (hmarkers r hr)

/-- The entries that are not deleted. -/
def RightSet.live (rs : RightSet) : List Right := written rs.data.keys rs

theorem written_perm {rs : RightSet} (h : keys.Perm rs.data.keys) :
    (written keys rs).Perm rs.live := (h.filterMap _).filter _

theorem RightSet.mem_live {rs : RightSet} :
    r ∈ rs.live ↔ rs.data.lookup r.id = some r ∧ r.isDeleted = false := by
  unfold live written
  rw [List.mem_filter, List.mem_filterMap]
  constructor
  · rintro ⟨⟨key, -, hkey⟩, hdel⟩
    rw [rs.id_eq key r hkey]
    exact ⟨hkey, by simpa using hdel⟩
  · rintro ⟨hkey, hdel⟩
    refine ⟨⟨r.id, ?_, hkey⟩, by simpa using hdel⟩
    exact AList.mem_keys.mpr (AList.lookup_isSome.mp (by rw [hkey]; rfl))

theorem readAccess_eq_iff (access : Access) : readAccess access = access ↔
    access.toNat / 16 = 0 ∨ access.toNat / 16 = access.toNat % 16 := by
  have hlt := access.isLt
  unfold readAccess
  split
  · next h => exact ⟨fun _ => .inl (by omega), fun _ => rfl⟩
  · next h =>
    rw [← BitVec.toNat_inj, BitVec.toNat_ofNat]
    omega

/-- The library reads back what the indexer writes exactly when no access has two different
digits with a first one that is not zero. -/
theorem elements_rightsAsString_iff (rs : RightSet) (keys : List String)
    (hkeys : keys.Perm rs.data.keys) (hids : ∀ r ∈ rs.live, WritableId r.id)
    (hmarkers : ∀ r ∈ rs.live, PlainMarker r.marker) :
    (Authorization.elements (rightsAsString keys rs)).Perm (rs.live.map Right.asElement) ↔
      ∀ r ∈ rs.live,
        r.access.toNat / 16 = 0 ∨ r.access.toNat / 16 = r.access.toNat % 16 := by
  have hperm := written_perm hkeys
  rw [elements_rightsAsString keys rs (fun r hr => (hids r (hperm.subset hr)).2)
    fun r hr => hmarkers r (hperm.subset hr)]
  constructor
  · intro h r hr
    -- the element for `r` can only come from `r` itself
    obtain ⟨r', hr', heq⟩ := List.mem_map.mp (h.symm.subset (List.mem_map_of_mem hr))
    have hid : r'.id = r.id := congrArg Authorization.Right.id heq
    have hacc : readAccess r'.access = r.access := congrArg Authorization.Right.access heq
    have hlook := (RightSet.mem_live.mp (hperm.subset hr')).1
    rw [hid, (RightSet.mem_live.mp hr).1, Option.some.injEq] at hlook
    rw [← hlook] at hacc
    exact (readAccess_eq_iff _).mp hacc
  · intro h
    have hsame : (written keys rs).map
        (fun r => { r.asElement with access := readAccess r.access }) =
        (written keys rs).map Right.asElement := by
      refine List.map_congr_left fun r hr => ?_
      rw [(readAccess_eq_iff _).mpr (h r (hperm.subset hr))]
      rfl
    rw [hsame]
    exact hperm.map _

/-- One entry that grants reading and denies the other rights. -/
def denyingSet : RightSet := RightSet.empty.put { id := "g", access := 0xD2, marker := noMarker }

theorem elements_rightsAsString_iff_denyingSet :
    (Authorization.elements (rightsAsString ["g"] denyingSet)).Perm
        (denyingSet.live.map Right.asElement) ↔
      ∀ r ∈ denyingSet.live,
        r.access.toNat / 16 = 0 ∨ r.access.toNat / 16 = r.access.toNat % 16 :=
  elements_rightsAsString_iff denyingSet ["g"] (.refl _)
    (by intro r hr; cases List.mem_singleton.mp hr; exact ⟨by decide, by decide⟩)
    (by intro r hr; cases List.mem_singleton.mp hr; exact .inl rfl)

/-- The library reads `D2` as `2D`. -/
theorem elements_denyingSet :
    ¬(Authorization.elements (rightsAsString ["g"] denyingSet)).Perm
      (denyingSet.live.map Right.asElement) := by
  decide

/-! ## What the indexer reads back -/

/-- The entry is read back with its access. The marker after an access of two digits is lost: the
second digit is taken for it. -/
structure Right.Readable (right : Right) : Prop where
  id : WritableId right.id
  marker : right.marker ≠ ';'
  plain : right.access.toNat < 16 → PlainMarker right.marker

/-- The same entry with a marker of its own. -/
def Right.ReadsAs (right right' : Right) : Prop :=
  right'.id = right.id ∧ right'.access = right.access ∧ right'.isDeleted = false ∧ right'.Readable

theorem toDigit16_marker (h : PlainMarker c) : toDigit16 c = none := by
  rcases h with rfl | rfl | rfl <;> decide

theorem PlainMarker.ne_separator (h : PlainMarker c) : c ≠ ';' := by
  rcases h with rfl | rfl | rfl <;> decide

/-- What is read back of an entry. -/
def Right.reread (right : Right) : Right :=
  { right with
    marker := if right.access.toNat < 16 then right.marker
      else hexDigit (right.access.toNat % 16)
    isDeleted := false }

@[simp] theorem Right.id_reread (right : Right) : right.reread.id = right.id := rfl

@[simp] theorem Right.access_reread (right : Right) : right.reread.access = right.access := rfl

theorem rightOfToken_reread {right : Right}
    (h : right.access.toNat < 16 → PlainMarker right.marker) :
    rightOfToken right.id.toList (accessToken right) = some right.reread := by
  have hhi := access_div_lt right.access
  have hlo := Nat.mod_lt right.access.toNat (by decide : 16 > 0)
  by_cases hlt : right.access.toNat < 16
  · -- one digit, then the marker or the separator
    have htoken : accessToken right = hexDigit right.access.toNat ::
        if right.marker = noMarker then [] else [right.marker] := by
      rw [accessToken, toStringHex, if_pos hlt]
      rfl
    have hsep : toDigit16 ';' = none := by decide
    rw [htoken]
    unfold rightOfToken Right.reread
    by_cases hm : right.marker = noMarker
    · simp [hm, parseUbyte, toDigit16_hexDigit hlt, hsep, hlt]
    · simp [hm, parseUbyte, toDigit16_hexDigit hlt, toDigit16_marker (h hlt), hlt]
  · have htoken : accessToken right = hexDigit (right.access.toNat / 16) ::
        hexDigit (right.access.toNat % 16) ::
          if right.marker = noMarker then [] else [right.marker] := by
      rw [accessToken, toStringHex, if_neg hlt]
      rfl
    have hacc : BitVec.ofNat 8 (16 * (right.access.toNat / 16) + right.access.toNat % 16) =
        right.access := by
      rw [Nat.div_add_mod, BitVec.ofNat_toNat, BitVec.setWidth_eq]
    rw [htoken]
    unfold rightOfToken Right.reread
    simp [parseUbyte, toDigit16_hexDigit hhi, toDigit16_hexDigit hlo, hacc, hlt]

theorem readsAs_rightOfToken {right : Right} (h : right.Readable) :
    ∃ right', rightOfToken right.id.toList (accessToken right) = some right' ∧
      right.ReadsAs right' := by
  have hlo := Nat.mod_lt right.access.toNat (by decide : 16 > 0)
  refine ⟨right.reread, rightOfToken_reread h.plain, rfl, rfl, rfl, h.id, ?_, fun hlt => ?_⟩
  · unfold Right.reread
    dsimp only
    split
    · exact h.marker
    · exact (hexDigit_ne hlo).1
  · simpa [Right.reread, show right.access.toNat < 16 from hlt] using h.plain hlt

theorem RightSet.lookup_put (rs : RightSet) (right : Right) (s : String) :
    (rs.put right).data.lookup s = if s = right.id then some right else rs.data.lookup s := by
  unfold put
  split
  · next h => rw [h, AList.lookup_insert]
  · next h => rw [AList.lookup_insert_ne h]

/-- The record of some entries with different ids is read back. -/
theorem rightsFromTokens_flatMap (l : List Right) (hread : ∀ r ∈ l, r.Readable)
    (hids : l.Pairwise (·.id ≠ ·.id)) (rs : RightSet) :
    ∃ rs', rightsFromTokens (l.flatMap (fun r => [r.id.toList, accessToken r]) ++ [[]]) rs =
        some rs' ∧
      (∀ r ∈ l, ∃ r', rs'.data.lookup r.id = some r' ∧ r.ReadsAs r') ∧
      ∀ s, (∀ r ∈ l, r.id ≠ s) → rs'.data.lookup s = rs.data.lookup s := by
  induction l generalizing rs with
  | nil => exact ⟨rs, rfl, by simp, fun s _ => rfl⟩
  | cons r l ih =>
    rw [List.forall_mem_cons] at hread
    rw [List.pairwise_cons] at hids
    obtain ⟨r', hr', has⟩ := readsAs_rightOfToken hread.1
    obtain ⟨rs', hrs', hin, hout⟩ := ih hread.2 hids.2 (rs.put r')
    have hne : r.id.toList ≠ [] := fun h =>
      hread.1.id.1 (String.toList_eq_nil_iff.mp h)
    refine ⟨rs', ?_, List.forall_mem_cons.mpr ⟨⟨r', ?_, has⟩, hin⟩, fun s hs => ?_⟩
    · simp only [List.flatMap_cons, List.cons_append, List.nil_append, rightsFromTokens, if_neg hne,
        hr', Option.bind_some]
      exact hrs'
    · rw [hout r.id fun r₂ hr₂ => (hids.1 r₂ hr₂).symm, RightSet.lookup_put, if_pos has.1.symm]
    · rw [List.forall_mem_cons] at hs
      rw [hout s hs.2, RightSet.lookup_put, if_neg fun h => hs.1 (has.1.symm.trans h.symm)]

namespace RightSet

variable {rs : RightSet}

/-- The access of the entry for `s`, unless it is deleted. -/
def accessAt (rs : RightSet) (s : String) : Option Access :=
  ((rs.data.lookup s).filter (!·.isDeleted)).map Right.access

theorem accessAt_of_mem_live (h : r ∈ rs.live) : rs.accessAt r.id = some r.access := by
  obtain ⟨hlook, hdel⟩ := mem_live.mp h
  simp [accessAt, hlook, hdel]

theorem accessAt_of_not_live (h : ∀ r ∈ rs.live, r.id ≠ s) : rs.accessAt s = none := by
  rw [accessAt, Option.map_eq_none_iff, Option.filter_eq_none_iff]
  intro r hr hdel
  have hid := rs.id_eq s r hr
  exact h r (mem_live.mpr ⟨hid.symm ▸ hr, by simpa using hdel⟩) hid

/-- All entries can be written and are not deleted. -/
def Clean (rs : RightSet) : Prop :=
  ∀ s r, rs.data.lookup s = some r → r.Readable ∧ r.isDeleted = false

theorem clean_empty : empty.Clean := fun _ _ h => by cases h

theorem written_pairwise (hkeys : keys.Perm rs.data.keys) :
    (written keys rs).Pairwise (·.id ≠ ·.id) := by
  have hnodup : keys.Nodup := hkeys.nodup_iff.mpr rs.data.keys_nodup
  refine List.Pairwise.filter _ (List.pairwise_filterMap.mpr (hnodup.imp fun hne => ?_))
  intro r hr r' hr' heq
  exact hne (by rw [← rs.id_eq _ r hr, ← rs.id_eq _ r' hr', heq])

/-- The value stored for a record; a record without entries is not left empty. -/
def record (keys : List String) (rs : RightSet) : String :=
  let newRecord := rightsAsString keys rs
  if newRecord.length = 0 then "X" else newRecord

/-- A record that was stored is read back, up to the markers. -/
theorem rightsFromString_record (hkeys : keys.Perm rs.data.keys)
    (hread : ∀ r ∈ rs.live, r.Readable) :
    ∃ rs', rightsFromString (record keys rs) empty = some rs' ∧ rs'.Clean ∧
      ∀ s, rs'.accessAt s = rs.accessAt s := by
  have hperm := written_perm hkeys
  cases hl : written keys rs with
  | nil =>
    have hrecord : record keys rs = "X" := by simp [record, rightsAsString, hl]
    have hlive : ∀ r, r ∉ rs.live := fun r hr => by
      have := hperm.symm.subset hr
      rw [hl] at this
      cases this
    refine ⟨empty, by rw [hrecord]; rfl, clean_empty, fun s => ?_⟩
    rw [accessAt_of_not_live fun r hr => absurd hr (hlive r)]
    rfl
  | cons r l =>
    have hread' : ∀ r ∈ written keys rs, r.Readable := fun r hr => hread r (hperm.subset hr)
    obtain ⟨rs', hrs', hin, hout⟩ := rightsFromTokens_flatMap (written keys rs) hread'
      (written_pairwise hkeys) empty
    have hsplit := splitOn_flatMap (written keys rs) fun r hr =>
      ⟨(hread' r hr).id.2, (hread' r hr).marker⟩
    have hrecord : record keys rs = String.ofList ((written keys rs).flatMap entryAsString) := by
      have hne : (rightsAsString keys rs).length ≠ 0 := by
        simp [rightsAsString, hl, entryAsString]
      rw [record, if_neg hne, rightsAsString]
    refine ⟨rs', ?_, fun s r hr => ?_, fun s => ?_⟩
    · rw [hrecord, rightsFromString, String.toList_ofList, hsplit, hrs', if_pos]
      simp [hl]
    · by_cases hs : ∃ r₀ ∈ written keys rs, r₀.id = s
      · obtain ⟨r₀, hr₀, rfl⟩ := hs
        obtain ⟨r', hr', has⟩ := hin r₀ hr₀
        rw [hr'] at hr
        cases hr
        exact ⟨has.2.2.2, has.2.2.1⟩
      · rw [hout s fun r₀ hr₀ heq => hs ⟨r₀, hr₀, heq⟩] at hr
        cases hr
    · by_cases hs : ∃ r₀ ∈ written keys rs, r₀.id = s
      · obtain ⟨r₀, hr₀, rfl⟩ := hs
        obtain ⟨r', hr', has⟩ := hin r₀ hr₀
        rw [accessAt_of_mem_live (hperm.subset hr₀), accessAt, hr']
        simp [has.2.1, has.2.2.1]
      · have hlive : ∀ r ∈ rs.live, r.id ≠ s := fun r₀ hr₀ heq =>
          hs ⟨r₀, hperm.symm.subset hr₀, heq⟩
        rw [accessAt_of_not_live hlive, accessAt,
          hout s fun r₀ hr₀ heq => hs ⟨r₀, hr₀, heq⟩]
        rfl

end RightSet

end Veda.Acl
