import Veda.Mstorage.AclManager

/-! # The other entries of a record

`update_right_set` reads a record, changes the entries of some members and writes it again. What
that does to an entry that is not changed is what reading and writing do to it. -/

namespace Veda.Acl

open Onto
open Authorization (AclIndex Access noMarker mIsExclusive)

/-! ## The entries of a text -/

/-- Elements two at a time. -/
def pairs {α : Type} : List α → List (α × α)
  | a :: b :: l => (a, b) :: pairs l
  | _ => []

/-- The text has the entry: its id stands there with its access and its marker. -/
def Holds (data : String) (right : Right) : Prop :=
  (right.id.toList, accessToken right) ∈ pairs (data.toList.splitOn ';')

instance (data : String) (right : Right) : Decidable (Holds data right) :=
  inferInstanceAs (Decidable (_ ∈ _))

/-- The entry for an id. -/
def entry (l : List Right) (s : String) : Option Right := l.find? (·.id = s)

/-- The text of the entries, for which a record without any has another one. -/
def Text (l : List Right) (data : String) : Prop :=
  data = String.ofList (l.flatMap entryAsString) ∨ l = [] ∧ data = "X"

/-- Entries of different ids that can be told apart in a text. -/
structure Separate (l : List Right) : Prop where
  ids : l.Pairwise (·.id ≠ ·.id)
  id : ∀ r ∈ l, ';' ∉ r.id.toList
  marker : ∀ r ∈ l, r.marker ≠ ';'
  plain : ∀ r ∈ l, r.access.toNat < 16 → PlainMarker r.marker

theorem pairs_flatMap (l : List Right) :
    pairs (l.flatMap (fun r => [r.id.toList, accessToken r]) ++ [[]]) =
      l.map fun r => (r.id.toList, accessToken r) := by
  induction l with
  | nil => rfl
  | cons r l ih => exact congrArg ((r.id.toList, accessToken r) :: ·) ih

theorem Separate.of_cons {right : Right} {l : List Right} (h : Separate (right :: l)) :
    Separate l :=
  ⟨(List.pairwise_cons.1 h.ids).2, fun r hr => h.id r (List.mem_cons_of_mem _ hr),
    fun r hr => h.marker r (List.mem_cons_of_mem _ hr),
    fun r hr => h.plain r (List.mem_cons_of_mem _ hr)⟩

theorem entry_cons_self (right : Right) (l : List Right) :
    entry (right :: l) right.id = some right := by
  simp [entry]

theorem entry_cons_of_ne {right : Right} {s : String} (h : right.id ≠ s) (l : List Right) :
    entry (right :: l) s = entry l s := by
  simp [entry, h]

theorem entry_eq_none {l : List Right} {s : String} (h : ∀ r ∈ l, s ≠ r.id) : entry l s = none :=
  List.find?_eq_none.2 fun r hr => by simpa using (h r hr).symm

theorem mem_of_entry {l : List Right} {s : String} {r : Right} (h : entry l s = some r) :
    r ∈ l ∧ r.id = s :=
  ⟨List.mem_of_find?_eq_some h, by simpa using List.find?_some h⟩

theorem entry_of_mem {l : List Right} (h : l.Pairwise (·.id ≠ ·.id)) {r : Right} (hr : r ∈ l) :
    entry l r.id = some r := by
  induction l with
  | nil => cases hr
  | cons r' l ih =>
    have hids := List.pairwise_cons.1 h
    obtain rfl | hr := List.mem_cons.1 hr
    · exact entry_cons_self ..
    · rw [entry_cons_of_ne (hids.1 r hr)]
      exact ih hids.2 hr

/-- The entries that a text has. -/
theorem Separate.holds_iff {l : List Right} (h : Separate l) {data : String} (hdata : Text l data)
    (right : Right) :
    Holds data right ↔ ∃ r, entry l right.id = some r ∧ accessToken r = accessToken right := by
  unfold Holds
  obtain rfl | ⟨rfl, rfl⟩ := hdata
  · rw [String.toList_ofList, splitOn_flatMap l fun r hr => ⟨h.id r hr, h.marker r hr⟩,
      pairs_flatMap, List.mem_map]
    constructor
    · rintro ⟨r, hr, heq⟩
      obtain ⟨hid, htoken⟩ := Prod.mk.inj heq
      rw [← String.toList_inj.1 hid]
      exact ⟨r, entry_of_mem h.ids hr, htoken⟩
    · rintro ⟨r, hr, htoken⟩
      obtain ⟨hr, hid⟩ := mem_of_entry hr
      exact ⟨r, hr, by rw [hid, htoken]⟩
  · have hx : pairs ("X".toList.splitOn ';') = [] := by decide
    rw [hx]
    simp [entry]

/-! ## Reading and writing -/

/-- The entries that the parser makes of written ones: those without an id are skipped. -/
theorem Separate.rightsFromTokens {l : List Right} (h : Separate l) (rs : RightSet) :
    ∃ rs', rightsFromTokens (l.flatMap (fun r => [r.id.toList, accessToken r]) ++ [[]]) rs =
        some rs' ∧
      ∀ s, rs'.data.lookup s =
        (((entry l s).filter (·.id ≠ "")).map Right.reread).or (rs.data.lookup s) := by
  induction l generalizing rs with
  | nil => exact ⟨rs, rfl, fun s => rfl⟩
  | cons r l ih =>
    have hids := List.pairwise_cons.1 h.ids
    by_cases hnil : r.id = ""
    · obtain ⟨rs', hrs', hlookup⟩ := ih h.of_cons rs
      refine ⟨rs', ?_, fun s => ?_⟩
      · simp only [List.flatMap_cons, List.cons_append, List.nil_append, Acl.rightsFromTokens,
          String.toList_eq_nil_iff.2 hnil, if_true]
        exact hrs'
      · rw [hlookup]
        obtain rfl | hs := eq_or_ne r.id s
        · rw [entry_cons_self, entry_eq_none hids.1, Option.filter_some, if_neg (by simp [hnil])]
          rfl
        · rw [entry_cons_of_ne hs]
    · obtain ⟨rs', hrs', hlookup⟩ := ih h.of_cons (rs.put r.reread)
      have hne : r.id.toList ≠ [] := fun hempty => hnil (String.toList_eq_nil_iff.1 hempty)
      refine ⟨rs', ?_, fun s => ?_⟩
      · simp only [List.flatMap_cons, List.cons_append, List.nil_append, Acl.rightsFromTokens,
          if_neg hne, rightOfToken_reread (h.plain r (by simp)), Option.bind_some]
        exact hrs'
      · rw [hlookup, RightSet.lookup_put]
        obtain rfl | hs := eq_or_ne r.id s
        · rw [if_pos r.id_reread.symm, entry_cons_self, entry_eq_none hids.1, Option.filter_some,
            if_pos (by simp [hnil])]
          rfl
        · rw [entry_cons_of_ne hs, if_neg (by simpa using hs.symm)]

/-- What is read of a text. -/
theorem Separate.rightsFromString {l : List Right} (h : Separate l) {data : String}
    (hdata : Text l data) :
    ∃ rs, rightsFromString data .empty = some rs ∧
      ∀ s, rs.data.lookup s = ((entry l s).filter (·.id ≠ "")).map Right.reread := by
  obtain rfl | ⟨rfl, rfl⟩ := hdata
  · obtain ⟨rs, hrs, hlookup⟩ := h.rightsFromTokens .empty
    have hsplit := splitOn_flatMap l fun r hr => ⟨h.id r hr, h.marker r hr⟩
    cases l with
    | nil => exact ⟨.empty, rfl, fun s => rfl⟩
    | cons r l =>
      refine ⟨rs, ?_, fun s => ?_⟩
      · rw [Acl.rightsFromString, String.toList_ofList, hsplit, if_pos, hrs]
        simp
      · rw [hlookup]
        exact Option.or_none
  · exact ⟨.empty, rfl, fun s => rfl⟩

/-- The written entries of a record. -/
theorem entry_written {rs : RightSet} {keys : List String} (hkeys : keys.Perm rs.data.keys)
    (s : String) :
    entry (written keys rs) s = (rs.data.lookup s).filter (!·.isDeleted) := by
  have hperm := written_perm hkeys
  cases h : (rs.data.lookup s).filter (!·.isDeleted) with
  | none =>
    refine entry_eq_none fun r hr hid => ?_
    obtain ⟨hlook, hdel⟩ := RightSet.mem_live.1 (hperm.subset hr)
    rw [hid, hlook, Option.filter_some, if_pos (by simp [hdel])] at h
    cases h
  | some r =>
    obtain ⟨hlook, hdel⟩ := Option.filter_eq_some_iff.1 h
    have hid := rs.id_eq s r hlook
    have hr : r ∈ written keys rs :=
      hperm.symm.subset (RightSet.mem_live.2 ⟨hid.symm ▸ hlook, by simpa using hdel⟩)
    rw [← hid]
    exact entry_of_mem (RightSet.written_pairwise hkeys) hr

theorem text_record (keys : List String) (rs : RightSet) :
    Text (written keys rs) (rs.record keys) := by
  unfold RightSet.record
  dsimp only
  split
  · rename_i h
    refine .inr ⟨?_, rfl⟩
    cases hwritten : written keys rs with
    | nil => rfl
    | cons r l => simp [rightsAsString, hwritten, entryAsString] at h
  · exact .inl rfl

/-- The entries of a record after the members were touched can be told apart. -/
theorem separate_written {rs : RightSet} {keys : List String} (hkeys : keys.Perm rs.data.keys)
    (h : ∀ r ∈ rs.live, ';' ∉ r.id.toList ∧ r.marker ≠ ';' ∧
      (r.access.toNat < 16 → PlainMarker r.marker)) : Separate (written keys rs) := by
  have hperm := written_perm hkeys
  exact ⟨RightSet.written_pairwise hkeys, fun r hr => (h r (hperm.subset hr)).1,
    fun r hr => (h r (hperm.subset hr)).2.1, fun r hr => (h r (hperm.subset hr)).2.2⟩

/-! ## The update -/

/-- A record as the indexer writes it. -/
def RecordOf (m : AclIndex) (key : String) (l : List Right) : Prop :=
  Separate l ∧ match m key with
    | some data => Text l data
    | none => l = []

section
variable {m : AclIndex} {key : String} {l : List Right} {inSet : Resources} {marker : Char}
  {isDeleted : Bool} {useFilter : Resource} {keyPrefix : String}

theorem RecordOf.readRecord (h : RecordOf m key l) :
    ∃ rs, readRecord m key = some rs ∧
      ∀ s, rs.data.lookup s = ((entry l s).filter (·.id ≠ "")).map Right.reread := by
  obtain ⟨hsep, hdata⟩ := h
  unfold Acl.readRecord
  cases hkey : m key with
  | none =>
    simp only [hkey] at hdata
    subst hdata
    exact ⟨.empty, rfl, fun s => rfl⟩
  | some data =>
    simp only [hkey] at hdata
    exact hsep.rightsFromString hdata

theorem reread_marker {right : Right} (h : right.marker ≠ ';') : right.reread.marker ≠ ';' := by
  unfold Right.reread
  dsimp only
  split
  · exact h
  · exact (hexDigit_ne (Nat.mod_lt right.access.toNat (by decide : 16 > 0))).1

theorem reread_marker_of_lt {right : Right} (h : right.access.toNat < 16) :
    right.reread.marker = right.marker := if_pos h

/-- The record of the key is read, changed and stored. -/
theorem RecordOf.record (h : RecordOf m key l) (access : Access) (hmarker : PlainMarker marker)
    (hids : isDeleted = false → ∀ mb ∈ inSet, ';' ∉ mb.uriOf.toList) {rs : RightSet}
    (hread : Acl.readRecord m key = some rs) {keys : List String}
    (hkeys : keys.Perm (inSet.foldl (RightSet.touch access marker isDeleted) rs).data.keys) :
    ∃ l', RecordOf (Function.update m key
        (some ((inSet.foldl (RightSet.touch access marker isDeleted) rs).record keys))) key l' ∧
      ∀ s, (¬∃ mb ∈ inSet, mb.uriOf = s) →
        entry l' s = ((entry l s).filter (·.id ≠ "")).map Right.reread := by
  obtain ⟨rs₀, hrs₀, hlookup⟩ := h.readRecord
  cases hread.symm.trans hrs₀
  refine ⟨written keys _, ⟨separate_written hkeys fun r hr => ?_, ?_⟩, fun s hs => ?_⟩
  · obtain ⟨hlook, hdel⟩ := RightSet.mem_live.1 hr
    obtain ⟨hin, hout⟩ := RightSet.lookup_foldl_touch access marker isDeleted inSet rs r.id
    by_cases hmem : ∃ mb ∈ inSet, mb.uriOf = r.id
    · rw [hin hmem, Option.some.injEq] at hlook
      obtain ⟨mb, hmb, hid⟩ := hmem
      have hdeleted : isDeleted = false := by rw [← hdel, ← hlook]
      have hown : r.marker = marker := by rw [← hlook]
      exact ⟨hid ▸ hids hdeleted mb hmb, hown ▸ hmarker.ne_separator, fun _ => hown ▸ hmarker⟩
    · -- an entry that was read
      rw [hout hmem, hlookup, Option.map_eq_some_iff] at hlook
      obtain ⟨r₀, hr₀, rfl⟩ := hlook
      obtain ⟨hr₀, -⟩ := mem_of_entry (Option.filter_eq_some_iff.1 hr₀).1
      refine ⟨h.1.id r₀ hr₀, reread_marker (h.1.marker r₀ hr₀), fun hlt => ?_⟩
      rw [reread_marker_of_lt (show r₀.access.toNat < 16 from hlt)]
      exact h.1.plain r₀ hr₀ hlt
  · rw [Function.update_self]
    exact text_record ..
  · rw [entry_written hkeys, (RightSet.lookup_foldl_touch access marker isDeleted inSet rs s).2 hs,
      hlookup]
    cases (entry l s).filter (·.id ≠ "") <;> rfl

theorem reread_reread (right : Right) : right.reread.reread = right.reread := by
  unfold Right.reread
  dsimp only
  split <;> rfl

/-- Reading twice is reading once. -/
theorem reread_twice (o : Option Right) :
    ((((o.filter (·.id ≠ "")).map Right.reread)).filter (·.id ≠ "")).map Right.reread =
      (o.filter (·.id ≠ "")).map Right.reread := by
  cases o with
  | none => rfl
  | some r =>
    by_cases hid : r.id = ""
    · simp [Option.filter_some, hid]
    · simp [Option.filter_some, hid, reread_reread]

theorem RecordOf.update_ne (h : RecordOf m key l) {key' : String} (hne : key ≠ key')
    (data : String) : RecordOf (Function.update m key' (some data)) key l := by
  unfold RecordOf
  rw [Function.update_of_ne hne]
  exact h

/-- A call changes an entry that is not a member's as one reading and writing does, and leaves the
records of other keys. -/
theorem updateRightSet_entry (access : Access) (hmarker : PlainMarker marker)
    (hids : isDeleted = false → ∀ mb ∈ inSet, ';' ∉ mb.uriOf.toList)
    {keys : Nat → RightSet → List String} (hkeys : ∀ i rs, (keys i rs).Perm rs.data.keys)
    (resources : List (Resource × Nat)) (hm : ∀ key, ∃ l, RecordOf m key l)
    (h : RecordOf m key l) :
    ∃ l', RecordOf (updateRightSet keys inSet marker isDeleted useFilter keyPrefix access
        resources m).2 key l' ∧
      ((∃ rs ∈ resources, recordKey useFilter keyPrefix rs.1 = key) →
        ∀ s, (¬∃ mb ∈ inSet, mb.uriOf = s) →
          entry l' s = ((entry l s).filter (·.id ≠ "")).map Right.reread) ∧
      ((¬∃ rs ∈ resources, recordKey useFilter keyPrefix rs.1 = key) → l' = l) := by
  induction resources generalizing m l with
  | nil => exact ⟨l, h, fun hin => by simp at hin, fun _ => rfl⟩
  | cons e resources ih =>
    obtain ⟨rs, i⟩ := e
    obtain ⟨l₁, hl₁⟩ := hm (recordKey useFilter keyPrefix rs)
    obtain ⟨set, hset, -⟩ := hl₁.readRecord
    have hrecord := hl₁.record access hmarker hids hset (hkeys i _)
    simp only [updateRightSet, hset, List.exists_mem_cons_iff]
    generalize hdata : (inSet.foldl (RightSet.touch access marker isDeleted) set).record
      (keys i (inSet.foldl (RightSet.touch access marker isDeleted) set)) = data at hrecord ⊢
    have hm' : ∀ key, ∃ l, RecordOf (Function.update m (recordKey useFilter keyPrefix rs)
        (some data)) key l := fun key' => by
      obtain rfl | hne := eq_or_ne key' (recordKey useFilter keyPrefix rs)
      · exact ⟨_, hrecord.choose_spec.1⟩
      · obtain ⟨l', hl'⟩ := hm key'
        exact ⟨l', hl'.update_ne hne data⟩
    obtain rfl | hne := eq_or_ne key (recordKey useFilter keyPrefix rs)
    · obtain ⟨l₂, hl₂, hentry⟩ := h.record access hmarker hids hset (hkeys i _)
      rw [hdata] at hl₂
      obtain ⟨l', hl', hin, hout⟩ := ih hm' hl₂
      refine ⟨l', hl', fun _ s hs => ?_, fun hno => absurd (.inl rfl) hno⟩
      by_cases hrest : ∃ rs' ∈ resources, recordKey useFilter keyPrefix rs'.1 =
          recordKey useFilter keyPrefix rs
      · rw [hin hrest s hs, hentry s hs, reread_twice]
      · rw [hout hrest, hentry s hs]
    · obtain ⟨l', hl', hin, hout⟩ := ih hm' (h.update_ne hne data)
      exact ⟨l', hl', fun h => hin (h.resolve_left hne.symm), fun h => hout fun h' => h (.inr h')⟩

end

/-! ## The entries that are kept -/

/-- The text is one that `rights_as_string` can have written, or that of a record without
entries. -/
def CanBeWritten (data : String) : Prop :=
  ∃ (rs : RightSet) (keys : List String), keys.Perm rs.data.keys ∧
    (∀ r ∈ rs.live, ';' ∉ r.id.toList ∧ PlainMarker r.marker) ∧
    (data = rightsAsString keys rs ∨ data = rs.record keys)

theorem recordOf_written {m : AclIndex} {key : String} {rs : RightSet} {keys : List String}
    (hkeys : keys.Perm rs.data.keys)
    (hlive : ∀ r ∈ rs.live, ';' ∉ r.id.toList ∧ PlainMarker r.marker) {data : String}
    (hdata : data = rightsAsString keys rs ∨ data = rs.record keys) (h : m key = some data) :
    RecordOf m key (written keys rs) := by
  refine ⟨separate_written hkeys fun r hr => ⟨(hlive r hr).1, (hlive r hr).2.ne_separator,
    fun _ => (hlive r hr).2⟩, ?_⟩
  rw [h]
  obtain rfl | rfl := hdata
  · exact .inl rfl
  · exact text_record keys rs

/-- The marker of an entry is lost behind two digits. -/
theorem accessToken_reread_iff {right : Right} (h : PlainMarker right.marker) :
    accessToken right.reread = accessToken right ↔ right.access.toNat < 16 := by
  have hlo := Nat.mod_lt right.access.toNat (by decide : 16 > 0)
  constructor
  · intro heq
    by_contra hlt
    have hmarker : right.reread.marker = hexDigit (right.access.toNat % 16) := if_neg hlt
    have hne : hexDigit (right.access.toNat % 16) ≠ noMarker := by
      generalize right.access.toNat % 16 = n at hlo
      interval_cases n <;> decide
    rw [accessToken, accessToken, hmarker, if_neg hne, Right.access_reread] at heq
    have htail := List.append_cancel_left heq
    split at htail
    · cases htail
    · rename_i hsome
      obtain ⟨-, hx, hn⟩ := hexDigit_ne hlo
      obtain hm | hm := h.resolve_left hsome
      · exact hx ((List.cons.inj htail).1.trans hm)
      · exact hn ((List.cons.inj htail).1.trans hm)
  · intro hlt
    rw [accessToken, accessToken, reread_marker_of_lt hlt, Right.access_reread]

/-- **The entries of other members are kept** by a call of `update_right_set` on their record
exactly if each of them has an id and an access of one digit. -/
theorem updatePass_keeps_iff (m : AclIndex) (hm : ∀ key data, m key = some data → CanBeWritten data)
    (rs : RightSet) (keys : List String) (hkeys : keys.Perm rs.data.keys)
    (hlive : ∀ r ∈ rs.live, ';' ∉ r.id.toList ∧ PlainMarker r.marker) (key : String)
    (hkey : m key = some (rightsAsString keys rs)) (order : Order) (newInd : Individual)
    (keyPrefix : String) (access : Access) (i : Nat) (resources inSet : Resources)
    (isDeleted : Bool)
    (hresources : ∃ res ∈ resources,
      recordKey (newInd.getFirstResource "v-s:useFilter") keyPrefix res = key)
    (hmembers : ∀ mb ∈ inSet, ';' ∉ mb.uriOf.toList) :
    (∀ r ∈ rs.live, (¬∃ mb ∈ inSet, mb.uriOf = r.id) →
      ∃ data, (updatePass order newInd keyPrefix access i resources inSet isDeleted m).2 key =
        some data ∧ Holds data r) ↔
    ∀ r ∈ rs.live, (¬∃ mb ∈ inSet, mb.uriOf = r.id) → r.id ≠ "" ∧ r.access.toNat < 16 := by
  have hrecords : ∀ key, ∃ l, RecordOf m key l := fun key' => by
    cases hdata : m key' with
    | none =>
      exact ⟨[], ⟨.nil, by simp, by simp, by simp⟩, by rw [hdata]⟩
    | some data =>
      obtain ⟨rs', keys', hkeys', hlive', hor⟩ := hm key' data hdata
      exact ⟨_, recordOf_written hkeys' hlive' hor hdata⟩
  have hrecord := recordOf_written hkeys hlive (.inl rfl) hkey
  have hin : ∃ res ∈ resources.zipIdx,
      recordKey (newInd.getFirstResource "v-s:useFilter") keyPrefix res.1 = key := by
    obtain ⟨res, hres, heq⟩ := hresources
    obtain ⟨n, hn⟩ := List.mem_iff_getElem?.1 hres
    exact ⟨(res, n), List.mk_mem_zipIdx_iff_getElem?.2 hn, heq⟩
  obtain ⟨l', hl', hentry, -⟩ := updateRightSet_entry access (PlainMarker.statementMarker newInd)
    (fun _ => hmembers) (order.perm i) resources.zipIdx hrecords hrecord
  refine forall₂_congr fun r hr => imp_congr_right fun hother => ?_
  obtain ⟨hlook, hdel⟩ := RightSet.mem_live.1 hr
  have hold : entry (written keys rs) r.id = some r := by
    rw [entry_written hkeys, hlook, Option.filter_some, if_pos (by simp [hdel])]
  have hnew := hentry hin r.id hother
  rw [hold, Option.filter_some] at hnew
  have hholds : (∃ data, (updatePass order newInd keyPrefix access i resources inSet isDeleted m).2
      key = some data ∧ Holds data r) ↔
        ∃ r', entry l' r.id = some r' ∧ accessToken r' = accessToken r := by
    obtain ⟨hsep, hdata⟩ := hl'
    unfold updatePass
    split at hdata
    · rename_i data hsome
      rw [hsome]
      simpa using hsep.holds_iff hdata r
    · rename_i hnone
      rw [hnone]
      simp [hdata, entry]
  rw [hholds, hnew]
  by_cases hid : r.id = ""
  · simp [hid]
  · simpa [hid] using accessToken_reread_iff (hlive r hr).2

/-- An entry that grants, with its marker. -/
def grantingSet : RightSet :=
  RightSet.empty.put { id := "d:a", access := 0x0F, marker := mIsExclusive }

/-- An entry that also denies. -/
def refusingSet : RightSet := RightSet.empty.put { id := "d:b", access := 0x1F, marker := noMarker }

/-- The index with one record. -/
def oneRecord (rs : RightSet) : AclIndex := fun key =>
  if key = "Pd:o" then some (rightsAsString rs.data.keys rs) else none

theorem updatePass_keeps_iff_grantingSet :
    ∃ data, (updatePass .plain .init "P" 2 0 [.uri "d:o"] [.uri "d:c"] false
      (oneRecord grantingSet)).2 "Pd:o" = some data ∧
        Holds data { id := "d:a", access := 0x0F, marker := mIsExclusive } := by
  have hlive : ∀ r ∈ grantingSet.live, ';' ∉ r.id.toList ∧ PlainMarker r.marker := by
    intro r hr
    cases List.mem_singleton.1 hr
    exact ⟨by decide, .inr (.inl rfl)⟩
  refine (updatePass_keeps_iff (oneRecord grantingSet) (fun key data hdata => ?_) grantingSet _
    (.refl _) hlive "Pd:o" rfl .plain .init "P" 2 0 [.uri "d:o"] [.uri "d:c"] false
    ⟨.uri "d:o", by simp, by decide⟩ (by decide)).2 (fun r hr _ => ?_) _
      (List.mem_singleton.2 rfl) (by decide)
  · unfold oneRecord at hdata
    split at hdata
    · exact ⟨grantingSet, _, .refl _, hlive, .inl (Option.some.inj hdata).symm⟩
    · cases hdata
  · cases List.mem_singleton.1 hr
    exact ⟨by decide, by decide⟩

/-- `d:b;1F;` becomes `d:b;1FF;` when `d:c` is added. -/
theorem not_keeps_refusingSet :
    ∃ r ∈ refusingSet.live, (¬∃ mb ∈ [Resource.uri "d:c"], mb.uriOf = r.id) ∧
      ¬∃ data, (updatePass .plain .init "P" 2 0 [.uri "d:o"] [.uri "d:c"] false
        (oneRecord refusingSet)).2 "Pd:o" = some data ∧ Holds data r := by
  refine ⟨⟨"d:b", 0x1F, noMarker, false⟩, List.mem_singleton.2 rfl, by decide, ?_⟩
  rintro ⟨data, hdata, hholds⟩
  have hnew : (updatePass .plain .init "P" 2 0 [.uri "d:o"] [.uri "d:c"] false
      (oneRecord refusingSet)).2 "Pd:o" = some "d:c;2;d:b;1FF;" := by
    decide
  cases hdata.symm.trans hnew
  exact absurd hholds (by decide)

end Veda.Acl
