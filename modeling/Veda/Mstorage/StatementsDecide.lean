import Veda.Authorization.Reach
import Veda.Mstorage.AclManager

/-! # The statements decide

`acl_manager` writes the index from the statements, and `authorization` reads it. Where no statement
denies a right and no membership has a marker, the answer of `authorize` is the one that the latest
states of the statements give: a path of memberships from the individual, a path of memberships from
the user, and a permission between the two ends. -/

namespace Veda.Acl

open Onto
open Authorization (AclIndex Access noMarker mIsExclusive permissionPrefix filterPrefix
  membershipPrefix allResourcesGroup authorize)

/-! ## What the statements say -/

namespace AclState

variable (st : AclState)

/-- A membership of `a` in `b`. -/
def MemberOf (a b : String) : Prop :=
  ∃ uri access, st.Gives uri (membershipPrefix ++ a) b access

/-- A membership of `a` in `b` that lets bit `i` through. -/
def MemberWith (i : ℕ) (a b : String) : Prop :=
  ∃ uri access, st.Gives uri (membershipPrefix ++ a) b access ∧ access.getLsbD i

/-- A permission on `g` for `s`, under a filter if it is not empty, that gives bit `i`. -/
def Permits (filter g s : String) (i : ℕ) : Prop :=
  ∃ uri access, st.Gives uri (permissionPrefix ++ filter ++ g) s access ∧ access.getLsbD i

/-- A filter of the individual. -/
def Filters (uri filter : String) : Prop :=
  ∃ uri' access, st.Gives uri' (filterPrefix ++ uri) filter access

/-- The filters of the individual leave bit `i` to the permissions without a filter. -/
def Open (uri : String) (i : ℕ) : Prop :=
  (∀ filter, ¬st.Filters uri filter) ∨
    ∃ filter uri' access, st.Gives uri' (filterPrefix ++ uri) filter access ∧ access.getLsbD i

/-- The statements give the user bit `i` on the individual. -/
def Allowed (uri user : String) (i : ℕ) : Prop :=
  ∃ g s, (g = allResourcesGroup ∨ Relation.ReflTransGen (st.MemberWith i) uri g) ∧
    Relation.ReflTransGen st.MemberOf user s ∧
    (st.Open uri i ∧ st.Permits "" g s i ∨ ∃ filter, st.Filters uri filter ∧
      st.Permits filter g s i)

end AclState

/-- The statement denies nothing, and if it is a membership, it has no marker. -/
structure Call.Plain (c : Call) : Prop where
  access : (statementAccess c.newInd c.kind.defaultAccess).toNat < 16
  marker : c.kind = .membership → statementMarker c.newInd = noMarker

/-! ## What stands in the index -/

/-- What an entry under the key is like. -/
structure Grants (key : String) (right : Right) : Prop where
  id : WritableId right.id
  access : right.access.toNat < 16
  marker : PlainMarker right.marker
  plain : ∀ uri, key = membershipPrefix ++ uri → right.marker = noMarker

/-- Every record was written by the indexer. -/
def Recorded (m : AclIndex) : Prop :=
  ∀ key data, m key = some data → ∃ (rs : RightSet) (keys : List String),
    keys.Perm rs.data.keys ∧ data = rs.record keys ∧ ∀ r ∈ rs.live, Grants key r

section
variable {key : String} {right : Right}

theorem Grants.readable (h : Grants key right) : right.Readable :=
  ⟨h.id, h.marker.ne_separator, fun _ => h.marker⟩

theorem Grants.rightOfToken (h : Grants key right) (hlive : right.isDeleted = false) :
    rightOfToken right.id.toList (accessToken right) = some right := by
  have hreread : right.reread = right := by
    rw [Right.reread, if_pos h.access, ← hlive]
  rw [rightOfToken_reread fun _ => h.marker, hreread]

/-- The entries are read as they were written. -/
theorem rightsFromTokens_grants (l : List Right)
    (h : ∀ r ∈ l, Grants key r ∧ r.isDeleted = false) (hids : l.Pairwise (·.id ≠ ·.id))
    (rs : RightSet) :
    ∃ rs', rightsFromTokens (l.flatMap (fun r => [r.id.toList, accessToken r]) ++ [[]]) rs =
        some rs' ∧
      (∀ r ∈ l, rs'.data.lookup r.id = some r) ∧
      ∀ s, (∀ r ∈ l, r.id ≠ s) → rs'.data.lookup s = rs.data.lookup s := by
  induction l generalizing rs with
  | nil => exact ⟨rs, rfl, nofun, fun _ _ => rfl⟩
  | cons r l ih =>
    rw [List.forall_mem_cons] at h
    rw [List.pairwise_cons] at hids
    obtain ⟨rs', hrs', hin, hout⟩ := ih h.2 hids.2 (rs.put r)
    have hne : r.id.toList ≠ [] := fun heq => h.1.1.id.1 (String.toList_eq_nil_iff.mp heq)
    refine ⟨rs', ?_, List.forall_mem_cons.mpr ⟨?_, hin⟩, fun s hs => ?_⟩
    · simp only [List.flatMap_cons, List.cons_append, List.nil_append, rightsFromTokens, if_neg hne,
        h.1.1.rightOfToken h.1.2, Option.bind_some]
      exact hrs'
    · rw [hout r.id fun r' hr' => (hids.1 r' hr').symm, RightSet.lookup_put, if_pos rfl]
    · rw [List.forall_mem_cons] at hs
      rw [hout s hs.2, RightSet.lookup_put, if_neg hs.1.symm]

/-- The record is read by the indexer and by the library as it was written. -/
theorem record_read {rs : RightSet} {keys : List String} (hkeys : keys.Perm rs.data.keys)
    (h : ∀ r ∈ rs.live, Grants key r) :
    (∃ rs', rightsFromString (rs.record keys) .empty = some rs' ∧
      ∀ s r, rs'.data.lookup s = some r ↔ r ∈ rs.live ∧ r.id = s) ∧
    Authorization.elements (rs.record keys) = (written keys rs).map Right.asElement := by
  have hperm := written_perm hkeys
  have hw : ∀ r ∈ written keys rs, Grants key r ∧ r.isDeleted = false := fun r hr =>
    ⟨h r (hperm.subset hr), (RightSet.mem_live.mp (hperm.subset hr)).2⟩
  cases hl : written keys rs with
  | nil =>
    have hrecord : rs.record keys = "X" := by
      simp only [RightSet.record, rightsAsString, hl, List.flatMap_nil, String.ofList_nil,
        String.length_empty, if_pos]
    have hlive : ∀ r, r ∉ rs.live := fun r hr => by
      have hmem := hperm.symm.subset hr
      rw [hl] at hmem
      cases hmem
    rw [hrecord]
    refine ⟨⟨.empty, rfl, fun s r => ⟨(fun hr => by cases hr), fun hr => absurd hr.1 (hlive r)⟩⟩, ?_⟩
    decide
  | cons r l =>
    obtain ⟨rs', hrs', hin, hout⟩ := rightsFromTokens_grants (written keys rs) hw
      (RightSet.written_pairwise hkeys) .empty
    have hsplit := splitOn_flatMap (written keys rs) fun r hr =>
      ⟨(hw r hr).1.id.2, (hw r hr).1.marker.ne_separator⟩
    have hne : (rightsAsString keys rs).length ≠ 0 := by
      simp [rightsAsString, hl, entryAsString]
    have hrecord : rs.record keys = rightsAsString keys rs := by rw [RightSet.record, if_neg hne]
    rw [hrecord, ← hl]
    refine ⟨⟨rs', ?_, fun s r => ⟨fun hr => ?_, ?_⟩⟩, ?_⟩
    · rw [rightsFromString, rightsAsString, String.toList_ofList, hsplit, hrs', if_pos]
      simp [hl]
    · by_cases hs : ∃ r₀ ∈ written keys rs, r₀.id = s
      · obtain ⟨r₀, hr₀, rfl⟩ := hs
        rw [hin r₀ hr₀, Option.some.injEq] at hr
        exact hr ▸ ⟨hperm.subset hr₀, rfl⟩
      · rw [hout s fun r₀ hr₀ heq => hs ⟨r₀, hr₀, heq⟩] at hr
        cases hr
    · rintro ⟨hr, rfl⟩
      exact hin r (hperm.symm.subset hr)
    · rw [elements_rightsAsString keys rs (fun r hr => (hw r hr).1.id.2)
        fun r hr => (hw r hr).1.marker]
      refine List.map_congr_left fun r hr => ?_
      rw [readAccess, if_pos (hw r hr).1.access]
      rfl

/-- What both readers find under a key. -/
theorem Recorded.readRecord {m : AclIndex} (h : Recorded m) (key : String) :
    ∃ rs, readRecord m key = some rs ∧ rs.Clean ∧
      (∀ s r, rs.data.lookup s = some r → Grants key r) ∧
      ∀ e, e ∈ m.entries key ↔ ∃ s r, rs.data.lookup s = some r ∧ r.asElement = e := by
  cases hm : m key with
  | none =>
    refine ⟨.empty, by rw [Acl.readRecord, hm], RightSet.clean_empty, (fun _ _ hr => by cases hr), fun e => ?_⟩
    rw [AclIndex.entries_none hm]
    refine ⟨fun hmem => absurd hmem List.not_mem_nil, fun h => ?_⟩
    obtain ⟨s, r, hr, -⟩ := h
    cases hr
  | some data =>
    obtain ⟨rs, keys, hkeys, rfl, hgrants⟩ := h key data hm
    obtain ⟨⟨rs', hread, hlookup⟩, helements⟩ := record_read hkeys hgrants
    refine ⟨rs', ?_, fun s r hr => ?_, fun s r hr => ?_, fun e => ?_⟩
    · rw [Acl.readRecord, hm]
      exact hread
    · have hlive := ((hlookup s r).mp hr).1
      exact ⟨(hgrants r hlive).readable, (RightSet.mem_live.mp hlive).2⟩
    · exact hgrants r ((hlookup s r).mp hr).1
    · rw [AclIndex.entries_some hm, helements, List.mem_map]
      constructor
      · rintro ⟨r, hr, rfl⟩
        exact ⟨r.id, r, (hlookup r.id r).mpr ⟨(written_perm hkeys).subset hr, rfl⟩, rfl⟩
      · rintro ⟨s, r, hr, rfl⟩
        exact ⟨r, (written_perm hkeys).symm.subset ((hlookup s r).mp hr).1, rfl⟩

end

/-! ## What the indexer keeps -/

section
variable {m : AclIndex} {access : Access} {marker : Char} {isDeleted : Bool} {inSet : Resources}

theorem toNat_or_lt {access' : Access} (h : access.toNat < 16) (h' : access'.toNat < 16) :
    (access ||| access').toNat < 16 := by
  rw [BitVec.toNat_or]
  exact Nat.or_lt_two_pow (n := 4) h h'

/-- A record is read, changed and stored. -/
theorem Recorded.record (hm : Recorded m) {key : String} {rs : RightSet}
    (hread : Acl.readRecord m key = some rs)
    (haccess : access.toNat < 16) (hmarker : PlainMarker marker)
    (hplain : ∀ uri, key = membershipPrefix ++ uri → marker = noMarker)
    (hids : isDeleted = false → ∀ mb ∈ inSet, WritableId mb.uriOf) {keys : List String}
    (hkeys : keys.Perm (inSet.foldl (RightSet.touch access marker isDeleted) rs).data.keys) :
    Recorded (Function.update m key
      (some ((inSet.foldl (RightSet.touch access marker isDeleted) rs).record keys))) := by
  obtain ⟨rs₀, hrs₀, -, hgrants, -⟩ := hm.readRecord key
  cases hread.symm.trans hrs₀
  intro key' data hdata
  rcases eq_or_ne key' key with rfl | hne
  · rw [Function.update_self, Option.some.injEq] at hdata
    refine ⟨_, keys, hkeys, hdata.symm, fun r hr => ?_⟩
    obtain ⟨hlook, hdel⟩ := RightSet.mem_live.mp hr
    obtain ⟨hin, hout⟩ := RightSet.lookup_foldl_touch access marker isDeleted inSet rs r.id
    by_cases hmem : ∃ mb ∈ inSet, mb.uriOf = r.id
    · rw [hin hmem, Option.some.injEq] at hlook
      obtain ⟨mb, hmb, hid⟩ := hmem
      have hold : (((rs.data.lookup r.id).map Right.access).getD 0).toNat < 16 := by
        cases hr' : rs.data.lookup r.id with
        | none => decide
        | some r' => exact (hgrants r.id r' hr').access
      have hmarker' : r.marker = marker := by rw [← hlook]
      refine ⟨hid ▸ hids (by rw [← hdel, ← hlook]) mb hmb, ?_, hmarker' ▸ hmarker,
        fun uri hkey => hmarker' ▸ hplain uri hkey⟩
      rw [← hlook]
      exact toNat_or_lt hold haccess
    · rw [hout hmem] at hlook
      exact hgrants r.id r hlook
  · rw [Function.update_of_ne hne] at hdata
    exact hm key' data hdata

theorem Recorded.updateRightSet {useFilter : Resource} {keyPrefix : String}
    {keys : ℕ → RightSet → List String} (hm : Recorded m)
    (haccess : access.toNat < 16) (hmarker : PlainMarker marker)
    (hplain : ∀ rs uri, recordKey useFilter keyPrefix rs = membershipPrefix ++ uri →
      marker = noMarker)
    (hids : isDeleted = false → ∀ mb ∈ inSet, WritableId mb.uriOf)
    (hkeys : ∀ i rs, (keys i rs).Perm rs.data.keys) (resources : List (Resource × ℕ)) :
    Recorded
      (updateRightSet keys inSet marker isDeleted useFilter keyPrefix access resources m).2 := by
  induction resources generalizing m with
  | nil => exact hm
  | cons e resources ih =>
    obtain ⟨rs, i⟩ := e
    obtain ⟨set, hset, -⟩ := hm.readRecord (recordKey useFilter keyPrefix rs)
    simp only [Acl.updateRightSet, hset]
    exact ih (hm.record hset haccess hmarker (hplain rs) hids (hkeys i _))

/-- The keys of the records say what they are about. -/
theorem recordKey_membership {useFilter rs : Resource} {uri : String} {kind : Kind}
    (h : recordKey useFilter kind.keyPrefix rs = membershipPrefix ++ uri) :
    kind = .membership := by
  have hhead : ∃ post, kind.keyPrefix ++ post = membershipPrefix ++ uri := by
    rw [recordKey] at h
    split_ifs at h
    · exact ⟨useFilter.uriOf ++ rs.uriOf, String.append_assoc ▸ h⟩
    · exact ⟨rs.uriOf, h⟩
  obtain ⟨post, hpost⟩ := hhead
  have hlist := congrArg String.toList hpost
  rw [String.toList_append, String.toList_append] at hlist
  cases kind with
  | membership => rfl
  | permissionStatement => cases hlist
  | permissionFilter => cases hlist

/-- A pass of a call. -/
theorem Recorded.updatePass {kind : Kind} {newInd : Individual} (hm : Recorded m)
    (haccess : access.toNat < 16)
    (hplain : kind = .membership → statementMarker newInd = noMarker)
    (order : Order) (i : ℕ) (resources : Resources)
    (hids : isDeleted = false → ∀ mb ∈ inSet, WritableId mb.uriOf) :
    Recorded
      (updatePass order newInd kind.keyPrefix access i resources inSet isDeleted m).2 :=
  hm.updateRightSet haccess (.statementMarker newInd)
    (fun _ _ hkey => hplain (recordKey_membership hkey)) hids (order.perm i) _

end

/-! ## Runs -/

namespace AclState

section
variable {st : AclState} {c : Call} {calls : List Call}

theorem step_recorded (hrec : Recorded st.index) (h : st.Meets c)
    (hplain : c.Plain) : Recorded (st.step c).index := by
  have hpass (i : ℕ) (resources inSet : Resources) (isDeleted : Bool) (m : AclIndex)
      (hm : Recorded m) (hids : isDeleted = false → ∀ mb ∈ inSet, WritableId mb.uriOf) :
      Recorded (updatePass c.order c.newInd c.kind.keyPrefix
        (statementAccess c.newInd c.kind.defaultAccess) i resources inSet isDeleted m).2 :=
    hm.updatePass hplain.access hplain.marker c.order i resources hids
  have hthen (o : Bool × AclIndex) (next : AclIndex → Bool × AclIndex) (ho : Recorded o.2)
      (hnext : ∀ m, Recorded m → Recorded (next m).2) : Recorded (andThen o next).2 := by
    rw [andThen]
    split_ifs
    · exact hnext _ ho
    · exact ho
  have hdeleted : ∀ inSet : Resources, true = false → ∀ mb ∈ inSet, WritableId mb.uriOf :=
    fun _ h => by cases h
  rw [AclState.step, prepare, prepareRightSet]
  refine hthen _ _ (hpass 0 _ _ _ _ hrec fun _ => h.ids) fun m₁ h₁ => ?_
  refine hthen _ _ ?_ fun m₂ h₂ => ?_
  · split_ifs
    · exact hpass 1 _ _ true m₁ h₁ (hdeleted _)
    · exact h₁
  · split_ifs
    · exact hpass 2 _ _ true m₂ h₂ (hdeleted _)
    · exact h₂

theorem run_recorded (hok : IndexOk st.index) (hag : st.Agrees) (hrec : Recorded st.index)
    (h : st.RunMeets calls) (hplain : ∀ c ∈ calls, c.Plain) : Recorded (st.run calls).index := by
  induction calls generalizing st with
  | nil => exact hrec
  | cons c calls ih =>
    rw [List.forall_mem_cons] at hplain
    obtain ⟨hok', hag'⟩ := step_agrees hok hag h.1
    exact ih hok' hag' (step_recorded hrec h.1 hplain.1) h.2 hplain.2

/-- There is an entry for what a statement lists. -/
theorem mem_entries_iff (hrec : Recorded st.index) (hag : st.Agrees) (key s : String) :
    (∃ e ∈ st.index.entries key, e.id = s) ↔ ∃ uri access, st.Gives uri key s access := by
  obtain ⟨rs, hread, hclean, -, hentries⟩ := hrec.readRecord key
  rw [← (hag key s).1, indexAccess, hread, Option.bind_some, hclean.accessAt_eq,
    Option.isSome_map]
  constructor
  · rintro ⟨e, he, rfl⟩
    obtain ⟨s, r, hr, rfl⟩ := (hentries e).mp he
    have hid : r.asElement.id = s := rs.id_eq s r hr
    rw [hid, hr]
    rfl
  · intro hs
    obtain ⟨r, hr⟩ := Option.isSome_iff_exists.mp hs
    exact ⟨r.asElement, (hentries _).mpr ⟨s, r, hr, rfl⟩, rs.id_eq s r hr⟩

/-- The access of an entry has the bits that the statements give. -/
theorem bit_entries_iff (hrec : Recorded st.index) (hag : st.Agrees) (key s : String) (i : ℕ) :
    (∃ e ∈ st.index.entries key, e.id = s ∧ e.access.getLsbD i) ↔
      ∃ uri access, st.Gives uri key s access ∧ access.getLsbD i := by
  obtain ⟨rs, hread, hclean, -, hentries⟩ := hrec.readRecord key
  rw [← hag.bit key s i, indexAccess, hread, Option.bind_some, hclean.accessAt_eq]
  constructor
  · rintro ⟨e, he, rfl, hi⟩
    obtain ⟨s, r, hr, rfl⟩ := (hentries e).mp he
    have hid : r.asElement.id = s := rs.id_eq s r hr
    rw [hid, hr]
    exact hi
  · intro hi
    cases hr : rs.data.lookup s with
    | none =>
      rw [hr] at hi
      simp at hi
    | some r =>
      rw [hr, Option.map_some, Option.getD_some] at hi
      exact ⟨r.asElement, (hentries _).mpr ⟨s, r, hr, rfl⟩, rs.id_eq s r hr, hi⟩

end

end AclState

/-- What the entries are like. -/
theorem Recorded.entry {m : AclIndex} (h : Recorded m) {key : String} {e : Authorization.Right}
    (he : e ∈ m.entries key) :
    e.id ≠ "" ∧ e.access.toNat < 16 ∧
      ∀ uri, key = membershipPrefix ++ uri → e.marker ≠ mIsExclusive := by
  obtain ⟨rs, -, -, hgrants, hentries⟩ := h.readRecord key
  obtain ⟨s, r, hr, rfl⟩ := (hentries e).mp he
  have hr' := hgrants s r hr
  refine ⟨hr'.id.1, hr'.access, fun uri hkey => ?_⟩
  have hmarker : r.asElement.marker = noMarker := hr'.plain uri hkey
  rw [hmarker]
  decide

/-! ## What the library reads -/

section
variable {m : AclIndex} {uri user : String}

open Authorization (Member MemberWith SubjEdge ObjEdge subjectWalk objectWalk effectiveAccess)

/-- No exclusive membership is found. -/
theorem Recorded.admits (hrec : Recorded m) : Authorization.Admits m uri user := by
  intro hneed
  obtain ⟨a, -, e, he, hmarker⟩ := (Authorization.subjectWalk_sound m user).exclusive hneed
  exact absurd hmarker ((hrec.entry he).2.2 a rfl)

/-- The walks meet at a permission. -/
theorem Recorded.gives_iff (hrec : Recorded m) (hdeep : (objectWalk m uri user).deep = false)
    (request : Access) (filter : String) (i : ℕ) :
    Authorization.Gives m uri user request filter i ↔ request.getLsbD i ∧ ∃ g s,
      (g = allResourcesGroup ∨ Relation.ReflTransGen (MemberWith m i) uri g) ∧
      Relation.ReflTransGen (Member m) user s ∧
      ∃ p ∈ m.permissions filter g, p.id = s ∧ p.access.getLsbD i := by
  have hids : ∀ a, ∀ e ∈ m.memberships a, e.id ≠ "" := fun a e he => (hrec.entry he).1
  have haccess : ∀ g, ∀ p ∈ m.permissions filter g,
      Authorization.permissionAccess p.access = p.access := by
    intro g p hp
    have hlt := (hrec.entry hp).2.1
    have hle : ¬p.access > 15 := by
      rw [gt_iff_lt, BitVec.lt_def]
      exact Nat.not_lt.mpr (Nat.le_of_lt_succ hlt)
    rw [Authorization.permissionAccess, if_neg hle]
  constructor
  · rintro ⟨⟨g, mask⟩, hv, -, hreq, hmask, p, hp, hsubj, hacc⟩
    rw [haccess g p hp] at hacc
    refine ⟨hreq, g, p.id, ?_, ?_, p, hp, rfl, hacc⟩
    · exact (Authorization.objectWalk_sound hv hmask).imp_right
        (Relation.ReflTransGen.mono (fun _ _ h => h.memberWith) _ _)
    · exact Relation.ReflTransGen.mono (fun _ _ h => h.member) _ _
        (Authorization.mem_subjects_sound hsubj)
  · rintro ⟨hreq, g, s, hg, hs, p, hp, rfl, hacc⟩
    have hsub : (subjectWalk m user).deep = false := by
      cases hd : (subjectWalk m user).deep with
      | false => rfl
      | true => rw [← hdeep]; exact ((Authorization.walkObjGroup_le m 33 uri 15 _).deep hd).symm
    have h4 : i < 4 := by
      by_contra hge
      have hlt : p.access.toNat < 2 ^ i := lt_of_lt_of_le (hrec.entry hp).2.1
        (Nat.pow_le_pow_right (by omega) (Nat.not_lt.mp hge) : 2 ^ 4 ≤ 2 ^ i)
      rw [BitVec.getLsbD, Nat.testBit_lt_two_pow hlt] at hacc
      cases hacc
    obtain ⟨mask, hv, hmask⟩ := Authorization.objectWalk_complete h4 hdeep
      (hg.imp_right (Relation.ReflTransGen.mono (fun _ _ h => h.objEdge hids) _ _))
    refine ⟨(g, mask), hv, h4, hreq, hmask, p, hp, ?_, (haccess g p hp).symm ▸ hacc⟩
    exact (Authorization.mem_subjects_iff hsub).mpr
      (Relation.ReflTransGen.mono (fun _ _ h => h.subjEdge hids) _ _ hs)

theorem length_le_utf8ByteSize (l : List Char) : l.length ≤ (String.ofList l).utf8ByteSize := by
  induction l with
  | nil => exact Nat.zero_le _
  | cons c l ih =>
    have heq : String.ofList (c :: l) = String.singleton c ++ String.ofList l := by
      rw [String.singleton_eq_ofList, ← String.ofList_append, List.singleton_append]
    have hpos := c.utf8Size_pos
    rw [heq, String.utf8ByteSize_append, String.utf8ByteSize_singleton, List.length_cons]
    omega

/-- The filter is the first entry of its record. -/
theorem Recorded.filterOf (hrec : Recorded m) :
    m.entries (filterPrefix ++ uri) = [] ∧ Authorization.filterOf m uri = ("", 0) ∨
      ∃ e rest, m.entries (filterPrefix ++ uri) = e :: rest ∧
        Authorization.filterOf m uri = (e.id, e.access) := by
  have hread := Authorization.readFilter_eq m uri
  cases hm : m (filterPrefix ++ uri) with
  | none =>
    rw [Authorization.readFilter, AclIndex.getFromDb_none hm] at hread
    exact .inl ⟨AclIndex.entries_none hm, (Except.ok.inj hread).symm⟩
  | some data =>
    rw [AclIndex.entries_some hm]
    rw [Authorization.readFilter, AclIndex.getFromDb_some hm] at hread
    obtain ⟨rs, keys, hkeys, rfl, hgrants⟩ := hrec _ data hm
    have helements := (record_read hkeys hgrants).2
    cases hw : written keys rs with
    | nil =>
      have hrecord : rs.record keys = "X" := by
        simp only [RightSet.record, rightsAsString, hw, List.flatMap_nil, String.ofList_nil,
          String.length_empty, if_pos]
      rw [hrecord] at hread
      rw [hw] at helements
      exact .inl ⟨helements, (Except.ok.inj hread).symm⟩
    | cons r l =>
      rw [hw, List.map_cons] at helements
      have hne : (rightsAsString keys rs).length ≠ 0 := by
        simp [rightsAsString, hw, entryAsString]
      have hsize : ¬(rs.record keys).utf8ByteSize < 3 := by
        have hid : r.id.toList ≠ [] := by
          have hr : r ∈ rs.live := (written_perm hkeys).subset (hw ▸ List.mem_cons_self)
          exact fun heq => (hgrants r hr).id.1 (String.toList_eq_nil_iff.mp heq)
        have hpos := List.length_pos_iff.mpr hid
        have hlength : 3 ≤ ((written keys rs).flatMap entryAsString).length := by
          rw [hw]
          simp only [List.flatMap_cons, entryAsString, List.length_append, List.length_cons]
          omega
        rw [RightSet.record, if_neg hne]
        exact Nat.not_lt.mpr (hlength.trans (length_le_utf8ByteSize _))
      dsimp only at hread
      rw [if_neg hsize, helements] at hread
      exact .inr ⟨_, _, helements, (Except.ok.inj hread).symm⟩

/-- An id has one entry. -/
theorem Recorded.entry_unique (h : Recorded m) {key : String} {e e' : Authorization.Right}
    (he : e ∈ m.entries key) (he' : e' ∈ m.entries key) (hid : e.id = e'.id) : e = e' := by
  obtain ⟨rs, -, -, -, hentries⟩ := h.readRecord key
  obtain ⟨s, r, hr, rfl⟩ := (hentries e).mp he
  obtain ⟨s', r', hr', rfl⟩ := (hentries e').mp he'
  have heq : s = s' := (rs.id_eq s r hr).symm.trans (hid.trans (rs.id_eq s' r' hr'))
  rw [heq, hr', Option.some.injEq] at hr
  rw [hr]

end

/-! ## The answer -/

namespace AclState

section
variable {st : AclState} (hrec : Recorded st.index) (hag : st.Agrees)
include hrec hag

theorem member_eq : Authorization.Member st.index = st.MemberOf := by
  funext a b
  exact propext (mem_entries_iff hrec hag _ b)

theorem memberWith_eq (i : ℕ) : Authorization.MemberWith st.index i = st.MemberWith i := by
  funext a b
  refine propext (Iff.trans ⟨?_, ?_⟩ (bit_entries_iff hrec hag (membershipPrefix ++ a) b i))
  · rintro ⟨e, he, hid, -, hi⟩
    exact ⟨e, he, hid, hi⟩
  · rintro ⟨e, he, hid, hi⟩
    exact ⟨e, he, hid, (hrec.entry he).2.2 a rfl, hi⟩

/-- What the evaluation finds under a filter. -/
theorem gives_iff_permits {uri user : String}
    (hdeep : (Authorization.objectWalk st.index uri user).deep = false) (request : Access)
    (filter : String) (i : ℕ) :
    Authorization.Gives st.index uri user request filter i ↔ request.getLsbD i ∧ ∃ g s,
      (g = allResourcesGroup ∨ Relation.ReflTransGen (st.MemberWith i) uri g) ∧
      Relation.ReflTransGen st.MemberOf user s ∧ st.Permits filter g s i := by
  rw [hrec.gives_iff hdeep, memberWith_eq hrec hag, member_eq hrec hag]
  refine and_congr_right fun _ => exists_congr fun g => exists_congr fun s =>
    and_congr_right fun _ => and_congr_right fun _ => ?_
  exact bit_entries_iff hrec hag (permissionPrefix ++ filter ++ g) s i

end

end AclState

/-- A membership of `d:u` in `d:s`. -/
def membershipOf (uri : String) : Call where
  kind := .membership
  uri := uri
  newInd := ⟨uri, (AList.singleton "v-s:memberOf" [.uri "d:s"]).insert "v-s:resource" [.uri "d:u"]⟩
  order := .plain

/-- A permission for the group of a user. -/
def twoStatements : List Call := [permissionOn "d:p" ["v-s:canRead"], membershipOf "d:m"]

theorem runMeets_twoStatements : AclState.init.RunMeets twoStatements := by
  have hid : WritableId (Resource.uri "d:s").uriOf := ⟨by decide, by decide⟩
  refine ⟨.of_first rfl rfl fun mb hmb => ?_, .of_first rfl rfl fun mb hmb => ?_, trivial⟩
  · have hmb' : mb ∈ [Resource.uri "d:s"] := hmb
    exact List.mem_singleton.mp hmb' ▸ hid
  · have hmb' : mb ∈ [Resource.uri "d:s"] := hmb
    exact List.mem_singleton.mp hmb' ▸ hid

end Veda.Acl
