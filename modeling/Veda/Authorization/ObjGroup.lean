import Veda.Authorization.Authorize

/-! # What `authorize_obj_group` adds to the result

`authorizeObjGroup_spec` is the one lemma about `authorize_obj_group` that the later modules
use. It holds with and without tracing: the call changes nothing but the result and the
`checked_groups` shortcut, it adds only bits the group's permissions grant, and it leaves none
of them out. Rights are compared bit by bit. -/

namespace Veda.Authorization

/-! ## The part of the state that the evaluation of a group leaves alone -/

/-- The fields that `authorize_obj_group` only reads, with the trace reduced to its flags. -/
structure Frame where
  isNeedExclusiveAz : Bool
  isFoundExclusiveAz : Bool
  walkedGroupsS : StrMap (Access × Char)
  walkedGroupsO : StrMap Access
  subjectGroups : StrMap Right
  isAcl : Bool
  isGroup : Bool
  isInfo : Bool
  deep : Bool

namespace AzContext

def frame (azc : AzContext) : Frame where
  isNeedExclusiveAz := azc.isNeedExclusiveAz
  isFoundExclusiveAz := azc.isFoundExclusiveAz
  walkedGroupsS := azc.walkedGroupsS
  walkedGroupsO := azc.walkedGroupsO
  subjectGroups := azc.subjectGroups
  isAcl := azc.trace.isAcl
  isGroup := azc.trace.isGroup
  isInfo := azc.trace.isInfo
  deep := azc.deep

variable {s s' : AzContext}

theorem need_of_frame (h : s'.frame = s.frame) : s'.isNeedExclusiveAz = s.isNeedExclusiveAz :=
  congrArg Frame.isNeedExclusiveAz h

theorem found_of_frame (h : s'.frame = s.frame) : s'.isFoundExclusiveAz = s.isFoundExclusiveAz :=
  congrArg Frame.isFoundExclusiveAz h

theorem walkedO_of_frame (h : s'.frame = s.frame) : s'.walkedGroupsO = s.walkedGroupsO :=
  congrArg Frame.walkedGroupsO h

theorem subject_of_frame (h : s'.frame = s.frame) : s'.subjectGroups = s.subjectGroups :=
  congrArg Frame.subjectGroups h

theorem deep_of_frame (h : s'.frame = s.frame) : s'.deep = s.deep := congrArg Frame.deep h

theorem off_of_frame (h : s'.frame = s.frame) : s'.trace.off = s.trace.off := by
  have ha := congrArg Frame.isAcl h
  have hg := congrArg Frame.isGroup h
  have hi := congrArg Frame.isInfo h
  simp only [frame] at ha hg hi
  simp [Trace.off, ha, hg, hi]

end AzContext

section Trace
variable (text : String) (azc : AzContext)

@[simp] theorem printToTraceAcl_frame : (printToTraceAcl text azc).frame = azc.frame := rfl
@[simp] theorem printToTraceGroup_frame : (printToTraceGroup text azc).frame = azc.frame := rfl
@[simp] theorem printToTraceInfo_frame : (printToTraceInfo text azc).frame = azc.frame := rfl

@[simp] theorem printToTraceAcl_calc :
    (printToTraceAcl text azc).calcRightRes = azc.calcRightRes := rfl
@[simp] theorem printToTraceGroup_calc :
    (printToTraceGroup text azc).calcRightRes = azc.calcRightRes := rfl
@[simp] theorem printToTraceInfo_calc :
    (printToTraceInfo text azc).calcRightRes = azc.calcRightRes := rfl

@[simp] theorem printToTraceAcl_checked :
    (printToTraceAcl text azc).checkedGroups = azc.checkedGroups := rfl
@[simp] theorem printToTraceGroup_checked :
    (printToTraceGroup text azc).checkedGroups = azc.checkedGroups := rfl
@[simp] theorem printToTraceInfo_checked :
    (printToTraceInfo text azc).checkedGroups = azc.checkedGroups := rfl

end Trace

@[simp] theorem traceFoundPermission_frame :
    (traceFoundPermission r c p o sub f azc).frame = azc.frame := rfl

@[simp] theorem traceFoundPermission_calc :
    (traceFoundPermission r c p o sub f azc).calcRightRes = azc.calcRightRes := rfl

@[simp] theorem traceFoundPermission_checked :
    (traceFoundPermission r c p o sub f azc).checkedGroups = azc.checkedGroups := rfl

/-! ## Masks bit by bit -/

theorem and_eq_right_iff {x y : BitVec n} : x &&& y = y ↔ ∀ i, y.getLsbD i → x.getLsbD i := by
  constructor
  · intro h i hi
    rw [← h, BitVec.getLsbD_and] at hi
    exact (Bool.and_eq_true _ _ ▸ hi).1
  · intro h
    apply BitVec.eq_of_getLsbD_eq
    intro i _
    rw [BitVec.getLsbD_and]
    cases hy : y.getLsbD i with
    | false => simp
    | true => simp [h i hy]

theorem and_eq_zero_iff {x y : BitVec n} : x &&& y = 0 ↔ ∀ i, x.getLsbD i → ¬y.getLsbD i := by
  constructor
  · intro h i hx hy
    have := congrArg (BitVec.getLsbD · i) h
    simp [hx, hy] at this
  · intro h
    apply BitVec.eq_of_getLsbD_eq
    intro i _
    rw [BitVec.getLsbD_and]
    cases hx : x.getLsbD i with
    | false => simp
    | true => simpa using h i hx

/-- The bits of the request are all granted. -/
def Covered (request : Access) (azc : AzContext) : Prop :=
  azc.calcRightRes &&& request = request

theorem covered_iff : Covered request azc ↔
    ∀ i, request.getLsbD i → azc.calcRightRes.getLsbD i := and_eq_right_iff

/-- `left_to_check & object_group_access == 0`. -/
theorem leftToCheck_eq_zero {res request mask : Access} :
    ((res ^^^ request) &&& request) &&& mask = 0 ↔
      ∀ i, request.getLsbD i → mask.getLsbD i → res.getLsbD i := by
  rw [and_eq_zero_iff]
  refine forall_congr' fun i => ?_
  simp only [BitVec.getLsbD_and, BitVec.getLsbD_xor]
  cases res.getLsbD i <;> cases request.getLsbD i <;> simp

theorem accessList_eq : accessList = (List.range 4).map (BitVec.twoPow 8) := by decide

theorem getLsbD_fifteen (hi : i < 4) : (15 : Access).getLsbD i = true := by
  revert i
  decide

theorem and_twoPow_ne_zero {x : Access} (hk : k < 8) :
    x &&& BitVec.twoPow 8 k ≠ 0 ↔ x.getLsbD k := by
  rw [BitVec.and_twoPow]
  cases h : x.getLsbD k with
  | false => simp
  | true =>
    have : BitVec.twoPow 8 k ≠ 0 := fun h0 => by
      have := congrArg (BitVec.getLsbD · k) h0
      simp [hk] at this
    simpa using this

/-! ## The loops -/

/-- The bits a call may add: requested, let through by the group's mask and granted. -/
def Allowed (request mask : Access) (grants : Nat → Prop) (i : Nat) : Prop :=
  i < 4 ∧ request.getLsbD i ∧ mask.getLsbD i ∧ grants i

/-- From `s` to `s'` only the result and the traces changed, and the result grew by bits of
`allowed`. -/
structure Grows (allowed : Nat → Prop) (s s' : AzContext) : Prop where
  frame : s'.frame = s.frame
  checked : s'.checkedGroups = s.checkedGroups
  mono : ∀ i, s.calcRightRes.getLsbD i → s'.calcRightRes.getLsbD i
  sound : ∀ i, s'.calcRightRes.getLsbD i → s.calcRightRes.getLsbD i ∨ allowed i

namespace Grows

theorem refl (s : AzContext) : Grows A s s :=
  ⟨rfl, rfl, fun _ h => h, fun _ h => .inl h⟩

theorem trans (h₁ : Grows A s s') (h₂ : Grows A s' s'') : Grows A s s'' where
  frame := h₂.frame.trans h₁.frame
  checked := h₂.checked.trans h₁.checked
  mono i h := h₂.mono i (h₁.mono i h)
  sound i h := (h₂.sound i h).elim (h₁.sound i) .inr

theorem weaken (h : Grows A s s') (hA : ∀ i, A i → B i) : Grows B s s' :=
  { h with sound := fun i hi => (h.sound i hi).imp_right (hA i) }

end Grows

/-- What a loop of `authorize_obj_group` may return: success, without tracing, when the whole
request is covered. -/
def Granted (request : Access) (allowed : Nat → Prop) (s : AzContext) (r : Except Int Bool)
    (s' : AzContext) : Prop :=
  r = .ok true ∧ s.trace.off = true ∧ Covered request s' ∧ Grows allowed s s'

theorem Granted.of_grows (h₁ : Grows A s s') (h₂ : Granted q A s' r s'') : Granted q A s r s'' :=
  ⟨h₂.1, AzContext.off_of_frame h₁.frame ▸ h₂.2.1, h₂.2.2.1, h₁.trans h₂.2.2.2⟩

theorem accessStep_spec (request mask perm : Access) (o sub f : String) (s : AzContext)
    (hk : k < 4) :
    (accessStep request mask perm o sub f (BitVec.twoPow 8 k) s).Sat
      (fun s' => Grows (Allowed request mask (perm.getLsbD ·)) s s' ∧
        (Allowed request mask (perm.getLsbD ·) k → s'.calcRightRes.getLsbD k))
      (Granted request (Allowed request mask (perm.getLsbD ·)) s) := by
  have hk8 : k < 8 := by omega
  have hreq : request &&& BitVec.twoPow 8 k &&& mask ≠ 0 ↔
      request.getLsbD k ∧ mask.getLsbD k := by
    rw [show request &&& BitVec.twoPow 8 k &&& mask = (request &&& mask) &&& BitVec.twoPow 8 k by
      rw [BitVec.and_assoc, BitVec.and_comm (BitVec.twoPow 8 k), ← BitVec.and_assoc],
      and_twoPow_ne_zero hk8]
    simp
  have hperm : BitVec.twoPow 8 k &&& perm > 0 ↔ perm.getLsbD k := by
    rw [BitVec.and_comm, ← and_twoPow_ne_zero hk8]
    exact BitVec.pos_iff_ne_zero _
  unfold accessStep
  by_cases h1 : request.getLsbD k ∧ mask.getLsbD k
  · by_cases h2 : perm.getLsbD k
    · have hbits : BitVec.twoPow 8 k &&& perm = BitVec.twoPow 8 k := by
        rw [BitVec.and_comm, BitVec.and_twoPow, if_pos h2]
      have hgrow : Grows (Allowed request mask (perm.getLsbD ·)) s
          { s with calcRightRes := s.calcRightRes ||| BitVec.twoPow 8 k } := by
        refine ⟨rfl, rfl, fun i hi => by simp [hi], fun i hi => ?_⟩
        simp only [BitVec.getLsbD_or, BitVec.getLsbD_twoPow, Bool.or_eq_true, Bool.and_eq_true,
          decide_eq_true_eq] at hi
        rcases hi with hi | ⟨-, rfl⟩
        · exact .inl hi
        · exact .inr ⟨hk, h1.1, h1.2, h2⟩
      have hset : (s.calcRightRes ||| BitVec.twoPow 8 k).getLsbD k := by simp [hk8]
      rw [if_pos (hreq.mpr h1), if_pos (hperm.mpr h2), hbits]
      dsimp only
      split
      · next hdone => exact ⟨rfl, hdone.2, hdone.1, hgrow⟩
      · refine ⟨?_, fun _ => ?_⟩
        · refine hgrow.trans ?_
          split <;> split <;> exact ⟨rfl, rfl, fun _ h => h, fun _ h => .inl h⟩
        · split <;> split <;> exact hset
    · rw [if_pos (hreq.mpr h1), if_neg (mt hperm.mp h2)]
      exact ⟨.refl s, fun h => absurd h.2.2.2 h2⟩
  · rw [if_neg (mt hreq.mp h1)]
    exact ⟨.refl s, fun h => absurd ⟨h.2.1, h.2.2.1⟩ h1⟩

/-- The loop over `ACCESS_LIST`, by induction on the bits still to be tried. -/
theorem accessLoop_spec {request mask perm : Access} (ks : List Nat) (hks : ∀ k ∈ ks, k < 4)
    (s : AzContext) :
    (Step.loop (accessStep request mask perm o sub f) (ks.map (BitVec.twoPow 8)) s).Sat
      (fun s' => Grows (Allowed request mask (perm.getLsbD ·)) s s' ∧
        ∀ i ∈ ks, Allowed request mask (perm.getLsbD ·) i → s'.calcRightRes.getLsbD i)
      (Granted request (Allowed request mask (perm.getLsbD ·)) s) := by
  induction ks generalizing s with
  | nil => exact ⟨.refl s, by simp⟩
  | cons k ks ih =>
    have hk := accessStep_spec request mask perm o sub f s (hks k List.mem_cons_self)
    rw [List.map_cons]
    cases hf : accessStep request mask perm o sub f (BitVec.twoPow 8 k) s with
    | done r s' =>
      rw [Step.loop_cons_done hf]
      rw [hf] at hk
      exact hk
    | next s' =>
      rw [Step.loop_cons_next hf]
      rw [hf] at hk
      obtain ⟨hgrow, hset⟩ := hk
      refine (ih (fun i hi => hks i (List.mem_cons_of_mem _ hi)) s').mono ?_ ?_
      · rintro s'' ⟨hgrow', hall⟩
        refine ⟨hgrow.trans hgrow', fun i hi ha => ?_⟩
        rcases List.mem_cons.mp hi with rfl | hi
        · exact hgrow'.mono _ (hset ha)
        · exact hall i hi ha
      · exact fun r s'' h => .of_grows hgrow h

/-- A permission of the list grants bit `i` to one of the subject groups. -/
def Grants (subject : StrMap Right) (permissions : List Right) (i : Nat) : Prop :=
  ∃ p ∈ permissions, p.id ∈ subject ∧ (permissionAccess p.access).getLsbD i

theorem permissionStep_spec (request mask : Access) (o f : String) (p : Right) (s : AzContext) :
    (permissionStep request mask o f p s).Sat
      (fun s' => Grows (Allowed request mask (Grants s.subjectGroups [p])) s s' ∧
        ∀ i, Allowed request mask (Grants s.subjectGroups [p]) i → s'.calcRightRes.getLsbD i)
      (Granted request (Allowed request mask (Grants s.subjectGroups [p])) s) := by
  unfold permissionStep
  split
  · next hp =>
    have hiff : ∀ i, Allowed request mask ((permissionAccess p.access).getLsbD ·) i ↔
        Allowed request mask (Grants s.subjectGroups [p]) i := by
      intro i
      simp [Allowed, Grants, hp]
    rw [accessList_eq]
    refine (accessLoop_spec (List.range 4) (by simp) s).mono ?_ ?_
    · rintro s' ⟨hgrow, hall⟩
      exact ⟨hgrow.weaken fun i => (hiff i).mp,
        fun i hi => hall i (List.mem_range.mpr hi.1) ((hiff i).mpr hi)⟩
    · rintro r s' ⟨hr, hoff, hcov, hgrow⟩
      exact ⟨hr, hoff, hcov, hgrow.weaken fun i => (hiff i).mp⟩
  · next hp =>
    refine ⟨.refl s, fun i hi => ?_⟩
    obtain ⟨-, -, -, q, hq, hmem, -⟩ := hi
    cases List.mem_singleton.mp hq
    exact absurd hmem hp

theorem permissionLoop_spec (request mask : Access) (o f : String) (ps : List Right)
    (s : AzContext) :
    (Step.loop (permissionStep request mask o f) ps s).Sat
      (fun s' => Grows (Allowed request mask (Grants s.subjectGroups ps)) s s' ∧
        ∀ i, Allowed request mask (Grants s.subjectGroups ps) i → s'.calcRightRes.getLsbD i)
      (Granted request (Allowed request mask (Grants s.subjectGroups ps)) s) := by
  induction ps generalizing s with
  | nil => exact ⟨.refl s, fun i hi => by obtain ⟨-, -, -, p, hp, -⟩ := hi; simp at hp⟩
  | cons p ps ih =>
    have hhead : ∀ i, Allowed request mask (Grants s.subjectGroups [p]) i →
        Allowed request mask (Grants s.subjectGroups (p :: ps)) i := by
      rintro i ⟨h4, hr, hm, q, hq, hmem, hbit⟩
      cases List.mem_singleton.mp hq
      exact ⟨h4, hr, hm, p, List.mem_cons_self, hmem, hbit⟩
    have htail : ∀ i, Allowed request mask (Grants s.subjectGroups ps) i →
        Allowed request mask (Grants s.subjectGroups (p :: ps)) i := by
      rintro i ⟨h4, hr, hm, q, hq, hmem, hbit⟩
      exact ⟨h4, hr, hm, q, List.mem_cons_of_mem _ hq, hmem, hbit⟩
    have hp := permissionStep_spec request mask o f p s
    cases hf : permissionStep request mask o f p s with
    | done r s' =>
      rw [Step.loop_cons_done hf]
      rw [hf] at hp
      obtain ⟨hr, hoff, hcov, hgrow⟩ := hp
      exact ⟨hr, hoff, hcov, hgrow.weaken hhead⟩
    | next s' =>
      rw [Step.loop_cons_next hf]
      rw [hf] at hp
      obtain ⟨hgrow, hset⟩ := hp
      have ih := ih s'
      rw [AzContext.subject_of_frame hgrow.frame] at ih
      refine ih.mono ?_ ?_
      · rintro s'' ⟨hgrow', hall⟩
        refine ⟨(hgrow.weaken hhead).trans (hgrow'.weaken htail), ?_⟩
        rintro i ⟨h4, hr, hm, q, hq, hmem, hbit⟩
        rcases List.mem_cons.mp hq with rfl | hq
        · exact hgrow'.mono i (hset i ⟨h4, hr, hm, q, List.mem_singleton_self q, hmem, hbit⟩)
        · exact hall i ⟨h4, hr, hm, q, hq, hmem, hbit⟩
      · rintro r s'' ⟨hr, hoff, hcov, hgrow'⟩
        exact .of_grows (hgrow.weaken hhead) ⟨hr, hoff, hcov, hgrow'.weaken htail⟩

/-! ## The call -/

section
variable (m : AclIndex) (request : Access) (filter : String)

/-- The bits that a visit of `group` with the access mask `mask` adds. -/
def VisitAllows (subject : StrMap Right) (group : String) (mask : Access) : Nat → Prop :=
  Allowed request mask (Grants subject (m.permissions filter group))

/-- Groups that `checked_groups` lets the evaluation skip have nothing left to give. -/
def CheckedInv (s : AzContext) : Prop :=
  ∀ g mask, s.checkedGroups.lookup g = some mask →
    ∀ i, VisitAllows m request filter s.subjectGroups g mask i → s.calcRightRes.getLsbD i

variable {m request filter}

/-- What reading the permissions of a group does. -/
structure Looks (m : AclIndex) (request : Access) (filter : String) (g : String) (mask : Access)
    (s : AzContext) (o : Outcome) : Prop where
  result : ∃ b, o.1 = .ok b ∧ (b = true → s.trace.off = true ∧ Covered request o.2)
  grows : Grows (VisitAllows m request filter s.subjectGroups g mask) s o.2
  complete : ∀ i, VisitAllows m request filter s.subjectGroups g mask i →
    o.2.calcRightRes.getLsbD i

theorem finishObjGroup_spec (request : Access) (s : AzContext) :
    (finishObjGroup request s).2 = s ∧ ∃ b, (finishObjGroup request s).1 = .ok b ∧
      (b = true → s.trace.off = true ∧ Covered request s) := by
  unfold finishObjGroup
  split
  · next h => exact ⟨rfl, true, rfl, fun _ => ⟨h.2, h.1⟩⟩
  · exact ⟨rfl, false, rfl, by simp⟩

theorem Looks.of_finish
    (hgrow : Grows (VisitAllows m request filter s.subjectGroups g mask) s s')
    (hall : ∀ i, VisitAllows m request filter s.subjectGroups g mask i →
      s'.calcRightRes.getLsbD i) :
    Looks m request filter g mask s (finishObjGroup request s') := by
  obtain ⟨hs, b, hb, hcov⟩ := finishObjGroup_spec request s'
  refine ⟨⟨b, hb, fun h => ?_⟩, hs.symm ▸ hgrow, hs.symm ▸ hall⟩
  exact ⟨AzContext.off_of_frame hgrow.frame ▸ (hcov h).1, hs.symm ▸ (hcov h).2⟩

theorem lookPermissions_spec (m : AclIndex) (request : Access) (g : String) (mask : Access)
    (filter : String) (s : AzContext) :
    Looks m request filter g mask s (lookPermissions request g mask filter m.db s) := by
  have hkey : (if filter.isEmpty then permissionPrefix ++ g
      else permissionPrefix ++ filter ++ g) = permissionPrefix ++ filter ++ g := by
    split
    · next h => rw [String.isEmpty_iff.mp h, String.append_empty]
    · rfl
  unfold lookPermissions
  rw [hkey]
  dsimp only
  cases hrec : m (permissionPrefix ++ filter ++ g) with
  | none =>
    rw [AclIndex.getFromDb_none hrec]
    refine .of_finish (.refl s) fun i hi => ?_
    obtain ⟨-, -, -, p, hp, -⟩ := hi
    simp [AclIndex.permissions, AclIndex.entries_none hrec] at hp
  | some str =>
    rw [AclIndex.getFromDb_some hrec]
    have hperm : m.permissions filter g = elements str := AclIndex.entries_some hrec
    have hloop := permissionLoop_spec request mask g filter (elements str) s
    dsimp only
    rw [← hperm] at hloop ⊢
    cases hl : Step.loop (permissionStep request mask g filter) (m.permissions filter g) s with
    | done r s' =>
      rw [hl] at hloop
      obtain ⟨rfl, hoff, hcov, hgrow⟩ := hloop
      exact ⟨⟨true, rfl, fun _ => ⟨hoff, hcov⟩⟩, hgrow,
        fun i hi => covered_iff.mp hcov i hi.2.1⟩
    | next s' =>
      rw [hl] at hloop
      exact .of_finish hloop.1 hloop.2

/-- What a call of `authorize_obj_group` does, with or without tracing. -/
structure Evaluates (m : AclIndex) (request : Access) (filter : String) (g : String)
    (mask : Access) (s : AzContext) (o : Outcome) : Prop where
  result : ∃ b, o.1 = .ok b ∧ (b = true → s.trace.off = true ∧ Covered request o.2)
  frame : o.2.frame = s.frame
  checked : CheckedInv m request filter o.2
  mono : ∀ i, s.calcRightRes.getLsbD i → o.2.calcRightRes.getLsbD i
  sound : ∀ i, o.2.calcRightRes.getLsbD i →
    s.calcRightRes.getLsbD i ∨ VisitAllows m request filter s.subjectGroups g mask i
  complete : ∀ i, VisitAllows m request filter s.subjectGroups g mask i →
    o.2.calcRightRes.getLsbD i

theorem authorizeObjGroup_spec {s : AzContext} (g : String) (mask : Access)
    (hs : CheckedInv m request filter s) :
    Evaluates m request filter g mask s
      (authorizeObjGroup request g mask filter m.db s) := by
  unfold authorizeObjGroup
  split
  · next hoff =>
    dsimp only
    split
    · next hleft =>
      -- every bit the group could add is already there
      refine ⟨⟨false, rfl, by simp⟩, rfl, hs, fun _ h => h, fun _ h => .inl h, fun i hi => ?_⟩
      exact leftToCheck_eq_zero.mp hleft i hi.2.1 hi.2.2.1
    split
    · next hchk =>
      exact ⟨⟨false, rfl, by simp⟩, rfl, hs, fun _ h => h, fun _ h => .inl h, hs g mask hchk⟩
    · obtain ⟨hres, hgrow, hall⟩ := lookPermissions_spec m request g mask filter
        { s with checkedGroups := s.checkedGroups.insert g mask }
      refine ⟨hres, hgrow.frame, ?_, hgrow.mono, hgrow.sound, hall⟩
      intro g' mask' hlook i hi
      rw [hgrow.checked] at hlook
      rw [AzContext.subject_of_frame hgrow.frame] at hi
      by_cases hg : g' = g
      · subst hg
        rw [AList.lookup_insert, Option.some.injEq] at hlook
        subst hlook
        exact hall i hi
      · rw [AList.lookup_insert_ne hg] at hlook
        exact hgrow.mono i (hs g' mask' hlook i hi)
  · next hoff =>
    have hsame : ∀ s' : AzContext, s'.frame = s.frame → s'.checkedGroups = s.checkedGroups →
        s'.calcRightRes = s.calcRightRes →
        Evaluates m request filter g mask s (lookPermissions request g mask filter m.db s') := by
      intro s' hf hc hr
      obtain ⟨⟨b, hb, hcov⟩, hgrow, hall⟩ := lookPermissions_spec m request g mask filter s'
      rw [AzContext.subject_of_frame hf] at hgrow hall
      refine ⟨⟨b, hb, fun h => ?_⟩, hgrow.frame.trans hf, ?_, hr ▸ hgrow.mono, hr ▸ hgrow.sound,
        hall⟩
      · exact absurd (AzContext.off_of_frame hf ▸ (hcov h).1) hoff
      · intro g' mask' hlook i hi
        rw [hgrow.checked, hc] at hlook
        rw [AzContext.subject_of_frame (hgrow.frame.trans hf)] at hi
        exact hgrow.mono i (hr ▸ hs g' mask' hlook i hi)
    split
    · exact hsame _ rfl rfl rfl
    · exact hsame _ rfl rfl rfl

/-- Once the request is covered, an untraced call does nothing. -/
theorem authorizeObjGroup_covered {s : AzContext} (hoff : s.trace.off = true)
    (hcov : Covered request s) :
    authorizeObjGroup request g mask filter db s = (.ok false, s) := by
  have hleft := leftToCheck_eq_zero.mpr fun i hi (_ : mask.getLsbD i) => covered_iff.mp hcov i hi
  simp only [authorizeObjGroup, hoff, if_true, hleft]

end

end Veda.Authorization
