import Veda.Authorization.ObjGroup

/-! # The walks without request, tracing and early exit

`authorization.rs` interleaves three things: the depth-first walks over the membership records,
the evaluation of the permissions of every group the object walk meets, and the decision to
stop. The two walks below are what remains of `get_resource_groups` and `prepare_obj_group`
when the last two are taken out. They depend on the index only.

`getResourceGroups_walk` and `prepareObjGroup_sim` connect them to the code. The object walk of
the code either keeps step with `walkObjGroup`, or it has covered the whole request, and then
nothing it still does matters. -/

namespace Veda.Authorization

/-! ## The subject walk -/

/-- The state of the subject walk. -/
structure SubjWalk where
  walked : StrMap (Access × Char)
  groups : StrMap Right
  exclusive : Bool
  deep : Bool

namespace SubjWalk

/-- Enter a group into the results; an exclusive edge outside the scope of an ignoring one sets
the flag. -/
def finishGroup (level : Nat) (ignoreExclusive : Bool) (group : Right) (newAccess : Access)
    (w : SubjWalk) : SubjWalk where
  walked := w.walked
  groups := w.groups.insert group.id
    { id := group.id
      access := newAccess
      marker := newGroupMarker (w.groups.lookup group.id) group.marker
      isDeleted := group.isDeleted
      level := level }
  exclusive := w.exclusive || (!ignoreExclusive && group.marker = mIsExclusive)
  deep := w.deep

/-- Note that a group is walked. -/
def mark (w : SubjWalk) (group : Right) (newAccess : Access) : SubjWalk :=
  { w with
    walked := w.walked.insert group.id
      (newAccess ||| ((w.walked.lookup group.id).map Prod.fst).getD 0, group.marker) }

/-- One edge of the subject walk. -/
def step (walk : String → Access → Bool → SubjWalk → SubjWalk) (uri : String) (access : Access)
    (level : Nat) (ignoreExclusive : Bool) (w : SubjWalk) (group : Right) : SubjWalk :=
  let newAccess := group.access &&& access
  if group.id = "" then w
  else if alreadyWalkedS (w.walked.lookup group.id) newAccess group.marker then w
  else if uri = group.id then w.mark group newAccess
  else
    (walk group.id 15 (ignoreExclusive || group.marker = mIgnoreExclusive)
      (w.mark group newAccess)).finishGroup level ignoreExclusive group newAccess

end SubjWalk

/-- The walk of `get_resource_groups`. -/
def walkResourceGroups (m : AclIndex) :
    Nat → String → Access → Bool → SubjWalk → SubjWalk
  | 0, _, _, _, w => { w with deep := true }
  | left + 1, uri, access, ignoreExclusive, w =>
    (m.memberships uri).foldl
      (SubjWalk.step (walkResourceGroups m left) uri access (32 - left) ignoreExclusive) w

/-- The part of the state the subject walk works on. -/
def AzContext.subj (azc : AzContext) : SubjWalk where
  walked := azc.walkedGroupsS
  groups := azc.subjectGroups
  exclusive := azc.isNeedExclusiveAz
  deep := azc.deep

/-- The part of the state the subject walk leaves alone. -/
structure ObjPart where
  calcRightRes : Access
  isFoundExclusiveAz : Bool
  walkedGroupsO : StrMap Access
  checkedGroups : StrMap Access
  isAcl : Bool
  isGroup : Bool
  isInfo : Bool

def AzContext.objPart (azc : AzContext) : ObjPart where
  calcRightRes := azc.calcRightRes
  isFoundExclusiveAz := azc.isFoundExclusiveAz
  walkedGroupsO := azc.walkedGroupsO
  checkedGroups := azc.checkedGroups
  isAcl := azc.trace.isAcl
  isGroup := azc.trace.isGroup
  isInfo := azc.trace.isInfo

theorem finishGroup_subj :
    (resourceGroupStep.finishGroup level ign group acc azc).subj =
      azc.subj.finishGroup level ign group acc ∧
    (resourceGroupStep.finishGroup level ign group acc azc).objPart = azc.objPart := by
  unfold resourceGroupStep.finishGroup SubjWalk.finishGroup
  by_cases hx : ign = false ∧ group.marker = mIsExclusive
  · obtain ⟨rfl, hm⟩ := hx
    by_cases hi : azc.trace.isInfo = true <;>
      simp [hm, hi, AzContext.subj, AzContext.objPart, printToTraceInfo]
  · have hx' : (!ign && decide (group.marker = mIsExclusive)) = false := by
      cases ign <;> simp_all
    simp [hx, hx', AzContext.subj, AzContext.objPart]

/-- `get_resource_groups` on an index whose lookups do not fail. -/
theorem getResourceGroups_walk (m : AclIndex) (left : Nat) (uri : String) (access : Access)
    (ign : Bool) (azc : AzContext) :
    (∃ b, (getResourceGroups m.db left uri access ign azc).1 = .ok b) ∧
    (getResourceGroups m.db left uri access ign azc).2.subj =
      walkResourceGroups m left uri access ign azc.subj ∧
    (getResourceGroups m.db left uri access ign azc).2.objPart = azc.objPart := by
  induction left generalizing uri access ign azc with
  | zero => exact ⟨⟨true, rfl⟩, rfl, rfl⟩
  | succ left ih =>
    unfold getResourceGroups walkResourceGroups
    cases hrec : m (membershipPrefix ++ uri) with
    | none =>
      rw [AclIndex.getFromDb_none hrec, AclIndex.memberships, AclIndex.entries_none hrec]
      exact ⟨⟨false, rfl⟩, rfl, rfl⟩
    | some str =>
      rw [AclIndex.getFromDb_some hrec, AclIndex.memberships, AclIndex.entries_some hrec]
      have hstep : ∀ group ∈ elements str, ∀ (s : AzContext) (w : SubjWalk),
          (s.subj = w ∧ s.objPart = azc.objPart) →
          (resourceGroupStep (getResourceGroups m.db left) uri access (32 - left) ign group
            s).Sat
            (fun s' => s'.subj = SubjWalk.step (walkResourceGroups m left) uri access (32 - left)
              ign w group ∧ s'.objPart = azc.objPart) (fun _ _ => False) := by
        rintro group - s w ⟨rfl, hobj⟩
        unfold resourceGroupStep SubjWalk.step
        split
        · exact ⟨rfl, hobj⟩
        dsimp only
        rw [show s.subj.walked = s.walkedGroupsS from rfl]
        split
        · exact ⟨rfl, hobj⟩
        have hmark : (markS uri group (group.access &&& access) s).subj =
            s.subj.mark group (group.access &&& access) ∧
            (markS uri group (group.access &&& access) s).objPart = azc.objPart := by
          unfold markS
          dsimp only
          split <;> exact ⟨rfl, hobj⟩
        generalize markS uri group (group.access &&& access) s = s' at hmark ⊢
        split
        · exact hmark
        obtain ⟨⟨b, hb⟩, hsubj, hobj'⟩ := ih group.id 15
          (ign || decide (group.marker = mIgnoreExclusive)) s'
        rw [hmark.1] at hsubj
        generalize getResourceGroups m.db left group.id 15 _ s' = o at hb hsubj hobj' ⊢
        obtain ⟨r, s''⟩ := o
        simp only at hb hsubj hobj'
        subst hb
        simp only [Step.sat_next]
        rw [finishGroup_subj.1, finishGroup_subj.2, hsubj]
        exact ⟨rfl, hobj'.trans hmark.2⟩
      have hloop := Step.loop_sim
        (R := fun (s : AzContext) w => s.subj = w ∧ s.objPart = azc.objPart)
        (Q := fun _ _ _ => False) hstep (fun _ _ _ _ _ h => h)
        (⟨rfl, rfl⟩ : azc.subj = azc.subj ∧ azc.objPart = azc.objPart)
      dsimp only
      generalize Step.loop _ _ azc = o at hloop ⊢
      cases o with
      | done r s => exact hloop.elim
      | next s => exact ⟨⟨false, rfl⟩, hloop⟩

/-! ## The object walk -/

/-- The state of the object walk. `visits` lists the groups handed to `authorize_obj_group`
with their access masks, the latest first. -/
structure ObjWalk where
  walked : StrMap Access
  visits : List (String × Access)
  found : Bool
  deep : Bool

/-- Note that a group is walked. -/
def ObjWalk.mark (w : ObjWalk) (group : String) (newAccess : Access) : ObjWalk :=
  { w with walked := w.walked.insert group (newAccess ||| (w.walked.lookup group).getD 0) }

section
variable (m : AclIndex) (need : Bool) (subject : StrMap Right)

/-- One edge of the object walk. -/
def ObjWalk.step (walk : String → Access → ObjWalk → ObjWalk) (uri : String) (access : Access)
    (isTop : Bool) (len : Nat) (st : ObjWalk × Bool) (el : Right × Nat) : ObjWalk × Bool :=
  if el.1.id = "" then st
  else
    let newAccess := el.1.access &&& access
    let tests := exclusiveTests need subject uri el.1.id isTop (el.2 = len - 1) st.1.found st.2
    let w := { st.1 with found := tests.1 }
    if el.1.marker = mIsExclusive then (w, tests.2)
    else if alreadyWalkedO (w.walked.lookup el.1.id) newAccess then (w, tests.2)
    else
      let w := w.mark el.1.id newAccess
      if uri = el.1.id then (w, tests.2)
      else
        (walk el.1.id newAccess { w with visits := (el.1.id, newAccess) :: w.visits }, tests.2)

/-- The walk of `prepare_obj_group`. -/
def walkObjGroup : Nat → String → Access → ObjWalk → ObjWalk
  | 0, _, _, w => { w with deep := true }
  | left + 1, uri, access, w =>
    match m (membershipPrefix ++ uri) with
    | some groupsStr =>
      let groupsSet := elements groupsStr
      let w := (groupsSet.zipIdx.foldl (ObjWalk.step need subject (walkObjGroup left) uri access
        (left = 32) groupsSet.length) (w, false)).1
      if groupsSet.length = 0 then { w with found := true } else w
    | none => if left = 32 then { w with found := true } else w

end

/-! ## The walk only grows -/

/-- `w'` comes after `w` in a walk. -/
structure ObjWalk.Le (w w' : ObjWalk) : Prop where
  visits : ∀ v ∈ w.visits, v ∈ w'.visits
  found : w.found = true → w'.found = true
  deep : w.deep = true → w'.deep = true

namespace ObjWalk.Le

theorem refl (w : ObjWalk) : w.Le w := ⟨fun _ h => h, fun h => h, fun h => h⟩

theorem trans (h₁ : Le w w') (h₂ : Le w' w'') : w.Le w'' :=
  ⟨fun v hv => h₂.visits v (h₁.visits v hv), fun h => h₂.found (h₁.found h),
    fun h => h₂.deep (h₁.deep h)⟩

end ObjWalk.Le

theorem exclusiveTests_found (h : found = true) :
    exclusiveTests need subject uri g isTop isLast found suffix = (true, suffix) := by
  simp [exclusiveTests, h]

theorem ObjWalk.step_le (hwalk : ∀ uri access w, Le w (walk uri access w)) :
    Le st.1 (ObjWalk.step need subject walk uri access isTop len st el).1 := by
  unfold ObjWalk.step
  split
  · exact .refl _
  have hfound : Le st.1 { st.1 with found := (exclusiveTests need subject uri el.1.id isTop
      (el.2 = len - 1) st.1.found st.2).1 } :=
    ⟨fun _ h => h, fun h => by rw [exclusiveTests_found h], fun h => h⟩
  dsimp only
  split
  · exact hfound
  split
  · exact hfound
  split
  · exact ⟨hfound.visits, hfound.found, hfound.deep⟩
  · refine .trans ?_ (hwalk _ _ _)
    exact ⟨fun v hv => List.mem_cons_of_mem _ hv, hfound.found, hfound.deep⟩

theorem walkObjGroup_le (m : AclIndex) (left : Nat) (uri : String) (access : Access)
    (w : ObjWalk) : w.Le (walkObjGroup m need subject left uri access w) := by
  induction left generalizing uri access w with
  | zero => exact ⟨fun _ h => h, fun h => h, fun _ => rfl⟩
  | succ left ih =>
    unfold walkObjGroup
    cases m (membershipPrefix ++ uri) with
    | none =>
      dsimp only
      split
      · exact ⟨fun _ h => h, fun _ => rfl, fun h => h⟩
      · exact .refl w
    | some str =>
      dsimp only
      have hfold : ∀ (l : List (Right × Nat)) st, ObjWalk.Le st.1
          (l.foldl (ObjWalk.step need subject (walkObjGroup m need subject left) uri access
            (left = 32) (elements str).length) st).1 := by
        intro l
        induction l with
        | nil => exact fun st => .refl _
        | cons el l ihl => exact fun st => (ObjWalk.step_le ih).trans (ihl _)
      split
      · have h := hfold (elements str).zipIdx (w, false)
        exact ⟨h.visits, fun _ => rfl, h.deep⟩
      · exact hfold _ (w, false)

/-! ## A covered request -/

/-- What an untraced evaluation still does when its request is covered: it walks on, and the
result stays. -/
structure Idle (s s' : AzContext) : Prop where
  res : s'.calcRightRes = s.calcRightRes
  checked : s'.checkedGroups = s.checkedGroups
  need : s'.isNeedExclusiveAz = s.isNeedExclusiveAz
  subject : s'.subjectGroups = s.subjectGroups
  trace : s'.trace = s.trace
  found : s.isFoundExclusiveAz = true → s'.isFoundExclusiveAz = true

namespace Idle

theorem refl (s : AzContext) : Idle s s := ⟨rfl, rfl, rfl, rfl, rfl, fun h => h⟩

theorem trans (h₁ : Idle s s') (h₂ : Idle s' s'') : Idle s s'' :=
  ⟨h₂.res.trans h₁.res, h₂.checked.trans h₁.checked, h₂.need.trans h₁.need,
    h₂.subject.trans h₁.subject, h₂.trace.trans h₁.trace, fun h => h₂.found (h₁.found h)⟩

theorem covered (h : Idle s s') (hc : Covered request s) : Covered request s' := by
  unfold Covered at *
  rw [h.res, hc]

end Idle

theorem markO_idle (uri : String) (group : Right) (acc : Access) (s : AzContext) :
    Idle s (markO uri group acc s) := by
  unfold markO
  dsimp only
  split <;> exact ⟨rfl, rfl, rfl, rfl, rfl, fun h => h⟩

section
variable {request : Access} {filter : String} {db : Database}

theorem objGroupStep_idle {s : AzContext} (uri : String) (access : Access) (isTop : Bool)
    (len : Nat) (el : Right × Nat) (suffix : Bool) (hoff : s.trace.off = true) (hcov : Covered request s)
    (hwalk : ∀ uri access s, s.trace.off = true → Covered request s →
      ∃ b s', walk uri access s = (.ok b, s') ∧ Idle s s') :
    ∃ s' suffix', objGroupStep walk request uri access filter isTop len db el (s, suffix) =
      .next (s', suffix') ∧ Idle s s' := by
  obtain ⟨group, idx⟩ := el
  unfold objGroupStep
  dsimp only
  split
  · exact ⟨s, suffix, rfl, .refl s⟩
  have hfound : Idle s { s with
      isFoundExclusiveAz := (exclusiveTests s.isNeedExclusiveAz s.subjectGroups uri group.id
        isTop (idx = len - 1) s.isFoundExclusiveAz suffix).1 } :=
    ⟨rfl, rfl, rfl, rfl, rfl, fun h => by rw [exclusiveTests_found h]⟩
  split
  · exact ⟨_, _, rfl, hfound⟩
  split
  · exact ⟨_, _, rfl, hfound⟩
  have hmark := hfound.trans (markO_idle uri group (group.access &&& access) _)
  generalize markO uri group (group.access &&& access) _ = s₁ at hmark ⊢
  split
  · exact ⟨_, _, rfl, hmark⟩
  have hoff₁ : s₁.trace.off = true := by rw [hmark.trace, hoff]
  unfold enterGroup
  rw [authorizeObjGroup_covered hoff₁ (hmark.covered hcov)]
  obtain ⟨b, s', hs', hidle⟩ := hwalk group.id (group.access &&& access) s₁ hoff₁
    (hmark.covered hcov)
  simp only [descend, hs']
  exact ⟨s', _, rfl, hmark.trans hidle⟩

theorem prepareObjGroup_idle (m : AclIndex) (left : Nat) (uri : String) (access : Access)
    (s : AzContext) (hoff : s.trace.off = true) (hcov : Covered request s) :
    ∃ b s', prepareObjGroup request filter m.db left uri access s = (.ok b, s') ∧ Idle s s' := by
  induction left generalizing uri access s with
  | zero => exact ⟨false, _, rfl, rfl, rfl, rfl, rfl, rfl, fun h => h⟩
  | succ left ih =>
    unfold prepareObjGroup
    cases hrec : m (membershipPrefix ++ uri) with
    | none =>
      rw [AclIndex.getFromDb_none hrec]
      refine ⟨false, _, rfl, ?_⟩
      split <;> exact ⟨rfl, rfl, rfl, rfl, rfl, by simp⟩
    | some str =>
      rw [AclIndex.getFromDb_some hrec]
      have hloop := Step.loop_sat (f := objGroupStep (prepareObjGroup request filter m.db left)
          request uri access filter (left = 32) (elements str).length m.db)
        (P := fun st => Idle s st.1) (Q := fun _ _ => False) (l := (elements str).zipIdx)
        (s := (s, false)) (fun el _ st hst => by
          obtain ⟨s', sfx, hs', hidle⟩ := objGroupStep_idle (s := st.1) uri access (left = 32)
            (elements str).length el st.2 (by rw [hst.trace, hoff]) (hst.covered hcov) ih
          rw [hs']
          exact hst.trans hidle) (.refl s)
      dsimp only
      generalize Step.loop _ _ (s, false) = o at hloop ⊢
      obtain ⟨s', sfx⟩ | ⟨r, s'⟩ := o
      · refine ⟨false, _, rfl, hloop.trans ?_⟩
        split <;> exact ⟨rfl, rfl, rfl, rfl, rfl, by simp⟩
      · exact hloop.elim

end

end Veda.Authorization
