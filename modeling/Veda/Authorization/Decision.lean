import Veda.Authorization.Simulation

/-! # The decision as a function of the index

`authorize_untraced` and `authorize_traced` say what `_authorize` answers, bit by bit, through
the two walks of the index and the permissions of the groups they visit. Neither the request
nor the tracing enters the walks, so answers to different requests and answers with and without
tracing can be compared. -/

namespace Veda.Authorization

/-! ## Two runs of the object walk -/

/-- Two walks that differ at most in `deep` and, unless `same` holds, in the search for exclusive
authorization. -/
structure ObjWalk.Agree (same : Prop) (st st' : ObjWalk × Bool) : Prop where
  walked : st.1.walked = st'.1.walked
  visits : st.1.visits = st'.1.visits
  found : same → st.1.found = st'.1.found ∧ st.2 = st'.2

theorem ObjWalk.step_agree {st st' : ObjWalk × Bool} (h : Agree same st st')
    (hwalk : ∀ uri access w w', Agree same (w, false) (w', false) →
      Agree same (walk uri access w, false) (walk uri access w', false)) :
    Agree same (ObjWalk.step need subject walk uri access isTop len st el)
      (ObjWalk.step need subject walk uri access isTop len st' el) := by
  obtain ⟨⟨walked, visits, fnd, deep⟩, sfx⟩ := st
  obtain ⟨⟨walked', visits', fnd', deep'⟩, sfx'⟩ := st'
  obtain ⟨hwalked, hvisits, hfound⟩ := h
  dsimp only at hwalked hvisits hfound
  subst hwalked hvisits
  have htests : same → exclusiveTests need subject uri el.1.id isTop (el.2 = len - 1) fnd sfx =
      exclusiveTests need subject uri el.1.id isTop (el.2 = len - 1) fnd' sfx' := fun h => by
    rw [(hfound h).1, (hfound h).2]
  unfold ObjWalk.step
  dsimp only
  split
  · exact ⟨rfl, rfl, hfound⟩
  generalize exclusiveTests need subject uri el.1.id isTop _ fnd sfx = tests at htests ⊢
  generalize exclusiveTests need subject uri el.1.id isTop _ fnd' sfx' = tests' at htests ⊢
  have htests' : same → tests.1 = tests'.1 ∧ tests.2 = tests'.2 := fun h => by
    rw [htests h]
    exact ⟨rfl, rfl⟩
  split
  · exact ⟨rfl, rfl, htests'⟩
  split
  · exact ⟨rfl, rfl, htests'⟩
  split
  · exact ⟨rfl, rfl, htests'⟩
  · have hrec := hwalk el.1.id (el.1.access &&& access)
      { ObjWalk.mark ⟨walked, visits, tests.1, deep⟩ el.1.id (el.1.access &&& access) with
        visits := (el.1.id, el.1.access &&& access) :: visits }
      { ObjWalk.mark ⟨walked, visits, tests'.1, deep'⟩ el.1.id (el.1.access &&& access) with
        visits := (el.1.id, el.1.access &&& access) :: visits }
      ⟨rfl, rfl, fun h => ⟨(htests' h).1, rfl⟩⟩
    exact ⟨hrec.walked, hrec.visits, fun h => ⟨(hrec.found h).1, (htests' h).2⟩⟩

theorem walkObjGroup_agree (m : AclIndex) (left : Nat) (uri : String) (access : Access)
    (w w' : ObjWalk) (h : ObjWalk.Agree same (w, false) (w', false)) :
    ObjWalk.Agree same (walkObjGroup m need subject left uri access w, false)
      (walkObjGroup m need subject left uri access w', false) := by
  induction left generalizing uri access w w' with
  | zero => exact ⟨h.walked, h.visits, h.found⟩
  | succ left ih =>
    unfold walkObjGroup
    cases m (membershipPrefix ++ uri) with
    | none =>
      dsimp only
      split
      · exact ⟨h.walked, h.visits, fun _ => ⟨rfl, rfl⟩⟩
      · exact h
    | some str =>
      have hfold := List.foldl_rel (l := (elements str).zipIdx)
        (f := ObjWalk.step need subject (walkObjGroup m need subject left) uri access (left = 32)
          (elements str).length)
        (g := ObjWalk.step need subject (walkObjGroup m need subject left) uri access (left = 32)
          (elements str).length) h
        (fun el _ st st' hst => ObjWalk.step_agree hst ih)
      dsimp only
      split
      · exact ⟨hfold.walked, hfold.visits, fun _ => ⟨rfl, rfl⟩⟩
      · exact ⟨hfold.walked, hfold.visits, fun hf => ⟨(hfold.found hf).1, rfl⟩⟩

/-! ## One pass -/

section
variable {m : AclIndex} {request : Access} {filter : String} {base : Access} {off need : Bool}
variable {subject : StrMap Right}

/-- `final_check` succeeds. -/
def Passes (s : AzContext) : Prop := s.isNeedExclusiveAz = true → s.isFoundExclusiveAz = true

theorem finalCheck_frame (s : AzContext) : (finalCheck s).2.frame = s.frame ∧
    (finalCheck s).2.calcRightRes = s.calcRightRes ∧
    (finalCheck s).2.checkedGroups = s.checkedGroups := by
  unfold finalCheck
  dsimp only
  split <;> exact ⟨rfl, rfl, rfl⟩

theorem finalCheck_fst (s : AzContext) : (finalCheck s).1 = true ↔ Passes s := by
  unfold finalCheck Passes
  cases s.isNeedExclusiveAz <;> simp

theorem Sim.of_frame (h : Sim m request filter base off need subject s w)
    (hf : s'.frame = s.frame) (hres : s'.calcRightRes = s.calcRightRes)
    (hchk : s'.checkedGroups = s.checkedGroups) :
    Sim m request filter base off need subject s' w := by
  have hfound := AzContext.found_of_frame hf
  refine ⟨h.1.of_eq (AzContext.off_of_frame hf) (AzContext.need_of_frame hf)
    (AzContext.subject_of_frame hf) hchk hres rfl, h.2.imp (fun h => ?_) fun h => ?_⟩
  · exact ⟨(AzContext.walkedO_of_frame hf).trans h.walked, hfound.trans h.found,
      (AzContext.deep_of_frame hf).trans h.deep⟩
  · refine ⟨h.off, ?_, fun hn => ⟨hfound.trans (h.found hn).1, (h.found hn).2⟩⟩
    unfold Covered
    rw [hres]
    exact h.covered

/-- In both modes the search for exclusive authorization has the same outcome. -/
theorem Sim.passes (h : Sim m request filter base off need subject s w) :
    Passes s ↔ (need = true → w.found = true) := by
  unfold Passes
  rw [h.1.need]
  rcases h.2 with h | h
  · rw [h.found]
  · exact ⟨fun _ hn => (h.found hn).2, fun _ hn => (h.found hn).1⟩

/-- An evaluation of a pass corresponds to `walkW`, and success means a covered request in an
untraced evaluation. -/
def CallSim (m : AclIndex) (request : Access) (filter : String) (base : Access) (off need : Bool)
    (subject : StrMap Right) (call : AzContext → Outcome) (walkW : ObjWalk → ObjWalk) : Prop :=
  ∀ s w, Sim m request filter base off need subject s w → ∃ b s', call s = (.ok b, s') ∧
    Sim m request filter base off need subject s' (walkW w) ∧
    (b = true → off = true ∧ Covered request s')

theorem authorizeObjGroup_call (g : String) :
    CallSim m request filter base off need subject
      (authorizeObjGroup request g 15 filter m.db)
      (fun w => { w with visits := (g, 15) :: w.visits }) := by
  intro s w h
  have he := authorizeObjGroup_spec g 15 h.1.checked
  have hc := h.1.visit he
  generalize authorizeObjGroup request g 15 filter m.db s = o at he hc ⊢
  obtain ⟨r, s'⟩ := o
  obtain ⟨b, hb, hcov⟩ := he.result
  simp only at hb hcov hc
  subst hb
  refine ⟨b, s', rfl, ⟨hc, h.2.imp (·.visit _ he) fun hset => ?_⟩, fun hb => ?_⟩
  · have hfound := AzContext.found_of_frame he.frame
    refine ⟨hset.off, covered_iff.mpr fun i hi => he.mono i (covered_iff.mp hset.covered i hi),
      fun hn => ⟨hfound.trans (hset.found hn).1, (hset.found hn).2⟩⟩
  · exact ⟨h.1.off.symm.trans (hcov hb).1, (hcov hb).2⟩

theorem passGroups_call (uri : String) :
    CallSim m request filter base off need subject (passGroups request uri filter m.db)
      (walkObjGroup m need subject 33 uri 15) := by
  intro s w h
  obtain ⟨b, s', hs', hsim, hset⟩ := prepareObjGroup_sim 33 uri 15 s w h
  exact ⟨b, s', hs', hsim, fun hb => ⟨(hset hb).off, (hset hb).covered⟩⟩

/-- How a pass may be left: the answer is the result so far. -/
structure PassLeaves (m : AclIndex) (request : Access) (filter : String) (base : Access)
    (off need : Bool) (subject : StrMap Right) (r : Except Int Access) (s : AzContext)
    (w : ObjWalk) : Prop where
  result : r = .ok s.calcRightRes
  sim : Sim m request filter base off need subject s w
  passes : Passes s

/-- One evaluation of a pass. It leaves the pass only when `leave` says so, and then always if
`final_check` succeeds. -/
theorem passStep_sim {call : AzContext → Outcome} (leave : Bool → AzContext → Bool)
    {walkW : ObjWalk → ObjWalk}
    (hcall : CallSim m request filter base off need subject call walkW)
    (h : Sim m request filter base off need subject s w) :
    (passStep (call, leave) s).Sat
      (fun s' => Sim m request filter base off need subject s' (walkW w) ∧
        (Passes s' → ∃ b, leave b s' = false ∧ (b = true → off = true)))
      (fun r s' => PassLeaves m request filter base off need subject r s' (walkW w) ∧
        ∃ b s'', leave b s'' = true ∧ s'.calcRightRes = s''.calcRightRes ∧
          (b = true → off = true ∧ Covered request s')) := by
  obtain ⟨b, s₁, hs₁, hsim, hcov⟩ := hcall s w h
  unfold passStep
  simp only [hs₁]
  split
  · next hleave =>
    have hfst := finalCheck_fst s₁
    obtain ⟨hf, hres, hchk⟩ := finalCheck_frame s₁
    generalize finalCheck s₁ = o at hfst hf hres hchk ⊢
    obtain ⟨res, s₂⟩ := o
    have hsim₂ := hsim.of_frame hf hres hchk
    have hpass : Passes s₂ ↔ Passes s₁ := by
      unfold Passes
      rw [AzContext.need_of_frame hf, AzContext.found_of_frame hf]
    cases res with
    | false => exact ⟨hsim₂, fun hp => absurd (hfst.mpr (hpass.mp hp)) (by simp)⟩
    | true =>
      refine ⟨⟨rfl, hsim₂, hpass.mpr (hfst.mp rfl)⟩, b, s₁, hleave, hres,
        fun hb => ⟨(hcov hb).1, ?_⟩⟩
      unfold Covered at hcov ⊢
      rw [hres]
      exact (hcov hb).2
  · next hleave => exact ⟨hsim, fun _ => ⟨b, by simpa using hleave, fun hb => (hcov hb).1⟩⟩

/-- The walk of a whole pass. -/
def passWalk (m : AclIndex) (need : Bool) (subject : StrMap Right) (uri : String) (w : ObjWalk) :
    ObjWalk :=
  walkObjGroup m need subject 33 uri 15
    { w with visits := (uri, 15) :: (allResourcesGroup, 15) :: w.visits }

/-- A whole pass: it goes on in step with its walk, or it is left after one of its three
evaluations. -/
theorem pass_sim (uri : String) (leave₁ leave₂ leave₃ : Bool → AzContext → Bool)
    {Q : Except Int Access → AzContext → Prop}
    (hQ : ∀ r s w' b s'', w'.Le (passWalk m need subject uri w) →
      PassLeaves m request filter base off need subject r s w' →
      (leave₁ b s'' = true ∨ leave₂ b s'' = true ∨
        leave₃ b s'' = true ∧ w' = passWalk m need subject uri w) →
      s.calcRightRes = s''.calcRightRes → (b = true → off = true ∧ Covered request s) → Q r s)
    (h : Sim m request filter base off need subject s w) :
    (Step.loop passStep [(passAll request filter m.db, leave₁),
      (passUri request uri filter m.db, leave₂), (passGroups request uri filter m.db, leave₃)]
      s).Sat
      (fun s' => Sim m request filter base off need subject s'
          (passWalk m need subject uri w) ∧
        (Passes s' → ∃ b, leave₃ b s' = false ∧ (b = true → off = true))) Q := by
  have hle₁ : ObjWalk.Le { w with visits := (allResourcesGroup, 15) :: w.visits }
      { w with visits := (uri, 15) :: (allResourcesGroup, 15) :: w.visits } :=
    ⟨fun _ h => List.mem_cons_of_mem _ h, fun h => h, fun h => h⟩
  have hle₂ : ObjWalk.Le { w with visits := (uri, 15) :: (allResourcesGroup, 15) :: w.visits }
      (passWalk m need subject uri w) := walkObjGroup_le m 33 uri 15 _
  have h₁ := passStep_sim leave₁ (authorizeObjGroup_call allResourcesGroup) h
  refine Step.loop_cons_sat (h₁.mono (fun s₁ hs₁ => ?_) fun r s₁ hd => ?_)
  · have h₂ := passStep_sim leave₂ (authorizeObjGroup_call uri) hs₁.1
    refine Step.loop_cons_sat (h₂.mono (fun s₂ hs₂ => ?_) fun r s₂ hd => ?_)
    · have h₃ := passStep_sim leave₃ (passGroups_call uri) hs₂.1
      refine Step.loop_cons_sat (h₃.mono (fun s₃ hs₃ => hs₃) fun r s₃ hd => ?_)
      obtain ⟨hl, b, s'', hb, hres, hcov⟩ := hd
      exact hQ _ _ _ b s'' (.refl _) hl (.inr (.inr ⟨hb, rfl⟩)) hres hcov
    · obtain ⟨hl, b, s'', hb, hres, hcov⟩ := hd
      exact hQ _ _ _ b s'' hle₂ hl (.inr (.inl hb)) hres hcov
  · obtain ⟨hl, b, s'', hb, hres, hcov⟩ := hd
    exact hQ _ _ _ b s'' (hle₁.trans hle₂) hl (.inl hb) hres hcov

/-- An untraced pass is left only with a covered request. -/
theorem pass_fast (uri : String) (leave : Bool → AzContext → Bool) (Good : Access → Prop)
    (hleave : ∀ b s, leave b s = true → b = true ∧ Good s.calcRightRes)
    (h : Sim m request filter base off need subject s w) :
    (Step.loop passStep [(passAll request filter m.db, leave),
      (passUri request uri filter m.db, leave), (passGroups request uri filter m.db, leave)]
      s).Sat
      (Sim m request filter base off need subject · (passWalk m need subject uri w))
      (fun r s' => r = .ok s'.calcRightRes ∧ Good s'.calcRightRes ∧
        Common m request filter base off need subject s' (passWalk m need subject uri w) ∧
        Settled request off need s' (passWalk m need subject uri w)) := by
  refine (pass_sim uri leave leave leave (fun r s' w' b s'' hle hl hb hres hcov => ?_) h).mono
    (fun _ h => h.1) fun _ _ h => h
  obtain ⟨rfl, hgood⟩ := hleave b s'' (hb.elim id (·.elim id And.left))
  refine ⟨hl.result, hres ▸ hgood, Settled.grow hl.sim.1 ?_ (.refl s') hle⟩
  have hfound := hl.sim.passes.mp hl.passes
  refine ⟨(hcov rfl).1, (hcov rfl).2, fun hn => ⟨?_, hfound hn⟩⟩
  exact hl.passes (hl.sim.1.need.trans hn)

end

/-! ## The whole evaluation -/

section
variable (m : AclIndex) (uri user : String)

/-- The walk over the groups of the user. -/
def subjectWalk : SubjWalk :=
  walkResourceGroups m 33 user 15 false
    { walked := ∅, groups := ∅, exclusive := false, deep := false }

/-- The subject groups the evaluation works with: those of the walk, and the user. -/
def subjects : StrMap Right :=
  (subjectWalk m user).groups.insert user
    { id := user, access := 15, marker := noMarker, isDeleted := false, level := 0 }

/-- The walk a pass starts from. -/
def startWalk (found deep : Bool) : ObjWalk :=
  { walked := ∅, visits := [], found := found, deep := deep }

/-- The walk of the first pass. -/
def objectWalk : ObjWalk :=
  passWalk m (subjectWalk m user).exclusive (subjects m user) uri
    (startWalk false (subjectWalk m user).deep)

/-- Exclusive authorization is not required, or the walk finds it. -/
def Admits : Prop :=
  (subjectWalk m user).exclusive = true → (objectWalk m uri user).found = true

/-- A permission under `filter` on one of the visited groups gives bit `i` of the request. -/
def Gives (request : Access) (filter : String) (i : Nat) : Prop :=
  VisitsAllow m request filter (subjects m user) (objectWalk m uri user).visits i

/-- The filter of the object, with the rights it leaves to unfiltered permissions. -/
def filterOf : String × Access := (readFilter m.db uri).toOption.getD ("", 0)

/-- The request of the first pass, `request_access_t`. -/
def openRequest (request : Access) : Access :=
  if (filterOf m uri).1.isEmpty then request else request &&& (filterOf m uri).2

/-- The state in which the first pass starts. -/
structure Starts (t : Trace) (s : AzContext) : Prop where
  off : s.trace.off = t.off
  need : s.isNeedExclusiveAz = (subjectWalk m user).exclusive
  subject : s.subjectGroups = subjects m user
  deep : s.deep = (subjectWalk m user).deep
  res : s.calcRightRes = 0
  found : s.isFoundExclusiveAz = false
  walked : s.walkedGroupsO = ∅
  checked : s.checkedGroups = ∅

variable {m uri user}

theorem readFilter_eq (m : AclIndex) (uri : String) :
    readFilter m.db uri = .ok (filterOf m uri) := by
  have hok : ∃ f, readFilter m.db uri = .ok f := by
    unfold readFilter
    cases hrec : m (filterPrefix ++ uri) with
    | none =>
      rw [AclIndex.getFromDb_none hrec]
      exact ⟨_, rfl⟩
    | some data =>
      rw [AclIndex.getFromDb_some hrec]
      dsimp only
      split
      · exact ⟨_, rfl⟩
      · split <;> exact ⟨_, rfl⟩
  obtain ⟨f, hf⟩ := hok
  rw [filterOf, hf]
  rfl

/-- `_authorize` up to its first pass. -/
theorem authorize_evaluate (m : AclIndex) (uri user : String) (request : Access) (t : Trace) :
    ∃ s, Starts m user t s ∧ authorize uri user request t m.db =
      evaluate request (openRequest m uri request) uri (filterOf m uri).1 m.db s := by
  unfold authorize
  rw [readFilter_eq]
  dsimp only
  have hinit : ∀ s : AzContext, s.subj = ⟨∅, ∅, false, false⟩ →
      s.objPart = ⟨0, false, ∅, ∅, t.isAcl, t.isGroup, t.isInfo⟩ →
      ∃ r s', readSubject user m.db s = (.ok r, s') ∧ Starts m user t s' := by
    intro s hsubj hobj
    obtain ⟨⟨b, hb⟩, hwalk, hpart⟩ := getResourceGroups_walk m 33 user 15 false s
    rw [hsubj] at hwalk
    rw [hobj] at hpart
    unfold readSubject
    generalize getResourceGroups m.db 33 user 15 false s = o at hb hwalk hpart ⊢
    obtain ⟨r, s'⟩ := o
    simp only at hb hwalk hpart
    subst hb
    have hacl := congrArg ObjPart.isAcl hpart
    have hgrp := congrArg ObjPart.isGroup hpart
    have hinf := congrArg ObjPart.isInfo hpart
    simp only [AzContext.objPart] at hacl hgrp hinf
    refine ⟨b, _, rfl, ?_, congrArg SubjWalk.exclusive hwalk, ?_, congrArg SubjWalk.deep hwalk,
      congrArg ObjPart.calcRightRes hpart, congrArg ObjPart.isFoundExclusiveAz hpart,
      congrArg ObjPart.walkedGroupsO hpart, congrArg ObjPart.checkedGroups hpart⟩
    · simp [Trace.off, hacl, hgrp, hinf]
    · exact congrArg (fun w : SubjWalk => w.groups.insert user _) hwalk
  obtain ⟨r, s', hs', hstart⟩ := hinit
    (if (initContext uri user request t).trace.isInfo then
      printToTraceInfo ("authorize uri=" ++ uri ++ ", user=" ++ user ++ ", request_access=" ++
        accessToPrettyString request ++ "\n") (initContext uri user request t)
      else initContext uri user request t) (by split <;> rfl) (by split <;> rfl)
  rw [hs']
  exact ⟨s', hstart, rfl⟩

theorem Starts.sim (request : Access) (filter : String) (h : Starts m user t s) :
    Sim m request filter 0 t.off (subjectWalk m user).exclusive (subjects m user) s
      (startWalk false (subjectWalk m user).deep) := by
  refine ⟨⟨h.off, h.need, h.subject, ?_, ?_⟩, .inl ⟨h.walked, h.found, h.deep⟩⟩
  · intro g mask hlook
    rw [h.checked] at hlook
    cases hlook
  · intro i
    rw [h.res]
    simp [VisitsAllow, startWalk]

/-- The end of `_authorize`. -/
theorem finish_eq (s : AzContext) : ∃ s', s'.deep = s.deep ∧
    (Passes s → finish s = (.ok s.calcRightRes, s')) ∧ (¬Passes s → finish s = (.ok 0, s')) := by
  have hfst := finalCheck_fst s
  obtain ⟨hf, hres, -⟩ := finalCheck_frame s
  unfold finish
  generalize finalCheck s = o at hfst hf hres ⊢
  obtain ⟨b, s₁⟩ := o
  cases b with
  | true =>
    refine ⟨s₁, AzContext.deep_of_frame hf, fun _ => ?_, fun h => absurd (hfst.mp rfl) h⟩
    dsimp only at hres ⊢
    rw [hres]
  | false =>
    refine ⟨_, ?_, fun h => absurd (hfst.mpr h) (by simp), fun _ => rfl⟩
    have hdeep := AzContext.deep_of_frame hf
    split <;> split <;> exact hdeep

/-- Two passes over the same object. -/
theorem passWalk_agree (m : AclIndex) (need : Bool) (subject : StrMap Right) (uri : String)
    {found found' : Bool} (deep deep' : Bool) (h : same → found = found') :
    ObjWalk.Agree same (passWalk m need subject uri (startWalk found deep), false)
      (passWalk m need subject uri (startWalk found' deep'), false) :=
  walkObjGroup_agree m 33 uri 15 _ _ ⟨rfl, rfl, fun hs => ⟨h hs, rfl⟩⟩

/-- The second pass walks the same groups. -/
theorem passWalk_visits (m : AclIndex) (uri user : String) (found deep : Bool) :
    (passWalk m (subjectWalk m user).exclusive (subjects m user) uri
      (startWalk found deep)).visits = (objectWalk m uri user).visits :=
  (passWalk_agree m _ _ uri deep _ False.elim).visits

/-- The second pass does not find exclusive authorization that the first did not find. -/
theorem passWalk_found (m : AclIndex) (uri user : String) (found deep : Bool)
    (h : ((subjectWalk m user).exclusive = true → found = true) ↔ Admits m uri user) :
    ((subjectWalk m user).exclusive = true →
      (passWalk m (subjectWalk m user).exclusive (subjects m user) uri
        (startWalk found deep)).found = true) ↔ Admits m uri user := by
  cases found with
  | true =>
    refine ⟨fun _ => h.mp fun _ => rfl, fun _ _ => ?_⟩
    exact (walkObjGroup_le m 33 uri 15 _).found rfl
  | false =>
    have hsame := (passWalk_agree m (subjectWalk m user).exclusive (subjects m user) uri deep
      (subjectWalk m user).deep (fun _ : True => rfl (a := false))).found trivial
    exact imp_congr_right fun _ => iff_of_eq (congrArg (· = true) hsame.1)

/-- The state between the passes is a start for the second one. -/
theorem Sim.second {s s' : AzContext} (request : Access) (filter : String)
    (h : Sim m requestT "" base off (subjectWalk m user).exclusive (subjects m user) s w)
    (hf : s'.frame = s.frame) (hres : s'.calcRightRes = s.calcRightRes) :
    Sim m request filter s.calcRightRes off (subjectWalk m user).exclusive (subjects m user)
      { s' with checkedGroups := ∅, walkedGroupsO := ∅ }
      (startWalk s.isFoundExclusiveAz s.deep) := by
  have hfound := AzContext.found_of_frame hf
  have hdeep := AzContext.deep_of_frame hf
  refine ⟨⟨(AzContext.off_of_frame hf).trans h.1.off, (AzContext.need_of_frame hf).trans h.1.need,
    (AzContext.subject_of_frame hf).trans h.1.subject, ?_, fun i => ?_⟩,
    .inl ⟨rfl, hfound, hdeep⟩⟩
  · intro g mask hlook
    cases hlook
  · rw [show AzContext.calcRightRes { s' with checkedGroups := ∅, walkedGroupsO := ∅ } =
      s.calcRightRes from hres]
    simp [VisitsAllow, startWalk]

/-- The result at the end of a pass. -/
theorem common_gives {s : AzContext} (uri : String) (h : Common m request filter base off
      (subjectWalk m user).exclusive (subjects m user) s w)
    (hw : w.visits = (objectWalk m uri user).visits) (i : Nat) :
    s.calcRightRes.getLsbD i ↔ base.getLsbD i ∨ Gives m uri user request filter i := by
  rw [h.bits, h.subject, hw]
  rfl

/-- The answer at the end of a pass that is not left early. -/
theorem finish_sim {s : AzContext} (uri : String) (h : Sim m request filter base off
      (subjectWalk m user).exclusive (subjects m user) s w)
    (hw : w.visits = (objectWalk m uri user).visits)
    (hfound : ((subjectWalk m user).exclusive = true → w.found = true) ↔ Admits m uri user) :
    ∃ a s', finish s = (.ok a, s') ∧
      (∀ i, a.getLsbD i ↔
        Admits m uri user ∧ (base.getLsbD i ∨ Gives m uri user request filter i)) ∧
      (Admits m uri user → s'.deep = w.deep ∨ a &&& request = request) := by
  have hadm : Passes s ↔ Admits m uri user := h.passes.trans hfound
  obtain ⟨s', hdeep, hyes, hno⟩ := finish_eq s
  by_cases hp : Passes s
  · refine ⟨_, s', hyes hp, fun i => by simp [hadm.mp hp, common_gives uri h.1 hw i], fun _ => ?_⟩
    exact h.2.imp (fun h => hdeep.trans h.deep) fun h => h.covered
  · exact ⟨0, s', hno hp, fun i => by simp [mt hadm.mpr hp], fun h => absurd (hadm.mpr h) hp⟩

/-- The second pass without tracing. -/
theorem evaluateFilter_untraced {s : AzContext} (request : Access) (filter : String)
    (h : Sim m requestT "" base true (subjectWalk m user).exclusive (subjects m user) s
      (objectWalk m uri user)) :
    ∃ a s', evaluateFilter request uri filter m.db s = (.ok a, s') ∧ ∀ i, a.getLsbD i ↔
      Admits m uri user ∧ (s.calcRightRes.getLsbD i ∨ Gives m uri user request filter i) := by
  have hadm : Passes s ↔ Admits m uri user := h.passes
  unfold Passes at hadm
  rw [h.1.need] at hadm
  have hvisits := passWalk_visits m uri user s.isFoundExclusiveAz s.deep
  have hfound := passWalk_found m uri user _ s.deep hadm
  -- without tracing nothing is printed
  have hinfo : s.trace.isInfo = false := by
    have := h.1.off
    simp only [Trace.off, Bool.and_eq_true, Bool.not_eq_true'] at this
    exact this.1.1
  have hpass := pass_fast uri (fun res _ => res) (fun _ => True) (fun b s h => ⟨h, trivial⟩)
    (h.second request filter (Eq.refl s.frame) rfl)
  unfold evaluateFilter
  simp only [hinfo, Bool.false_eq_true, if_false, h.1.off, if_true]
  change (Step.loop passStep (fastFilterPass request uri filter m.db) _).Sat _ _ at hpass
  generalize Step.loop passStep (fastFilterPass request uri filter m.db) _ = o at hpass ⊢
  cases o with
  | done r s' =>
    obtain ⟨rfl, -, hc, hset⟩ := hpass
    refine ⟨_, s', rfl, fun i => ?_⟩
    simp [common_gives uri hc hvisits i, hfound.mp fun hn => (hset.found hn).2]
  | next s' =>
    obtain ⟨a, s'', ha, hbits, -⟩ := finish_sim uri hpass hvisits hfound
    exact ⟨a, s'', ha, hbits⟩

theorem openRequest_of_empty (request : Access) (h : (filterOf m uri).1 = "") :
    openRequest m uri request = request := by
  simp [openRequest, h]

/-- What `_authorize` answers without tracing. Where there is no filter, an evaluation that does
not walk all of the groups has covered the request. -/
theorem authorize_untraced (m : AclIndex) (uri user : String) (request : Access) (t : Trace)
    (ht : t.off = true) :
    ∃ a s, authorize uri user request t m.db = (.ok a, s) ∧
      (∀ i, a.getLsbD i ↔ Admits m uri user ∧
        (Gives m uri user (openRequest m uri request) "" i ∨
          (filterOf m uri).1 ≠ "" ∧ Gives m uri user request (filterOf m uri).1 i)) ∧
      ((filterOf m uri).1 = "" → Admits m uri user →
        s.deep = (objectWalk m uri user).deep ∨ a &&& request = request) := by
  obtain ⟨s, hstart, heq⟩ := authorize_evaluate m uri user request t
  rw [heq]
  have hopen := @openRequest_of_empty m uri request
  generalize openRequest m uri request = requestT at hopen ⊢
  generalize (filterOf m uri).1 = filter at hopen ⊢
  have hfirst := pass_fast uri
    (fun res azc => res && (filter.isEmpty || request = azc.calcRightRes))
    (fun a => filter.isEmpty = true ∨ request = a)
    (fun b s h => by simpa using h) (hstart.sim requestT "")
  unfold evaluate
  simp only [hstart.off, ht, if_true]
  change (Step.loop passStep (fastPass request requestT uri filter m.db) s).Sat _ _ at hfirst
  generalize Step.loop passStep (fastPass request requestT uri filter m.db) s = o at hfirst ⊢
  cases o with
  | done r s₁ =>
    obtain ⟨rfl, hgood, hc, hset⟩ := hfirst
    have hadm : Admits m uri user := fun hn => (hset.found hn).2
    refine ⟨_, s₁, rfl, fun i => ?_, fun hemp _ => .inr (hopen hemp ▸ hset.covered)⟩
    have hbits := common_gives uri hc rfl i
    rcases hgood with hemp | hall
    · simp [String.isEmpty_iff.mp hemp, hadm, hbits]
    · -- all of the request is there, the filter can add nothing
      refine ⟨fun h => ⟨hadm, .inl (by simpa using hbits.mp h)⟩, fun h => ?_⟩
      rcases h.2 with h | ⟨-, v, -, h⟩
      · exact hbits.mpr (.inr h)
      · exact hall ▸ h.2.1
  | next s₁ =>
    dsimp only
    split
    · next hemp =>
      have hemp' := String.isEmpty_iff.mp hemp
      obtain ⟨a, s₂, ha, hbits, hdeep⟩ := finish_sim uri hfirst rfl .rfl
      exact ⟨a, s₂, ha, fun i => by simp [hbits, hemp'], fun _ => hopen hemp' ▸ hdeep⟩
    · next hne =>
      have hne' : filter ≠ "" := fun h => hne (String.isEmpty_iff.mpr h)
      obtain ⟨a, s₂, ha, hbits⟩ := evaluateFilter_untraced request filter (by rw [← ht]; exact hfirst)
      refine ⟨a, s₂, ha, fun i => ?_, fun h => absurd h hne'⟩
      rw [hbits, common_gives uri hfirst.1 rfl i]
      simp [hne']

/-- The second pass with tracing. It is reached only when exclusive authorization is required
and was not found, and then it does not find it either. -/
theorem evaluateFilter_traced {s : AzContext} (request : Access) (filter : String)
    (h : Sim m requestT "" base false (subjectWalk m user).exclusive (subjects m user) s
      (objectWalk m uri user)) (hadm : ¬Admits m uri user) :
    ∃ s', evaluateFilter request uri filter m.db s = (.ok 0, s') := by
  have hiff : ((subjectWalk m user).exclusive = true → s.isFoundExclusiveAz = true) ↔
      Admits m uri user := by
    rw [← h.1.need]
    exact h.passes
  have hfound := passWalk_found m uri user _ s.deep hiff
  have hsecond : ∀ s₁ : AzContext, s₁.frame = s.frame → s₁.calcRightRes = s.calcRightRes →
      ∃ s₂ s', Step.loop passStep (traceFilterPass request uri filter m.db)
          { s₁ with checkedGroups := ∅, walkedGroupsO := ∅ } = .next s₂ ∧
        finish s₂ = (.ok 0, s') := by
    intro s₁ hf hres
    have hpass := pass_sim uri (fun res _ => !res) (fun res _ => !res) (fun res _ => !res)
      (Q := fun _ _ => False)
      (fun r s' w' b s'' hle hl _ _ _ => hadm (hfound.mp fun hn =>
        hle.found (hl.sim.passes.mp hl.passes hn)))
      (h.second request filter hf hres)
    change (Step.loop passStep (traceFilterPass request uri filter m.db) _).Sat _ _ at hpass
    generalize Step.loop passStep (traceFilterPass request uri filter m.db) _ = o at hpass ⊢
    cases o with
    | done r s' => exact hpass.elim
    | next s' =>
      obtain ⟨s'', -, -, hno⟩ := finish_eq s'
      exact ⟨s', s'', rfl, hno fun hp => hadm (hfound.mp (hpass.1.passes.mp hp))⟩
  have hprint : (if s.trace.isInfo then printToTraceInfo ("USE FILTER: [" ++ filter ++ "]\n") s
      else s).frame = s.frame ∧ (if s.trace.isInfo then
        printToTraceInfo ("USE FILTER: [" ++ filter ++ "]\n") s else s).calcRightRes =
      s.calcRightRes := by
    split <;> exact ⟨rfl, rfl⟩
  unfold evaluateFilter
  dsimp only
  generalize (if s.trace.isInfo = true then _ else s) = s₁ at hprint ⊢
  rw [if_neg (by simp [(AzContext.off_of_frame hprint.1).trans h.1.off])]
  obtain ⟨s₂, s', hloop, hfinish⟩ := hsecond s₁ hprint.1 hprint.2
  rw [hloop]
  exact ⟨s', hfinish⟩

/-- What `_authorize` answers with tracing: the filter is never used. -/
theorem authorize_traced (m : AclIndex) (uri user : String) (request : Access) (t : Trace)
    (ht : t.off = false) :
    ∃ a s, authorize uri user request t m.db = (.ok a, s) ∧
      ∀ i, a.getLsbD i ↔ Admits m uri user ∧
        Gives m uri user (openRequest m uri request) "" i := by
  obtain ⟨s, hstart, heq⟩ := authorize_evaluate m uri user request t
  rw [heq]
  generalize openRequest m uri request = requestT
  generalize (filterOf m uri).1 = filter
  have hfirst := pass_sim uri
    (fun res azc => res && !(filter.isEmpty || request = azc.calcRightRes))
    (fun res azc => res && !(filter.isEmpty || request = azc.calcRightRes))
    (fun res _ => !res)
    (Q := fun r s => PassLeaves m requestT "" 0 false (subjectWalk m user).exclusive
      (subjects m user) r s (objectWalk m uri user))
    (fun r s' w' b s'' _ hl hb _ hcov => by
      -- with tracing no evaluation answers `true`
      have hb' : b = false := by
        cases b with
        | false => rfl
        | true => exact absurd (hcov rfl).1 (by simp)
      subst hb'
      rcases hb with hb | hb | ⟨-, rfl⟩
      · simp at hb
      · simp at hb
      · exact hl)
    (ht ▸ hstart.sim requestT "")
  unfold evaluate
  simp only [hstart.off, ht, Bool.false_eq_true, if_false]
  change (Step.loop passStep (tracePass request requestT uri filter m.db) s).Sat _ _ at hfirst
  generalize Step.loop passStep (tracePass request requestT uri filter m.db) s = o at hfirst ⊢
  cases o with
  | done r s₁ =>
    obtain ⟨rfl, hsim, hpass⟩ := hfirst
    refine ⟨_, s₁, rfl, fun i => ?_⟩
    simp [common_gives uri hsim.1 rfl i, show Admits m uri user from hsim.passes.mp hpass]
  | next s₁ =>
    obtain ⟨hsim, hpass⟩ := hfirst
    dsimp only
    split
    · obtain ⟨a, s₂, ha, hbits, -⟩ := finish_sim uri hsim rfl .rfl
      exact ⟨a, s₂, ha, fun i => by simp [hbits]⟩
    · have hadm : ¬Admits m uri user := fun h => by
        obtain ⟨b, hb, hoff⟩ := hpass (hsim.passes.mpr h)
        exact absurd (hoff (by simpa using hb)) (by simp)
      obtain ⟨s₂, hs₂⟩ := evaluateFilter_traced request filter hsim hadm
      exact ⟨0, s₂, hs₂, fun i => by simp [hadm]⟩

/-! ## Several rights at once -/

/-- Of the request only the bit itself matters. -/
theorem gives_iff (m : AclIndex) (uri user : String) (request : Access) (filter : String)
    (i : Nat) : Gives m uri user request filter i ↔
      request.getLsbD i ∧ Gives m uri user (BitVec.twoPow 8 i) filter i := by
  constructor
  · rintro ⟨v, hv, h4, hreq, hmask, hgrants⟩
    exact ⟨hreq, v, hv, h4, by simp; omega, hmask, hgrants⟩
  · rintro ⟨hreq, v, hv, h4, -, hmask, hgrants⟩
    exact ⟨v, hv, h4, hreq, hmask, hgrants⟩

theorem openRequest_bit (m : AclIndex) (uri : String) (request : Access) (i : Nat) :
    (openRequest m uri request).getLsbD i ↔
      request.getLsbD i ∧ (openRequest m uri (BitVec.twoPow 8 i)).getLsbD i := by
  unfold openRequest
  cases hr : request.getLsbD i with
  | false => split <;> simp [hr]
  | true =>
    have hi : i < 8 := BitVec.lt_of_getLsbD hr
    split <;> simp [hr, hi]

theorem getLsbD_foldl_or (l : List Access) (a : Access) (i : Nat) :
    (l.foldl (· ||| ·) a).getLsbD i ↔ a.getLsbD i ∨ ∃ x ∈ l, x.getLsbD i := by
  induction l generalizing a with
  | nil => simp
  | cons x l ih => simp [ih, or_assoc]

theorem mem_accessList_filter (request b : Access) :
    b ∈ accessList.filter (request &&& · ≠ 0) ↔
      ∃ k < 4, request.getLsbD k ∧ b = BitVec.twoPow 8 k := by
  rw [accessList_eq, List.mem_filter, List.mem_map]
  constructor
  · rintro ⟨⟨k, hk, rfl⟩, hbit⟩
    have hk4 := List.mem_range.mp hk
    exact ⟨k, hk4, (and_twoPow_ne_zero (by omega)).mp (by simpa using hbit), rfl⟩
  · rintro ⟨k, hk, hbit, rfl⟩
    refine ⟨⟨k, List.mem_range.mpr hk, rfl⟩, ?_⟩
    simpa using (and_twoPow_ne_zero (by omega)).mpr hbit

/-- A bit of an answer depends on the same bit of the request only, and is one of the four. -/
theorem authorize_bits (m : AclIndex) (uri user : String) (t : Trace) (ht : t.off = true) :
    ∃ answer : Access → Access,
      (∀ request, (authorize uri user request t m.db).1 = .ok (answer request)) ∧
      ∀ request i, (answer request).getLsbD i ↔
        i < 4 ∧ request.getLsbD i ∧ (answer (BitVec.twoPow 8 i)).getLsbD i := by
  have hall := fun request => authorize_untraced m uri user request t ht
  choose answer s heq hbits _ using hall
  refine ⟨answer, fun request => by rw [heq], fun request i => ?_⟩
  rw [hbits, hbits, gives_iff m uri user (openRequest m uri request), openRequest_bit,
    gives_iff m uri user request,
    gives_iff m uri user (openRequest m uri (BitVec.twoPow 8 i))]
  have h4 : ∀ f, Gives m uri user (BitVec.twoPow 8 i) f i → i < 4 :=
    fun f ⟨_, _, h, _⟩ => h
  constructor
  · rintro ⟨hadm, ⟨⟨hr, ho⟩, hg⟩ | ⟨hf, hr, hg⟩⟩
    · exact ⟨h4 _ hg, hr, hadm, .inl ⟨ho, hg⟩⟩
    · exact ⟨h4 _ hg, hr, hadm, .inr ⟨hf, hg⟩⟩
  · rintro ⟨-, hr, hadm, ⟨ho, hg⟩ | ⟨hf, hg⟩⟩
    · exact ⟨hadm, .inl ⟨⟨hr, ho⟩, hg⟩⟩
    · exact ⟨hadm, .inr ⟨hf, hr, hg⟩⟩

/-- Asking for several rights at once gives what asking for them one by one gives. -/
theorem authorize_bitwise (m : AclIndex) (uri user : String) (t : Trace) (ht : t.off = true) :
    ∃ answer : Access → Access,
      (∀ request, (authorize uri user request t m.db).1 = .ok (answer request)) ∧
      ∀ request, answer request =
        ((accessList.filter (request &&& · ≠ 0)).map answer).foldl (· ||| ·) 0 := by
  obtain ⟨answer, heq, hbit⟩ := authorize_bits m uri user t ht
  refine ⟨answer, heq, fun request => ?_⟩
  apply BitVec.eq_of_getLsbD_eq
  intro i _
  rw [Bool.eq_iff_iff, getLsbD_foldl_or, hbit]
  constructor
  · rintro ⟨h4, hr, ha⟩
    exact .inr ⟨_, List.mem_map_of_mem ((mem_accessList_filter _ _).mpr ⟨i, h4, hr, rfl⟩), ha⟩
  · rintro (h | ⟨x, hx, hxi⟩)
    · simp at h
    · obtain ⟨b, hb, rfl⟩ := List.mem_map.mp hx
      obtain ⟨k, hk, hr, rfl⟩ := (mem_accessList_filter _ _).mp hb
      obtain ⟨-, hki, -⟩ := (hbit _ i).mp hxi
      simp only [BitVec.getLsbD_twoPow, Bool.and_eq_true, decide_eq_true_eq] at hki
      obtain ⟨-, rfl⟩ := hki
      exact ⟨hk, hr, hxi⟩

/-- An object with a filter that leaves reading to unfiltered permissions. -/
def filterIndex : AclIndex := fun key =>
  if key = "Fo" then some "flt;2;"
  else if key = "Pflto" then some "u;F;"
  else none

theorem authorize_bitwise_filterIndex :
    ∃ answer : Access → Access,
      (∀ request, (authorize "o" "u" request {} filterIndex.db).1 = .ok (answer request)) ∧
      ∀ request, answer request =
        ((accessList.filter (request &&& · ≠ 0)).map answer).foldl (· ||| ·) 0 :=
  authorize_bitwise filterIndex "o" "u" {} rfl

/-! ## With and without tracing -/

/-- Tracing leaves the answer alone exactly when permissions under the filter give no requested
right beyond those of the first pass, or exclusive authorization fails anyway. -/
theorem authorize_trace_eq_iff (m : AclIndex) (uri user : String) (request : Access)
    (traced untraced : Trace) (ht : traced.off = false) (hu : untraced.off = true) :
    (authorize uri user request traced m.db).1 = (authorize uri user request untraced m.db).1 ↔
      (filterOf m uri).1 = "" ∨ ¬Admits m uri user ∨
        ∀ i, Gives m uri user request (filterOf m uri).1 i →
          Gives m uri user (openRequest m uri request) "" i := by
  obtain ⟨a, s, heq, ha⟩ := authorize_traced m uri user request traced ht
  obtain ⟨b, s', heq', hb, -⟩ := authorize_untraced m uri user request untraced hu
  rw [heq, heq']
  have hab : (Except.ok a : Except Int Access) = .ok b ↔ ∀ i, a.getLsbD i ↔ b.getLsbD i := by
    rw [Except.ok.injEq]
    refine ⟨fun h i => by rw [h], fun h => BitVec.eq_of_getLsbD_eq fun i _ => ?_⟩
    rw [Bool.eq_iff_iff]
    exact h i
  rw [hab]
  constructor
  · intro h
    by_cases hf : (filterOf m uri).1 = ""
    · exact .inl hf
    by_cases hadm : Admits m uri user
    · refine .inr (.inr fun i hi => ?_)
      exact ((ha i).mp ((h i).mpr ((hb i).mpr ⟨hadm, .inr ⟨hf, hi⟩⟩))).2
    · exact .inr (.inl hadm)
  · intro h i
    rw [ha, hb]
    refine and_congr_right fun hadm => ⟨.inl, ?_⟩
    rintro (hg | ⟨hf, hg⟩)
    · exact hg
    · rcases h with h | h | h
      · exact absurd h hf
      · exact absurd hadm h
      · exact h i hg

theorem authorize_trace_eq_iff_filterIndex :
    (authorize "o" "u" 15 { isInfo := true } filterIndex.db).1 =
        (authorize "o" "u" 15 {} filterIndex.db).1 ↔
      (filterOf filterIndex "o").1 = "" ∨ ¬Admits filterIndex "o" "u" ∨
        ∀ i, Gives filterIndex "o" "u" 15 (filterOf filterIndex "o").1 i →
          Gives filterIndex "o" "u" (openRequest filterIndex "o" 15) "" i :=
  authorize_trace_eq_iff filterIndex "o" "u" 15 { isInfo := true } {} rfl rfl

/-- All rights without tracing, none with it. -/
theorem authorize_trace_ne :
    ¬(authorize "o" "u" 15 { isInfo := true } filterIndex.db).1 =
      (authorize "o" "u" 15 {} filterIndex.db).1 := by
  have htraced : (authorize "o" "u" 15 { isInfo := true } filterIndex.db).1 = .ok 0 := by decide
  have huntraced : (authorize "o" "u" 15 {} filterIndex.db).1 = .ok 15 := by decide
  rw [htraced, huntraced]
  decide

end

end Veda.Authorization
