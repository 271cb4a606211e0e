import Veda.Authorization.Walk

/-! # The object walk of the code against the walk without request

`Sim` relates a state of `prepare_obj_group` to a state of `walkObjGroup`: the result holds
exactly the requested bits granted by the groups visited so far, and the two walks are either
in step or the code has nothing left to find. `prepareObjGroup_sim` carries the relation over a
whole call, for a traced and for an untraced evaluation. -/

namespace Veda.Authorization

section
variable (m : AclIndex) (request : Access) (filter : String) (base : Access) (off need : Bool)
variable (subject : StrMap Right)

/-- Some visit grants bit `i`. -/
def VisitsAllow (visits : List (String × Access)) (i : Nat) : Prop :=
  ∃ v ∈ visits, VisitAllows m request filter subject v.1 v.2 i

/-- The two walks are in step. -/
structure InStep (s : AzContext) (w : ObjWalk) : Prop where
  walked : s.walkedGroupsO = w.walked
  found : s.isFoundExclusiveAz = w.found
  deep : s.deep = w.deep

/-- The request is covered, and exclusive authorization is found where it is needed. -/
structure Settled (s : AzContext) (w : ObjWalk) : Prop where
  off : off = true
  covered : Covered request s
  found : need = true → s.isFoundExclusiveAz = true ∧ w.found = true

/-- What holds in step and after: `base` is the result the pass started with. -/
structure Common (s : AzContext) (w : ObjWalk) : Prop where
  off : s.trace.off = off
  need : s.isNeedExclusiveAz = need
  subject : s.subjectGroups = subject
  checked : CheckedInv m request filter s
  bits : ∀ i, s.calcRightRes.getLsbD i ↔
    base.getLsbD i ∨ VisitsAllow m request filter s.subjectGroups w.visits i

/-- The simulation relation. -/
def Sim (s : AzContext) (w : ObjWalk) : Prop :=
  Common m request filter base off need subject s w ∧
    (InStep s w ∨ Settled request off need s w)

variable {m request filter base off need subject}

theorem Settled.grow (hc : Common m request filter base off need subject s w)
    (hs : Settled request off need s w) (hi : Idle s s') (hle : w.Le w') :
    Common m request filter base off need subject s' w' ∧ Settled request off need s' w' := by
  have hcov := hi.covered hs.covered
  refine ⟨⟨by rw [hi.trace, hc.off], hi.need.trans hc.need, hi.subject.trans hc.subject, ?_, ?_⟩,
    hs.off, hcov, fun h => ⟨hi.found (hs.found h).1, hle.found (hs.found h).2⟩⟩
  · intro g mask hlook i hvisit
    rw [hi.checked] at hlook
    rw [hi.subject] at hvisit
    rw [hi.res]
    exact hc.checked g mask hlook i hvisit
  · intro i
    rw [hi.res, hi.subject, hc.bits]
    constructor
    · rintro (h | ⟨v, hv, ha⟩)
      · exact .inl h
      · exact .inr ⟨v, hle.visits v hv, ha⟩
    · rintro (h | ⟨v, hv, ha⟩)
      · exact .inl h
      · -- a later visit grants a requested bit, and all of those are there
        exact (hc.bits i).mp (covered_iff.mp hs.covered i ha.2.1)

/-- The relation on the loop states, which carry the suffix flag of the record. -/
def LoopSim (m : AclIndex) (request : Access) (filter : String) (base : Access) (off need : Bool)
    (subject : StrMap Right) (st : AzContext × Bool) (wt : ObjWalk × Bool) : Prop :=
  Common m request filter base off need subject st.1 wt.1 ∧
    ((InStep st.1 wt.1 ∧ st.2 = wt.2) ∨ Settled request off need st.1 wt.1)

/-- A state that differs from a related one in what `Common` does not mention is related. -/
theorem Common.of_eq (hc : Common m request filter base off need subject s w)
    (hoff : s'.trace.off = s.trace.off) (hneed : s'.isNeedExclusiveAz = s.isNeedExclusiveAz)
    (hsubj : s'.subjectGroups = s.subjectGroups) (hchk : s'.checkedGroups = s.checkedGroups)
    (hres : s'.calcRightRes = s.calcRightRes) (hvis : w'.visits = w.visits) :
    Common m request filter base off need subject s' w' := by
  refine ⟨hoff.trans hc.off, hneed.trans hc.need, hsubj.trans hc.subject, ?_, ?_⟩
  · intro g mask hlook i hi
    rw [hchk] at hlook
    rw [hsubj] at hi
    rw [hres]
    exact hc.checked g mask hlook i hi
  · intro i
    rw [hres, hvis, hsubj, hc.bits]

/-- Evaluating a group adds what its visit grants. -/
theorem Common.visit (hc : Common m request filter base off need subject s w)
    (he : Evaluates m request filter g mask s o) :
    Common m request filter base off need subject o.2
      { w with visits := (g, mask) :: w.visits } := by
  have hsubj := AzContext.subject_of_frame he.frame
  refine ⟨(AzContext.off_of_frame he.frame).trans hc.off,
    (AzContext.need_of_frame he.frame).trans hc.need, hsubj.trans hc.subject, he.checked, ?_⟩
  intro i
  rw [hsubj]
  constructor
  · intro h
    rcases he.sound i h with h | h
    · rcases (hc.bits i).mp h with h | ⟨v, hv, ha⟩
      · exact .inl h
      · exact .inr ⟨v, List.mem_cons_of_mem _ hv, ha⟩
    · exact .inr ⟨(g, mask), List.mem_cons_self, h⟩
  · rintro (h | ⟨v, hv, ha⟩)
    · exact he.mono i ((hc.bits i).mpr (.inl h))
    · rcases List.mem_cons.mp hv with rfl | hv
      · exact he.complete i ha
      · exact he.mono i ((hc.bits i).mpr (.inr ⟨v, hv, ha⟩))

theorem InStep.visit (vs : List (String × Access)) (hi : InStep s w)
    (he : Evaluates m request filter g mask s o) :
    InStep o.2 { w with visits := vs } :=
  ⟨(AzContext.walkedO_of_frame he.frame).trans hi.walked,
    (AzContext.found_of_frame he.frame).trans hi.found,
    (AzContext.deep_of_frame he.frame).trans hi.deep⟩

theorem markO_sim (uri : String) (group : Right) (acc : Access)
    (hc : Common m request filter base off need subject s w) (hi : InStep s w) :
    Common m request filter base off need subject (markO uri group acc s) (w.mark group.id acc) ∧
      InStep (markO uri group acc s) (w.mark group.id acc) := by
  have hwalked : s.walkedGroupsO.insert group.id
      (acc ||| (s.walkedGroupsO.lookup group.id).getD 0) = (w.mark group.id acc).walked := by
    rw [ObjWalk.mark, hi.walked]
  unfold markO
  dsimp only
  split
  · exact ⟨hc.of_eq rfl rfl rfl rfl rfl rfl, hwalked, hi.found, hi.deep⟩
  · exact ⟨hc.of_eq rfl rfl rfl rfl rfl rfl, hwalked, hi.found, hi.deep⟩

/-- How a loop of `prepare_obj_group` may be left: with success, settled. -/
def Leaves (m : AclIndex) (request : Access) (filter : String) (base : Access) (off need : Bool)
    (subject : StrMap Right) (r : Except Int Bool) (st : AzContext × Bool)
    (wt : ObjWalk × Bool) : Prop :=
  r = .ok true ∧ Common m request filter base off need subject st.1 wt.1 ∧
    Settled request off need st.1 wt.1

/-- The recursive calls of the two walks correspond. -/
structure Walks (m : AclIndex) (request : Access) (filter : String) (base : Access)
    (off need : Bool) (subject : StrMap Right) (walk : String → Access → AzContext → Outcome)
    (walkW : String → Access → ObjWalk → ObjWalk) : Prop where
  sim : ∀ uri access s w, Sim m request filter base off need subject s w →
    ∃ b s', walk uri access s = (.ok b, s') ∧
      Sim m request filter base off need subject s' (walkW uri access w)
  idle : ∀ uri access s, s.trace.off = true → Covered request s →
    ∃ b s', walk uri access s = (.ok b, s') ∧ Idle s s'
  le : ∀ uri access w, ObjWalk.Le w (walkW uri access w)

theorem enterGroup_sim (hw : Walks m request filter base off need subject walk walkW)
    (hc : Common m request filter base off need subject s w) (hi : InStep s w) :
    (enterGroup walk request g acc filter m.db suffix s).Sat
      (LoopSim m request filter base off need subject ·
        (walkW g acc { w with visits := (g, acc) :: w.visits }, suffix))
      (Leaves m request filter base off need subject · ·
        (walkW g acc { w with visits := (g, acc) :: w.visits }, suffix)) := by
  have he := authorizeObjGroup_spec g acc hc.checked
  have hc' := hc.visit he
  have hi' := hi.visit ((g, acc) :: w.visits) he
  generalize hw' : { w with visits := (g, acc) :: w.visits } = w' at hc' hi' ⊢
  unfold enterGroup
  generalize authorizeObjGroup request g acc filter m.db s = o at he hc' hi' ⊢
  obtain ⟨r, s'⟩ := o
  obtain ⟨b, hb, hgranted⟩ := he.result
  simp only at hb hgranted hc' hi'
  subst hb
  have hdescend : (descend (walk g acc s') suffix).Sat
      (LoopSim m request filter base off need subject · (walkW g acc w', suffix))
      (Leaves m request filter base off need subject · · (walkW g acc w', suffix)) := by
    obtain ⟨b', s'', hs'', hc'', hmode⟩ := hw.sim g acc s' w' ⟨hc', .inl hi'⟩
    simp only [descend, hs'']
    exact ⟨hc'', hmode.imp_left fun h => ⟨h, rfl⟩⟩
  cases b with
  | false => exact hdescend
  | true =>
    dsimp only
    split
    · next hleave =>
      obtain ⟨hoff, hcov⟩ := hgranted rfl
      have hset : Settled request off need s' w' := by
        refine ⟨hc.off.symm.trans hoff, hcov, fun h => ?_⟩
        have hf : s'.isFoundExclusiveAz = true := hleave.resolve_left (by simp [hc'.need, h])
        exact ⟨hf, hi'.found.symm.trans hf⟩
      exact ⟨rfl, hset.grow hc' (.refl s') (hw.le g acc w')⟩
    · exact hdescend

/-- One edge. -/
theorem objGroupStep_sim {st : AzContext × Bool} {wt : ObjWalk × Bool} (uri : String)
    (access : Access) (isTop : Bool) (len : Nat) (el : Right × Nat)
    (hw : Walks m request filter base off need subject walk walkW)
    (h : LoopSim m request filter base off need subject st wt) :
    (objGroupStep walk request uri access filter isTop len m.db el st).Sat
      (LoopSim m request filter base off need subject ·
        (ObjWalk.step need subject walkW uri access isTop len wt el))
      (Leaves m request filter base off need subject · ·
        (ObjWalk.step need subject walkW uri access isTop len wt el)) := by
  obtain ⟨s, suffix⟩ := st
  obtain ⟨hc, ⟨hstep, hsfx⟩ | hset⟩ := h
  · obtain ⟨w, suffixW⟩ := wt
    cases hsfx
    obtain ⟨group, idx⟩ := el
    unfold objGroupStep ObjWalk.step
    dsimp only at hc hstep ⊢
    split
    · exact ⟨hc, .inl ⟨hstep, rfl⟩⟩
    have htests : exclusiveTests s.isNeedExclusiveAz s.subjectGroups uri group.id isTop
        (idx = len - 1) s.isFoundExclusiveAz suffix =
        exclusiveTests need subject uri group.id isTop (idx = len - 1) w.found suffix := by
      rw [hc.need, hc.subject, hstep.found]
    rw [htests]
    generalize exclusiveTests need subject uri group.id isTop _ w.found suffix = tests
    have hc₁ : Common m request filter base off need subject
        { s with isFoundExclusiveAz := tests.1 } { w with found := tests.1 } :=
      hc.of_eq rfl rfl rfl rfl rfl rfl
    have hstep₁ : InStep { s with isFoundExclusiveAz := tests.1 } { w with found := tests.1 } :=
      ⟨hstep.walked, rfl, hstep.deep⟩
    split
    · exact ⟨hc₁, .inl ⟨hstep₁, rfl⟩⟩
    have hwalked : alreadyWalkedO (s.walkedGroupsO.lookup group.id) (group.access &&& access) =
        alreadyWalkedO (w.walked.lookup group.id) (group.access &&& access) := by
      rw [hstep.walked]
    rw [hwalked]
    split
    · exact ⟨hc₁, .inl ⟨hstep₁, rfl⟩⟩
    obtain ⟨hc₂, hstep₂⟩ := markO_sim uri group (group.access &&& access) hc₁ hstep₁
    split
    · exact ⟨hc₂, .inl ⟨hstep₂, rfl⟩⟩
    · exact enterGroup_sim hw hc₂ hstep₂
  · obtain ⟨s', suffix', hs', hi⟩ := objGroupStep_idle
      uri access isTop len el suffix (hc.off.trans hset.off) hset.covered hw.idle
    rw [hs']
    obtain ⟨hc', hset'⟩ := hset.grow hc hi (ObjWalk.step_le hw.le)
    exact ⟨hc', .inr hset'⟩

/-- A whole call of `prepare_obj_group`. -/
theorem prepareObjGroup_sim (left : Nat) (uri : String) (access : Access) (s : AzContext)
    (w : ObjWalk) (h : Sim m request filter base off need subject s w) :
    ∃ b s', prepareObjGroup request filter m.db left uri access s = (.ok b, s') ∧
      Sim m request filter base off need subject s'
        (walkObjGroup m need subject left uri access w) ∧
      (b = true → Settled request off need s'
        (walkObjGroup m need subject left uri access w)) := by
  induction left generalizing uri access s w with
  | zero =>
    refine ⟨false, _, rfl, ⟨h.1.of_eq rfl rfl rfl rfl rfl rfl, ?_⟩, by simp⟩
    exact h.2.imp (fun h => ⟨h.walked, h.found, rfl⟩) fun h => ⟨h.off, h.covered, h.found⟩
  | succ left ih =>
    have hfound : ∀ {s w}, Sim m request filter base off need subject s w →
        Sim m request filter base off need subject { s with isFoundExclusiveAz := true }
          { w with found := true } := fun h =>
      ⟨h.1.of_eq rfl rfl rfl rfl rfl rfl, h.2.imp (fun h => ⟨h.walked, rfl, h.deep⟩)
        fun h => ⟨h.off, h.covered, fun _ => ⟨rfl, rfl⟩⟩⟩
    unfold prepareObjGroup walkObjGroup
    cases hrec : m (membershipPrefix ++ uri) with
    | none =>
      rw [AclIndex.getFromDb_none hrec]
      refine ⟨false, _, rfl, ?_, by simp⟩
      split
      · exact hfound h
      · exact h
    | some str =>
      rw [AclIndex.getFromDb_some hrec]
      have hw : Walks m request filter base off need subject
          (prepareObjGroup request filter m.db left) (walkObjGroup m need subject left) := by
        refine ⟨fun uri access s w h => ?_, prepareObjGroup_idle m left, walkObjGroup_le m left⟩
        obtain ⟨b, s', hs', hsim, -⟩ := ih uri access s w h
        exact ⟨b, s', hs', hsim⟩
      have hloop := Step.loop_sim
        (f := objGroupStep (prepareObjGroup request filter m.db left) request uri access filter
          (left = 32) (elements str).length m.db)
        (g := ObjWalk.step need subject (walkObjGroup m need subject left) uri access
          (left = 32) (elements str).length)
        (R := LoopSim m request filter base off need subject)
        (Q := Leaves m request filter base off need subject)
        (l := (elements str).zipIdx) (s := (s, false)) (t := (w, false))
        (fun el _ st wt hst => objGroupStep_sim uri access (left = 32) (elements str).length
          el hw hst)
        (fun el _ r st wt hq =>
          ⟨hq.1, hq.2.2.grow hq.2.1 (.refl st.1) (ObjWalk.step_le hw.le)⟩)
        ⟨h.1, h.2.imp_left fun h => ⟨h, rfl⟩⟩
      dsimp only
      generalize List.foldl _ (w, false) (elements str).zipIdx = wt at hloop ⊢
      generalize Step.loop _ _ (s, false) = o at hloop ⊢
      obtain ⟨s', sfx⟩ | ⟨r, s', sfx⟩ := o
      · have hsim : Sim m request filter base off need subject s' wt.1 :=
          ⟨hloop.1, hloop.2.imp_left fun h => h.1⟩
        refine ⟨false, _, rfl, ?_, by simp⟩
        split
        · exact hfound hsim
        · exact hsim
      · obtain ⟨rfl, hc, hset⟩ := hloop
        have hle : ObjWalk.Le wt.1 (if (elements str).length = 0 then
            { wt.1 with found := true } else wt.1) := by
          split
          · exact ⟨fun _ h => h, fun _ => rfl, fun h => h⟩
          · exact .refl _
        have hgrow := hset.grow hc (.refl s') hle
        exact ⟨true, s', rfl, ⟨hgrow.1, .inr hgrow.2⟩, fun _ => hgrow.2⟩

end

end Veda.Authorization
