import Mathlib.Tactic.IntervalCases
import Veda.Lib.Search
import Veda.Authorization.Decision

/-! # The answer as reachability in the membership graph

The walks of `Walk.lean` are depth-first searches with marks. The subject walk marks groups;
the object walk marks a group with an access mask, which is one search for each bit of the mask.
With `Search.Explores` this gives `authorize_exact`: without a filter and without exclusive
memberships the answer is a statement about paths. -/

namespace Veda.Authorization

open Search

/-! ## The membership graph -/

section
variable (m : AclIndex)

/-- The record of `a` has an entry for `b`. -/
def Member (a b : String) : Prop := ∃ e ∈ m.memberships a, e.id = b

/-- The record of `a` has an entry for `b` that is not exclusive and lets bit `i` through. -/
def MemberWith (i : Nat) (a b : String) : Prop :=
  ∃ e ∈ m.memberships a, e.id = b ∧ e.marker ≠ mIsExclusive ∧ e.access.getLsbD i

/-- The edges the walks follow: entries without an id are skipped. -/
def SubjEdge (a b : String) : Prop := ∃ e ∈ m.memberships a, e.id ≠ "" ∧ e.id = b

@[inherit_doc SubjEdge]
def ObjEdge (i : Nat) (a b : String) : Prop :=
  ∃ e ∈ m.memberships a, e.id ≠ "" ∧ e.id = b ∧ e.marker ≠ mIsExclusive ∧ e.access.getLsbD i

variable {m}

theorem SubjEdge.member (h : SubjEdge m a b) : Member m a b := by
  obtain ⟨e, he, -, hb⟩ := h
  exact ⟨e, he, hb⟩

theorem ObjEdge.memberWith (h : ObjEdge m i a b) : MemberWith m i a b := by
  obtain ⟨e, he, -, hb⟩ := h
  exact ⟨e, he, hb⟩

theorem Member.subjEdge (hids : ∀ a, ∀ e ∈ m.memberships a, e.id ≠ "") (h : Member m a b) :
    SubjEdge m a b := by
  obtain ⟨e, he, hb⟩ := h
  exact ⟨e, he, hids a e he, hb⟩

theorem MemberWith.objEdge (hids : ∀ a, ∀ e ∈ m.memberships a, e.id ≠ "")
    (h : MemberWith m i a b) : ObjEdge m i a b := by
  obtain ⟨e, he, hb⟩ := h
  exact ⟨e, he, hids a e he, hb⟩

end

/-! ## The subject walk -/

namespace SubjWalk

/-- The walked groups are the marks. -/
def view : View SubjWalk String where
  marks w := {g | g ∈ w.walked}
  results w := {g | g ∈ w.groups}
  failed w := w.deep

variable {m : AclIndex} {w : SubjWalk}

theorem mark_subset : view.marks w ⊆ view.marks (w.mark group acc) := fun _ h =>
  (AList.mem_insert _).mpr (.inr h)

theorem mark_marks : view.marks (w.mark group acc) ⊆ insert group.id (view.marks w) := fun _ h =>
  (AList.mem_insert _).mp h

theorem id_mem_mark : group.id ∈ view.marks (w.mark group acc) :=
  (AList.mem_insert _).mpr (.inl rfl)

theorem finishGroup_results :
    view.results (finishGroup level ign group acc w) = insert group.id (view.results w) := by
  ext g
  exact AList.mem_insert _

/-- The recursive call searches the record of its group to the end. -/
def CallExplores (m : AclIndex) (walk : String → Access → Bool → SubjWalk → SubjWalk) : Prop :=
  ∀ uri access ign w, view.Explored (SubjEdge m) {uri} w (walk uri access ign w) ∧
    ((walk uri access ign w).deep = false →
      Closed (SubjEdge m) (view.marks (walk uri access ign w)) uri)

theorem step_explored (uri : String) (access : Access) (level : Nat) (ign : Bool)
    (hwalk : CallExplores m walk) (w : SubjWalk) (group : Right) :
    view.Explored (SubjEdge m) {uri} w (step walk uri access level ign w group) ∧
    (view.failed (step walk uri access level ign w group) = false → ∀ y,
      (group.id ≠ "" ∧ group.id = y) → y ∈ view.marks (step walk uri access level ign w group)) := by
  unfold step
  dsimp only
  split
  · next h => exact ⟨.of_eq rfl rfl rfl, fun _ y hy => absurd h hy.1⟩
  split
  · next h =>
    refine ⟨.of_eq rfl rfl rfl, fun _ y hy => ?_⟩
    obtain ⟨v, hv, -⟩ := (Option.any_eq_true _ _).mp h
    exact AList.lookup_isSome.mp (by rw [← hy.2, hv]; rfl)
  split
  · next h =>
    refine ⟨⟨id, fun _ => ?_, fun _ h => h⟩, fun _ y hy => hy.2 ▸ id_mem_mark⟩
    exact .mark_self (x := group.id) h.symm mark_subset mark_marks
  · obtain ⟨hexp, hclosed⟩ := hwalk group.id 15 (ign || decide (group.marker = mIgnoreExclusive))
      (w.mark group (group.access &&& access))
    refine ⟨⟨hexp.failed, fun hok => ?_, ?_⟩, fun hok y hy => ?_⟩
    · refine .visit (hexp.explores hok) mark_subset mark_marks (hclosed hok) ?_ ?_
      · rw [finishGroup_results]
        exact Set.mem_insert _ _
      · rw [finishGroup_results]
        exact Set.subset_insert _ _
    · rw [finishGroup_results]
      exact Set.Subset.trans hexp.results (Set.subset_insert _ _)
    · exact hy.2 ▸ (hexp.explores hok).mono id_mem_mark

/-- What the walk from `root` has collected belongs to groups reachable from `root`. -/
structure Sound (m : AclIndex) (root : String) (w : SubjWalk) : Prop where
  groups : ∀ g ∈ w.groups, Relation.ReflTransGen (SubjEdge m) root g
  exclusive : w.exclusive = true → ∃ a, Relation.ReflTransGen (SubjEdge m) root a ∧
    ∃ e ∈ m.memberships a, e.marker = mIsExclusive

theorem step_sound
    (hwalk : ∀ uri access ign w, Relation.ReflTransGen (SubjEdge m) root uri → Sound m root w →
      Sound m root (walk uri access ign w))
    (huri : Relation.ReflTransGen (SubjEdge m) root uri) (hgroup : group ∈ m.memberships uri)
    (h : Sound m root w) : Sound m root (step walk uri access level ign w group) := by
  unfold step
  dsimp only
  split
  · exact h
  next hne =>
  split
  · exact h
  split
  · exact ⟨h.groups, h.exclusive⟩
  · have hedge : Relation.ReflTransGen (SubjEdge m) root group.id :=
      huri.tail ⟨group, hgroup, hne, rfl⟩
    have hcall := hwalk group.id 15 (ign || decide (group.marker = mIgnoreExclusive))
      (w.mark group (group.access &&& access)) hedge ⟨h.groups, h.exclusive⟩
    refine ⟨fun g hg => ?_, fun hx => ?_⟩
    · rcases (AList.mem_insert _).mp hg with rfl | hg
      · exact hedge
      · exact hcall.groups g hg
    · simp only [finishGroup, Bool.or_eq_true, Bool.and_eq_true, decide_eq_true_eq] at hx
      rcases hx with hx | ⟨-, hx⟩
      · exact hcall.exclusive hx
      · exact ⟨uri, huri, group, hgroup, hx⟩

end SubjWalk

theorem walkResourceGroups_explores (m : AclIndex) (left : Nat) :
    SubjWalk.CallExplores m (walkResourceGroups m left) := by
  induction left with
  | zero =>
    refine fun uri access ign w => ⟨⟨fun _ => rfl, fun h => ?_, fun _ h => h⟩, fun h => ?_⟩
    · cases h
    · cases h
  | succ left ih =>
    intro uri access ign w
    unfold walkResourceGroups
    obtain ⟨hexp, hmarks⟩ := View.foldl_explored (m.memberships uri)
      (fun w e _ => SubjWalk.step_explored uri access (32 - left) ign ih w e) w
    refine ⟨hexp, fun hok y hy => ?_⟩
    obtain ⟨e, he, hy⟩ := hy
    exact hmarks hok e he y hy

theorem walkResourceGroups_sound (m : AclIndex) (root : String) (left : Nat) (uri : String)
    (access : Access) (ign : Bool) (w : SubjWalk)
    (huri : Relation.ReflTransGen (SubjEdge m) root uri) (h : w.Sound m root) :
    (walkResourceGroups m left uri access ign w).Sound m root := by
  induction left generalizing uri access ign w with
  | zero => exact ⟨h.groups, h.exclusive⟩
  | succ left ih =>
    unfold walkResourceGroups
    exact List.foldlRecOn _ _ h fun w hw e he =>
      SubjWalk.step_sound (fun _ _ _ _ => ih _ _ _ _) huri he hw

theorem subjectWalk_sound (m : AclIndex) (user : String) : (subjectWalk m user).Sound m user :=
  walkResourceGroups_sound m user 33 user 15 false _ .refl
    ⟨fun g h => absurd h (AList.notMem_empty g), by simp⟩

theorem mem_subjects_sound (h : g ∈ subjects m user) :
    Relation.ReflTransGen (SubjEdge m) user g := by
  rcases (AList.mem_insert _).mp h with rfl | h
  · exact .refl
  · exact (subjectWalk_sound m user).groups g h

/-- The subjects of the evaluation are the user and the groups reachable from the user. -/
theorem mem_subjects_iff (hdeep : (subjectWalk m user).deep = false) :
    g ∈ subjects m user ↔ Relation.ReflTransGen (SubjEdge m) user g := by
  obtain ⟨hexp, hclosed⟩ := walkResourceGroups_explores m 33 user 15 false
    { walked := ∅, groups := ∅, exclusive := false, deep := false }
  have hempty : SubjWalk.view.marks
      { walked := ∅, groups := ∅, exclusive := false, deep := false } = ∅ := by
    ext g
    exact iff_of_false (AList.notMem_empty g) (Set.notMem_empty g)
  have hexp := hexp.explores hdeep
  rw [hempty] at hexp
  exact ⟨mem_subjects_sound, fun h =>
    (AList.mem_insert _).mpr (hexp.reach (hclosed hdeep) h)⟩

/-! ## The object walk, one bit at a time -/

namespace ObjWalk

/-- Groups walked, and visited, with a mask that has bit `i`. -/
def view (i : Nat) : View ObjWalk String where
  marks w := {g | ((w.walked.lookup g).getD 0).getLsbD i}
  results w := {g | ∃ mask, (g, mask) ∈ w.visits ∧ mask.getLsbD i}
  failed w := w.deep

/-- The open nodes of a call: its own node, if its access has the bit. -/
def openAt (i : Nat) (uri : String) (access : Access) : Set String :=
  {g | g = uri ∧ access.getLsbD i}

variable {m : AclIndex} {w : ObjWalk} {i : Nat} {access acc : Access}

theorem openAt_eq (h : access.getLsbD i = true) : openAt i uri access = {uri} := by
  ext g
  exact ⟨fun hg => hg.1, fun hg => ⟨hg, h⟩⟩

theorem openAt_eq_empty (h : access.getLsbD i = false) : openAt i uri access = ∅ := by
  ext g
  exact ⟨fun hg => absurd hg.2 (by simp [h]), fun hg => absurd hg (Set.notMem_empty g)⟩

theorem mem_mark : x ∈ (view i).marks (w.mark g acc) ↔
    x ∈ (view i).marks w ∨ x = g ∧ acc.getLsbD i := by
  by_cases hx : x = g
  · subst hx
    simp [view, mark, or_comm]
  · simp [view, mark, AList.lookup_insert_ne hx, hx]

theorem mark_subset : (view i).marks w ⊆ (view i).marks (w.mark g acc) := fun _ h =>
  mem_mark.mpr (.inl h)

theorem mark_marks : (view i).marks (w.mark g acc) ⊆ insert g ((view i).marks w) := fun _ h =>
  (mem_mark.mp h).elim .inr fun h => .inl h.1

theorem mark_marks_eq (h : acc.getLsbD i = false) :
    (view i).marks (w.mark g acc) = (view i).marks w := by
  ext x
  simp [mem_mark, h]

/-- The recursive call searches the record of its group to the end, for the bits it has. -/
def CallExplores (m : AclIndex) (i : Nat) (walk : String → Access → ObjWalk → ObjWalk) : Prop :=
  ∀ uri access w, (view i).Explored (ObjEdge m i) (openAt i uri access) w (walk uri access w) ∧
    ((walk uri access w).deep = false → access.getLsbD i →
      Closed (ObjEdge m i) ((view i).marks (walk uri access w)) uri)

/-- The edge has to be followed to `y` for bit `i`. -/
def Follows (i : Nat) (access : Access) (e : Right × Nat) (y : String) : Prop :=
  e.1.id ≠ "" ∧ e.1.id = y ∧ e.1.marker ≠ mIsExclusive ∧ e.1.access.getLsbD i ∧ access.getLsbD i

/-- The view of a loop state, which carries the suffix flag. -/
def loopView (i : Nat) : View (ObjWalk × Bool) String where
  marks st := (view i).marks st.1
  results st := (view i).results st.1
  failed st := st.1.deep

theorem step_explored (need : Bool) (subject : StrMap Right) (uri : String) (access : Access)
    (isTop : Bool) (len : Nat) (hwalk : CallExplores m i walk) (st : ObjWalk × Bool)
    (e : Right × Nat) :
    (loopView i).Explored (ObjEdge m i) (openAt i uri access) st
      (step need subject walk uri access isTop len st e) ∧
    ((loopView i).failed (step need subject walk uri access isTop len st e) = false → ∀ y,
      Follows i access e y →
        y ∈ (loopView i).marks (step need subject walk uri access isTop len st e)) := by
  unfold step
  split
  · next h => exact ⟨.of_eq rfl rfl rfl, fun _ y hy => absurd h hy.1⟩
  dsimp only
  generalize exclusiveTests need subject uri e.1.id isTop _ st.1.found st.2 = tests
  split
  · next h => exact ⟨.of_eq rfl rfl rfl, fun _ y hy => absurd h hy.2.2.1⟩
  split
  · next h =>
    refine ⟨.of_eq rfl rfl rfl, fun _ y hy => ?_⟩
    obtain ⟨preur, hpre, hcov⟩ := (Option.any_eq_true _ _).mp h
    have hbit := and_eq_right_iff.mp (by simpa using hcov) i (by simp [hy.2.2.2])
    simpa [loopView, view, ← hy.2.1, hpre] using hbit
  have hmem : ∀ {w' : ObjWalk} y, Follows i access e y →
      y ∈ (view i).marks (w'.mark e.1.id (e.1.access &&& access)) := fun y hy =>
    mem_mark.mpr (.inr ⟨hy.2.1.symm, by simp [hy.2.2.2]⟩)
  split
  · next h =>
    refine ⟨⟨id, fun _ => ?_, fun _ h => h⟩, fun _ y hy => hmem y hy⟩
    cases hacc : (e.1.access &&& access).getLsbD i with
    | false =>
      have heq := mark_marks_eq (w := { st.1 with found := tests.1 }) (g := e.1.id) hacc
      exact Eq.symm heq ▸ .refl
    | true =>
      have hbit : access.getLsbD i = true := by
        rw [BitVec.getLsbD_and, Bool.and_eq_true] at hacc
        exact hacc.2
      exact .mark_self (x := e.1.id) ⟨h.symm, hbit⟩ mark_subset mark_marks
  · generalize hw : ({ walked := _, visits := _, found := _, deep := _ } : ObjWalk) = w'
    obtain ⟨hexp, hclosed⟩ := hwalk e.1.id (e.1.access &&& access) w'
    have hmarks : (view i).marks w' =
        (view i).marks (st.1.mark e.1.id (e.1.access &&& access)) := by
      rw [← hw]
      rfl
    have hres : (view i).results st.1 ⊆ (view i).results w' := by
      rw [← hw]
      exact fun g ⟨mask, hmask, hbit⟩ => ⟨mask, List.mem_cons_of_mem _ hmask, hbit⟩
    have hfailed : st.1.deep = w'.deep := by
      rw [← hw]
      rfl
    refine ⟨⟨fun h => hexp.failed (hfailed.symm.trans h), fun hok => ?_,
      hres.trans hexp.results⟩, fun hok y hy => ?_⟩
    · have hexp' := hexp.explores hok
      cases hacc : (e.1.access &&& access).getLsbD i with
      | false =>
        rw [openAt_eq_empty hacc, hmarks, mark_marks_eq hacc] at hexp'
        exact Explores.trans .refl hexp' (Set.empty_subset _) (Set.empty_subset _)
      | true =>
        rw [openAt_eq hacc, hmarks] at hexp'
        refine .visit hexp' mark_subset mark_marks (hclosed hok hacc) ?_ fun _ h => h
        refine hexp.results ⟨_, ?_, hacc⟩
        rw [← hw]
        exact List.mem_cons_self
    · exact (hexp.explores hok).mono (hmarks ▸ hmem y hy)

/-- Visits outside `base` are of groups reachable with every bit of their mask. -/
def Sound (m : AclIndex) (root : String) (base : List (String × Access)) (w : ObjWalk) : Prop :=
  ∀ v ∈ w.visits, v ∈ base ∨
    ∀ i, v.2.getLsbD i → Relation.ReflTransGen (ObjEdge m i) root v.1

theorem step_sound {st : ObjWalk × Bool} {e : Right × Nat}
    (hwalk : ∀ uri (access : Access) w,
      (∀ i, access.getLsbD i → Relation.ReflTransGen (ObjEdge m i) root uri) →
      Sound m root base w → Sound m root base (walk uri access w))
    (huri : ∀ i, access.getLsbD i → Relation.ReflTransGen (ObjEdge m i) root uri)
    (he : e.1 ∈ m.memberships uri) (h : Sound m root base st.1) :
    Sound m root base (step need subject walk uri access isTop len st e).1 := by
  unfold step
  split
  · exact h
  next hne =>
  dsimp only
  split
  · exact h
  next hmarker =>
  split
  · exact h
  split
  · exact h
  · have hedge : ∀ i, (e.1.access &&& access).getLsbD i →
        Relation.ReflTransGen (ObjEdge m i) root e.1.id := by
      intro i hi
      rw [BitVec.getLsbD_and, Bool.and_eq_true] at hi
      exact (huri i hi.2).tail ⟨e.1, he, hne, rfl, hmarker, hi.1⟩
    refine hwalk _ _ _ hedge fun v hv => ?_
    rcases List.mem_cons.mp hv with rfl | hv
    · exact .inr hedge
    · exact h v hv

end ObjWalk

/-- The walk over a record, without the search for exclusive authorization. -/
theorem walkObjGroup_succ (m : AclIndex) (need : Bool) (subject : StrMap Right) (left : Nat)
    (uri : String) (access : Access) (w : ObjWalk) :
    ∃ found, walkObjGroup m need subject (left + 1) uri access w =
      { ((m.memberships uri).zipIdx.foldl (ObjWalk.step need subject
        (walkObjGroup m need subject left) uri access (left = 32) (m.memberships uri).length)
        (w, false)).1 with found := found } := by
  rw [walkObjGroup]
  cases hrec : m (membershipPrefix ++ uri) with
  | none =>
    rw [AclIndex.memberships, AclIndex.entries_none hrec]
    dsimp only
    split
    · exact ⟨true, rfl⟩
    · exact ⟨w.found, rfl⟩
  | some str =>
    rw [AclIndex.memberships, AclIndex.entries_some hrec]
    dsimp only
    split
    · exact ⟨true, rfl⟩
    · exact ⟨_, rfl⟩

theorem walkObjGroup_explores (m : AclIndex) (need : Bool) (subject : StrMap Right)
    (i left : Nat) :
    ObjWalk.CallExplores m i (walkObjGroup m need subject left) := by
  induction left with
  | zero =>
    refine fun uri access w => ⟨⟨fun _ => rfl, fun h => ?_, fun _ h => h⟩, fun h => ?_⟩
    · cases h
    · cases h
  | succ left ih =>
    intro uri access w
    obtain ⟨hexp, hmarks⟩ := View.foldl_explored (m.memberships uri).zipIdx
      (fun st e _ => ObjWalk.step_explored need subject uri access (left = 32)
        (m.memberships uri).length ih st e)
      (w, false)
    obtain ⟨found, heq⟩ := walkObjGroup_succ m need subject left uri access w
    rw [heq]
    refine ⟨⟨hexp.failed, hexp.explores, hexp.results⟩, fun hok hbit y hy => ?_⟩
    obtain ⟨e, he, hne, hid, hmarker, hacc⟩ := hy
    obtain ⟨n, hn⟩ := List.mem_iff_getElem.mp he
    obtain ⟨hn, rfl⟩ := hn
    exact hmarks hok _ (List.mk_mem_zipIdx_iff_getElem?.mpr (List.getElem?_eq_getElem hn)) y
      ⟨hne, hid, hmarker, hacc, hbit⟩

theorem walkObjGroup_sound (m : AclIndex) (need : Bool) (subject : StrMap Right) (root : String)
    (base : List (String × Access)) (left : Nat) (uri : String) (access : Access) (w : ObjWalk)
    (huri : ∀ i, access.getLsbD i → Relation.ReflTransGen (ObjEdge m i) root uri)
    (h : w.Sound m root base) :
    (walkObjGroup m need subject left uri access w).Sound m root base := by
  induction left generalizing uri access w with
  | zero => exact h
  | succ left ih =>
    obtain ⟨found, heq⟩ := walkObjGroup_succ m need subject left uri access w
    rw [heq]
    exact List.foldlRecOn (motive := fun st : ObjWalk × Bool => ObjWalk.Sound m root base st.1)
      _ _ h fun st hst e he => ObjWalk.step_sound (fun _ _ _ => ih _ _ _) huri
        (List.fst_mem_of_mem_zipIdx he) hst

/-- The groups visited with bit `i` are reachable with it. -/
theorem objectWalk_sound (hv : (g, mask) ∈ (objectWalk m uri user).visits)
    (hi : mask.getLsbD i) : g = allResourcesGroup ∨ Relation.ReflTransGen (ObjEdge m i) uri g := by
  have h := walkObjGroup_sound m (subjectWalk m user).exclusive (subjects m user) uri
    [(uri, 15), (allResourcesGroup, 15)] 33 uri 15
    { startWalk false (subjectWalk m user).deep with
      visits := [(uri, 15), (allResourcesGroup, 15)] } (fun _ _ => .refl) (fun v hv => .inl hv)
  rcases h (g, mask) hv with hbase | hreach
  · simp only [List.mem_cons, Prod.mk.injEq, List.not_mem_nil, or_false] at hbase
    rcases hbase with ⟨rfl, -⟩ | ⟨rfl, -⟩
    · exact .inr .refl
    · exact .inl rfl
  · exact .inr (hreach i hi)

/-- A walk that ends within its levels visits all that is reachable. -/
theorem objectWalk_complete (hi : i < 4) (hdeep : (objectWalk m uri user).deep = false)
    (hg : g = allResourcesGroup ∨ Relation.ReflTransGen (ObjEdge m i) uri g) :
    ∃ mask, (g, mask) ∈ (objectWalk m uri user).visits ∧ mask.getLsbD i := by
  have hle : ObjWalk.Le { startWalk false (subjectWalk m user).deep with
      visits := [(uri, 15), (allResourcesGroup, 15)] } (objectWalk m uri user) :=
    walkObjGroup_le m 33 uri 15 _
  obtain ⟨hexp, hclosed⟩ := walkObjGroup_explores m (subjectWalk m user).exclusive
    (subjects m user) i 33 uri 15
    { startWalk false (subjectWalk m user).deep with
      visits := [(uri, 15), (allResourcesGroup, 15)] }
  have hempty : (ObjWalk.view i).marks { startWalk false (subjectWalk m user).deep with
      visits := [(uri, 15), (allResourcesGroup, 15)] } = ∅ := by
    ext g
    simp [ObjWalk.view, startWalk, AList.lookup_empty]
  rcases hg with rfl | hg
  · exact ⟨15, hle.visits _ (by simp), getLsbD_fifteen hi⟩
  · have hexp := hexp.explores hdeep
    rw [ObjWalk.openAt_eq (getLsbD_fifteen hi), hempty] at hexp
    rcases hexp.reach (hclosed hdeep (getLsbD_fifteen hi)) hg with rfl | hres
    · exact ⟨15, hle.visits _ (by simp), getLsbD_fifteen hi⟩
    · exact hres

/-! ## The answer -/

/-- The rights an entry of a permission record stands for: all of it, if it denies nothing, and
else the granted bits less the denied ones. -/
def effectiveAccess (access : Access) : Access :=
  if access ≤ 15 then access else access &&& (0x0F : Access) &&& ~~~(access >>> 4)

theorem permissionAccess_eq (access : Access) :
    permissionAccess access = effectiveAccess access := by
  unfold permissionAccess effectiveAccess
  by_cases h : access ≤ 15
  · rw [if_pos h, if_neg (BitVec.not_lt.mpr h)]
  · rw [if_neg h, if_pos (BitVec.not_le.mp h)]
    apply BitVec.eq_of_getLsbD_eq
    intro i hi
    interval_cases i <;> simp [Bool.and_comm]

theorem effectiveAccess_lt (h : (effectiveAccess access).getLsbD i) : i < 4 := by
  unfold effectiveAccess at h
  split at h
  · next hle =>
    by_contra h4
    have hlt : access.toNat < 2 ^ i := lt_of_le_of_lt hle
      (lt_of_lt_of_le (by decide : (15 : Access).toNat < 2 ^ 4)
        (Nat.pow_le_pow_right (by omega) (by omega)))
    rw [BitVec.getLsbD, Nat.testBit_lt_two_pow hlt] at h
    cases h
  · simp only [BitVec.getLsbD_and, Bool.and_eq_true] at h
    by_contra h4
    have hi := BitVec.lt_of_getLsbD h.2
    have h15 := h.1.2
    interval_cases i <;> simp_all

/-- The access decision without a filter and without exclusive memberships of the user: bit `i`
of the request is granted exactly when an object group reachable with it has a permission for a
subject reachable from the user. -/
theorem authorize_exact (m : AclIndex) (uri user : String) (request : Access) (t : Trace)
    (ht : t.off = true) (hfilter : m (filterPrefix ++ uri) = none)
    (hx : ∀ a, Relation.ReflTransGen (Member m) user a →
      ∀ e ∈ m.memberships a, e.marker ≠ mIsExclusive)
    (hids : ∀ a, ∀ e ∈ m.memberships a, e.id ≠ "")
    (hdeep : (authorize uri user request t m.db).2.deep = false) :
    ∃ answer, (authorize uri user request t m.db).1 = .ok answer ∧
      ∀ i, answer.getLsbD i ↔ request.getLsbD i ∧ ∃ g s,
        (g = allResourcesGroup ∨ Relation.ReflTransGen (MemberWith m i) uri g) ∧
        Relation.ReflTransGen (Member m) user s ∧
        ∃ p ∈ m.permissions "" g, p.id = s ∧ (effectiveAccess p.access).getLsbD i := by
  have hnofilter : (filterOf m uri).1 = "" := by
    simp only [filterOf, readFilter, AclIndex.getFromDb_none hfilter]
    rfl
  have hadm : Admits m uri user := by
    intro hn
    obtain ⟨a, ha, e, he, hmarker⟩ := (subjectWalk_sound m user).exclusive hn
    exact absurd hmarker (hx a (Relation.ReflTransGen.mono (fun _ _ h => h.member) _ _ ha) e he)
  obtain ⟨answer, s, heq, hbits, hcov⟩ := authorize_untraced m uri user request t ht
  rw [heq] at hdeep ⊢
  refine ⟨answer, rfl, fun i => ?_⟩
  have hi : answer.getLsbD i ↔ Gives m uri user request "" i := by
    rw [hbits, openRequest_of_empty _ hnofilter]
    simp [hadm, hnofilter]
  constructor
  · intro h
    obtain ⟨⟨g, mask⟩, hv, h4, hreq, hmask, p, hp, hsubj, hacc⟩ := hi.mp h
    refine ⟨hreq, g, p.id, ?_, ?_, p, hp, rfl, permissionAccess_eq _ ▸ hacc⟩
    · exact (objectWalk_sound hv hmask).imp_right
        (Relation.ReflTransGen.mono (fun _ _ h => h.memberWith) _ _)
    · exact Relation.ReflTransGen.mono (fun _ _ h => h.member) _ _ (mem_subjects_sound hsubj)
  · rintro ⟨hreq, g, s', hg, hs', p, hp, rfl, hacc⟩
    rcases hcov hnofilter hadm with hsame | hall
    · -- the whole of the two walks was made
      have hobj : (objectWalk m uri user).deep = false := hsame.symm.trans hdeep
      have hsub : (subjectWalk m user).deep = false := by
        cases hd : (subjectWalk m user).deep with
        | false => rfl
        | true => rw [← hobj]; exact ((walkObjGroup_le m 33 uri 15 _).deep hd).symm
      have h4 := effectiveAccess_lt hacc
      obtain ⟨mask, hv, hmask⟩ := objectWalk_complete h4 hobj
        (hg.imp_right (Relation.ReflTransGen.mono (fun _ _ h => h.objEdge hids) _ _))
      refine hi.mpr ⟨(g, mask), hv, h4, hreq, hmask, p, hp, ?_, permissionAccess_eq _ ▸ hacc⟩
      exact (mem_subjects_iff hsub).mpr
        (Relation.ReflTransGen.mono (fun _ _ h => h.subjEdge hids) _ _ hs')
    · exact and_eq_right_iff.mp hall i hreq

/-- A diamond of object groups with different masks and a cycle of subject groups. -/
def diamondIndex : AclIndex := fun key =>
  if key = "Mo" then some "g;2;h;F;"
  else if key = "Mg" then some "k;F;"
  else if key = "Mh" then some "k;6;"
  else if key = "Pk" then some "s;F4;s;7;"
  else if key = "Mu" then some "r;F;"
  else if key = "Mr" then some "s;F;u;F;"
  else none

theorem diamondIndex_entries (key : String) :
    ∀ e ∈ diamondIndex.entries key, e.marker = noMarker ∧ e.id ≠ "" := by
  unfold AclIndex.entries diamondIndex
  split_ifs <;> decide

theorem authorize_exact_diamondIndex :
    (authorize "o" "u" 15 {} diamondIndex.db).2.deep = false ∧
    ∃ answer, (authorize "o" "u" 15 {} diamondIndex.db).1 = .ok answer ∧
      ∀ i, answer.getLsbD i ↔ (15 : Access).getLsbD i ∧ ∃ g s,
        (g = allResourcesGroup ∨ Relation.ReflTransGen (MemberWith diamondIndex i) "o" g) ∧
        Relation.ReflTransGen (Member diamondIndex) "u" s ∧
        ∃ p ∈ diamondIndex.permissions "" g, p.id = s ∧
          (effectiveAccess p.access).getLsbD i := by
  have hdeep : (authorize "o" "u" 15 {} diamondIndex.db).2.deep = false := by decide
  refine ⟨hdeep, authorize_exact diamondIndex "o" "u" 15 {} rfl (by decide) ?_ ?_ hdeep⟩
  · intro a _ e he
    rw [(diamondIndex_entries _ e he).1]
    decide
  · exact fun a e he => (diamondIndex_entries _ e he).2

end Veda.Authorization
