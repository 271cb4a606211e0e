import Veda.Gluecode.PrepareScript
import Veda.Lib.Closure

/-! # The order of the scripts

Where a script is put into the order of the scripts: `prepare_script` counts the scripts that depend
on it until there are as many as it has dependencies itself. -/

namespace Veda.Gluecode.Scripts

open Onto Closure

variable {Script : Type}

/-- `a` stands before `b`. -/
def Before (order : List String) (a b : String) : Prop := [a, b].Sublist order

instance (order : List String) (a b : String) : Decidable (Before order a b) :=
  inferInstanceAs (Decidable (List.Sublist _ _))

namespace ScriptsWorkPlace

/-- A script that was loaded depends on another one. -/
def DependsOn (wpl : ScriptsWorkPlace Script) (a b : String) : Prop := b ∈ wpl.dependencyOf a

/-- Every script that was loaded is there once, after the scripts that it depends on. -/
structure Ordered (wpl : ScriptsWorkPlace Script) : Prop where
  nodup : wpl.scriptsOrder.Nodup
  mem : ∀ uri, uri ∈ wpl.scriptsOrder ↔ uri ∈ wpl.scripts
  before : ∀ a ∈ wpl.scripts, ∀ b ∈ wpl.scripts, wpl.DependsOn a b →
    Before wpl.scriptsOrder b a

/-- There is a place for a script: it depends on nothing, or nothing depends on it, or it depends on
one script, which stands before those that depend on it. -/
def HasPlace (wpl : ScriptsWorkPlace Script) (script : ScriptInfo Script) : Prop :=
  script.dependency = ∅ ∨
    (∀ t ∈ wpl.scriptsOrder, t ≠ script.id → ¬wpl.DependsOn t script.id) ∨
    ∃ d, script.dependency = {d} ∧ (d ∈ wpl.scriptsOrder →
      ∀ t ∈ wpl.scriptsOrder, t ≠ script.id → wpl.DependsOn t script.id →
        Before wpl.scriptsOrder d t)

end ScriptsWorkPlace

/-- Calls of `prepare_script`. -/
def run (vm : ScriptVM Script) (sections : Sections) (calls : List Individual) :
    ScriptsWorkPlace Script :=
  calls.foldl (prepareScript vm sections) .new

/-! ## The place -/

section
variable {wpl : ScriptsWorkPlace Script} {script : ScriptInfo Script}

/-- The others are taken over in their order. -/
theorem filter_cons_other (id oo : String) (l : List String) :
    (oo :: l).filter (· ≠ id) = (if oo ≠ id then [oo] else []) ++ l.filter (· ≠ id) := by
  rw [List.filter_cons]
  by_cases h : oo = id
  · rw [if_neg (by simp [h]), if_neg (not_not.2 h), List.nil_append]
  · rw [if_pos (by simp [h]), if_pos h, List.singleton_append]

/-- After the script was put in. -/
theorem foldl_inserted (l : List String) {st : Insertion} (h : st.inserted = true) :
    (l.foldl (insertionStep wpl script) st).inserted = true ∧
      (l.foldl (insertionStep wpl script) st).newScriptsOrder =
        st.newScriptsOrder ++ l.filter (· ≠ script.id) := by
  induction l generalizing st with
  | nil => exact ⟨h, (List.append_nil _).symm⟩
  | cons oo l ih =>
    have hstep : (insertionStep wpl script st oo).inserted = true := by
      rw [insertionStep, h, Bool.true_or]
    have hnew : (insertionStep wpl script st oo).newScriptsOrder =
        st.newScriptsOrder ++ if oo ≠ script.id then [oo] else [] := by
      simp only [insertionStep, h, Bool.true_eq_false, false_and, if_false, List.append_nil]
    obtain ⟨hinserted, horder⟩ := ih hstep
    rw [List.foldl_cons, filter_cons_other, ← List.append_assoc, ← hnew]
    exact ⟨hinserted, horder⟩

/-- The scripts that depend on a script. -/
def dependents (wpl : ScriptsWorkPlace Script) (id : String) (l : List String) : ℕ :=
  l.countP fun oo => id ∈ wpl.dependencyOf oo

theorem dependents_cons (wpl : ScriptsWorkPlace Script) (id oo : String) (l : List String) :
    dependents wpl id (oo :: l) =
      (if id ∈ wpl.dependencyOf oo then 1 else 0) + dependents wpl id l := by
  rw [dependents, List.countP_cons, Nat.add_comm]
  simp only [decide_eq_true_eq]
  rfl

/-- A script before which nothing is put in. -/
theorem insertionStep_other {st : Insertion} (h : st.inserted = false)
    (hlt : st.countFindDependency < script.dependency.card) {oo : String}
    (hother : ¬(script.id ∈ wpl.dependencyOf oo ∧
      st.countFindDependency + 1 = script.dependency.card)) :
    insertionStep wpl script st oo =
      ⟨st.countFindDependency + (if script.id ∈ wpl.dependencyOf oo then 1 else 0), false,
        st.newScriptsOrder ++ if oo ≠ script.id then [oo] else []⟩ := by
  by_cases hdep : script.id ∈ wpl.dependencyOf oo
  · have hnot : ¬script.dependency.card ≤ st.countFindDependency + 1 := fun hle =>
      hother ⟨hdep, Nat.le_antisymm hlt hle⟩
    simp only [insertionStep, if_pos (And.intro hlt hdep), if_pos hdep, h, hnot, and_false,
      decide_false, Bool.or_false, if_false, List.append_nil]
  · have hnot : ¬script.dependency.card ≤ st.countFindDependency := Nat.not_le.2 hlt
    simp only [insertionStep, hdep, and_false, if_false, h, hnot, decide_false, Bool.or_false,
      List.append_nil, Nat.add_zero]

/-- The script is not put in, or it is put in where as many scripts depend on it as it has
dependencies. -/
theorem foldl_insertionStep (l : List String) {st : Insertion} (h : st.inserted = false)
    (hlt : st.countFindDependency < script.dependency.card) :
    ((l.foldl (insertionStep wpl script) st).inserted = false ∧
      (l.foldl (insertionStep wpl script) st).newScriptsOrder =
        st.newScriptsOrder ++ l.filter (· ≠ script.id) ∧
      st.countFindDependency + dependents wpl script.id l < script.dependency.card) ∨
    ∃ pre t post, l = pre ++ t :: post ∧ script.id ∈ wpl.dependencyOf t ∧
      st.countFindDependency + dependents wpl script.id pre + 1 = script.dependency.card ∧
      (l.foldl (insertionStep wpl script) st).inserted = true ∧
      (l.foldl (insertionStep wpl script) st).newScriptsOrder =
        st.newScriptsOrder ++ pre.filter (· ≠ script.id) ++
          script.id :: (t :: post).filter (· ≠ script.id) := by
  induction l generalizing st with
  | nil => exact .inl ⟨h, (List.append_nil _).symm, hlt⟩
  | cons oo l ih =>
    rw [List.foldl_cons]
    by_cases hhere : script.id ∈ wpl.dependencyOf oo ∧
        st.countFindDependency + 1 = script.dependency.card
    · obtain ⟨hdep, hlast⟩ := hhere
      have hstep : insertionStep wpl script st oo = ⟨st.countFindDependency + 1, true,
          st.newScriptsOrder ++ [script.id] ++ if oo ≠ script.id then [oo] else []⟩ := by
        simp only [insertionStep, if_pos (And.intro hlt hdep), h, hlast, Nat.le_refl, and_self,
          decide_true, Bool.or_true, if_true]
      obtain ⟨hinserted, horder⟩ :=
        @foldl_inserted _ wpl script l (insertionStep wpl script st oo) (by rw [hstep])
      refine .inr ⟨[], oo, l, rfl, hdep, hlast, hinserted, ?_⟩
      rw [horder, hstep, filter_cons_other, List.filter_nil]
      simp only [List.append_nil, List.append_assoc, List.singleton_append]
      rfl
    · have hcount := dependents_cons wpl script.id oo l
      have hstep := insertionStep_other h hlt hhere
      have hlt' :
          (insertionStep wpl script st oo).countFindDependency < script.dependency.card := by
        rw [hstep]
        dsimp only
        split
        · rename_i hdep
          exact Nat.lt_of_le_of_ne hlt fun hlast => hhere ⟨hdep, hlast⟩
        · exact hlt
      obtain ⟨hinserted, horder, hless⟩ | ⟨pre, t, post, hl, hdep, hlast, hinserted, horder⟩ :=
        ih (by rw [hstep]) hlt'
      · refine .inl ⟨hinserted, ?_, ?_⟩
        · rw [horder, hstep, filter_cons_other, List.append_assoc]
        · rw [hstep] at hless
          dsimp only at hless
          omega
      · refine .inr ⟨oo :: pre, t, post, by rw [hl, List.cons_append], hdep, ?_, hinserted, ?_⟩
        · rw [hstep] at hlast
          dsimp only at hlast
          rw [dependents_cons]
          omega
        · rw [horder, hstep, filter_cons_other _ oo pre]
          simp only [List.append_assoc]

/-- Where a script is put in: at the beginning if it depends on nothing, and else before the script
that is the last one to count, or at the end if too few depend on it. -/
inductive Here (wpl : ScriptsWorkPlace Script) (script : ScriptInfo Script) (pre : List String) :
    List String → Prop
  | first (h : script.dependency = ∅) (hpre : pre = []) : Here wpl script pre post
  | last (h : dependents wpl script.id pre < script.dependency.card) : Here wpl script pre []
  | counted (hdep : script.id ∈ wpl.dependencyOf t)
      (h : dependents wpl script.id pre + 1 = script.dependency.card) :
      Here wpl script pre (t :: post)

theorem insertScript_first (h : script.dependency = ∅) :
    insertScript wpl script = script.id :: wpl.scriptsOrder.filter (· ≠ script.id) := by
  rw [insertScript]
  cases horder : wpl.scriptsOrder with
  | nil => rfl
  | cons oo l =>
    have hstep : insertionStep wpl script ⟨0, false, []⟩ oo =
        ⟨0, true, [script.id] ++ if oo ≠ script.id then [oo] else []⟩ := by
      simp only [insertionStep, h, Finset.card_empty, Nat.lt_irrefl, false_and, if_false,
        Nat.le_refl, and_self, decide_true, Bool.or_true, if_true, List.nil_append]
    obtain ⟨hinserted, hnew⟩ :=
      @foldl_inserted _ wpl script l (insertionStep wpl script ⟨0, false, []⟩ oo) (by rw [hstep])
    rw [List.foldl_cons, hinserted, if_neg Bool.noConfusion, hnew, hstep,
      filter_cons_other]
    rfl

theorem exists_here (wpl : ScriptsWorkPlace Script) (script : ScriptInfo Script) :
    ∃ pre post, wpl.scriptsOrder = pre ++ post ∧ Here wpl script pre post ∧
      insertScript wpl script =
        pre.filter (· ≠ script.id) ++ script.id :: post.filter (· ≠ script.id) := by
  by_cases h : script.dependency = ∅
  · exact ⟨[], wpl.scriptsOrder, rfl, .first h rfl, insertScript_first h⟩
  · have hpos : 0 < script.dependency.card :=
      Finset.card_pos.2 (Finset.nonempty_iff_ne_empty.2 h)
    obtain ⟨hinserted, hnew, hless⟩ | ⟨pre, t, post, hl, hdep, hlast, hinserted, hnew⟩ :=
      @foldl_insertionStep _ wpl script wpl.scriptsOrder ⟨0, false, []⟩ rfl hpos
    · refine ⟨wpl.scriptsOrder, [], (List.append_nil _).symm, .last (by omega), ?_⟩
      rw [insertScript, if_pos hinserted, hnew, List.nil_append, List.filter_nil]
    · rw [Nat.zero_add] at hlast
      refine ⟨pre, t :: post, hl, .counted hdep hlast, ?_⟩
      rw [insertScript, hinserted, if_neg Bool.noConfusion, hnew, List.nil_append]

end

/-! ## Before and after -/

section
variable {order pre post : List String} {a b id : String}

theorem Before.filter (h : Before order a b) (ha : a ≠ id) (hb : b ≠ id) :
    Before (order.filter (· ≠ id)) a b := by
  have hfilter := List.Sublist.filter (fun x => decide (x ≠ id)) h
  have hboth : [a, b].filter (fun x => decide (x ≠ id)) = [a, b] := by
    rw [List.filter_eq_self]
    intro x hx
    obtain rfl | hx := List.mem_cons.1 hx
    · exact decide_eq_true ha
    · exact decide_eq_true (List.mem_singleton.1 hx ▸ hb)
  rwa [hboth] at hfilter

/-- The two of them are in the list in this order. -/
theorem before_append_cons_left (h : a ∈ pre) : Before (pre ++ id :: post) a id :=
  (List.singleton_sublist.2 h).append (List.singleton_sublist.2 List.mem_cons_self)

theorem before_append_cons_right (h : b ∈ post) : Before (pre ++ id :: post) id b :=
  ((List.singleton_sublist.2 h).cons_cons id).trans (List.sublist_append_right _ _)

theorem mem_of_before_left (hne : a ≠ id) (hpost : id ∉ post)
    (h : Before (pre ++ id :: post) a id) : a ∈ pre := by
  obtain ⟨l₁, l₂, heq, h₁, h₂⟩ := List.sublist_append_iff.1 h
  obtain ⟨rfl, rfl⟩ | ⟨l₁, rfl, -⟩ := List.cons_eq_append_iff.1 heq
  · have h₂ : [a, id].Sublist post := (List.cons_sublist_cons'.1 h₂).resolve_right fun h => hne h.1
    exact absurd (h₂.subset (List.mem_cons_of_mem _ List.mem_cons_self)) hpost
  · exact h₁.subset List.mem_cons_self

theorem mem_of_before_right (hne : b ≠ id) (hpre : id ∉ pre)
    (h : Before (pre ++ id :: post) id b) : b ∈ post := by
  obtain ⟨l₁, l₂, heq, h₁, h₂⟩ := List.sublist_append_iff.1 h
  obtain ⟨rfl, rfl⟩ | ⟨l₁, rfl, -⟩ := List.cons_eq_append_iff.1 heq
  · have hmem : b ∈ id :: post := h₂.subset (List.mem_cons_of_mem _ List.mem_cons_self)
    exact (List.mem_cons.1 hmem).resolve_left hne
  · exact absurd (h₁.subset List.mem_cons_self) hpre

end

/-! ## A script is loaded -/

section
variable {wpl : ScriptsWorkPlace Script} {script : ScriptInfo Script} {pre post : List String}

open ScriptsWorkPlace

/-- The scripts with a new one. -/
def stored (wpl : ScriptsWorkPlace Script) (script : ScriptInfo Script) :
    ScriptsWorkPlace Script :=
  { wpl with scripts := wpl.scripts.insert script.id script }

theorem dependencyOf_stored_self :
    (stored wpl script).dependencyOf script.id = script.dependency := by
  rw [dependencyOf, stored, AList.lookup_insert]
  rfl

theorem dependencyOf_stored_ne {t : String} (h : t ≠ script.id) :
    (stored wpl script).dependencyOf t = wpl.dependencyOf t := by
  rw [dependencyOf, stored, AList.lookup_insert_ne h]
  rfl

theorem mem_load_scripts {uri : String} :
    uri ∈ (load wpl script).scripts ↔ uri = script.id ∨ uri ∈ wpl.scripts :=
  AList.mem_insert _

theorem dependsOn_load_self {d : String} :
    (load wpl script).DependsOn script.id d ↔ d ∈ script.dependency := by
  have hdependency : (load wpl script).dependencyOf script.id = script.dependency :=
    dependencyOf_stored_self
  rw [ScriptsWorkPlace.DependsOn, hdependency]

theorem dependsOn_load_ne {t d : String} (h : t ≠ script.id) :
    (load wpl script).DependsOn t d ↔ wpl.DependsOn t d := by
  have hdependency : (load wpl script).dependencyOf t = wpl.dependencyOf t :=
    dependencyOf_stored_ne h
  rw [ScriptsWorkPlace.DependsOn, ScriptsWorkPlace.DependsOn, hdependency]

/-- The script stands between what it depends on and what depends on it. -/
structure Between (wpl : ScriptsWorkPlace Script) (script : ScriptInfo Script) (pre : List String) :
    Prop where
  dependency : ∀ d ∈ script.dependency, d ∈ wpl.scriptsOrder → d ∈ pre
  dependents : ∀ t ∈ pre, t ≠ script.id → script.id ∉ wpl.dependencyOf t

/-- The script is there once, with those that were there before. -/
theorem load_scripts (h : wpl.Ordered) (horder : wpl.scriptsOrder = pre ++ post)
    (hload : (load wpl script).scriptsOrder =
      pre.filter (· ≠ script.id) ++ script.id :: post.filter (· ≠ script.id)) :
    (load wpl script).scriptsOrder.Nodup ∧
      ∀ uri, uri ∈ (load wpl script).scriptsOrder ↔ uri ∈ (load wpl script).scripts := by
  have hothers : pre.filter (· ≠ script.id) ++ post.filter (· ≠ script.id) =
      wpl.scriptsOrder.filter (· ≠ script.id) := by
    rw [horder, List.filter_append]
  have hmem : ∀ uri, uri ∈ wpl.scriptsOrder.filter (· ≠ script.id) ↔
      uri ∈ wpl.scripts ∧ uri ≠ script.id := by
    intro uri
    rw [List.mem_filter, h.mem, decide_eq_true_eq]
  constructor
  · rw [hload, List.nodup_middle, hothers, List.nodup_cons]
    exact ⟨fun hid => ((hmem _).1 hid).2 rfl, h.nodup.filter _⟩
  · intro uri
    have hmiddle : uri ∈ pre.filter (· ≠ script.id) ++ script.id :: post.filter (· ≠ script.id) ↔
        uri ∈ script.id :: (pre.filter (· ≠ script.id) ++ post.filter (· ≠ script.id)) :=
      List.perm_middle.mem_iff
    rw [hload, hmiddle, hothers, List.mem_cons, hmem, mem_load_scripts]
    by_cases huri : uri = script.id
    · exact iff_of_true (.inl huri) (.inl huri)
    · simp only [huri, false_or, ne_eq, not_false_eq_true, and_true]

theorem ordered_load_iff_between (h : wpl.Ordered) (hirr : script.id ∉ script.dependency)
    (horder : wpl.scriptsOrder = pre ++ post)
    (hload : (load wpl script).scriptsOrder =
      pre.filter (· ≠ script.id) ++ script.id :: post.filter (· ≠ script.id)) :
    (load wpl script).Ordered ↔ Between wpl script pre := by
  obtain ⟨hnodup, hmem⟩ := load_scripts h horder hload
  have hpre : ∀ {x}, x ∈ pre.filter (· ≠ script.id) ↔ x ∈ pre ∧ x ≠ script.id := by
    intro x
    rw [List.mem_filter, decide_eq_true_eq]
  have hpost : ∀ {x}, x ∈ post.filter (· ≠ script.id) ↔ x ∈ post ∧ x ≠ script.id := by
    intro x
    rw [List.mem_filter, decide_eq_true_eq]
  have hnotPost : script.id ∉ post.filter (· ≠ script.id) := fun hid => (hpost.1 hid).2 rfl
  have hself : script.id ∈ (load wpl script).scripts :=
    mem_load_scripts.2 (.inl rfl)
  have hold : ∀ {x}, x ∈ wpl.scriptsOrder → x ∈ (load wpl script).scripts := fun hx =>
    mem_load_scripts.2 (.inr ((h.mem _).1 hx))
  constructor
  · intro hordered
    refine ⟨fun d hd hknown => ?_, fun t ht hne hdep => ?_⟩
    · have hne : d ≠ script.id := fun heq => hirr (heq ▸ hd)
      have hbefore := hordered.before _ hself d (hold hknown) (dependsOn_load_self.2 hd)
      rw [hload] at hbefore
      exact (hpre.1 (mem_of_before_left hne hnotPost hbefore)).1
    · have hmemOrder : t ∈ wpl.scriptsOrder := horder ▸ List.mem_append_left _ ht
      have hbefore := hordered.before t (hold hmemOrder) _ hself ((dependsOn_load_ne hne).2 hdep)
      rw [hload] at hbefore
      have hafter := (hpost.1 (mem_of_before_right hne (fun hid => (hpre.1 hid).2 rfl) hbefore)).1
      have hdisjoint := List.disjoint_of_nodup_append (horder ▸ h.nodup)
      exact hdisjoint ht hafter
  · intro hbetween
    refine ⟨hnodup, hmem, fun a ha b hb hdepends => ?_⟩
    rw [hload]
    have hin : ∀ {x}, x ∈ (load wpl script).scripts → x ≠ script.id → x ∈ wpl.scriptsOrder :=
      fun hx hne => (h.mem _).2 ((mem_load_scripts.1 hx).resolve_left hne)
    by_cases haid : a = script.id
    · subst haid
      have hd := dependsOn_load_self.1 hdepends
      have hne : b ≠ script.id := fun heq => hirr (heq ▸ hd)
      exact before_append_cons_left (hpre.2 ⟨hbetween.dependency b hd (hin hb hne), hne⟩)
    · have hdep := (dependsOn_load_ne haid).1 hdepends
      by_cases hbid : b = script.id
      · subst hbid
        have hafter : a ∈ post := by
          have hmemOrder := hin ha haid
          rw [horder, List.mem_append] at hmemOrder
          exact hmemOrder.resolve_left fun hmemPre => hbetween.dependents a hmemPre haid hdep
        exact before_append_cons_right (hpost.2 ⟨hafter, haid⟩)
      · have hbefore := (h.before a ((h.mem a).1 (hin ha haid)) b ((h.mem b).1 (hin hb hbid))
          hdep).filter hbid haid
        rw [horder, List.filter_append] at hbefore
        exact hbefore.trans ((List.sublist_cons_self _ _).append_left _)

/-- None of some scripts depends on the script. -/
theorem dependents_eq_zero_iff (hirr : script.id ∉ script.dependency) :
    dependents (stored wpl script) script.id pre = 0 ↔
      ∀ t ∈ pre, t ≠ script.id → ¬wpl.DependsOn t script.id := by
  rw [dependents, List.countP_eq_zero]
  refine forall₂_congr fun t ht => ?_
  rw [decide_eq_true_eq]
  by_cases hid : t = script.id
  · rw [hid, dependencyOf_stored_self]
    exact iff_of_true hirr fun hne => absurd rfl hne
  · rw [dependencyOf_stored_ne hid, forall_prop_of_true hid]
    exact Iff.rfl

/-- Where the script is put in is its place just if there is a place for it. -/
theorem between_iff (h : wpl.Ordered) (hirr : script.id ∉ script.dependency)
    (horder : wpl.scriptsOrder = pre ++ post) (hhere : Here (stored wpl script) script pre post) :
    Between wpl script pre ↔ wpl.HasPlace script := by
  have hzero : dependents (stored wpl script) script.id pre = 0 ↔
      ∀ t ∈ pre, t ≠ script.id → ¬wpl.DependsOn t script.id := dependents_eq_zero_iff hirr
  cases hhere with
  | first hnone hpre =>
    refine iff_of_true ⟨fun d hd => ?_, fun t ht => ?_⟩ (.inl hnone)
    · rw [hnone] at hd
      exact absurd hd (Finset.notMem_empty d)
    · rw [hpre] at ht
      cases ht
  | last hless =>
    rw [List.append_nil] at horder
    have hbetween : Between wpl script pre ↔
        dependents (stored wpl script) script.id pre = 0 :=
      ⟨fun hb => hzero.2 hb.dependents, fun hnone => ⟨fun d _ hd => horder ▸ hd, hzero.1 hnone⟩⟩
    rw [hbetween]
    constructor
    · exact fun hnone => .inr (.inl (horder ▸ hzero.1 hnone))
    · rintro (hnone | hnone | ⟨d, hd, -⟩)
      · rw [hnone, Finset.card_empty] at hless
        exact absurd hless (Nat.not_lt_zero _)
      · exact hzero.2 (horder ▸ hnone)
      · rw [hd, Finset.card_singleton] at hless
        exact Nat.lt_one_iff.1 hless
  | @counted t post hdep hcard =>
    have hne : t ≠ script.id := by
      rintro rfl
      rw [dependencyOf_stored_self] at hdep
      exact hirr hdep
    have hdep : wpl.DependsOn t script.id := (dependsOn_load_ne hne).1 hdep
    have ht : t ∈ wpl.scriptsOrder := horder ▸ List.mem_append_right _ List.mem_cons_self
    constructor
    · intro hb
      rw [hzero.2 hb.dependents, Nat.zero_add] at hcard
      obtain ⟨d, hd⟩ := Finset.card_eq_one.1 hcard.symm
      refine .inr (.inr ⟨d, hd, fun hknown t' ht' hne' hdep' => ?_⟩)
      have hpre : d ∈ pre := hb.dependency d (hd ▸ Finset.mem_singleton_self d) hknown
      have hpost : t' ∈ t :: post := by
        rw [horder, List.mem_append] at ht'
        exact ht'.resolve_left fun hmem => hb.dependents t' hmem hne' hdep'
      rw [horder]
      exact (List.singleton_sublist.2 hpre).append (List.singleton_sublist.2 hpost)
    · rintro (hnone | hnone | ⟨d, hd, hplace⟩)
      · rw [hnone, Finset.card_empty] at hcard
        cases hcard
      · exact absurd hdep (hnone t ht hne)
      · rw [hd, Finset.card_singleton] at hcard
        refine ⟨fun d' hd' hknown => ?_, hzero.1 (Nat.succ.inj hcard)⟩
        rw [hd, Finset.mem_singleton] at hd'
        subst hd'
        have hbefore := hplace hknown t ht hne hdep
        have hdt : d' ≠ t := by
          rintro rfl
          exact (List.nodup_cons.1 (h.nodup.sublist hbefore)).1 List.mem_cons_self
        have hnodup := h.nodup
        rw [horder] at hbefore hnodup
        exact mem_of_before_left hdt (List.nodup_cons.1 hnodup.of_append_right).1 hbefore

/-- A script that does not depend on itself is loaded. -/
theorem ordered_load_iff (h : wpl.Ordered) (hirr : script.id ∉ script.dependency) :
    (load wpl script).Ordered ↔ wpl.HasPlace script := by
  obtain ⟨pre, post, horder, hhere, hload⟩ := exists_here (stored wpl script) script
  rw [ordered_load_iff_between h hirr horder hload, between_iff h hirr horder hhere]

end

/-! ## Calls one after the other -/

section
variable {vm : ScriptVM Script} {sections : Sections} {wpl : ScriptsWorkPlace Script}
  {ss : Individual} {calls : List Individual}

open ScriptsWorkPlace

/-- A call disables a script, loads one for which there is a place, or does nothing. -/
def Fits (vm : ScriptVM Script) (sections : Sections) (wpl : ScriptsWorkPlace Script)
    (ss : Individual) : Prop :=
  ∀ script, compiled? vm sections ss = some script → wpl.HasPlace script

theorem ordered_new : (new : ScriptsWorkPlace Script).Ordered where
  nodup := List.nodup_nil
  mem uri := iff_of_false List.not_mem_nil (AList.notMem_empty uri)
  before a ha := absurd ha (AList.notMem_empty a)

/-- A script that is disabled stays where it is. -/
theorem ordered_disable (h : wpl.Ordered) {script : ScriptInfo Script} {uri : String}
    (hscript : wpl.scripts.lookup uri = some script) :
    ScriptsWorkPlace.Ordered
      { wpl with scripts := wpl.scripts.insert uri { script with compiledScript := none } } := by
  have hknown : uri ∈ wpl.scripts := AList.lookup_isSome.1 (by rw [hscript]; rfl)
  have hmem : ∀ x, x ∈ wpl.scripts.insert uri { script with compiledScript := none } ↔
      x ∈ wpl.scripts := by
    intro x
    rw [AList.mem_insert]
    exact or_iff_right_of_imp fun hx => hx ▸ hknown
  have hdependency : ∀ x, dependencyOf
      { wpl with scripts := wpl.scripts.insert uri { script with compiledScript := none } } x =
        wpl.dependencyOf x := by
    intro x
    by_cases hx : x = uri
    · rw [hx, dependencyOf, dependencyOf, hscript, AList.lookup_insert]
      rfl
    · rw [dependencyOf, dependencyOf, AList.lookup_insert_ne hx]
  refine ⟨h.nodup, fun x => (h.mem x).trans (hmem x).symm, fun a ha b hb hdepends => ?_⟩
  rw [ScriptsWorkPlace.DependsOn, hdependency] at hdepends
  exact h.before a ((hmem a).1 ha) b ((hmem b).1 hb) hdepends

theorem ordered_prepareScript_iff (h : wpl.Ordered)
    (hacyclic : Acyclic (prepareScript vm sections wpl ss).DependsOn) :
    (prepareScript vm sections wpl ss).Ordered ↔ Fits vm sections wpl ss := by
  rw [prepareScript] at hacyclic ⊢
  split
  · rename_i hdisabled
    have hfits : Fits vm sections wpl ss := by
      intro script hscript
      rw [compiled?, if_pos hdisabled] at hscript
      cases hscript
    refine iff_of_true ?_ hfits
    split
    · exact h
    · rename_i script hscript
      exact ordered_disable h hscript
  · rename_i hdisabled
    rw [if_neg hdisabled] at hacyclic
    cases hcompiled : compiled? vm sections ss with
    | none =>
      refine iff_of_true h fun script hscript => ?_
      rw [hcompiled] at hscript
      cases hscript
    | some script =>
      rw [hcompiled] at hacyclic
      have hirr : script.id ∉ script.dependency := fun hid =>
        hacyclic script.id (.single (dependsOn_load_self.2 hid))
      refine (ordered_load_iff h hirr).trans ⟨fun hplace script' hscript' => ?_, fun hfits => ?_⟩
      · rw [hcompiled, Option.some_inj] at hscript'
        exact hscript' ▸ hplace
      · exact hfits script hcompiled

theorem run_append_singleton (vm : ScriptVM Script) (sections : Sections) (calls : List Individual)
    (ss : Individual) :
    run vm sections (calls ++ [ss]) = prepareScript vm sections (run vm sections calls) ss := by
  rw [run, List.foldl_append]
  rfl

/-- The scripts are in order after each of some calls just if there is a place for each script that
is loaded. -/
theorem scripts_ordered_iff (vm : ScriptVM Script) (sections : Sections) (calls : List Individual)
    (hacyclic : ∀ pre, pre <+: calls → Acyclic (run vm sections pre).DependsOn) :
    (∀ pre, pre <+: calls → (run vm sections pre).Ordered) ↔
      ∀ pre ss, pre ++ [ss] <+: calls → Fits vm sections (run vm sections pre) ss := by
  constructor
  · intro h pre ss hpre
    have hcall := hacyclic _ hpre
    have hordered := h _ hpre
    rw [run_append_singleton] at hcall hordered
    exact (ordered_prepareScript_iff (h pre ((List.prefix_append _ _).trans hpre)) hcall).1 hordered
  · intro h pre hpre
    -- the induction is on the calls, from the end
    induction pre using List.reverseRecOn with
    | nil => exact ordered_new
    | append_singleton pre ss ih =>
      have hcall := hacyclic _ hpre
      rw [run_append_singleton] at hcall ⊢
      have hordered := ih ((List.prefix_append _ _).trans hpre)
      exact (ordered_prepareScript_iff hordered hcall).2 (h pre ss hpre)

end

/-! ## A few scripts -/

/-- A script with what it depends on. -/
def scriptOf (uri : String) (dependency : List String) : Individual :=
  ⟨uri, (∅ : AList fun _ : String => Resources).insert "v-s:script" [.str "f();"] |>.insert
    "v-s:dependency" (dependency.map .uri)⟩

/-- Every text is compiled. -/
def plainVM : ScriptVM String := ⟨some⟩

def noSections : Sections := ⟨"", "", "", ""⟩

theorem mem_keys_of_dependsOn {wpl : ScriptsWorkPlace Script} {a b : String}
    (h : wpl.DependsOn a b) : a ∈ wpl.scripts.keys := by
  by_contra hnot
  rw [ScriptsWorkPlace.DependsOn, ScriptsWorkPlace.dependencyOf,
    AList.lookup_eq_none.2 fun hmem => hnot (AList.mem_keys.1 hmem)] at h
  exact Finset.notMem_empty b h

/-- A script comes before the one that it depends on, and is found there when that one is loaded. -/
def threeScripts : List Individual :=
  [scriptOf "v-s:D" [], scriptOf "v-s:T" ["v-s:S"], scriptOf "v-s:S" ["v-s:D"]]

def heightOf (uri : String) : ℕ := if uri = "v-s:T" then 2 else if uri = "v-s:S" then 1 else 0

/-- The scripts go down in height after each call. -/
def GoDown (calls : List Individual) : Prop :=
  ∀ pre ∈ calls.inits, ∀ a ∈ (run plainVM noSections pre).scripts.keys,
    ∀ b ∈ (run plainVM noSections pre).dependencyOf a, heightOf b < heightOf a

instance (calls : List Individual) : Decidable (GoDown calls) :=
  inferInstanceAs (Decidable (∀ _ ∈ _, _))

theorem GoDown.acyclic {calls : List Individual} (h : GoDown calls) (pre : List Individual)
    (hpre : pre <+: calls) : Acyclic (run plainVM noSections pre).DependsOn :=
  .of_height heightOf fun a b hdepends =>
    h pre ((List.mem_inits _ _).2 hpre) a (mem_keys_of_dependsOn hdepends) b hdepends

theorem scripts_ordered_iff_three :
    (∀ pre, pre <+: threeScripts → (run plainVM noSections pre).Ordered) ↔
      ∀ pre ss, pre ++ [ss] <+: threeScripts →
        Fits plainVM noSections (run plainVM noSections pre) ss :=
  scripts_ordered_iff plainVM noSections threeScripts
    (GoDown.acyclic (by decide +kernel))

/-- The last script depends on two others, and only one script depends on it. -/
def fourScripts : List Individual :=
  [scriptOf "v-s:A" [], scriptOf "v-s:B" [], scriptOf "v-s:T" ["v-s:S"],
    scriptOf "v-s:S" ["v-s:A", "v-s:B"]]

theorem not_scripts_ordered :
    (∀ pre, pre <+: fourScripts → Acyclic (run plainVM noSections pre).DependsOn) ∧
      ¬(run plainVM noSections fourScripts).Ordered := by
  refine ⟨GoDown.acyclic (by decide +kernel), fun h => ?_⟩
  have hbefore := h.before "v-s:T" (by decide +kernel) "v-s:S" (by decide +kernel)
    (show _ ∈ _ by decide +kernel)
  revert hbefore
  decide +kernel

end Veda.Gluecode.Scripts
