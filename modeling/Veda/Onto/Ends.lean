import Veda.Onto.Runs

/-! # Where a call of the cache ends

The calls are the ones of the cache with the depth of the recursion of `prepare_superelements` as a
parameter. A call ends if there are a depth and a fuel with which it gives a result. -/

namespace Veda.Ontology

open Veda.Onto Veda.Closure Relation

/-! ## The calls to a depth -/

section
variable (order : Order) (depth : ℕ)

/-- `_update_element` with the walk upwards to a depth. -/
def updateElementTo (individuals : Individuals) (typeUri : String) (elh : Bdathe)
    (parentPredicate : String) : Option Bdathe := do
  let superelementes ← prepareSuperelements parentPredicate individuals depth typeUri []
  let elh := { elh with superEls := Function.update elh.superEls typeUri superelementes }
  return (order.keys superelementes).foldl (addSubelement individuals typeUri) elh

def updateSelfTo (individuals : Individuals) (kind : Kind) (uri : String) (icl : Names)
    (elh : Bdathe) : Option Bdathe :=
  if icl = [] then updateElementTo order depth individuals uri elh kind.parentPredicate
  else some elh

def updateMentionsTo (individuals : Individuals) (kind : Kind) (uri : String) (elh : Bdathe) :
    Option Bdathe :=
  if elh.orphans uri then
    (order.keys (elh.subEls uri)).foldlM
      (fun elh cl => do
        let elh ← updateElementTo order depth individuals cl elh kind.parentPredicate
        return { elh with orphans := Function.update elh.orphans cl false })
      elh
  else some elh

def updateKindTo (onto : Onto) (kind : Kind) (indv : Individual) (replace : Bool) :
    Option Onto := do
  let elh := onto.bdathe kind
  let individuals :=
    if replace then onto.individuals.insert indv.uri indv else onto.individuals
  let icl := if replace then [] else elh.superEls indv.uri
  let elh ← updateSelfTo order depth individuals kind indv.uri icl elh
  let elh ← updateMentionsTo order depth individuals kind indv.uri (addEl kind indv.uri elh)
  return ⟨individuals, Function.update onto.bdathe kind elh⟩

/-- `update_onto_hierarchy` with the walks upwards to a depth. -/
def updateOntoHierarchyTo : ℕ → Onto → Individual → Bool → Option Onto
  | 0, _, _, _ => none
  | fuel + 1, onto, indv, replace =>
    if isDeleted indv then
      let individuals := onto.individuals.erase indv.uri
      (order.keys individuals.keys).foldlM
        (fun onto uri => updateOntoHierarchyTo fuel onto (get individuals uri) false)
        { onto with individuals := individuals }
    else
      match kind? indv with
      | some kind => updateKindTo order depth onto kind indv replace
      | none => some onto

end

/-- The call ends, in whichever order the arrays are gone through. -/
def Ends (onto : Onto) (indv : Individual) (replace : Bool) : Prop :=
  ∀ order : Order, ∃ depth fuel onto',
    updateOntoHierarchyTo order depth fuel onto indv replace = some onto'

/-! ## The walk upwards -/

/-- A link that the walk upwards follows: `prepare_superelements` stops at an element that names
itself. -/
def Follows (individuals : Individuals) (kind : Kind) (x e : String) : Prop :=
  Link (stored individuals) kind x e ∧ e ≠ x

/-- The walk upwards from an element comes to a cycle of two or more elements. -/
def Cyclic (individuals : Individuals) (kind : Kind) (x : String) : Prop :=
  LeadsToCycle (Follows individuals kind) x

section
variable {f : σ → α → Option σ} {l : List α} {s : σ}

theorem foldlM_eq_none {a : α} (ha : a ∈ l) (h : ∀ s, f s a = none) : l.foldlM f s = none := by
  induction l generalizing s with
  | nil => cases ha
  | cons b l ih =>
    rw [List.foldlM_cons]
    rcases List.mem_cons.mp ha with rfl | ha
    · rw [h]
      rfl
    · cases f s b with
      | none => rfl
      | some s' => exact ih ha

/-- A loop whose steps give what the steps of another one give. -/
theorem foldlM_of_steps {g : σ → α → Option σ} {s' : σ}
    (h : ∀ a ∈ l, ∀ s s', f s a = some s' → g s a = some s') (hf : l.foldlM f s = some s') :
    l.foldlM g s = some s' := by
  induction l generalizing s with
  | nil => exact hf
  | cons a l ih =>
    rw [List.foldlM_cons, Option.bind_eq_bind, Option.bind_eq_some_iff] at hf
    obtain ⟨mid, hmid, hrest⟩ := hf
    rw [List.foldlM_cons, h a List.mem_cons_self s mid hmid]
    exact ih (fun b hb => h b (List.mem_cons_of_mem _ hb)) hrest

/-- An invariant of a loop that ends. -/
theorem foldlM_eq_some {P : σ → Prop} (h : ∀ a ∈ l, ∀ s, P s → ∃ s', f s a = some s' ∧ P s')
    (hs : P s) : ∃ s', l.foldlM f s = some s' ∧ P s' := by
  induction l generalizing s with
  | nil => exact ⟨s, rfl, hs⟩
  | cons a l ih =>
    obtain ⟨s', hs', hp⟩ := h a List.mem_cons_self s hs
    rw [List.foldlM_cons, hs']
    exact ih (fun b hb => h b (List.mem_cons_of_mem _ hb)) hp

end

section
variable {individuals : Individuals} {kind : Kind} {x : String}

/-- On a cycle the walk goes below any depth. -/
theorem prepareSuperelements_cyclic (h : Cyclic individuals kind x) (depth : ℕ) (acc : Names) :
    prepareSuperelements kind.parentPredicate individuals depth x acc = none := by
  induction depth generalizing x acc with
  | zero => rfl
  | succ depth ih =>
    obtain ⟨y, ⟨hlink, hne⟩, hy⟩ := h.exists_next
    obtain ⟨rs, hrs, rfl⟩ := List.mem_map.mp hlink
    refine foldlM_eq_none hrs fun acc => ?_
    rw [if_pos hne]
    exact ih hy _

/-- The walk ends where there is no cycle. The depth that is left stays above the height. -/
theorem prepareSuperelements_ends (h : ¬Cyclic individuals kind x) {depth : ℕ}
    (hdepth : individuals.keys.length < depth) (acc : Names) :
    ∃ s, prepareSuperelements kind.parentPredicate individuals depth x acc = some s := by
  obtain ⟨height, hle, hlt⟩ := exists_height (Follows individuals kind)
    individuals.keys.toFinset fun y _ hy => List.mem_toFinset.mpr (mem_keys_of_link hy.1)
  have hx : height x < depth :=
    ((hle x).trans (List.toFinset_card_le _)).trans_lt hdepth
  clear hle hdepth
  induction depth generalizing x acc with
  | zero => exact absurd hx (Nat.not_lt_zero _)
  | succ depth ih =>
    have hstep : ∀ rs ∈ (get individuals x).getResources kind.parentPredicate, ∀ acc : Names,
        True → ∃ s, (if rs.uriOf ≠ x then
          prepareSuperelements kind.parentPredicate individuals depth rs.uriOf
            (acc.insert rs.uriOf)
          else some (acc.insert rs.uriOf)) = some s ∧ True := by
      intro rs hrs acc _
      by_cases hne : rs.uriOf ≠ x
      · have hfollows : Follows individuals kind x rs.uriOf :=
          ⟨List.mem_map_of_mem hrs, hne⟩
        have hlower := hlt x rs.uriOf h hfollows
        obtain ⟨s, hs⟩ := ih (fun hcyclic => h (.head hfollows hcyclic)) (acc.insert rs.uriOf)
          (hlower.trans_le (Nat.lt_succ_iff.mp hx))
        exact ⟨s, by rw [if_pos hne, hs], trivial⟩
      · exact ⟨_, if_neg hne, trivial⟩
    obtain ⟨s, hs, -⟩ := foldlM_eq_some hstep (s := acc) trivial
    exact ⟨s, hs⟩

/-- More depth changes nothing of a walk that ends. -/
theorem prepareSuperelements_mono {depth depth' : ℕ} (hle : depth ≤ depth') {acc s : Names}
    (h : prepareSuperelements kind.parentPredicate individuals depth x acc = some s) :
    prepareSuperelements kind.parentPredicate individuals depth' x acc = some s := by
  induction depth generalizing depth' x acc s with
  | zero => cases h
  | succ depth ih =>
    obtain ⟨n, rfl⟩ : ∃ n, depth' = n + 1 := ⟨depth' - 1, by omega⟩
    refine foldlM_of_steps (fun rs _ acc s hs => ?_) h
    by_cases hne : rs.uriOf ≠ x
    · rw [if_pos hne] at hs ⊢
      exact ih (by omega) hs
    · rw [if_neg hne] at hs ⊢
      exact hs

/-- An individual that is not there states no parents. -/
theorem prepareSuperelements_init (h : get individuals x = .init) {depth : ℕ} {acc s : Names}
    (hs : prepareSuperelements kind.parentPredicate individuals depth x acc = some s) :
    s = acc := by
  cases depth with
  | zero => cases hs
  | succ depth =>
    rw [prepareSuperelements, h] at hs
    exact (Option.some.inj hs).symm

end

/-! ## An update of an element -/

/-- What updates leave of a hierarchy. The elements that were updated are among those of `N`, and
those that were marked as orphans are gone. -/
structure Advanced (N Gone : String → Prop) (elh elh' : Bdathe) : Prop where
  superEls : ∀ y, elh'.superEls y = [] → elh.superEls y = [] ∨ N y
  subEls : ∀ e cl, cl ∈ elh'.subEls e → cl ∈ elh.subEls e ∨ N cl
  orphans : ∀ e, elh'.orphans e = true → elh.orphans e = true ∨ Gone e

section
variable {N Gone : String → Prop} {elh elh' elh'' : Bdathe}

theorem Advanced.refl : Advanced N Gone elh elh :=
  ⟨fun _ => .inl, fun _ _ => .inl, fun _ => .inl⟩

theorem Advanced.trans (h : Advanced N Gone elh elh') (h' : Advanced N Gone elh' elh'') :
    Advanced N Gone elh elh'' where
  superEls y hy := (h'.superEls y hy).elim (h.superEls y) .inr
  subEls e cl hcl := (h'.subEls e cl hcl).elim (h.subEls e cl) .inr
  orphans e he := (h'.orphans e he).elim (h.orphans e) .inr

theorem Advanced.mono {N' Gone' : String → Prop} (h : Advanced N Gone elh elh')
    (hN : ∀ y, N y → N' y) (hgone : ∀ e, Gone e → Gone' e) : Advanced N' Gone' elh elh' where
  superEls y hy := (h.superEls y hy).imp_right (hN y)
  subEls e cl hcl := (h.subEls e cl hcl).imp_right (hN cl)
  orphans e he := (h.orphans e he).imp_right (hgone e)

/-- A mark is taken off. -/
theorem Advanced.unmark (cl : String) :
    Advanced N Gone elh { elh with orphans := Function.update elh.orphans cl false } where
  superEls _ := .inl
  subEls _ _ := .inl
  orphans e he := by
    have he : Function.update elh.orphans cl false e = true := he
    by_cases hcl : e = cl
    · rw [hcl, Function.update_self] at he
      cases he
    · rw [Function.update_of_ne hcl] at he
      exact .inl he

end

section
variable {order : Order} {depth : ℕ} {individuals : Individuals} {kind : Kind} {x : String}
  {elh elh' : Bdathe}

theorem orphans_foldl (individuals : Individuals) (x : String) (l : List String) (elh : Bdathe)
    {e : String} (h : (l.foldl (addSubelement individuals x) elh).orphans e = true) :
    elh.orphans e = true ∨ e ∈ l ∧ get individuals e = .init := by
  induction l generalizing elh with
  | nil => exact .inl h
  | cons a l ih =>
    rcases ih _ h with he | ⟨hmem, hinit⟩
    · rw [addSubelement] at he
      split at he
      · rename_i ha
        by_cases hea : e = a
        · exact .inr ⟨hea ▸ List.mem_cons_self, hea ▸ ha⟩
        · exact .inl ((Function.update_of_ne hea ..).symm.trans he)
      · exact .inl he
    · exact .inr ⟨List.mem_cons_of_mem _ hmem, hinit⟩

/-- An update of an element. An element that is not there gets no element above it. -/
theorem updateElementTo_some (h : updateElementTo order depth individuals x elh
      kind.parentPredicate = some elh') :
    Advanced (· = x) (fun e => get individuals e = .init ∧ get individuals x ≠ .init) elh elh' ∧
      Marked elh elh' ∧ ∀ e cl, cl ∈ elh.subEls e → cl ∈ elh'.subEls e := by
  rw [updateElementTo, Option.bind_eq_bind, Option.bind_eq_some_iff] at h
  obtain ⟨s, hs, h⟩ := h
  obtain ⟨hsup, hsub, hmark⟩ := addSubelement_foldl individuals x (order.keys s)
    { elh with superEls := Function.update elh.superEls x s }
  cases Option.some.inj h
  refine ⟨⟨fun y hy => ?_, fun e cl hcl => ?_, fun e he => ?_⟩, hmark,
    fun e cl hcl => (hsub cl e).mpr (.inl hcl)⟩
  · by_cases hyx : y = x
    · exact .inr hyx
    · rw [hsup] at hy
      exact .inl ((Function.update_of_ne hyx ..).symm.trans hy)
  · exact ((hsub cl e).mp hcl).imp_right And.left
  · refine (orphans_foldl individuals x _ _ he).imp_right fun ⟨hmem, hinit⟩ => ⟨hinit, fun hx => ?_⟩
    rw [Order.mem_keys, prepareSuperelements_init hx hs] at hmem
    exact List.not_mem_nil hmem

theorem updateElementTo_cyclic (h : Cyclic individuals kind x) (elh : Bdathe) :
    updateElementTo order depth individuals x elh kind.parentPredicate = none := by
  rw [updateElementTo, prepareSuperelements_cyclic h]
  rfl

theorem updateElementTo_ends (order : Order) (h : ¬Cyclic individuals kind x)
    (hdepth : individuals.keys.length < depth) (elh : Bdathe) :
    ∃ elh', updateElementTo order depth individuals x elh kind.parentPredicate = some elh' := by
  obtain ⟨s, hs⟩ := prepareSuperelements_ends h hdepth []
  exact ⟨_, by rw [updateElementTo, hs]; rfl⟩

/-- The depth that an update of the cache has is enough. -/
theorem updateElement_eq_some_iff :
    updateElement order individuals x elh kind.parentPredicate = some elh' ↔
      ∃ depth, updateElementTo order depth individuals x elh kind.parentPredicate = some elh' := by
  refine ⟨fun h => ⟨_, h⟩, ?_⟩
  rintro ⟨depth, h⟩
  have hcyclic : ¬Cyclic individuals kind x := fun hcyclic => by
    rw [updateElementTo_cyclic hcyclic] at h
    cases h
  obtain ⟨s, hs⟩ := prepareSuperelements_ends hcyclic (Nat.lt_succ_self _) []
  rw [updateElementTo, Option.bind_eq_bind, Option.bind_eq_some_iff] at h
  obtain ⟨s', hs', h⟩ := h
  have heq : s = s' := Option.some.inj
    ((prepareSuperelements_mono (Nat.le_max_left _ depth) hs).symm.trans
      (prepareSuperelements_mono (Nat.le_max_right _ depth) hs'))
  rw [updateElement, hs, heq]
  exact h

end

/-! ## An individual -/

/-- The update of an individual comes to no cycle: not from the individual, where it is updated
itself, and not from those that mention it, where it is an orphan. -/
def Safe (individuals : Individuals) (kind : Kind) (elh : Bdathe) (uri : String) (icl : Names) :
    Prop :=
  (icl = [] → ¬Cyclic individuals kind uri) ∧
    (elh.orphans uri = true → ∀ cl ∈ elh.subEls uri, ¬Cyclic individuals kind cl)

section
variable {order : Order} {depth : ℕ} {individuals : Individuals} {kind : Kind} {uri : String}
  {icl : Names} {elh elh' : Bdathe} {N : String → Prop}

theorem updateSelfTo_ends (order : Order) (elh : Bdathe)
    (hN : ∀ y, N y → ¬Cyclic individuals kind y)
    (hdepth : individuals.keys.length < depth) (hself : icl = [] → N uri) :
    ∃ elh', updateSelfTo order depth individuals kind uri icl elh = some elh' ∧
      Advanced N (fun e => get individuals e = .init) elh elh' ∧
      Advanced (· = uri) (· ≠ uri) elh elh' := by
  by_cases h : icl = []
  · obtain ⟨elh', h'⟩ := updateElementTo_ends order (hN uri (hself h)) hdepth elh
    obtain ⟨hadv, -, -⟩ := updateElementTo_some h'
    refine ⟨elh', by rw [updateSelfTo, if_pos h, h'], hadv.mono ?_ fun _ => And.left,
      hadv.mono (fun _ => id) ?_⟩
    · rintro y rfl
      exact hself h
    · rintro e ⟨hinit, hne⟩ rfl
      exact hne hinit
  · exact ⟨elh, if_neg h, .refl, .refl⟩

theorem updateMentionsTo_ends (order : Order) (elh : Bdathe)
    (hN : ∀ y, N y → ¬Cyclic individuals kind y)
    (hdepth : individuals.keys.length < depth)
    (hmentions : elh.orphans uri = true → ∀ cl ∈ elh.subEls uri, N cl) :
    ∃ elh', updateMentionsTo order depth individuals kind uri elh = some elh' ∧
      Advanced N (fun e => get individuals e = .init) elh elh' := by
  by_cases h : elh.orphans uri = true
  · rw [updateMentionsTo, if_pos h]
    refine foldlM_eq_some (fun cl hcl mid hmid => ?_) Advanced.refl
    have hcl := hmentions h cl (order.mem_keys.mp hcl)
    obtain ⟨next, hnext⟩ := updateElementTo_ends order (hN cl hcl) hdepth mid
    obtain ⟨hadv, -, -⟩ := updateElementTo_some hnext
    refine ⟨_, by rw [hnext]; rfl, hmid.trans (Advanced.trans ?_ (.unmark cl))⟩
    refine hadv.mono ?_ fun _ => And.left
    rintro y rfl
    exact hcl
  · exact ⟨elh, if_neg h, .refl⟩

theorem updateSelfTo_some (h : updateSelfTo order depth individuals kind uri icl elh = some elh') :
    Marked elh elh' ∧ ∀ e cl, cl ∈ elh.subEls e → cl ∈ elh'.subEls e := by
  rw [updateSelfTo] at h
  split at h
  · exact (updateElementTo_some h).2
  · cases h
    exact ⟨fun _ => id, fun _ _ => id⟩

/-- Where a mention leads to a cycle, the update of the mentions does not end. -/
theorem updateMentionsTo_none (horphan : elh.orphans uri = true) {cl : String}
    (hcl : cl ∈ elh.subEls uri) (h : Cyclic individuals kind cl) :
    updateMentionsTo order depth individuals kind uri elh = none := by
  rw [updateMentionsTo, if_pos horphan]
  refine foldlM_eq_none (order.mem_keys.mpr hcl) fun mid => ?_
  rw [updateElementTo_cyclic h]
  rfl

end

theorem advanced_addEl {N Gone : String → Prop} (kind : Kind) (uri : String) (elh : Bdathe) :
    Advanced N Gone elh (addEl kind uri elh) := by
  rw [addEl]
  split
  · exact ⟨fun _ => .inl, fun _ _ => .inl, fun _ => .inl⟩
  · exact .refl

section
variable {order : Order} {depth : ℕ} {kind : Kind} {onto : Onto} {indv : Individual}
  {replace : Bool} {N : String → Prop} {individuals : Individuals} {icl : Names}

/-- The update of an individual ends if it comes to no cycle. -/
theorem updateKindTo_ends (order : Order) (onto : Onto) (indv : Individual) (replace : Bool)
    (hindividuals : individuals =
      if replace then onto.individuals.insert indv.uri indv else onto.individuals)
    (hicl : icl = if replace then [] else (onto.bdathe kind).superEls indv.uri)
    (hN : ∀ y, N y → ¬Cyclic individuals kind y) (hdepth : individuals.keys.length < depth)
    (hself : icl = [] → N indv.uri)
    (hmentions : (onto.bdathe kind).orphans indv.uri = true →
      ∀ cl ∈ (onto.bdathe kind).subEls indv.uri, N cl) :
    ∃ elh', updateKindTo order depth onto kind indv replace =
        some ⟨individuals, Function.update onto.bdathe kind elh'⟩ ∧
      Advanced N (fun e => get individuals e = .init) (onto.bdathe kind) elh' := by
  obtain ⟨elh, helh, hadv, hown⟩ :=
    updateSelfTo_ends order (onto.bdathe kind) hN hdepth hself
  have hmid : Advanced (· = indv.uri) (· ≠ indv.uri) (onto.bdathe kind)
      (addEl kind indv.uri elh) := hown.trans (advanced_addEl kind indv.uri elh)
  have hmentions' : (addEl kind indv.uri elh).orphans indv.uri = true →
      ∀ cl ∈ (addEl kind indv.uri elh).subEls indv.uri, N cl := by
    intro horphan cl hcl
    -- the individual is an orphan only if it was one before
    have horphan := (hmid.orphans _ horphan).resolve_right (absurd rfl)
    have hcl := (hadv.trans (advanced_addEl kind indv.uri elh)).subEls _ _ hcl
    exact hcl.elim (hmentions horphan cl) id
  obtain ⟨elh', helh', hadv'⟩ :=
    updateMentionsTo_ends order (addEl kind indv.uri elh) hN hdepth hmentions'
  refine ⟨elh', ?_, hadv.trans ((advanced_addEl kind indv.uri elh).trans hadv')⟩
  simp only [updateKindTo, ← hindividuals, ← hicl, helh, helh', bind, Option.bind]
  rfl

theorem updateKindTo_none
    (hindividuals : individuals =
      if replace then onto.individuals.insert indv.uri indv else onto.individuals)
    (hicl : icl = if replace then [] else (onto.bdathe kind).superEls indv.uri)
    (h : ¬Safe individuals kind (onto.bdathe kind) indv.uri icl) :
    updateKindTo order depth onto kind indv replace = none := by
  simp only [updateKindTo, ← hindividuals, ← hicl, bind, Option.bind]
  rw [Safe, not_and_or] at h
  push Not at h
  cases hself : updateSelfTo order depth individuals kind indv.uri icl (onto.bdathe kind) with
  | none => rfl
  | some elh =>
    obtain ⟨hmark, hsub⟩ := updateSelfTo_some hself
    rcases h with ⟨hnil, hcyclic⟩ | ⟨horphan, cl, hcl, hcyclic⟩
    · rw [updateSelfTo, if_pos hnil, updateElementTo_cyclic hcyclic] at hself
      cases hself
    · have horphan : (addEl kind indv.uri elh).orphans indv.uri = true := by
        rw [orphans_addEl]
        exact hmark _ horphan
      have hcl : cl ∈ (addEl kind indv.uri elh).subEls indv.uri := by
        rw [addEl]
        split
        · exact hsub _ _ hcl
        · exact hsub _ _ hcl
      dsimp only
      rw [updateMentionsTo_none horphan hcl hcyclic]

end

/-! ## A call -/

section
variable {order : Order} {depth fuel : ℕ} {onto : Onto} {indv : Individual} {replace : Bool}
  {kind : Kind}

theorem updateOntoHierarchyTo_live (hd : isDeleted indv = false) (hk : kind? indv = some kind) :
    updateOntoHierarchyTo order depth (fuel + 1) onto indv replace =
      updateKindTo order depth onto kind indv replace := by
  rw [updateOntoHierarchyTo, if_neg (by simp [hd]), hk]

theorem updateOntoHierarchyTo_other (hd : isDeleted indv = false) (hk : kind? indv = none) :
    updateOntoHierarchyTo order depth (fuel + 1) onto indv replace = some onto := by
  rw [updateOntoHierarchyTo, if_neg (by simp [hd]), hk]

end

/-- The key of an individual is its uri. -/
def Keyed (individuals : Individuals) : Prop :=
  ∀ x indv, individuals.lookup x = some indv → indv.uri = x

/-- A call comes to no cycle. For a deleted individual all that are left are updated. -/
def ComesToNoCycle (onto : Onto) (indv : Individual) (replace : Bool) : Prop :=
  if isDeleted indv then
    let individuals := onto.individuals.erase indv.uri
    ∀ x, isDeleted (get individuals x) = false → ∀ kind, kind? (get individuals x) = some kind →
      Safe individuals kind (onto.bdathe kind) x ((onto.bdathe kind).superEls x)
  else
    let individuals :=
      if replace then onto.individuals.insert indv.uri indv else onto.individuals
    ∀ kind, kind? indv = some kind →
      Safe individuals kind (onto.bdathe kind) indv.uri
        (if replace then [] else (onto.bdathe kind).superEls indv.uri)

/-! ### A call for a deleted individual -/

/-- Of the individuals only deleted ones were taken out. -/
def Kept (all individuals : Individuals) : Prop :=
  ∀ x, individuals.lookup x = all.lookup x ∨
    individuals.lookup x = none ∧ isDeleted (get all x) = true

/-- The individuals that are deleted. -/
def deletedIn (individuals : Individuals) : Finset String :=
  individuals.keys.toFinset.filter fun x => isDeleted (get individuals x) = true

/-- What holds while those that are left are updated. -/
structure Left (all : Individuals) (onto : Onto) : Prop where
  kept : Kept all onto.individuals
  safe : ∀ x, isDeleted (get all x) = false → ∀ kind, kind? (get all x) = some kind →
    Safe all kind (onto.bdathe kind) x ((onto.bdathe kind).superEls x)

section
variable {all individuals : Individuals} {onto : Onto} {kind : Kind} {x : String}

theorem isDeleted_init : isDeleted .init = false := rfl

theorem kind?_init : kind? .init = none := rfl

theorem mem_deletedIn : x ∈ deletedIn individuals ↔ isDeleted (get individuals x) = true := by
  rw [deletedIn, Finset.mem_filter, List.mem_toFinset]
  refine and_iff_right_of_imp fun h => ?_
  by_contra hx
  rw [get, AList.lookup_eq_none.mpr hx, Option.getD_none, isDeleted_init] at h
  cases h

theorem Kept.refl : Kept all all := fun _ => .inl rfl

theorem Kept.keys_length (h : Kept all individuals) :
    individuals.keys.length ≤ all.keys.length := by
  refine (List.Nodup.subperm individuals.keys_nodup fun x hx => ?_).length_le
  rcases h x with heq | ⟨hnone, -⟩
  · rw [← AList.mem_keys, ← AList.lookup_isSome, ← heq, AList.lookup_isSome]
    exact AList.mem_keys.mpr hx
  · exact absurd (AList.mem_keys.mpr hx) (AList.lookup_eq_none.mp hnone)

theorem Kept.get_eq (h : Kept all individuals) (hx : isDeleted (get all x) = false) :
    get individuals x = get all x := by
  rcases h x with heq | ⟨-, hdeleted⟩
  · rw [get, heq]
    rfl
  · rw [hx] at hdeleted
    cases hdeleted

/-- Fewer individuals state fewer parents. -/
theorem Kept.cyclic (h : Kept all individuals) (hx : Cyclic individuals kind x) :
    Cyclic all kind x := by
  refine hx.mono fun y e ⟨hlink, hne⟩ => ⟨?_, hne⟩
  rcases h y with heq | ⟨hnone, -⟩
  · rw [Link, links, stored, ← heq]
    exact hlink
  · rw [Link, links, stored, hnone] at hlink
    exact absurd hlink List.not_mem_nil

theorem Kept.erase (h : Kept all individuals) (hx : isDeleted (get all x) = true) :
    Kept all (individuals.erase x) := by
  intro y
  by_cases hy : y = x
  · rw [hy]
    exact .inr ⟨AList.lookup_erase _ _, hx⟩
  · rw [AList.lookup_erase_ne hy]
    exact h y

theorem deletedIn_erase_subset (individuals : Individuals) (x : String) :
    deletedIn (individuals.erase x) ⊆ (deletedIn individuals).erase x := by
  intro y hy
  rw [mem_deletedIn] at hy
  by_cases hyx : y = x
  · rw [hyx, get, AList.lookup_erase, Option.getD_none, isDeleted_init] at hy
    cases hy
  · rw [get, AList.lookup_erase_ne hyx] at hy
    exact Finset.mem_erase.mpr ⟨hyx, mem_deletedIn.mpr hy⟩

/-- Updates of elements from which no cycle is reached keep what holds. -/
theorem Left.advance (h : Left all onto) {elh' : Bdathe}
    (hadv : Advanced (fun y => ¬Cyclic all kind y) (fun e => get onto.individuals e = .init)
      (onto.bdathe kind) elh') :
    Left all ⟨onto.individuals, Function.update onto.bdathe kind elh'⟩ := by
  refine ⟨h.kept, fun x hx k hk => ?_⟩
  by_cases heq : k = kind
  · subst heq
    obtain ⟨hself, hmentions⟩ := h.safe x hx k hk
    dsimp only
    rw [Function.update_self]
    refine ⟨fun hnil => (hadv.superEls x hnil).elim hself id, fun horphan cl hcl => ?_⟩
    have horphan := (hadv.orphans x horphan).resolve_right fun hinit => by
      rw [h.kept.get_eq hx] at hinit
      rw [hinit, kind?_init] at hk
      cases hk
    exact (hadv.subEls x cl hcl).elim (hmentions horphan cl) id
  · dsimp only
    rw [Function.update_of_ne heq]
    exact h.safe x hx k hk

/-- A call for an individual that is left. -/
theorem Left.updateKindTo (h : Left all onto) (order : Order) {indv : Individual}
    (hall : get all indv.uri = indv) (hx : isDeleted indv = false) (hk : kind? indv = some kind) :
    ∃ onto', Ontology.updateKindTo order (all.keys.length + 1) onto kind indv false = some onto' ∧
      Left all onto' ∧ onto'.individuals = onto.individuals := by
  obtain ⟨hself, hmentions⟩ := h.safe indv.uri (hall.symm ▸ hx) kind (hall.symm ▸ hk)
  have hicl : (onto.bdathe kind).superEls indv.uri =
      if false then [] else (onto.bdathe kind).superEls indv.uri := rfl
  obtain ⟨elh', hend, hadv⟩ := updateKindTo_ends order onto indv false rfl hicl
    (fun y hy hcyclic => hy (h.kept.cyclic hcyclic)) (Nat.lt_succ_of_le h.kept.keys_length) hself
    hmentions
  exact ⟨_, hend, h.advance hadv, rfl⟩

/-- A call for a deleted individual. The induction is on how many of those that are left are deleted
themselves. -/
theorem Left.delete (order : Order) (hall : Keyed all) {n : ℕ} {onto : Onto} {indv : Individual}
    {replace : Bool} (hleft : Left all ⟨onto.individuals.erase indv.uri, onto.bdathe⟩)
    (hdeleted : isDeleted indv = true)
    (hn : (deletedIn (onto.individuals.erase indv.uri)).card ≤ n) :
    ∃ onto', updateOntoHierarchyTo order (all.keys.length + 1) (n + 2) onto indv replace =
        some onto' ∧ Left all onto' ∧
      deletedIn onto'.individuals ⊆ deletedIn (onto.individuals.erase indv.uri) := by
  induction n using Nat.strong_induction_on generalizing onto indv replace with
  | _ n ih =>
  rw [updateOntoHierarchyTo, if_pos hdeleted]
  generalize onto.individuals.erase indv.uri = individuals at hleft hn ⊢
  have hstep : ∀ x ∈ order.keys individuals.keys, ∀ o : Onto,
      Left all o ∧ deletedIn o.individuals ⊆ deletedIn individuals →
      ∃ o', updateOntoHierarchyTo order (all.keys.length + 1) (n + 1) o (get individuals x) false =
          some o' ∧ Left all o' ∧ deletedIn o'.individuals ⊆ deletedIn individuals := by
    rintro x hx o ⟨ho, hsub⟩
    obtain ⟨i, hi⟩ := Option.isSome_iff_exists.mp
      (AList.lookup_isSome.mpr (AList.mem_keys.mpr (order.mem_keys.mp hx)))
    have hall_x : all.lookup x = some i := by
      rcases hleft.kept x with heq | ⟨hnone, -⟩
      · rw [← heq, hi]
      · rw [hi] at hnone
        cases hnone
    have huri : i.uri = x := hall x i hall_x
    have hget : get individuals x = i := by rw [get, hi, Option.getD_some]
    have hgetAll : get all i.uri = i := by rw [huri, get, hall_x, Option.getD_some]
    rw [hget]
    cases hd : isDeleted i with
    | true =>
      have hmem : i.uri ∈ deletedIn individuals := by
        rw [huri, mem_deletedIn, hget, hd]
      have hfewer : deletedIn (o.individuals.erase i.uri) ⊆ (deletedIn individuals).erase i.uri :=
        (deletedIn_erase_subset _ _).trans (Finset.erase_subset_erase _ hsub)
      have hcard := (Finset.card_le_card hfewer).trans_lt (Finset.card_erase_lt_of_mem hmem)
      obtain ⟨m, hm⟩ : ∃ m, n = m + 1 := ⟨n - 1, by omega⟩
      subst hm
      have hleft' : Left all ⟨o.individuals.erase i.uri, o.bdathe⟩ :=
        ⟨ho.kept.erase (hgetAll.symm ▸ hd), ho.safe⟩
      obtain ⟨o', hend, hleft'', hsub'⟩ := ih m (Nat.lt_succ_self m) hleft' hd (by omega)
      exact ⟨o', hend, hleft'', (hsub'.trans hfewer).trans (Finset.erase_subset _ _)⟩
    | false =>
      cases hk : kind? i with
      | none => exact ⟨o, updateOntoHierarchyTo_other hd hk, ho, hsub⟩
      | some kind =>
        obtain ⟨o', hend, hleft', hsame⟩ := ho.updateKindTo order hgetAll hd hk
        exact ⟨o', (updateOntoHierarchyTo_live hd hk).trans hend, hleft', hsame ▸ hsub⟩
  exact foldlM_eq_some hstep ⟨hleft, subset_rfl⟩

end

/-! ## The property -/

/-- The order in which an element comes first. -/
def Order.first (x : String) : Order where
  keys l := if x ∈ l then x :: l.erase x else l
  perm l := by
    split
    · rename_i h
      exact (List.perm_cons_erase h).symm
    · exact .refl l

theorem Keyed.erase {individuals : Individuals} (h : Keyed individuals) (uri : String) :
    Keyed (individuals.erase uri) := by
  intro x indv hindv
  by_cases hx : x = uri
  · rw [hx, AList.lookup_erase] at hindv
    cases hindv
  · rw [AList.lookup_erase_ne hx] at hindv
    exact h x indv hindv

/-- An element that comes to a cycle is the first to be updated. -/
theorem updateOntoHierarchyTo_first {individuals : Individuals} {onto : Onto} {x : String}
    {kind : Kind} (hx : isDeleted (get individuals x) = false)
    (hk : kind? (get individuals x) = some kind) (hkeyed : Keyed individuals)
    (hrisk : ¬Safe individuals kind (onto.bdathe kind) x ((onto.bdathe kind).superEls x))
    (depth fuel : ℕ) :
    ((Order.first x).keys individuals.keys).foldlM
      (fun onto uri => updateOntoHierarchyTo (.first x) depth fuel onto (get individuals uri) false)
      { onto with individuals := individuals } = none := by
  have hmem : x ∈ individuals := by
    by_contra hx
    rw [get, AList.lookup_eq_none.mpr hx, Option.getD_none, kind?_init] at hk
    cases hk
  obtain ⟨indv, hindv⟩ := Option.isSome_iff_exists.mp (AList.lookup_isSome.mpr hmem)
  have hget : get individuals x = indv := by rw [get, hindv, Option.getD_some]
  have huri : indv.uri = x := hkeyed x indv hindv
  have hkeys : (Order.first x).keys individuals.keys = x :: individuals.keys.erase x :=
    if_pos (AList.mem_keys.mp hmem)
  rw [hkeys, List.foldlM_cons, hget]
  rw [hget] at hx hk
  cases fuel with
  | zero => rfl
  | succ fuel =>
    rw [updateOntoHierarchyTo_live hx hk, updateKindTo_none rfl rfl (huri.symm ▸ hrisk)]
    rfl

/-- A call of the cache ends just if it comes to no cycle of two or more elements. -/
theorem ends_iff (onto : Onto) (hkeyed : Keyed onto.individuals) (indv : Individual)
    (replace : Bool) : Ends onto indv replace ↔ ComesToNoCycle onto indv replace := by
  cases hd : isDeleted indv with
  | true =>
    rw [ComesToNoCycle, if_pos hd]
    dsimp only
    constructor
    · intro h x hx kind hk
      by_contra hrisk
      obtain ⟨depth, fuel, onto', hend⟩ := h (.first x)
      cases fuel with
      | zero => cases hend
      | succ fuel =>
        rw [updateOntoHierarchyTo, if_pos hd, updateOntoHierarchyTo_first hx hk (hkeyed.erase _)
          hrisk] at hend
        cases hend
    · intro h order
      have hleft : Left (onto.individuals.erase indv.uri)
          ⟨onto.individuals.erase indv.uri, onto.bdathe⟩ := ⟨.refl, h⟩
      obtain ⟨onto', hend, -⟩ := hleft.delete order (hkeyed.erase _) hd (Nat.le_refl _)
      exact ⟨_, _, onto', hend⟩
  | false =>
    rw [ComesToNoCycle, if_neg (by simp [hd])]
    dsimp only
    constructor
    · intro h kind hk
      by_contra hrisk
      obtain ⟨depth, fuel, onto', hend⟩ := h ⟨id, fun _ => .refl _⟩
      cases fuel with
      | zero => cases hend
      | succ fuel =>
        rw [updateOntoHierarchyTo_live hd hk, updateKindTo_none rfl rfl hrisk] at hend
        cases hend
    · intro h order
      cases hk : kind? indv with
      | none =>
        exact ⟨0, 1, onto, updateOntoHierarchyTo_other hd hk⟩
      | some kind =>
        obtain ⟨hself, hmentions⟩ := h kind hk
        obtain ⟨elh', hend, -⟩ := updateKindTo_ends order onto indv replace rfl rfl
          (fun _ => id) (Nat.lt_succ_self _) hself hmentions
        exact ⟨_, 1, _, (updateOntoHierarchyTo_live hd hk).trans hend⟩

/-- A cache in which `b` is below `a`, which is not known yet. -/
def belowUnknown : Onto := ⟨AList.insert "b" (classOf "b" ["a"]) ∅, fun _ => .empty⟩

theorem keyed_belowUnknown : Keyed belowUnknown.individuals := by
  intro x indv h
  by_cases hx : x = "b"
  · rw [hx, belowUnknown, AList.lookup_insert] at h
    cases h
    exact hx.symm
  · rw [belowUnknown, AList.lookup_insert_ne hx] at h
    cases h

/-- `a` names itself and nothing else. -/
theorem ends_self : Ends belowUnknown (classOf "a" ["a"]) true := by
  refine (ends_iff belowUnknown keyed_belowUnknown _ true).2 ?_
  have hsafe : ∀ kind, kind? (classOf "a" ["a"]) = some kind →
      Safe (belowUnknown.individuals.insert "a" (classOf "a" ["a"])) kind .empty "a" [] := by
    intro kind hk
    obtain rfl : kind = .cls := by
      revert kind
      decide
    refine ⟨fun _ hcyclic => ?_, nofun⟩
    obtain ⟨y, ⟨hlink, hne⟩, -⟩ := hcyclic.exists_next
    have hlinks : links (stored (belowUnknown.individuals.insert "a" (classOf "a" ["a"]))) .cls
        "a" = ["a"] := by decide
    rw [Link, hlinks, List.mem_singleton] at hlink
    exact hne hlink
  exact hsafe

/-- With `a` below `b` the walk upwards goes round for ever. -/
theorem not_ends : ¬∀ (onto : Onto), Keyed onto.individuals →
    ∀ (indv : Individual) (replace : Bool), Ends onto indv replace := by
  intro h
  have hab : Follows (belowUnknown.individuals.insert "a" (classOf "a" ["b"])) .cls "a" "b" := by
    unfold Follows Link
    decide
  have hba : Follows (belowUnknown.individuals.insert "a" (classOf "a" ["b"])) .cls "b" "a" := by
    unfold Follows Link
    decide
  have hcyclic : Cyclic (belowUnknown.individuals.insert "a" (classOf "a" ["b"])) .cls "a" :=
    ⟨"a", .refl, .tail (.single hab) hba⟩
  obtain ⟨depth, fuel, onto', hend⟩ :=
    h belowUnknown keyed_belowUnknown (classOf "a" ["b"]) true ⟨id, fun _ => .refl _⟩
  cases fuel with
  | zero => cases hend
  | succ fuel =>
    have hrisk : ¬Safe (belowUnknown.individuals.insert "a" (classOf "a" ["b"])) .cls
        (belowUnknown.bdathe .cls) "a" [] := fun hsafe => hsafe.1 rfl hcyclic
    have hnone : ∀ order, updateKindTo order depth belowUnknown .cls (classOf "a" ["b"]) true =
        none := fun _ => updateKindTo_none rfl rfl hrisk
    rw [updateOntoHierarchyTo_live rfl rfl, hnone] at hend
    cases hend

end Veda.Ontology
