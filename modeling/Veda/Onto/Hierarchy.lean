import Mathlib.Data.List.Lemmas
import Veda.Lib.Closure
import Veda.Onto.Onto

/-! # The hierarchies in the cache

What the individuals of an ontology state, and what one call of the cache recomputes of it. -/

namespace Veda.Ontology

open Veda.Onto Veda.Closure Relation

/-! ## What is stated -/

/-- The latest individual of each uri that is not deleted. -/
abbrev Known := String → Option Individual

/-- What is stored. -/
def stored (individuals : Individuals) : Known := fun x => individuals.lookup x

/-- The parents that an individual states. -/
def links (known : Known) (kind : Kind) (x : String) : List String :=
  (((known x).getD .init).getResources kind.parentPredicate).map Resource.uriOf

def Link (known : Known) (kind : Kind) (x e : String) : Prop := e ∈ links known kind x

/-- What is above `x` by the links. -/
def ancestors (known : Known) (kind : Kind) (x : String) : Set String :=
  {e | TransGen (Link known kind) x e}

/-- `x` is a property, or a class. -/
def IsElement (known : Known) (kind : Kind) (x : String) : Prop :=
  ∃ indv, known x = some indv ∧ kind? indv = some kind

/-- What is above a property, or above a class. -/
def stated (known : Known) (kind : Kind) (x : String) : Set String :=
  {e | IsElement known kind x ∧ e ∈ ancestors known kind x}

/-- The table that a hierarchy keeps. -/
def Bdathe.table (elh : Bdathe) : Table String where
  above x := {e | e ∈ elh.superEls x}
  below e := {x | x ∈ elh.subEls e}

section
variable {known : Known} {kind : Kind} {x y z e : String}

theorem mem_ancestors : e ∈ ancestors known kind x ↔
    ∃ y, Link known kind x y ∧ (e = y ∨ e ∈ ancestors known kind y) := by
  refine TransGen.head'_iff.trans (exists_congr fun y => and_congr_right fun _ => ?_)
  exact reflTransGen_iff_eq_or_transGen

theorem stated_trans (hy : y ∈ stated known kind x) (hz : z ∈ stated known kind y) :
    z ∈ stated known kind x :=
  ⟨hy.1, TransGen.trans hy.2 hz.2⟩

theorem stated_eq_of_mem (h : e ∈ stated known kind x) :
    ancestors known kind x = stated known kind x :=
  Set.ext fun _ => (and_iff_right h.1).symm

theorem IsElement.stated_eq (h : IsElement known kind x) :
    ancestors known kind x = stated known kind x :=
  Set.ext fun _ => (and_iff_right h).symm

theorem stated_eq_of_links (h : links known kind x = []) :
    ancestors known kind x = stated known kind x := by
  have hnot : ∀ e, e ∉ ancestors known kind x := by
    intro e he
    obtain ⟨y, hy, -⟩ := mem_ancestors.mp he
    rw [Link, h] at hy
    exact List.not_mem_nil hy
  exact Set.ext fun e => ⟨fun he => (hnot e he).elim, fun he => (hnot e he.2).elim⟩

end

/-! ## The walk upwards -/

section
variable {individuals : Individuals} {kind : Kind}

theorem mem_keys_of_link {x e : String} (h : Link (stored individuals) kind x e) :
    x ∈ individuals.keys := by
  by_contra hx
  rw [Link, links, stored, AList.lookup_eq_none.mpr hx] at h
  exact List.not_mem_nil h

/-- On acyclic links the walk ends and adds what is above. The induction is on the depth that is
left, which stays above the height of the element. -/
theorem prepareSuperelements_eq {height : String → ℕ}
    (hh : ∀ x y, Link (stored individuals) kind x y → height y < height x) {fuel : ℕ} {x : String}
    (hf : height x < fuel) (acc : Names) :
    ∃ s, prepareSuperelements kind.parentPredicate individuals fuel x acc = some s ∧
      ∀ e, e ∈ s ↔ e ∈ acc ∨ e ∈ ancestors (stored individuals) kind x := by
  induction fuel generalizing x acc with
  | zero => exact absurd hf (Nat.not_lt_zero _)
  | succ fuel ih =>
    have walk (rss : Resources)
        (hrss : ∀ rs ∈ rss, Link (stored individuals) kind x rs.uriOf) (acc : Names) :
        ∃ s, rss.foldlM (fun superelementes elementz =>
            if elementz.uriOf ≠ x then
              prepareSuperelements kind.parentPredicate individuals fuel elementz.uriOf
                (superelementes.insert elementz.uriOf)
            else some (superelementes.insert elementz.uriOf)) acc = some s ∧
          ∀ e, e ∈ s ↔ e ∈ acc ∨ ∃ rs ∈ rss, e = rs.uriOf ∨
            e ∈ ancestors (stored individuals) kind rs.uriOf := by
      induction rss generalizing acc with
      | nil => exact ⟨acc, rfl, fun e => by simp⟩
      | cons rs rss ihr =>
        have hlink := hrss rs List.mem_cons_self
        have hlt := hh x rs.uriOf hlink
        have hne : rs.uriOf ≠ x := by
          intro heq
          rw [heq] at hlt
          exact lt_irrefl _ hlt
        obtain ⟨s, hs, hmem⟩ := ih (hlt.trans_le (Nat.lt_succ_iff.mp hf)) (acc.insert rs.uriOf)
        obtain ⟨s', hs', hmem'⟩ := ihr (fun r hr => hrss r (List.mem_cons_of_mem _ hr)) s
        refine ⟨s', ?_, fun e => ?_⟩
        · rw [List.foldlM_cons, if_pos hne, hs]
          exact hs'
        · rw [hmem', hmem, List.mem_insert_iff, List.exists_mem_cons_iff, or_assoc, or_assoc,
            or_left_comm, or_assoc]
    obtain ⟨s, hs, hmem⟩ := walk ((get individuals x).getResources kind.parentPredicate)
      (fun rs hrs => List.mem_map_of_mem hrs) acc
    refine ⟨s, hs, fun e => ?_⟩
    rw [hmem, mem_ancestors]
    refine or_congr_right ⟨?_, ?_⟩
    · rintro ⟨rs, hrs, he⟩
      exact ⟨rs.uriOf, List.mem_map_of_mem hrs, he⟩
    · rintro ⟨y, hy, he⟩
      obtain ⟨rs, hrs, rfl⟩ := List.mem_map.mp hy
      exact ⟨rs, hrs, he⟩

end

/-! ## One element -/

/-- Marks of orphans are kept. -/
def Marked (elh elh' : Bdathe) : Prop := ∀ y, elh.orphans y = true → elh'.orphans y = true

section
variable (order : Order) {individuals : Individuals} {kind : Kind}

theorem addSubelement_foldl (individuals : Individuals) (typeUri : String) (l : List String)
    (elh : Bdathe) :
    let elh' := l.foldl (addSubelement individuals typeUri) elh
    elh'.superEls = elh.superEls ∧
      (∀ x e, x ∈ elh'.subEls e ↔ x ∈ elh.subEls e ∨ (x = typeUri ∧ e ∈ l)) ∧
      Marked elh elh' := by
  induction l generalizing elh with
  | nil => exact ⟨rfl, fun x e => by simp, fun _ h => h⟩
  | cons a l ih =>
    obtain ⟨hsup, hsub, hmark⟩ := ih (addSubelement individuals typeUri elh a)
    refine ⟨?_, fun x e => ?_, fun y hy => hmark y ?_⟩
    · rw [List.foldl_cons, hsup, addSubelement]
      split <;> rfl
    · rw [List.foldl_cons, hsub]
      have : (addSubelement individuals typeUri elh a).subEls =
          Function.update elh.subEls a ((elh.subEls a).insert typeUri) := by
        rw [addSubelement]
        split <;> rfl
      rw [this]
      by_cases he : e = a
      · subst he
        rw [Function.update_self, List.mem_insert_iff]
        simp only [List.mem_cons, true_or, and_true]
        tauto
      · rw [Function.update_of_ne he]
        simp only [List.mem_cons, he, false_or]
    · rw [addSubelement]
      split
      · by_cases hya : y = a
        · subst hya
          exact Function.update_self ..
        · exact (Function.update_of_ne hya ..).trans hy
      · exact hy

theorem updateElement_eq (hac : Acyclic (Link (stored individuals) kind)) (x : String)
    (elh : Bdathe) :
    ∃ elh', updateElement order individuals x elh kind.parentPredicate = some elh' ∧
      Table.Recomputes (ancestors (stored individuals) kind) {x} elh.table elh'.table ∧
      Marked elh elh' := by
  obtain ⟨height, hle, hlt⟩ := hac.exists_height individuals.keys.toFinset fun y _ h =>
    List.mem_toFinset.mpr (mem_keys_of_link h)
  have hx : height x < individuals.keys.length + 1 :=
    Nat.lt_succ_iff.mpr ((hle x).trans (List.toFinset_card_le _))
  obtain ⟨s, hs, hmem⟩ := prepareSuperelements_eq hlt hx []
  have hmem : ∀ e, e ∈ s ↔ e ∈ ancestors (stored individuals) kind x := fun e =>
    (hmem e).trans (or_iff_right List.not_mem_nil)
  obtain ⟨hsup, hsub, hmark⟩ := addSubelement_foldl individuals x (order.keys s)
    { elh with superEls := Function.update elh.superEls x s }
  refine ⟨_, by rw [updateElement, hs]; rfl, ⟨?_, ?_, ?_⟩, hmark⟩
  · rintro _ rfl
    ext e
    rw [Bdathe.table, ← hmem]
    simp only [hsup, Function.update_self]
    rfl
  · intro y hy
    ext e
    simp only [Bdathe.table, hsup, Function.update_of_ne hy]
  · intro y e
    refine (hsub y e).trans (or_congr_right ?_)
    rw [order.mem_keys, hmem]
    exact and_congr_right fun h => by rw [h]

theorem updateMentions_eq (hac : Acyclic (Link (stored individuals) kind)) (uri : String)
    (elh : Bdathe) :
    ∃ elh', updateMentions order individuals kind uri elh = some elh' ∧
      Table.Recomputes (ancestors (stored individuals) kind)
        {x | x ∈ elh.subEls uri ∧ elh.orphans uri = true} elh.table elh'.table ∧
      ∀ y, (y ∈ elh.subEls uri → elh.orphans uri = false) → elh.orphans y = true →
        elh'.orphans y = true := by
  have walk (l : List String) (elh : Bdathe) :
      ∃ elh', l.foldlM (fun elh cl => do
          let elh ← updateElement order individuals cl elh kind.parentPredicate
          return { elh with orphans := Function.update elh.orphans cl false }) elh = some elh' ∧
        Table.Recomputes (ancestors (stored individuals) kind) {x | x ∈ l} elh.table elh'.table ∧
        ∀ y ∉ l, elh.orphans y = true → elh'.orphans y = true := by
    induction l generalizing elh with
    | nil => exact ⟨elh, rfl, by simpa using Table.Recomputes.refl _ _, fun _ _ h => h⟩
    | cons cl l ih =>
      obtain ⟨mid, hmid, hrec, hmark⟩ := updateElement_eq order hac cl elh
      obtain ⟨elh', helh', hrec', hmark'⟩ :=
        ih { mid with orphans := Function.update mid.orphans cl false }
      refine ⟨elh', ?_, ?_, fun y hy ho => ?_⟩
      · rw [List.foldlM_cons, hmid]
        exact helh'
      · have hset : {x | x ∈ cl :: l} = {cl} ∪ {x | x ∈ l} := by
          ext x
          exact List.mem_cons
        rw [hset]
        exact hrec.trans hrec'
      · rw [List.mem_cons, not_or] at hy
        exact hmark' y hy.2 ((Function.update_of_ne hy.1 ..).trans (hmark y ho))
  by_cases ho : elh.orphans uri = true
  · obtain ⟨elh', h, hrec, hmark⟩ := walk (order.keys (elh.subEls uri)) elh
    simp only [order.mem_keys] at hrec hmark
    refine ⟨elh', by rw [updateMentions, if_pos ho, h], ?_, fun y hy => hmark y fun hm => ?_⟩
    · simpa only [ho, and_true] using hrec
    · rw [hy hm] at ho
      cases ho
  · refine ⟨elh, if_neg ho, ?_, fun _ _ h => h⟩
    have hset : {x | x ∈ elh.subEls uri ∧ elh.orphans uri = true} = ∅ :=
      Set.ext fun x => iff_of_false (fun hx => ho hx.2) id
    rw [hset]
    exact .refl _ _

theorem updateSelf_eq (hac : Acyclic (Link (stored individuals) kind)) (uri : String)
    (icl : Names) (elh : Bdathe) :
    ∃ elh', updateSelf order individuals kind uri icl elh = some elh' ∧
      Table.Recomputes (ancestors (stored individuals) kind) {x | x = uri ∧ icl = []} elh.table
        elh'.table ∧
      Marked elh elh' := by
  by_cases h : icl = []
  · obtain ⟨elh', h', hrec, hmark⟩ := updateElement_eq order hac uri elh
    refine ⟨elh', by rw [updateSelf, if_pos h, h'], ?_, hmark⟩
    have hset : {x | x = uri ∧ icl = []} = {uri} := Set.ext fun x => and_iff_left h
    rwa [hset]
  · refine ⟨elh, if_neg h, ?_, fun _ h => h⟩
    have hset : {x | x = uri ∧ icl = []} = ∅ :=
      Set.ext fun x => iff_of_false (fun hx => h hx.2) id
    rw [hset]
    exact .refl _ _

@[simp] theorem table_addEl (uri : String) (elh : Bdathe) :
    (addEl kind uri elh).table = elh.table := by
  unfold addEl
  split <;> rfl

@[simp] theorem orphans_addEl (uri : String) (elh : Bdathe) :
    (addEl kind uri elh).orphans = elh.orphans := by
  unfold addEl
  split <;> rfl

/-- What `updateKind` makes of a hierarchy: the individual itself where `own` says so, then, where
it was an orphan, what mentions it. -/
structure Turned (A : String → Set String) (uri : String) (own : Prop) (elh mid elh' : Bdathe) :
    Prop where
  self : Table.Recomputes A {x | x = uri ∧ own} elh.table mid.table
  marked : Marked elh mid
  mentions : Table.Recomputes A {x | x ∈ mid.subEls uri ∧ mid.orphans uri = true} mid.table
    elh'.table
  kept : ∀ y, (y ∈ mid.subEls uri → mid.orphans uri = false) → mid.orphans y = true →
    elh'.orphans y = true

theorem updateKind_eq (hac : Acyclic (Link (stored individuals) kind)) (onto : Onto)
    (indv : Individual) (replace : Bool)
    (hi : individuals = if replace then onto.individuals.insert indv.uri indv
      else onto.individuals) :
    ∃ mid elh', updateKind order onto kind indv replace =
        some ⟨individuals, Function.update onto.bdathe kind elh'⟩ ∧
      Turned (ancestors (stored individuals) kind) indv.uri
        ((if replace then [] else (onto.bdathe kind).superEls indv.uri) = []) (onto.bdathe kind)
        mid elh' := by
  obtain ⟨elh, h, hrec, hmark⟩ := updateSelf_eq order hac indv.uri
    (if replace then [] else (onto.bdathe kind).superEls indv.uri) (onto.bdathe kind)
  obtain ⟨elh', h', hrec', hkept⟩ :=
    updateMentions_eq order hac indv.uri (addEl kind indv.uri elh)
  refine ⟨addEl kind indv.uri elh, elh', ?_, ?_, ?_, hrec', hkept⟩
  · simp only [updateKind, ← hi, h, h', bind, Option.bind]
    rfl
  · rwa [table_addEl]
  · intro y hy
    rw [orphans_addEl]
    exact hmark y hy

end

/-! ## Within a call

From the tables `elh₀` before the call, exact for `A₀`, the elements of `V` have been recomputed.
An orphan of before the call whose mentions are not yet among them is still marked. -/

structure Progress (A B : String → Set String) (elh₀ elh : Bdathe) (V : Set String) : Prop where
  recomputes : Table.Recomputes A V elh₀.table elh.table
  valid : ∀ x ∈ V, A x = B x
  orphans : ∀ y, elh₀.orphans y = true →
    elh₀.table.below y ⊆ V ∨ (elh.orphans y = true ∧ y ∉ V)

/-- What has to have been recomputed once `y` was gone through. -/
def Done (elh₀ : Bdathe) (V : Set String) (y : String) : Prop :=
  (elh₀.superEls y = [] → y ∈ V) ∧ (elh₀.orphans y = true → elh₀.table.below y ⊆ V)

theorem Done.mono {elh₀ : Bdathe} {V V' : Set String} {y : String} (h : Done elh₀ V y)
    (hV : V ⊆ V') : Done elh₀ V' y :=
  ⟨fun he => hV (h.1 he), fun ho => (h.2 ho).trans hV⟩

section
variable {A A₀ B : String → Set String} {elh₀ elh mid elh' : Bdathe} {V : Set String}
  {uri : String} {own : Prop}

theorem Progress.start : Progress A B elh₀ elh₀ ∅ where
  recomputes := .refl _ _
  valid _ h := h.elim
  orphans _ h := .inr ⟨h, id⟩

/-- Going through an element. The mark that is taken off an element that mentions it does no harm:
what mentions the one mentions the other. -/
theorem Progress.turn (hp : Progress A B elh₀ elh V) (h₀ : elh₀.table.Exact A₀)
    (htrans : ∀ x y z, y ∈ A₀ x → z ∈ A₀ y → z ∈ A₀ x) (hsub : ∀ x, A₀ x ⊆ B x)
    (hB : ∀ x e, e ∈ B x → A x = B x) (huri : A uri = B uri)
    (ht : Turned A uri own elh mid elh') :
    ∃ V', V ⊆ V' ∧ Progress A B elh₀ elh' V' ∧ (own → uri ∈ V') ∧
      (elh₀.orphans uri = true → elh₀.table.below uri ⊆ V') := by
  set W : Set String := {x | x = uri ∧ own}
  set W' : Set String := {x | x ∈ mid.subEls uri ∧ mid.orphans uri = true} with hW'
  have hmid := hp.recomputes.trans ht.self
  have hbelow : ∀ x, x ∈ mid.subEls uri → x ∈ V ∪ W ∨ x ∈ elh₀.table.below uri := by
    intro x hx
    rcases (hmid.below x uri).mp hx with h | h
    · exact .inr h
    · exact .inl h.1
  -- the orphan itself, whether or not its mark has been taken off before
  have hself : elh₀.orphans uri = true → elh₀.table.below uri ⊆ V ∪ W ∪ W' := by
    intro ho
    rcases hp.orphans uri ho with h | h
    · exact fun x hx => .inl (.inl (h hx))
    · exact fun x hx => .inr ⟨(hmid.below x uri).mpr (.inl hx), ht.marked uri h.1⟩
  refine ⟨V ∪ W ∪ W', fun x hx => .inl (.inl hx), ⟨hmid.trans ht.mentions, ?_, ?_⟩,
    fun ho => .inl (.inr ⟨rfl, ho⟩), hself⟩
  · have hVW : ∀ x ∈ V ∪ W, A x = B x := by
      rintro x (hx | hx)
      · exact hp.valid x hx
      · rw [hx.1]
        exact huri
    rintro x (hx | hx)
    · exact hVW x hx
    · rcases hbelow x hx.1 with h | h
      · exact hVW x h
      · exact hB x uri (hsub x ((h₀.below x uri).mp h))
  · intro y hy
    by_cases hyu : y = uri
    · subst hyu
      exact .inl (hself hy)
    · rcases hp.orphans y hy with h | ⟨hmark, hV⟩
      · exact .inl fun x hx => .inl (.inl (h hx))
      · have hVW : y ∉ V ∪ W := fun h => h.elim hV fun h => hyu h.1
        by_cases hyW : y ∈ W'
        · left
          have hyb : y ∈ elh₀.table.below uri := (hbelow y hyW.1).resolve_left hVW
          intro x hx
          refine .inr ⟨(hmid.below x uri).mpr (.inl ?_), hyW.2⟩
          refine (h₀.below x uri).mpr (htrans x y uri ?_ ?_)
          · exact (h₀.below x y).mp hx
          · exact (h₀.below y uri).mp hyb
        · right
          refine ⟨ht.kept y (fun hm => ?_) (ht.marked y hmark), fun h => h.elim hVW hyW⟩
          by_contra hne
          exact hyW ⟨hm, by simpa using hne⟩

/-- What was marked or had nothing above it is recomputed. -/
theorem Progress.done (hp : Progress A B elh₀ elh V) {V' : Set String} (hV : V ⊆ V')
    (hown : elh.superEls uri = [] → uri ∈ V')
    (ho : elh₀.orphans uri = true → elh₀.table.below uri ⊆ V') : Done elh₀ V' uri := by
  refine ⟨fun he => ?_, ho⟩
  by_cases hv : uri ∈ V
  · exact hV hv
  · refine hown (List.eq_nil_iff_forall_not_mem.mpr fun e hm => ?_)
    have heq := hp.recomputes.above_of_not_mem uri hv
    have hm : e ∈ elh₀.table.above uri := heq ▸ hm
    exact List.not_mem_nil (he ▸ hm : e ∈ ([] : Names))

end

end Veda.Ontology
