import Mathlib.Data.Finset.Card
import Veda.Onto.Hierarchy

/-! # Calls of the cache

A call that fits takes a cache that is the closure of the latest individuals to one that is. -/

namespace Veda.Ontology

open Veda.Onto Veda.Closure Relation

/-! ## The latest individuals -/

/-- The latest individuals after one more. -/
def Known.take (known : Known) (indv : Individual) : Known :=
  Function.update known indv.uri (if isDeleted indv then none else some indv)

/-- The latest individuals after a call. -/
def latest (known : Known) : Call → Known
  | .load individuals => individuals.foldl Known.take known
  | .update indv _ => known.take indv

/-- Individuals by their uris, none of them deleted. -/
structure Clean (known : Known) : Prop where
  uri : ∀ x indv, known x = some indv → indv.uri = x
  notDeleted : ∀ x indv, known x = some indv → isDeleted indv = false

theorem Clean.take {known : Known} (h : Clean known) (indv : Individual) :
    Clean (known.take indv) := by
  have htake : ∀ x d, known.take indv x = some d →
      (d = indv ∧ x = indv.uri ∧ isDeleted indv = false) ∨ known x = some d := by
    intro x d hd
    by_cases hx : x = indv.uri
    · subst hx
      rw [Known.take, Function.update_self] at hd
      split at hd
      · cases hd
      · obtain rfl := Option.some.inj hd
        exact .inl ⟨rfl, rfl, by simpa using ‹¬isDeleted indv = true›⟩
    · rw [Known.take, Function.update_of_ne hx] at hd
      exact .inr hd
  constructor <;> intro x d hd <;> rcases htake x d hd with ⟨rfl, rfl, hdel⟩ | hd
  · rfl
  · exact h.uri x d hd
  · exact hdel
  · exact h.notDeleted x d hd

theorem Clean.latest {known : Known} (h : Clean known) (c : Call) : Clean (latest known c) := by
  cases c with
  | update indv replace => exact h.take indv
  | load individuals =>
    rw [Ontology.latest]
    induction individuals generalizing known with
    | nil => exact h
    | cons indv individuals ih => exact ih (h.take indv)

/-! ## Conditions on a call -/

/-- What a call recomputes: what it is given (in a load, where nothing is above it so far), and what
is below an orphan that it is given. -/
def Recomputed (onto : Onto) (kind : Kind) : Call → Set String
  | .load individuals =>
    {x | ∃ indv ∈ individuals, isDeleted indv = false ∧ kind? indv = some kind ∧
      ((x = indv.uri ∧ stated (stored onto.individuals) kind x = ∅) ∨
        ((onto.bdathe kind).orphans indv.uri = true ∧
          indv.uri ∈ stated (stored onto.individuals) kind x))}
  | .update indv _ =>
    {x | isDeleted indv = false ∧ kind? indv = some kind ∧
      (x = indv.uri ∨ ((onto.bdathe kind).orphans indv.uri = true ∧
        indv.uri ∈ stated (stored onto.individuals) kind x))}

/-- Above what is in `V` nothing is taken away, and above anything else nothing changes. -/
def Covered (kind : Kind) (V : Set String) (known known' : Known) : Prop :=
  ∀ x, (x ∈ V → stated known kind x ⊆ stated known' kind x) ∧
    (x ∉ V → stated known' kind x = stated known kind x)

/-- What a load stores before it goes through the individuals. -/
def storeAll (onto : Onto) (individuals : List Individual) : Individuals :=
  individuals.foldl (fun all indv => all.insert indv.uri indv) onto.individuals

/-- In a load a deleted individual states no parents and is not followed by a version that is not
deleted; other versions of one individual are of one kind, or the last states no parents. -/
def LoadsWell (onto : Onto) (individuals : List Individual) (indv : Individual) : Prop :=
  let last := get (storeAll onto individuals) indv.uri
  if isDeleted indv then
    isDeleted last = true ∧ ∀ kind : Kind, indv.getResources kind.parentPredicate = []
  else
    ∀ kind, kind? indv = some kind →
      kind? last = some kind ∨ last.getResources kind.parentPredicate = []

/-- The call changes only what it recomputes, and gives the cache what it has to know. -/
structure Fits (onto : Onto) (c : Call) : Prop where
  covered : ∀ kind, Covered kind (Recomputed onto kind c) (stored onto.individuals)
    (latest (stored onto.individuals) c)
  update : ∀ indv, c = .update indv false → isDeleted indv = false →
    stored onto.individuals indv.uri = some indv
  load : ∀ individuals, c = .load individuals → ∀ indv ∈ individuals,
    LoadsWell onto individuals indv

/-- Every individual that is not deleted is a property or a class. -/
def WellTyped : Call → Prop
  | .load individuals => ∀ indv ∈ individuals, isDeleted indv = false → kind? indv ≠ none
  | .update indv _ => isDeleted indv = false → kind? indv ≠ none

/-! ## Within a call -/

/-- The deleted individuals that are stored. -/
def deletedKeys (individuals : Individuals) : Finset String :=
  individuals.keys.toFinset.filter fun x => isDeleted (get individuals x) = true

theorem mem_deletedKeys {individuals : Individuals} {x : String} :
    x ∈ deletedKeys individuals ↔
      ∃ d, stored individuals x = some d ∧ isDeleted d = true := by
  rw [deletedKeys, Finset.mem_filter, List.mem_toFinset]
  constructor
  · rintro ⟨hx, hd⟩
    obtain ⟨d, hlookup⟩ := Option.isSome_iff_exists.mp (AList.lookup_isSome.mpr hx)
    rw [get, hlookup] at hd
    exact ⟨d, hlookup, hd⟩
  · rintro ⟨d, hx, hd⟩
    have hlookup : individuals.lookup x = some d := hx
    refine ⟨AList.lookup_isSome.mp (by rw [hlookup]; rfl), ?_⟩
    rwa [get, hlookup]

/-- Within a call, what is stored is the latest individuals and deleted ones that state nothing. -/
structure Stage (known : Known) (bdathe : Kind → Bdathe) (onto : Onto) (V : Kind → Set String) :
    Prop where
  lookup : ∀ x, stored onto.individuals x = known x ∨
    ∃ d, stored onto.individuals x = some d ∧ isDeleted d = true ∧
      (∀ kind : Kind, d.getResources kind.parentPredicate = []) ∧ known x = none
  uri : ∀ x d, stored onto.individuals x = some d → d.uri = x
  progress : ∀ kind, Progress (ancestors known kind) (stated known kind) (bdathe kind)
    (onto.bdathe kind) (V kind)

section
variable {known : Known} {bdathe : Kind → Bdathe} {onto : Onto} {V : Kind → Set String}

theorem Stage.links (h : Stage known bdathe onto V) (kind : Kind) :
    Link (stored onto.individuals) kind = Link known kind := by
  funext x e
  rcases h.lookup x with hx | ⟨d, hx, -, hd, hk⟩
  · rw [Link, Ontology.links, hx, Link, Ontology.links]
  · have hinit : Individual.init.getResources kind.parentPredicate = [] := rfl
    simp only [Link, Ontology.links, hx, hk, Option.getD_some, Option.getD_none, hd kind, hinit]

end

/-- The individual is of the latest, or states nothing more. -/
structure TurnsWell (known : Known) (indv : Individual) : Prop where
  deleted : isDeleted indv = true → known indv.uri = none
  kind : isDeleted indv = false → ∀ kind, kind? indv = some kind →
    ancestors known kind indv.uri = stated known kind indv.uri

/-- How deep a call for an individual goes. -/
def depth (individuals : Individuals) (indv : Individual) : ℕ :=
  if isDeleted indv then ((deletedKeys individuals).erase indv.uri).card + 2 else 1

theorem depth_le (individuals : Individuals) (indv : Individual) :
    depth individuals indv ≤ individuals.keys.length + 2 := by
  unfold depth
  split
  · refine Nat.add_le_add_right ((Finset.card_le_card (Finset.erase_subset ..)).trans ?_) 2
    exact (Finset.card_le_card (Finset.filter_subset ..)).trans (List.toFinset_card_le _)
  · omega

section
variable (order : Order) {known before : Known} {bdathe : Kind → Bdathe} {onto : Onto}
  {V : Kind → Set String}

/-- What holds throughout a call: the tables before it were exact, it takes nothing away, and the
latest individuals are acyclic. -/
structure Context (before known : Known) (bdathe : Kind → Bdathe) : Prop where
  exact : ∀ kind, (bdathe kind).table.Exact (stated before kind)
  subset : ∀ kind x, stated before kind x ⊆ stated known kind x
  acyclic : ∀ kind, Acyclic (Link known kind)
  clean : Clean known

theorem Stage.turn (hs : Stage known bdathe onto V) (hc : Context before known bdathe)
    {indv : Individual} {kind : Kind} {own : Prop} {mid elh' : Bdathe}
    (hown : (onto.bdathe kind).superEls indv.uri = [] → own)
    (huri : ancestors known kind indv.uri = stated known kind indv.uri)
    (ht : Turned (ancestors known kind) indv.uri own (onto.bdathe kind) mid elh') :
    ∃ V', Stage known bdathe ⟨onto.individuals, Function.update onto.bdathe kind elh'⟩ V' ∧
      (∀ k, V k ⊆ V' k) ∧ Done (bdathe kind) (V' kind) indv.uri ∧ (own → indv.uri ∈ V' kind) := by
  obtain ⟨W, hVW, hp, hself, hbelow⟩ := (hs.progress kind).turn (hc.exact kind)
    (fun _ _ _ => stated_trans) (hc.subset kind)
    (fun _ _ h => stated_eq_of_mem h) huri ht
  have hdone := (hs.progress kind).done hVW (fun he => hself (hown he)) hbelow
  refine ⟨Function.update V kind W, ⟨hs.lookup, hs.uri, fun k => ?_⟩, fun k => ?_, ?_, ?_⟩
  · by_cases hk : k = kind
    · subst hk
      simpa only [Function.update_self] using hp
    · simpa only [Function.update_of_ne hk] using hs.progress k
  · by_cases hk : k = kind
    · subst hk
      simpa only [Function.update_self] using hVW
    · rw [Function.update_of_ne hk]
  · simpa only [Function.update_self] using hdone
  · simpa only [Function.update_self] using hself

theorem updateOntoHierarchy_of_kind {fuel : ℕ} {indv : Individual} {replace : Bool} {kind : Kind}
    (hd : isDeleted indv = false) (hk : kind? indv = some kind) :
    updateOntoHierarchy order (fuel + 1) onto indv replace =
      updateKind order onto kind indv replace := by
  rw [updateOntoHierarchy, hd, hk]
  rfl

theorem Stage.update_of_not_deleted (hs : Stage known bdathe onto V)
    (hc : Context before known bdathe) {indv : Individual} (hd : isDeleted indv = false)
    (ht : TurnsWell known indv) (fuel : ℕ) :
    ∃ onto' V', updateOntoHierarchy order (fuel + 1) onto indv false = some onto' ∧
      Stage known bdathe onto' V' ∧ (∀ k, V k ⊆ V' k) ∧
      onto'.individuals = onto.individuals ∧
      ∀ k, kind? indv = some k → Done (bdathe k) (V' k) indv.uri := by
  cases hk : kind? indv with
  | none =>
    refine ⟨onto, V, ?_, hs, fun _ => subset_rfl, rfl, fun k h => by cases h⟩
    rw [updateOntoHierarchy, hd, hk]
    rfl
  | some kind =>
    have hac : Acyclic (Link (stored onto.individuals) kind) := by
      rw [hs.links kind]
      exact hc.acyclic kind
    obtain ⟨mid, elh', h, hturn⟩ := updateKind_eq order hac onto indv false rfl
    have hanc : ancestors (stored onto.individuals) kind = ancestors known kind := by
      funext x
      rw [ancestors, ancestors, hs.links kind]
    rw [hanc] at hturn
    obtain ⟨V', hs', hV, hdone, -⟩ := hs.turn hc id (ht.kind hd kind hk) hturn
    refine ⟨_, V', (updateOntoHierarchy_of_kind order hd hk).trans h, hs', hV, rfl, fun k hk' => ?_⟩
    obtain rfl := Option.some.inj hk'
    exact hdone

theorem Stage.turnsWell (hs : Stage known bdathe onto V) (hc : Context before known bdathe)
    {x : String} {d : Individual} (hx : stored onto.individuals x = some d) :
    TurnsWell known d := by
  have huri := hs.uri x d hx
  constructor <;> intro hdel
  · rcases hs.lookup x with h | ⟨-, -, -, -, h⟩
    · have := hc.clean.notDeleted x d (h.symm.trans hx)
      rw [hdel] at this
      cases this
    · rwa [huri]
  · intro kind hk
    rcases hs.lookup x with h | ⟨d', h, hdel', -⟩
    · exact IsElement.stated_eq ⟨d, huri.symm ▸ h.symm.trans hx, hk⟩
    · obtain rfl := Option.some.inj (hx.symm.trans h)
      rw [hdel] at hdel'
      cases hdel'

/-- What is left when the call goes on. -/
def left (individuals : Individuals) (indv : Individual) : Individuals :=
  if isDeleted indv then individuals.erase indv.uri else individuals

theorem stored_erase (individuals : Individuals) (uri : String) :
    stored (individuals.erase uri) = Function.update (stored individuals) uri none := by
  funext x
  by_cases hx : x = uri
  · rw [hx, Function.update_self]
    exact AList.lookup_erase ..
  · rw [Function.update_of_ne hx]
    exact AList.lookup_erase_ne hx

theorem deletedKeys_erase (individuals : Individuals) (uri : String) :
    deletedKeys (individuals.erase uri) = (deletedKeys individuals).erase uri := by
  ext x
  rw [Finset.mem_erase, mem_deletedKeys, mem_deletedKeys, stored_erase]
  by_cases hx : x = uri <;> simp [hx]

theorem deletedKeys_left (individuals : Individuals) (indv : Individual) :
    deletedKeys (left individuals indv) ⊆ deletedKeys individuals := by
  unfold left
  split
  · rw [deletedKeys_erase]
    exact Finset.erase_subset ..
  · exact subset_rfl

theorem notMem_deletedKeys_left {individuals : Individuals} {indv : Individual}
    (hd : isDeleted indv = true) : indv.uri ∉ deletedKeys (left individuals indv) := by
  rw [left, if_pos hd, deletedKeys_erase]
  exact Finset.notMem_erase indv.uri _

theorem Stage.left (hs : Stage known bdathe onto V) {indv : Individual}
    (ht : TurnsWell known indv) :
    Stage known bdathe ⟨left onto.individuals indv, onto.bdathe⟩ V := by
  unfold Ontology.left
  split
  · rename_i hd
    refine ⟨fun x => ?_, fun x d hx => ?_, hs.progress⟩
    · rw [stored_erase]
      by_cases hx : x = indv.uri
      · subst hx
        exact .inl ((Function.update_self ..).trans (ht.deleted hd).symm)
      · simp only [Function.update_of_ne hx]
        exact hs.lookup x
    · rw [stored_erase] at hx
      by_cases hxu : x = indv.uri
      · rw [hxu, Function.update_self] at hx
        cases hx
      · rw [Function.update_of_ne hxu] at hx
        exact hs.uri x d hx
  · exact hs

/-- A deleted individual that is gone through in the course of another one's deletion goes less
deep than that. -/
theorem depth_lt {individuals : Individuals} {x : String} {d : Individual}
    (hx : stored individuals x = some d) (huri : d.uri = x) {individuals' : Individuals}
    (hsub : deletedKeys individuals' ⊆ deletedKeys individuals) :
    depth individuals' d < (deletedKeys individuals).card + 2 := by
  unfold depth
  split
  · rename_i hdel
    have hmem : d.uri ∈ deletedKeys individuals :=
      mem_deletedKeys.mpr ⟨d, huri.symm ▸ hx, hdel⟩
    have hlt := (Finset.card_le_card (Finset.erase_subset_erase d.uri hsub)).trans_lt
      (Finset.card_erase_lt_of_mem hmem)
    omega
  · omega

/-- A call for an individual. The induction is on the depth that is left; a deleted individual is
taken out before the call goes through the others, so that fewer of them are deleted. -/
theorem Stage.update {indv : Individual}
    (hs : Stage known bdathe ⟨Ontology.left onto.individuals indv, onto.bdathe⟩ V)
    (hc : Context before known bdathe) (ht : TurnsWell known indv) {fuel : ℕ}
    (hf : depth onto.individuals indv ≤ fuel) :
    ∃ onto' V', updateOntoHierarchy order fuel onto indv false = some onto' ∧
      Stage known bdathe onto' V' ∧ (∀ k, V k ⊆ V' k) ∧
      deletedKeys onto'.individuals ⊆ deletedKeys (Ontology.left onto.individuals indv) ∧
      (isDeleted indv = false → ∀ k, kind? indv = some k → Done (bdathe k) (V' k) indv.uri) := by
  induction fuel generalizing onto V indv with
  | zero =>
    exfalso
    revert hf
    unfold depth
    split <;> omega
  | succ fuel ih =>
    cases hd : isDeleted indv with
    | false =>
      have hleft : Ontology.left onto.individuals indv = onto.individuals := by
        rw [Ontology.left, hd]
        rfl
      rw [hleft] at hs ⊢
      obtain ⟨onto', V', h, hs', hV, hi, hdone⟩ :=
        hs.update_of_not_deleted order hc hd ht fuel
      refine ⟨onto', V', h, hs', hV, ?_, fun _ => hdone⟩
      rw [hi]
    | true =>
      have hleft : Ontology.left onto.individuals indv = onto.individuals.erase indv.uri :=
        if_pos hd
      rw [depth, if_pos hd, ← deletedKeys_erase] at hf
      rw [hleft] at hs ⊢
      set individuals := onto.individuals.erase indv.uri
      have walk (l : List String) (hl : ∀ x ∈ l, x ∈ individuals.keys) (onto₁ : Onto)
          (V₁ : Kind → Set String) (hs₁ : Stage known bdathe onto₁ V₁)
          (hsub : deletedKeys onto₁.individuals ⊆ deletedKeys individuals) :
          ∃ onto' V', l.foldlM (fun onto uri =>
              updateOntoHierarchy order fuel onto (get individuals uri) false) onto₁ =
                some onto' ∧
            Stage known bdathe onto' V' ∧ (∀ k, V₁ k ⊆ V' k) ∧
            deletedKeys onto'.individuals ⊆ deletedKeys individuals := by
        induction l generalizing onto₁ V₁ with
        | nil => exact ⟨onto₁, V₁, rfl, hs₁, fun _ => subset_rfl, hsub⟩
        | cons x l ihl =>
          obtain ⟨d, hlookup⟩ :=
            Option.isSome_iff_exists.mp (AList.lookup_isSome.mpr (hl x List.mem_cons_self))
          have hget : get individuals x = d := by rw [get, hlookup]; rfl
          have hwell := hs.turnsWell hc hlookup
          have hdepth := depth_lt hlookup (hs.uri x d hlookup) hsub
          obtain ⟨mid, V₂, hmid, hs₂, hV₂, hsub₂, -⟩ := ih (hs₁.left hwell) hwell (by omega)
          obtain ⟨onto', V', h, hs', hV', hsub'⟩ :=
            ihl (fun y hy => hl y (List.mem_cons_of_mem _ hy)) mid V₂ hs₂
              (hsub₂.trans ((deletedKeys_left ..).trans hsub))
          refine ⟨onto', V', ?_, hs', fun k => (hV₂ k).trans (hV' k), hsub'⟩
          rw [List.foldlM_cons, hget, hmid]
          exact h
      obtain ⟨onto', V', h, hs', hV, hsub⟩ := walk (order.keys individuals.keys)
        (fun x hx => order.mem_keys.mp hx) _ V hs subset_rfl
      refine ⟨onto', V', ?_, hs', hV, hsub, fun h => (Bool.false_ne_true h.symm).elim⟩
      rw [updateOntoHierarchy, hd]
      exact h

end

/-! ## Calls -/

/-- Between calls the cache holds the latest individuals, and its tables are the closures of what
they state. -/
structure Closed (onto : Onto) : Prop where
  clean : Clean (stored onto.individuals)
  exact : ∀ kind, (onto.bdathe kind).table.Exact (stated (stored onto.individuals) kind)

theorem Closed.new : Closed .new where
  clean := ⟨fun _ _ h => (Option.some_ne_none _ h.symm).elim,
    fun _ _ h => (Option.some_ne_none _ h.symm).elim⟩
  exact kind := by
    have hnone : ∀ x e, e ∉ stated (stored Onto.new.individuals) kind x := by
      rintro x e ⟨⟨_, h, _⟩, _⟩
      cases h
    constructor
    · intro x
      exact Set.ext fun e => iff_of_false List.not_mem_nil (hnone x e)
    · intro x e
      exact iff_of_false List.not_mem_nil (hnone x e)

section
variable (order : Order) {known before : Known} {bdathe : Kind → Bdathe} {onto : Onto}
  {V : Kind → Set String}

/-- At the end of a call that has recomputed enough. -/
theorem Stage.closed (hs : Stage known bdathe onto V) (hc : Context before known bdathe)
    (hV : ∀ kind x, x ∉ V kind → stated known kind x = stated before kind x)
    (hdel : deletedKeys onto.individuals = ∅) :
    Closed onto ∧ stored onto.individuals = known := by
  have heq : stored onto.individuals = known := by
    funext x
    rcases hs.lookup x with h | ⟨d, h, hd, -⟩
    · exact h
    · have := mem_deletedKeys.mpr ⟨d, h, hd⟩
      rw [hdel] at this
      exact absurd this (Finset.notMem_empty x)
  refine ⟨⟨heq ▸ hc.clean, fun kind => ?_⟩, heq⟩
  rw [heq]
  have hrec := ((hs.progress kind).recomputes).congr (hs.progress kind).valid
  exact (hrec.exact_iff (hc.exact kind)).mpr fun x => ⟨fun _ => hc.subset kind x, hV kind x⟩

theorem Clean.deletedKeys {individuals : Individuals} (h : Clean (stored individuals)) :
    deletedKeys individuals = ∅ := by
  refine Finset.eq_empty_iff_forall_notMem.mpr fun x hx => ?_
  obtain ⟨d, hd, hdel⟩ := mem_deletedKeys.mp hx
  rw [h.notDeleted x d hd] at hdel
  cases hdel

/-- A call starts with nothing recomputed. -/
theorem Closed.stage (h : Closed onto) : Stage (stored onto.individuals) onto.bdathe onto
    fun _ => ∅ where
  lookup _ := .inl rfl
  uri := h.clean.uri
  progress _ := .start

/-- What fits takes nothing away. -/
theorem Covered.subset {kind : Kind} {W : Set String} (h : Covered kind W before known)
    (x : String) : stated before kind x ⊆ stated known kind x := by
  by_cases hx : x ∈ W
  · exact (h x).1 hx
  · rw [(h x).2 hx]

theorem Closed.context (h : Closed onto) {c : Call} (hf : Fits onto c)
    (hac : ∀ kind, Acyclic (Link (latest (stored onto.individuals) c) kind)) :
    Context (stored onto.individuals) (latest (stored onto.individuals) c) onto.bdathe where
  exact := h.exact
  subset kind := (hf.covered kind).subset
  acyclic := hac
  clean := h.clean.latest c

theorem take_of_deleted {indv : Individual} (hd : isDeleted indv = true) :
    known.take indv = Function.update known indv.uri none := by
  rw [Known.take, if_pos hd]

theorem take_of_not_deleted {indv : Individual} (hd : isDeleted indv = false) :
    known.take indv = Function.update known indv.uri (some indv) := by
  rw [Known.take, hd]
  rfl

theorem stored_insert (individuals : Individuals) (indv : Individual) :
    stored (individuals.insert indv.uri indv) =
      Function.update (stored individuals) indv.uri (some indv) := by
  funext x
  by_cases hx : x = indv.uri
  · rw [hx, Function.update_self]
    exact AList.lookup_insert ..
  · rw [Function.update_of_ne hx]
    exact AList.lookup_insert_ne hx

/-- A deleted individual is given. -/
theorem Closed.update_deleted (h : Closed onto) {indv : Individual} {replace : Bool}
    (hd : isDeleted indv = true) (hf : Fits onto (.update indv replace))
    (hac : ∀ kind, Acyclic (Link ((stored onto.individuals).take indv) kind)) :
    ∃ onto', onto.update order indv replace = some onto' ∧ Closed onto' ∧
      stored onto'.individuals = (stored onto.individuals).take indv := by
  have hc := h.context hf hac
  have hnone : stored (left onto.individuals indv) = (stored onto.individuals).take indv := by
    rw [left, if_pos hd, stored_erase, take_of_deleted hd]
  have hs : Stage ((stored onto.individuals).take indv) onto.bdathe
      ⟨left onto.individuals indv, onto.bdathe⟩ fun _ => ∅ :=
    ⟨fun x => .inl (congrFun hnone x), hnone ▸ hc.clean.uri, fun _ => .start⟩
  have hwell : TurnsWell ((stored onto.individuals).take indv) indv := by
    refine ⟨fun _ => ?_, fun hd' => ?_⟩
    · rw [take_of_deleted hd, Function.update_self]
    · rw [hd] at hd'
      cases hd'
  obtain ⟨onto', V', hupdate, hs', -, hsub, -⟩ :=
    hs.update order hc hwell (depth_le onto.individuals indv)
  have hdel : deletedKeys onto'.individuals = ∅ := by
    refine Finset.subset_empty.mp (hsub.trans ?_)
    rw [Clean.deletedKeys (hnone ▸ hc.clean)]
  have hV : ∀ kind x, x ∉ V' kind → stated ((stored onto.individuals).take indv) kind x =
      stated (stored onto.individuals) kind x := by
    intro kind x _
    refine (hf.covered kind x).2 fun hx => ?_
    have hd' := hx.1
    rw [hd] at hd'
    cases hd'
  obtain ⟨hclosed, hstored⟩ := hs'.closed hc hV hdel
  refine ⟨onto', ?_, hclosed, hstored⟩
  rw [← hupdate, Onto.update, updateOntoHierarchy, updateOntoHierarchy, hd]
  rfl

/-- An individual is given again as it is stored. -/
theorem Closed.update_again (h : Closed onto) {indv : Individual}
    (hd : isDeleted indv = false) (hf : Fits onto (.update indv false))
    (hac : ∀ kind, Acyclic (Link ((stored onto.individuals).take indv) kind)) :
    ∃ onto', onto.update order indv false = some onto' ∧ Closed onto' ∧
      stored onto'.individuals = (stored onto.individuals).take indv := by
  have heq : (stored onto.individuals).take indv = stored onto.individuals := by
    rw [take_of_not_deleted hd, ← hf.update indv rfl hd, Function.update_eq_self]
  have hc := h.context hf hac
  have hs := h.stage
  rw [latest, heq] at hc
  have hwell := hs.turnsWell hc (hf.update indv rfl hd)
  obtain ⟨onto', V', hupdate, hs', -, hi, -⟩ :=
    hs.update_of_not_deleted order hc hd hwell (onto.individuals.keys.length + 1)
  obtain ⟨hclosed, hstored⟩ := hs'.closed hc (fun _ _ _ => rfl) (by rw [hi, h.clean.deletedKeys])
  exact ⟨onto', hupdate, hclosed, hstored.trans heq.symm⟩

/-- An individual is given that takes the place of another. -/
theorem Closed.update_replace (h : Closed onto) {indv : Individual}
    (hd : isDeleted indv = false) (hkind : kind? indv ≠ none)
    (hf : Fits onto (.update indv true))
    (hac : ∀ kind, Acyclic (Link ((stored onto.individuals).take indv) kind)) :
    ∃ onto', onto.update order indv true = some onto' ∧ Closed onto' ∧
      stored onto'.individuals = (stored onto.individuals).take indv := by
  obtain ⟨kind, hk⟩ := Option.ne_none_iff_exists'.mp hkind
  have hc := h.context hf hac
  have htake : (stored onto.individuals).take indv =
      stored (onto.individuals.insert indv.uri indv) := by
    rw [take_of_not_deleted hd, stored_insert]
  rw [latest, htake] at hc
  set individuals := onto.individuals.insert indv.uri indv
  have hindv : stored individuals indv.uri = some indv := AList.lookup_insert ..
  obtain ⟨mid, elh', hupdate, hturn⟩ := updateKind_eq order (hc.acyclic kind) onto indv true rfl
  have hs : Stage (stored individuals) onto.bdathe ⟨individuals, onto.bdathe⟩ fun _ => ∅ :=
    ⟨fun _ => .inl rfl, hc.clean.uri, fun _ => .start⟩
  obtain ⟨V', hs', -, hdone, hself⟩ := hs.turn hc (fun _ => rfl)
    (IsElement.stated_eq ⟨indv, hindv, hk⟩) hturn
  have hV : ∀ k x, x ∉ V' k → stated (stored individuals) k x =
      stated (stored onto.individuals) k x := by
    intro k x hx
    have hcov := hf.covered k x
    rw [latest, htake] at hcov
    refine hcov.2 fun hx' => hx ?_
    obtain ⟨-, hk', hx'⟩ := hx'
    obtain rfl := Option.some.inj (hk.symm.trans hk')
    rcases hx' with rfl | ⟨ho, hx'⟩
    · exact hself rfl
    · exact hdone.2 ho (((h.exact kind).below x indv.uri).mpr hx')
  obtain ⟨hclosed, hstored⟩ := hs'.closed hc hV hc.clean.deletedKeys
  refine ⟨_, ?_, hclosed, hstored.trans htake.symm⟩
  exact (updateOntoHierarchy_of_kind order hd hk).trans hupdate

end

/-! ## Loads -/

section
variable (order : Order) {known before : Known} {bdathe : Kind → Bdathe} {onto : Onto}
  {V : Kind → Set String}

/-- What is stored for a load is the latest individuals, but for deleted ones. -/
def Stores (all : List Individual) (individuals : Individuals) (known : Known) : Prop :=
  ∀ x, stored individuals x = known x ∨
    ∃ d ∈ all, stored individuals x = some d ∧ d.uri = x ∧ isDeleted d = true ∧ known x = none

theorem Stores.insert {all : List Individual} {individuals : Individuals}
    (h : Stores all individuals known) {indv : Individual} (hi : indv ∈ all) :
    Stores all (individuals.insert indv.uri indv) (known.take indv) := by
  intro x
  rw [stored_insert, Known.take]
  by_cases hx : x = indv.uri
  · subst hx
    simp only [Function.update_self]
    split
    · exact .inr ⟨indv, hi, rfl, rfl, ‹_›, rfl⟩
    · exact .inl rfl
  · simp only [Function.update_of_ne hx]
    exact h x

theorem Stores.foldl {all : List Individual} {l : List Individual} (hl : ∀ indv ∈ l, indv ∈ all)
    {individuals : Individuals} (h : Stores all individuals known) :
    Stores all (l.foldl (fun all indv => all.insert indv.uri indv) individuals)
      (l.foldl Known.take known) := by
  induction l generalizing individuals known with
  | nil => exact h
  | cons indv l ih =>
    exact ih (fun d hd => hl d (List.mem_cons_of_mem _ hd)) (h.insert (hl indv List.mem_cons_self))

theorem storeAll_stores (onto : Onto) (l : List Individual) :
    Stores l (storeAll onto l) (latest (stored onto.individuals) (.load l)) :=
  Stores.foldl (fun _ h => h) fun _ => .inl rfl

theorem Clean.get_notDeleted (h : Clean known) {indv : Individual} {x : String}
    (hx : known x = some indv) : isDeleted indv ≠ true := by
  rw [h.notDeleted x indv hx]
  exact Bool.false_ne_true

/-- What a load stores is a stage of the call. -/
theorem storeAll_stage (h : Clean (latest (stored onto.individuals) (.load l)))
    (hl : ∀ indv ∈ l, LoadsWell onto l indv) :
    Stage (latest (stored onto.individuals) (.load l)) onto.bdathe
      ⟨storeAll onto l, onto.bdathe⟩ fun _ => ∅ where
  lookup x := by
    rcases storeAll_stores onto l x with hx | ⟨d, hd, hx, -, hdel, hnone⟩
    · exact .inl hx
    · have hwell := hl d hd
      rw [LoadsWell, if_pos hdel] at hwell
      exact .inr ⟨d, hx, hdel, hwell.2, hnone⟩
  uri x d hx := by
    rcases storeAll_stores onto l x with hx' | ⟨d', -, hx', huri, -⟩
    · exact h.uri x d (hx'.symm.trans hx)
    · obtain rfl := Option.some.inj (hx.symm.trans hx')
      exact huri
  progress _ := .start

theorem LoadsWell.turnsWell {l : List Individual} {indv : Individual}
    (h : LoadsWell onto l indv) (hc : Clean (latest (stored onto.individuals) (.load l))) :
    TurnsWell (latest (stored onto.individuals) (.load l)) indv := by
  have hlast : get (storeAll onto l) indv.uri =
      (stored (storeAll onto l) indv.uri).getD .init := rfl
  rw [LoadsWell, hlast] at h
  rcases storeAll_stores onto l indv.uri with heq | ⟨d, hd, hx, -, hdel, hnone⟩
  · rw [heq] at h
    constructor <;> intro hdel
    · rw [if_pos hdel] at h
      cases hk : latest (stored onto.individuals) (.load l) indv.uri with
      | none => rfl
      | some e =>
        rw [hk] at h
        exact absurd h.1 (hc.get_notDeleted hk)
    · intro kind hk
      rw [hdel] at h
      rcases h kind hk with hk' | hlinks
      · cases hsome : latest (stored onto.individuals) (.load l) indv.uri with
        | none =>
          rw [hsome] at hk'
          cases hk'
        | some e =>
          rw [hsome] at hk'
          exact IsElement.stated_eq ⟨e, hsome, hk'⟩
      · exact stated_eq_of_links (by rw [links, hlinks]; rfl)
  · exact ⟨fun _ => hnone, fun _ kind _ => stated_eq_of_links (by rw [links, hnone]; rfl)⟩

theorem Stage.loads (hs : Stage known bdathe onto V) (hc : Context before known bdathe)
    {l : List Individual} (hl : ∀ indv ∈ l, TurnsWell known indv) :
    ∃ onto' V', l.foldlM (fun onto indv => onto.update order indv false) onto = some onto' ∧
      Stage known bdathe onto' V' ∧ (∀ k, V k ⊆ V' k) ∧
      deletedKeys onto'.individuals ⊆ deletedKeys onto.individuals ∧
      ∀ indv ∈ l, (isDeleted indv = true → indv.uri ∉ deletedKeys onto'.individuals) ∧
        (isDeleted indv = false → ∀ k, kind? indv = some k →
          Done (bdathe k) (V' k) indv.uri) := by
  induction l generalizing onto V with
  | nil => exact ⟨onto, V, rfl, hs, fun _ => subset_rfl, subset_rfl, fun _ h => by cases h⟩
  | cons indv l ih =>
    have hwell := hl indv List.mem_cons_self
    obtain ⟨mid, V₁, hmid, hs₁, hV₁, hsub₁, hdone₁⟩ := (hs.left hwell).update order hc
      hwell (depth_le onto.individuals indv)
    obtain ⟨onto', V', h, hs', hV', hsub', hdone'⟩ :=
      ih hs₁ fun d hd => hl d (List.mem_cons_of_mem _ hd)
    refine ⟨onto', V', ?_, hs', fun k => (hV₁ k).trans (hV' k),
      hsub'.trans (hsub₁.trans (deletedKeys_left ..)), fun d hd => ?_⟩
    · rw [List.foldlM_cons, Onto.update, hmid]
      exact h
    · rcases List.mem_cons.mp hd with rfl | hd
      · exact ⟨fun hdel hmem => notMem_deletedKeys_left hdel (hsub₁ (hsub' hmem)),
          fun hdel k hk => (hdone₁ hdel k hk).mono (hV' k)⟩
      · exact hdone' d hd

/-- Individuals are loaded. -/
theorem Closed.load (h : Closed onto) {l : List Individual} (hf : Fits onto (.load l))
    (hac : ∀ kind, Acyclic (Link (latest (stored onto.individuals) (.load l)) kind)) :
    ∃ onto', onto.load order l = some onto' ∧ Closed onto' ∧
      stored onto'.individuals = latest (stored onto.individuals) (.load l) := by
  have hc := h.context hf hac
  have hloads := hf.load l rfl
  have hs := storeAll_stage hc.clean hloads
  obtain ⟨onto', V', hload, hs', -, hsub, hdone⟩ :=
    hs.loads order hc fun indv hi => (hloads indv hi).turnsWell hc.clean
  have hdel : deletedKeys onto'.individuals = ∅ := by
    refine Finset.eq_empty_iff_forall_notMem.mpr fun x hx => ?_
    obtain ⟨d, hx', hdel⟩ := mem_deletedKeys.mp (hsub hx)
    rcases storeAll_stores onto l x with heq | ⟨d', hd', -, huri, hdel', -⟩
    · exact hc.clean.get_notDeleted (heq.symm.trans hx') hdel
    · subst huri
      exact (hdone d' hd').1 hdel' hx
  have hV : ∀ k x, x ∉ V' k → stated (latest (stored onto.individuals) (.load l)) k x =
      stated (stored onto.individuals) k x := by
    intro k x hx
    refine (hf.covered k x).2 ?_
    rintro ⟨indv, hi, hd, hk, hx'⟩
    have hdone := (hdone indv hi).2 hd k hk
    rcases hx' with ⟨rfl, hempty⟩ | ⟨ho, hx'⟩
    · refine hx (hdone.1 (List.eq_nil_iff_forall_not_mem.mpr fun e he => ?_))
      have he : e ∈ (onto.bdathe k).table.above indv.uri := he
      rw [(h.exact k).above, hempty] at he
      exact he
    · exact hx (hdone.2 ho (((h.exact k).below x indv.uri).mpr hx'))
  obtain ⟨hclosed, hstored⟩ := hs'.closed hc hV hdel
  exact ⟨onto', hload, hclosed, hstored⟩

/-- A call that fits leaves the cache closed. -/
theorem Closed.call (h : Closed onto) {c : Call} (ht : WellTyped c) (hf : Fits onto c)
    (hac : ∀ kind, Acyclic (Link (latest (stored onto.individuals) c) kind)) :
    ∃ onto', onto.call order c = some onto' ∧ Closed onto' ∧
      stored onto'.individuals = latest (stored onto.individuals) c := by
  cases c with
  | load l => exact h.load order hf hac
  | update indv replace =>
    cases hd : isDeleted indv with
    | true => exact h.update_deleted order hd hf hac
    | false =>
      cases replace with
      | true => exact h.update_replace order hd (ht hd) hf hac
      | false => exact h.update_again order hd hf hac

end

end Veda.Ontology
