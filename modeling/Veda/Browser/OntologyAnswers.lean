import Veda.Browser.OntologyModel
import Veda.Lib.Inheritance

/-! # What is inherited in the browser

Whatever has been asked before, the specifications of a class are the first ones on the way up to
its superclasses, and its properties are those of all its superclasses, each once. -/

namespace Veda.Browser.OntologyModel

open Inheritance

/-! ## The way up -/

/-- A class that is not known is taken for `rdfs:Resource`. -/
def resolve (tree : ClassTree) (uri : Uri) : Uri :=
  if (tree.lookup uri).isSome then uri else resource

def superClasses (tree : ClassTree) (uri : Uri) : List Uri :=
  (((tree.lookup uri).map Class.superClasses).getD []).map (resolve tree)

def propertiesOf (tree : ClassTree) (uri : Uri) : List Uri :=
  ((tree.lookup uri).map Class.properties).getD []

section
variable {tree : ClassTree} {uri : Uri} {c : Class}

theorem resolve_of_lookup (h : tree.lookup uri = some c) : resolve tree uri = uri := by
  rw [resolve, h]
  rfl

theorem resolve_of_none (h : tree.lookup uri = none) : resolve tree uri = resource := by
  rw [resolve, h]
  rfl

theorem superClasses_of_lookup (h : tree.lookup uri = some c) :
    superClasses tree uri = c.superClasses.map (resolve tree) := by
  rw [superClasses, h]
  rfl

theorem propertiesOf_of_lookup (h : tree.lookup uri = some c) :
    propertiesOf tree uri = c.properties := by
  rw [propertiesOf, h]
  rfl

theorem specsOf_of_lookup (h : tree.lookup uri = some c) :
    specsOf tree uri = c.specifications := by
  rw [specsOf, h]
  rfl

theorem exists_lookup_resolve (hresource : (tree.lookup resource).isSome) (uri : Uri) :
    ∃ c, tree.lookup (resolve tree uri) = some c := by
  cases h : tree.lookup uri with
  | none =>
    rw [resolve_of_none h]
    exact Option.isSome_iff_exists.mp hresource
  | some c => exact ⟨c, by rw [resolve_of_lookup h, h]⟩

end

/-! ## Properties -/

/-- Once the calls may be deep enough for each, they may be for all. -/
theorem exists_depth {P : ℕ → Uri → Prop} {uris : List Uri}
    (h : ∀ uri ∈ uris, ∃ n, ∀ depth ≥ n, P depth uri) :
    ∃ n, ∀ depth ≥ n, ∀ uri ∈ uris, P depth uri := by
  induction uris with
  | nil => exact ⟨0, fun _ _ _ h => absurd h List.not_mem_nil⟩
  | cons uri uris ih =>
    obtain ⟨huri, huris⟩ := List.forall_mem_cons.mp h
    obtain ⟨n, hn⟩ := huri
    obtain ⟨m, hm⟩ := ih huris
    refine ⟨max n m, fun depth hdepth => List.forall_mem_cons.mpr ⟨?_, ?_⟩⟩
    · exact hn depth ((le_max_left n m).trans hdepth)
    · exact hm depth ((le_max_right n m).trans hdepth)

theorem callAll_eq {α : Type} {call : Uri → Option α} {value : Uri → α} {uris : List Uri}
    (h : ∀ uri ∈ uris, call uri = some (value uri)) :
    callAll call uris = some (uris.map value) := by
  induction uris with
  | nil => rfl
  | cons uri uris ih =>
    obtain ⟨huri, huris⟩ := List.forall_mem_cons.mp h
    rw [callAll, huri, ih huris]
    rfl

/-- `getProps` goes all the way up. -/
theorem exists_getProps {tree : ClassTree} (hacyclic : Acyclic (superClasses tree))
    (hresource : (tree.lookup resource).isSome) (uri : Uri) :
    ∃ n, ∀ depth ≥ n, getProps tree depth uri =
      some ((upwards hacyclic (resolve tree uri)).flatMap (propertiesOf tree)) := by
  have hknown (a : Uri) : ∀ uri, resolve tree uri = a → ∃ n, ∀ depth ≥ n,
      getProps tree depth uri = some ((upwards hacyclic a).flatMap (propertiesOf tree)) := by
    induction a using hacyclic.induction with
    | _ a ih =>
      have hself (c : Class) (hc : tree.lookup a = some c) : ∃ n, ∀ depth ≥ n,
          getProps tree depth a = some ((upwards hacyclic a).flatMap (propertiesOf tree)) := by
        have hsupers : ∀ s ∈ c.superClasses, ∃ n, ∀ depth ≥ n, getProps tree depth s =
            some ((upwards hacyclic (resolve tree s)).flatMap (propertiesOf tree)) := by
          intro s hs
          refine ih (resolve tree s) ?_ s rfl
          rw [superClasses_of_lookup hc]
          exact List.mem_map_of_mem hs
        obtain ⟨n, hn⟩ := exists_depth hsupers
        refine ⟨n + 1, fun depth hdepth => ?_⟩
        obtain ⟨depth, rfl⟩ := Nat.exists_eq_add_of_le' (Nat.one_le_of_lt hdepth)
        rw [getProps, hc]
        dsimp only
        rw [callAll_eq (hn depth (Nat.le_of_succ_le_succ hdepth)), flatMap_upwards,
          superClasses_of_lookup hc, propertiesOf_of_lookup hc, List.flatMap_map]
        rfl
      intro uri huri
      obtain ⟨c, hc⟩ := exists_lookup_resolve hresource uri
      rw [huri] at hc
      obtain ⟨n, hn⟩ := hself c hc
      cases hlookup : tree.lookup uri with
      | some d =>
        rw [resolve_of_lookup hlookup] at huri
        exact ⟨n, huri ▸ hn⟩
      | none =>
        refine ⟨n + 1, fun depth hdepth => ?_⟩
        obtain ⟨depth, rfl⟩ := Nat.exists_eq_add_of_le' (Nat.one_le_of_lt hdepth)
        rw [getProps, hlookup]
        dsimp only
        rw [← resolve_of_none hlookup, huri, hn depth (Nat.le_of_succ_le_succ hdepth)]
  exact hknown _ uri rfl

theorem mem_unique {uris : List Uri} {uri : Uri} : uri ∈ unique uris ↔ uri ∈ uris := by
  have hloop (uris r : List Uri) :
      uri ∈ uris.foldl (fun r uri => if r.contains uri then r else r ++ [uri]) r ↔
        uri ∈ r ∨ uri ∈ uris := by
    induction uris generalizing r with
    | nil => simp
    | cons u uris ih =>
      rw [List.foldl_cons, ih]
      split
      · next hu =>
        rw [List.contains_iff_mem] at hu
        constructor
        · exact fun h => h.imp_right (List.mem_cons_of_mem _)
        · rintro (h | h)
          · exact .inl h
          · rcases List.mem_cons.mp h with rfl | h
            · exact .inl hu
            · exact .inr h
      · rw [List.mem_append, List.mem_singleton, List.mem_cons, or_assoc]
  rw [unique, hloop, or_iff_right List.not_mem_nil]

theorem nodup_unique (uris : List Uri) : (unique uris).Nodup := by
  have hloop (uris r : List Uri) (hr : r.Nodup) :
      (uris.foldl (fun r uri => if r.contains uri then r else r ++ [uri]) r).Nodup := by
    induction uris generalizing r with
    | nil => exact hr
    | cons u uris ih =>
      refine ih _ ?_
      dsimp only
      split
      · exact hr
      · next hu =>
        rw [List.contains_iff_mem] at hu
        exact List.nodup_append'.mpr ⟨hr, List.nodup_singleton u, by simpa using hu⟩
  exact hloop uris [] List.nodup_nil

/-! ## Specifications -/

theorem lookup_inherit (specs superSpecs : Specifications) (p : Uri) :
    (inherit specs superSpecs).lookup p = (specs.lookup p).or (superSpecs.lookup p) := by
  have hloop (entries : List (Sigma fun _ : Uri => Uri)) (specs : Specifications) :
      (entries.foldl (fun specs entry =>
        if (specs.lookup entry.1).isSome then specs else specs.insert entry.1 entry.2)
        specs).lookup p = (specs.lookup p).or (entries.dlookup p) := by
    induction entries generalizing specs with
    | nil => exact (Option.or_none).symm
    | cons entry entries ih =>
      obtain ⟨q, v⟩ := entry
      rw [List.foldl_cons, ih]
      dsimp only
      rcases eq_or_ne q p with rfl | hne
      · rw [List.dlookup_cons_eq]
        cases hq : specs.lookup q with
        | some w => rw [if_pos (Option.isSome_some), hq, Option.some_or, Option.some_or]
        | none => rw [if_neg (by simp), AList.lookup_insert, Option.some_or, Option.none_or]
      · rw [List.dlookup_cons_ne _ _ hne.symm]
        split
        · rfl
        · rw [AList.lookup_insert_ne hne.symm]
  exact hloop superSpecs.entries specs

/-- The classes are the same, with the same superclasses and properties. -/
def SameShape (tree tree' : ClassTree) : Prop :=
  ∀ uri, (tree'.lookup uri).map (fun c => (c.superClasses, c.properties)) =
    (tree.lookup uri).map fun c => (c.superClasses, c.properties)

section
variable {tree tree' tree'' : ClassTree}

theorem SameShape.trans (h : SameShape tree tree') (h' : SameShape tree' tree'') :
    SameShape tree tree'' := fun uri => (h' uri).trans (h uri)

theorem SameShape.resolve (h : SameShape tree tree') (uri : Uri) :
    resolve tree' uri = resolve tree uri := by
  have hsame := congrArg Option.isSome (h uri)
  rw [Option.isSome_map, Option.isSome_map] at hsame
  rw [OntologyModel.resolve, OntologyModel.resolve, hsame]

theorem SameShape.superClasses (h : SameShape tree tree') :
    superClasses tree' = superClasses tree := by
  funext uri
  have hsame := congrArg (Option.map Prod.fst) (h uri)
  rw [Option.map_map, Option.map_map] at hsame
  have hresolve : OntologyModel.resolve tree' = OntologyModel.resolve tree := funext h.resolve
  rw [OntologyModel.superClasses, OntologyModel.superClasses, hresolve]
  exact congrArg (fun classes => (classes.getD []).map (OntologyModel.resolve tree)) hsame

theorem SameShape.propertiesOf (h : SameShape tree tree') (uri : Uri) :
    propertiesOf tree' uri = propertiesOf tree uri := by
  have hsame := congrArg (Option.map Prod.snd) (h uri)
  rw [Option.map_map, Option.map_map] at hsame
  exact congrArg (·.getD []) hsame

/-- A class that has a place in one of the trees has one in the other. -/
theorem SameShape.exists_lookup (h : SameShape tree tree') {uri : Uri} {c : Class}
    (hc : tree.lookup uri = some c) :
    ∃ c', tree'.lookup uri = some c' ∧ c'.superClasses = c.superClasses := by
  have hsame := h uri
  rw [hc, Option.map_some, Option.map_eq_some_iff] at hsame
  obtain ⟨c', hc', heq⟩ := hsame
  exact ⟨c', hc', congrArg Prod.fst heq⟩

end

section
variable {tree : ClassTree} {uri : Uri} {c : Class}

theorem sameShape_insert (hc : tree.lookup uri = some c) (specs : Specifications) :
    SameShape tree (tree.insert uri { c with specifications := specs }) := by
  intro a
  rcases eq_or_ne a uri with rfl | hne
  · rw [AList.lookup_insert, hc]
    rfl
  · rw [AList.lookup_insert_ne hne]

theorem specsOf_insert_self (c : Class) : specsOf (tree.insert uri c) uri = c.specifications := by
  rw [specsOf, AList.lookup_insert]
  rfl

theorem specsOf_insert_of_ne {a : Uri} (hne : a ≠ uri) (c : Class) :
    specsOf (tree.insert uri c) a = specsOf tree a := by
  rw [specsOf, AList.lookup_insert_ne hne, specsOf]

theorem findSome?_congr {α β : Type} {l : List α} {f g : α → Option β} (h : ∀ a ∈ l, f a = g a) :
    l.findSome? f = l.findSome? g := by
  have hid (f : α → Option β) : l.findSome? f = (l.map f).findSome? id := by
    rw [List.findSome?_map]
    rfl
  rw [hid f, hid g, List.map_congr_left h]

/-- The loop over the superclasses fills up the specifications of the class, from one after the
other. -/
theorem foldl_merge (owners : List Uri) (hc : tree.lookup uri = some c) (hself : uri ∉ owners) :
    SameShape tree (owners.foldl (merge uri) tree) ∧
      (∀ a ≠ uri, specsOf (owners.foldl (merge uri) tree) a = specsOf tree a) ∧
      ∀ p, (specsOf (owners.foldl (merge uri) tree) uri).lookup p =
        ((specsOf tree uri).lookup p).or
          (owners.findSome? fun owner => (specsOf tree owner).lookup p) := by
  induction owners generalizing tree c with
  | nil => exact ⟨fun _ => rfl, fun _ _ => rfl, fun p => (Option.or_none).symm⟩
  | cons owner owners ih =>
    obtain ⟨hne, hself⟩ := not_or.mp (mt List.mem_cons.mpr hself)
    have hmerge : merge uri tree owner = tree.insert uri
        { c with specifications := inherit c.specifications (specsOf tree owner) } := by
      rw [merge, hc]
    have hspecs (a : Uri) (ha : a ≠ uri) : specsOf (merge uri tree owner) a = specsOf tree a := by
      rw [hmerge, specsOf_insert_of_ne ha]
    have hlookup : (merge uri tree owner).lookup uri = some
        { c with specifications := inherit c.specifications (specsOf tree owner) } := by
      rw [hmerge, AList.lookup_insert]
    obtain ⟨hshape, hothers, hself'⟩ := ih hlookup hself
    refine ⟨?_, fun a ha => (hothers a ha).trans (hspecs a ha), fun p => ?_⟩
    · exact (hmerge ▸ sameShape_insert hc _).trans hshape
    · have howners : owners.findSome? (fun o => (specsOf (merge uri tree owner) o).lookup p) =
          owners.findSome? fun o => (specsOf tree o).lookup p := by
        refine findSome?_congr fun o ho => ?_
        rw [hspecs o fun heq => hself (heq ▸ ho)]
      rw [List.foldl_cons, hself', howners, specsOf_of_lookup hlookup, lookup_inherit,
        specsOf_of_lookup hc, List.findSome?_cons, Option.or_assoc]
      cases (specsOf tree owner).lookup p with
      | none => rfl
      | some v => rfl

end

/-! ## What earlier answers leave behind -/

section
variable {tree₀ : ClassTree} (hacyclic : Acyclic (superClasses tree₀))

/-- The specification of a property that a class has or inherits. -/
noncomputable def inherited (uri p : Uri) : Option Uri :=
  (upwards hacyclic uri).findSome? fun a => (specsOf tree₀ a).lookup p

/-- The specifications in a tree are the own ones, and some of those that are inherited. -/
structure Between (tree : ClassTree) : Prop where
  shape : SameShape tree₀ tree
  own : ∀ uri p v, (specsOf tree₀ uri).lookup p = some v → (specsOf tree uri).lookup p = some v
  inherited : ∀ uri p v, (specsOf tree uri).lookup p = some v → inherited hacyclic uri p = some v

/-- All that a class inherits has been written into it. -/
def Full (tree : ClassTree) (uri : Uri) : Prop :=
  ∀ p, (specsOf tree uri).lookup p = inherited hacyclic uri p

/-- Nothing that is there is lost or changed. -/
def Grows (tree tree' : ClassTree) : Prop :=
  ∀ uri p v, (specsOf tree uri).lookup p = some v → (specsOf tree' uri).lookup p = some v

/-- What a call does: it returns the class, which is filled up then. -/
def Answers (call : ClassTree → Uri → Option (ClassTree × Uri)) (uri : Uri) : Prop :=
  ∀ tree, Between hacyclic tree → ∃ tree', call tree uri = some (tree', resolve tree₀ uri) ∧
    Between hacyclic tree' ∧ Grows tree tree' ∧ Full hacyclic tree' (resolve tree₀ uri)

variable {hacyclic}

theorem inherited_eq (uri p : Uri) : inherited hacyclic uri p = ((specsOf tree₀ uri).lookup p).or
    ((superClasses tree₀ uri).findSome? fun s => inherited hacyclic s p) :=
  findSome?_upwards hacyclic _ uri

theorem Between.start : Between hacyclic tree₀ where
  shape _ := rfl
  own _ _ _ h := h
  inherited uri p v h := by
    rw [inherited_eq, h, Option.some_or]

theorem Full.grows {tree tree' : ClassTree} {uri : Uri} (h : Full hacyclic tree uri)
    (hgrows : Grows tree tree') (htree' : Between hacyclic tree') : Full hacyclic tree' uri := by
  intro p
  rw [← h p]
  cases hp : (specsOf tree uri).lookup p with
  | some v => exact hgrows uri p v hp
  | none =>
    cases hp' : (specsOf tree' uri).lookup p with
    | none => rfl
    | some v => rw [← hp, h p, htree'.inherited uri p v hp']

theorem callInTurn_answers {call : ClassTree → Uri → Option (ClassTree × Uri)} {uris : List Uri}
    (h : ∀ uri ∈ uris, Answers hacyclic call uri) {tree : ClassTree}
    (htree : Between hacyclic tree) : ∃ tree',
      callInTurn call uris tree = some (tree', uris.map (resolve tree₀)) ∧
        Between hacyclic tree' ∧ Grows tree tree' ∧
        ∀ uri ∈ uris, Full hacyclic tree' (resolve tree₀ uri) := by
  induction uris generalizing tree with
  | nil => exact ⟨tree, rfl, htree, fun _ _ _ h => h, fun _ h => absurd h List.not_mem_nil⟩
  | cons uri uris ih =>
    obtain ⟨huri, huris⟩ := List.forall_mem_cons.mp h
    obtain ⟨tree', hcall, htree', hgrows, hfull⟩ := huri tree htree
    obtain ⟨tree'', hcalls, htree'', hgrows', hfulls⟩ := ih huris htree'
    refine ⟨tree'', ?_, htree'', fun a p v hv => hgrows' a p v (hgrows a p v hv), ?_⟩
    · rw [callInTurn, hcall]
      change (callInTurn call uris tree').bind _ = _
      rw [hcalls]
      rfl
    · exact List.forall_mem_cons.mpr ⟨hfull.grows hgrows' htree'', hfulls⟩

/-- Where the calls for the superclasses answer, a class that is known is filled up. -/
theorem answers_succ {depth : ℕ} {uri : Uri} {c : Class} (hc : tree₀.lookup uri = some c)
    (h : ∀ s ∈ c.superClasses, Answers hacyclic (getClassSpecifications depth) s) :
    Answers hacyclic (getClassSpecifications (depth + 1)) uri := by
  intro tree htree
  obtain ⟨c', hc', hsupers⟩ := htree.shape.exists_lookup hc
  obtain ⟨tree₁, hcalls, htree₁, hgrows, hfulls⟩ := callInTurn_answers h htree
  obtain ⟨c₁, hc₁, -⟩ := htree₁.shape.exists_lookup hc
  have howners : superClasses tree₀ uri = c.superClasses.map (resolve tree₀) :=
    superClasses_of_lookup hc
  have hself : uri ∉ superClasses tree₀ uri := hacyclic.notMem uri
  obtain ⟨hshape, hothers, hspecs⟩ := foldl_merge (superClasses tree₀ uri) hc₁ hself
  -- what was there before is what is inherited, as far as it goes
  have hfull : Full hacyclic ((superClasses tree₀ uri).foldl (merge uri) tree₁) uri := by
    intro p
    have habove : (superClasses tree₀ uri).findSome? (fun s => (specsOf tree₁ s).lookup p) =
        (superClasses tree₀ uri).findSome? fun s => inherited hacyclic s p := by
      refine findSome?_congr fun s hs => ?_
      rw [howners] at hs
      obtain ⟨t, ht, rfl⟩ := List.mem_map.mp hs
      exact hfulls t ht p
    rw [hspecs p, habove]
    cases hp : (specsOf tree₁ uri).lookup p with
    | some v => rw [Option.some_or, htree₁.inherited uri p v hp]
    | none =>
      have hown : (specsOf tree₀ uri).lookup p = none := by
        cases hown : (specsOf tree₀ uri).lookup p with
        | none => rfl
        | some v => exact (htree₁.own uri p v hown).symm.trans hp
      rw [Option.none_or, inherited_eq, hown, Option.none_or]
  have hgrows' : Grows tree₁ ((superClasses tree₀ uri).foldl (merge uri) tree₁) := by
    intro a p v hv
    rcases eq_or_ne a uri with rfl | hne
    · rw [hspecs p, hv, Option.some_or]
    · rw [hothers a hne, hv]
  refine ⟨_, ?_, ⟨htree₁.shape.trans hshape, fun a p v hv => ?_, fun a p v hv => ?_⟩,
    fun a p v hv => hgrows' a p v (hgrows a p v hv), ?_⟩
  · rw [getClassSpecifications, hc']
    dsimp only
    rw [hsupers, hcalls, resolve_of_lookup hc, ← howners]
    rfl
  · exact hgrows' a p v (htree₁.own a p v hv)
  · rcases eq_or_ne a uri with rfl | hne
    · exact (hfull p).symm.trans hv
    · rw [hothers a hne] at hv
      exact htree₁.inherited a p v hv
  · rw [resolve_of_lookup hc]
    exact hfull

/-- A class that is not known is answered for by `rdfs:Resource`. -/
theorem answers_of_unknown {depth : ℕ} {uri : Uri} (hnone : tree₀.lookup uri = none)
    (hresource : (tree₀.lookup resource).isSome)
    (h : Answers hacyclic (getClassSpecifications depth) resource) :
    Answers hacyclic (getClassSpecifications (depth + 1)) uri := by
  intro tree htree
  obtain ⟨c, hc⟩ := Option.isSome_iff_exists.mp hresource
  obtain ⟨tree', hcall, htree', hgrows, hfull⟩ := h tree htree
  rw [resolve_of_lookup hc] at hcall hfull
  have hnone' : tree.lookup uri = none := by
    have hsame := htree.shape uri
    rw [hnone] at hsame
    exact Option.map_eq_none_iff.mp hsame
  rw [resolve_of_none hnone]
  refine ⟨tree', ?_, htree', hgrows, hfull⟩
  rw [getClassSpecifications, hnone']
  exact hcall

/-- However much has been asked before, calls that may be deep enough answer. -/
theorem exists_answers (hresource : (tree₀.lookup resource).isSome) (uri : Uri) :
    ∃ n, ∀ depth ≥ n, Answers hacyclic (getClassSpecifications depth) uri := by
  have hknown (a : Uri) : ∀ uri, resolve tree₀ uri = a →
      ∃ n, ∀ depth ≥ n, Answers hacyclic (getClassSpecifications depth) uri := by
    induction a using hacyclic.induction with
    | _ a ih =>
      intro uri huri
      obtain ⟨c, hc⟩ := exists_lookup_resolve hresource uri
      rw [huri] at hc
      have hsupers : ∀ s ∈ c.superClasses,
          ∃ n, ∀ depth ≥ n, Answers hacyclic (getClassSpecifications depth) s := by
        intro s hs
        refine ih (resolve tree₀ s) ?_ s rfl
        rw [superClasses_of_lookup hc]
        exact List.mem_map_of_mem hs
      obtain ⟨n, hn⟩ := exists_depth hsupers
      cases hlookup : tree₀.lookup uri with
      | some d =>
        rw [resolve_of_lookup hlookup] at huri
        refine ⟨n + 1, fun depth hdepth => ?_⟩
        obtain ⟨depth, rfl⟩ := Nat.exists_eq_add_of_le' (Nat.one_le_of_lt hdepth)
        rw [huri]
        exact answers_succ hc (hn depth (Nat.le_of_succ_le_succ hdepth))
      | none =>
        rw [resolve_of_none hlookup] at huri
        refine ⟨n + 2, fun depth hdepth => ?_⟩
        obtain ⟨depth, rfl⟩ := Nat.exists_eq_add_of_le' ((Nat.le_add_left 2 n).trans hdepth)
        refine answers_of_unknown hlookup hresource ?_
        rw [huri]
        exact answers_succ hc (hn depth (Nat.le_of_add_le_add_right hdepth))
  exact hknown _ uri rfl

end

end Veda.Browser.OntologyModel
