import Veda.Browser.OntologyAnswers

/-! # The tree of classes

What the ontology says is in the tree that `processOntology` makes, and what is asked of the model
is answered from the ontology alone. -/

namespace Veda.Browser.OntologyModel

open Inheritance

/-! ## The ontology itself -/

namespace Ontology

variable (ontology : Ontology)

def classes : List (Uri × OntoIndividual) := allocate ontology isClass

def isKnown (uri : Uri) : Bool := (ontology.classes.lookup uri).isSome

/-- A class that is not known is taken for `rdfs:Resource`. -/
def resolve (uri : Uri) : Uri := if ontology.isKnown uri then uri else resource

/-- The superclasses of a class, where `rdfs:Resource` stands for those that are not known. -/
def parents (uri : Uri) : List Uri :=
  (((ontology.classes.lookup uri).map (superClassesOf ontology.classes uri)).getD []).map
    ontology.resolve

/-- A property is declared for a class: no class of its domain before it is unknown. -/
def Declares (uri p : Uri) : Prop :=
  ∃ x, (p, x) ∈ allocate ontology isProperty ∧ uri ∈ x.domain.takeWhile ontology.isKnown

/-- The last specification that is given for a class and a property. -/
def specFor (uri p : Uri) : Option Uri :=
  ((allocate ontology isSpecification).findRev? fun entry =>
    (entry.2.forClass.takeWhile ontology.isKnown).contains uri &&
      entry.2.forProperty.contains p).map Prod.fst

end Ontology

theorem nodup_allocate (ontology : Ontology) (kind : OntoIndividual → Bool) :
    ((allocate ontology kind).map Prod.fst).Nodup := by
  have hkeys : ((ontology.entries.map fun entry => (entry.1, entry.2)).map Prod.fst).Nodup := by
    rw [List.map_map]
    exact ontology.nodupKeys
  exact hkeys.sublist (List.filter_sublist.map _)

theorem lookup_foldl_addClass (all classes : List (Uri × OntoIndividual)) (tree : ClassTree)
    (hnodup : (classes.map Prod.fst).Nodup) (uri : Uri) :
    (classes.foldl (addClass all) tree).lookup uri =
      ((classes.lookup uri).map fun x => Class.mk (superClassesOf all uri x) [] ∅).or
        (tree.lookup uri) := by
  induction classes generalizing tree with
  | nil => rfl
  | cons entry classes ih =>
    obtain ⟨a, x⟩ := entry
    rw [List.map_cons, List.nodup_cons] at hnodup
    rw [List.foldl_cons, ih _ hnodup.2, addClass]
    rcases eq_or_ne uri a with rfl | hne
    · have hnone : classes.lookup uri = none := by
        rw [List.lookup_eq_none_iff]
        intro entry hentry
        simp only [bne_iff_ne, ne_eq]
        rintro rfl
        exact hnodup.1 (List.mem_map.mpr ⟨entry, hentry, rfl⟩)
      rw [hnone, AList.lookup_insert, List.lookup_cons, beq_self_eq_true]
      rfl
    · rw [AList.lookup_insert_ne hne, List.lookup_cons, beq_false_of_ne hne]

/-- The superclasses of all classes stay as they are. -/
def SameSupers (tree tree' : ClassTree) : Prop :=
  ∀ uri, (tree'.lookup uri).map Class.superClasses = (tree.lookup uri).map Class.superClasses

theorem SameSupers.trans {tree tree' tree'' : ClassTree} (h : SameSupers tree tree')
    (h' : SameSupers tree' tree'') : SameSupers tree tree'' := fun uri => (h' uri).trans (h uri)

theorem sameSupers_insert {tree : ClassTree} {uri : Uri} {c d : Class}
    (hc : tree.lookup uri = some c) (hd : d.superClasses = c.superClasses) :
    SameSupers tree (tree.insert uri d) := by
  intro a
  rcases eq_or_ne a uri with rfl | hne
  · rw [AList.lookup_insert, hc, Option.map_some, Option.map_some, hd]
  · rw [AList.lookup_insert_ne hne]

theorem SameSupers.isSome {tree tree' : ClassTree} (h : SameSupers tree tree') (uri : Uri) :
    (tree'.lookup uri).isSome = (tree.lookup uri).isSome := by
  have hsame := congrArg Option.isSome (h uri)
  rwa [Option.isSome_map, Option.isSome_map] at hsame

theorem mem_takeWhile_cons {known : Uri → Bool} {a d : Uri} {ds : List Uri} :
    a ∈ (d :: ds).takeWhile known ↔ known d = true ∧ (a = d ∨ a ∈ ds.takeWhile known) := by
  rw [List.takeWhile_cons]
  split
  · next h => rw [List.mem_cons, and_iff_right h]
  · next h => exact ⟨fun hmem => absurd hmem List.not_mem_nil, fun hand => absurd hand.1 h⟩

/-- A property is put into the classes of its domain that come before any unknown one. -/
theorem addProperty_spec {known : Uri → Bool} (p : Uri) (domain : List Uri) (tree : ClassTree)
    (hknown : ∀ uri, known uri = (tree.lookup uri).isSome) :
    SameSupers tree (addProperty p domain tree) ∧
      (∀ uri, specsOf (addProperty p domain tree) uri = specsOf tree uri) ∧
      ∀ uri q, q ∈ propertiesOf (addProperty p domain tree) uri ↔
        q ∈ propertiesOf tree uri ∨ q = p ∧ uri ∈ domain.takeWhile known := by
  induction domain generalizing tree with
  | nil =>
    refine ⟨fun _ => rfl, fun _ => rfl, fun uri q => ?_⟩
    exact ⟨.inl, fun h => h.resolve_right fun hand => absurd hand.2 List.not_mem_nil⟩
  | cons d ds ih =>
    rw [addProperty]
    cases hd : tree.lookup d with
    | none =>
      refine ⟨fun _ => rfl, fun _ => rfl, fun uri q => ?_⟩
      rw [mem_takeWhile_cons, hknown d, hd]
      simp
    | some c =>
      dsimp only
      have hsupers : SameSupers tree (tree.insert d { c with properties := c.properties ++ [p] }) :=
        sameSupers_insert hd rfl
      obtain ⟨hsame, hspecs, hprops⟩ := ih _ fun uri => (hknown uri).trans (hsupers.isSome uri).symm
      refine ⟨hsupers.trans hsame, fun uri => (hspecs uri).trans ?_, fun uri q => ?_⟩
      · rcases eq_or_ne uri d with rfl | hne
        · rw [specsOf_insert_self, specsOf_of_lookup hd]
        · rw [specsOf_insert_of_ne hne]
      · rw [hprops, mem_takeWhile_cons, hknown d, hd, and_iff_right Option.isSome_some]
        rcases eq_or_ne uri d with rfl | hne
        · rw [propertiesOf_of_lookup (AList.lookup_insert tree), propertiesOf_of_lookup hd,
            List.mem_append, List.mem_singleton]
          tauto
        · rw [propertiesOf, AList.lookup_insert_ne hne, ← propertiesOf]
          tauto

theorem lookup_foldl_insert (uri q : Uri) (forProperty : List Uri) (specs : Specifications) :
    (forProperty.foldl (fun specs property => specs.insert property uri) specs).lookup q =
      if forProperty.contains q then some uri else specs.lookup q := by
  induction forProperty generalizing specs with
  | nil => rfl
  | cons p ps ih =>
    rw [List.foldl_cons, ih, List.contains_cons]
    rcases eq_or_ne q p with rfl | hne
    · rw [beq_self_eq_true, Bool.true_or, if_pos rfl, AList.lookup_insert, ite_self]
    · rw [beq_false_of_ne hne, Bool.false_or, AList.lookup_insert_ne hne]

/-- A specification is put into its classes that come before any unknown one. -/
theorem addSpecification_spec {known : Uri → Bool} (v : Uri) (forProperty forClass : List Uri)
    (tree : ClassTree) (hknown : ∀ uri, known uri = (tree.lookup uri).isSome) :
    SameSupers tree (addSpecification v forProperty forClass tree) ∧
      (∀ uri, propertiesOf (addSpecification v forProperty forClass tree) uri =
        propertiesOf tree uri) ∧
      ∀ uri p, (specsOf (addSpecification v forProperty forClass tree) uri).lookup p =
        if (forClass.takeWhile known).contains uri && forProperty.contains p then some v
        else (specsOf tree uri).lookup p := by
  induction forClass generalizing tree with
  | nil => exact ⟨fun _ => rfl, fun _ => rfl, fun uri p => rfl⟩
  | cons d ds ih =>
    rw [addSpecification]
    cases hd : tree.lookup d with
    | none =>
      have hnil : (d :: ds).takeWhile known = [] := by
        rw [List.takeWhile_cons_of_neg]
        rw [hknown d, hd]
        exact Bool.false_ne_true
      dsimp only
      rw [hnil]
      split
      · next hempty =>
        obtain ⟨hsame, hprops, hspecs⟩ := ih tree hknown
        refine ⟨hsame, hprops, fun uri p => (hspecs uri p).trans ?_⟩
        rw [hempty, List.contains_nil, Bool.and_false, Bool.and_false]
      · exact ⟨fun _ => rfl, fun _ => rfl, fun uri p => rfl⟩
    | some c =>
      dsimp only
      have hsupers : SameSupers tree (tree.insert d { c with
          specifications := forProperty.foldl (fun specs property => specs.insert property v)
            c.specifications }) := sameSupers_insert hd rfl
      obtain ⟨hsame, hprops, hspecs⟩ := ih _ fun uri => (hknown uri).trans (hsupers.isSome uri).symm
      have htake : (d :: ds).takeWhile known = d :: ds.takeWhile known := by
        rw [List.takeWhile_cons_of_pos]
        rw [hknown d, hd]
        rfl
      refine ⟨hsupers.trans hsame, fun uri => (hprops uri).trans ?_, fun uri p => ?_⟩
      · rcases eq_or_ne uri d with rfl | hne
        · rw [propertiesOf_of_lookup (AList.lookup_insert tree), propertiesOf_of_lookup hd]
        · rw [propertiesOf, AList.lookup_insert_ne hne, ← propertiesOf]
      · rw [hspecs uri p, htake, List.contains_cons]
        rcases eq_or_ne uri d with rfl | hne
        · rw [specsOf_insert_self, lookup_foldl_insert, specsOf_of_lookup hd, beq_self_eq_true,
            Bool.true_or, Bool.true_and]
          cases forProperty.contains p with
          | true => rw [if_pos rfl, ite_self]
          | false => simp
        · rw [specsOf_insert_of_ne hne, beq_false_of_ne hne, Bool.false_or]

/-- All properties are put into the tree. -/
theorem foldl_addProperty_spec {known : Uri → Bool} (properties : List (Uri × OntoIndividual))
    (tree : ClassTree) (hknown : ∀ uri, known uri = (tree.lookup uri).isSome) :
    SameSupers tree
        (properties.foldl (fun tree entry => addProperty entry.1 entry.2.domain tree) tree) ∧
      (∀ uri, specsOf (properties.foldl
        (fun tree entry => addProperty entry.1 entry.2.domain tree) tree) uri = specsOf tree uri) ∧
      ∀ uri p, p ∈ propertiesOf (properties.foldl
          (fun tree entry => addProperty entry.1 entry.2.domain tree) tree) uri ↔
        p ∈ propertiesOf tree uri ∨
          ∃ x, (p, x) ∈ properties ∧ uri ∈ x.domain.takeWhile known := by
  induction properties generalizing tree with
  | nil =>
    refine ⟨fun _ => rfl, fun _ => rfl, fun uri p => ⟨.inl, fun h => h.resolve_right ?_⟩⟩
    rintro ⟨x, hx, -⟩
    exact absurd hx List.not_mem_nil
  | cons entry properties ih =>
    obtain ⟨q, y⟩ := entry
    obtain ⟨hsame, hspecs, hprops⟩ := addProperty_spec q y.domain tree hknown
    obtain ⟨hsame', hspecs', hprops'⟩ :=
      ih (addProperty q y.domain tree) fun uri => (hknown uri).trans (hsame.isSome uri).symm
    refine ⟨hsame.trans hsame', fun uri => (hspecs' uri).trans (hspecs uri), fun uri p => ?_⟩
    rw [List.foldl_cons, hprops', hprops, or_assoc]
    refine or_congr_right ⟨?_, ?_⟩
    · rintro (⟨rfl, hmem⟩ | ⟨x, hx, hmem⟩)
      · exact ⟨y, List.mem_cons_self, hmem⟩
      · exact ⟨x, List.mem_cons_of_mem _ hx, hmem⟩
    · rintro ⟨x, hx, hmem⟩
      rcases List.mem_cons.mp hx with heq | hx
      · cases heq
        exact .inl ⟨rfl, hmem⟩
      · exact .inr ⟨x, hx, hmem⟩

/-- All specifications are put into the tree; the last one counts. -/
theorem foldl_addSpecification_spec {known : Uri → Bool}
    (specifications : List (Uri × OntoIndividual)) (tree : ClassTree)
    (hknown : ∀ uri, known uri = (tree.lookup uri).isSome) :
    SameSupers tree (specifications.foldl
        (fun tree entry => addSpecification entry.1 entry.2.forProperty entry.2.forClass tree)
        tree) ∧
      (∀ uri, propertiesOf (specifications.foldl
        (fun tree entry => addSpecification entry.1 entry.2.forProperty entry.2.forClass tree)
        tree) uri = propertiesOf tree uri) ∧
      ∀ uri p, (specsOf (specifications.foldl
          (fun tree entry => addSpecification entry.1 entry.2.forProperty entry.2.forClass tree)
          tree) uri).lookup p =
        ((specifications.findRev? fun entry => (entry.2.forClass.takeWhile known).contains uri &&
          entry.2.forProperty.contains p).map Prod.fst).or ((specsOf tree uri).lookup p) := by
  induction specifications generalizing tree with
  | nil => exact ⟨fun _ => rfl, fun _ => rfl, fun uri p => rfl⟩
  | cons entry specifications ih =>
    obtain ⟨v, y⟩ := entry
    obtain ⟨hsame, hprops, hspecs⟩ := addSpecification_spec v y.forProperty y.forClass tree hknown
    obtain ⟨hsame', hprops', hspecs'⟩ := ih (addSpecification v y.forProperty y.forClass tree)
      fun uri => (hknown uri).trans (hsame.isSome uri).symm
    refine ⟨hsame.trans hsame', fun uri => (hprops' uri).trans (hprops uri), fun uri p => ?_⟩
    rw [List.foldl_cons, hspecs', hspecs, List.findRev?]
    cases specifications.findRev? fun entry =>
        (entry.2.forClass.takeWhile known).contains uri && entry.2.forProperty.contains p with
    | some found => rfl
    | none =>
      dsimp only
      split <;> rfl

theorem lookup_classes (ontology : Ontology) (uri : Uri) :
    ((ontology.classes.foldl (addClass ontology.classes) ∅).lookup uri) =
      (ontology.classes.lookup uri).map fun x =>
        Class.mk (superClassesOf ontology.classes uri x) [] ∅ := by
  have hnodup : (ontology.classes.map Prod.fst).Nodup := nodup_allocate ontology isClass
  rw [lookup_foldl_addClass _ _ _ hnodup, AList.lookup_empty, Option.or_none]

/-- The tree holds what the ontology says. -/
theorem processOntology_spec (ontology : Ontology) :
    (∀ uri, ((processOntology ontology).lookup uri).isSome = ontology.isKnown uri) ∧
      superClasses (processOntology ontology) = ontology.parents ∧
      (∀ uri p, p ∈ propertiesOf (processOntology ontology) uri ↔ ontology.Declares uri p) ∧
      ∀ uri p, (specsOf (processOntology ontology) uri).lookup p = ontology.specFor uri p := by
  have hlookup := lookup_classes ontology
  have hknown (uri : Uri) : ontology.isKnown uri =
      ((ontology.classes.foldl (addClass ontology.classes) ∅).lookup uri).isSome := by
    rw [hlookup, Option.isSome_map]
    rfl
  obtain ⟨hsame, hspecs, hprops⟩ :=
    foldl_addProperty_spec (allocate ontology isProperty) _ hknown
  obtain ⟨hsame', hprops', hspecs'⟩ :=
    foldl_addSpecification_spec (allocate ontology isSpecification) _ fun uri =>
      (hknown uri).trans (hsame.isSome uri).symm
  have hall := hsame.trans hsame'
  have hisSome (uri : Uri) :
      ((processOntology ontology).lookup uri).isSome = ontology.isKnown uri :=
    (hall.isSome uri).trans (hknown uri).symm
  refine ⟨hisSome, ?_, fun uri p => ?_, fun uri p => ?_⟩
  · funext uri
    have hsupers : ((processOntology ontology).lookup uri).map Class.superClasses =
        (ontology.classes.lookup uri).map (superClassesOf ontology.classes uri) := by
      refine (hall uri).trans ?_
      rw [hlookup, Option.map_map]
      rfl
    have hresolve : resolve (processOntology ontology) = ontology.resolve := by
      funext s
      rw [resolve, hisSome, Ontology.resolve]
    rw [superClasses, hsupers, hresolve]
    rfl
  · have hnone : propertiesOf (ontology.classes.foldl (addClass ontology.classes) ∅) uri = [] := by
      rw [propertiesOf, hlookup]
      cases ontology.classes.lookup uri with
      | none => rfl
      | some x => rfl
    have hiff := hprops uri p
    rw [hnone, or_iff_right List.not_mem_nil, ← hprops'] at hiff
    exact hiff
  · have hnone : specsOf (ontology.classes.foldl (addClass ontology.classes) ∅) uri = ∅ := by
      rw [specsOf, hlookup]
      cases ontology.classes.lookup uri with
      | none => rfl
      | some x => rfl
    have heq := hspecs' uri p
    rw [hspecs, hnone, AList.lookup_empty, Option.or_none] at heq
    exact heq

/-! ## The answers -/

/-- The properties that are declared for a class or one above it, each once; and for each property
the specification that is found first on the way up. -/
def Call.Right (ontology : Ontology) (hacyclic : Acyclic ontology.parents) : Call → Answer → Prop
  | .properties uri, .properties uris => uris.Nodup ∧ ∀ p, p ∈ uris ↔
      ∃ c, Relation.ReflTransGen (fun a b => b ∈ ontology.parents a) (ontology.resolve uri) c ∧
        ontology.Declares c p
  | .specifications uri, .specifications specs => ∀ p, specs.lookup p =
      (upwards hacyclic (ontology.resolve uri)).findSome? fun c => ontology.specFor c p
  | _, _ => False

theorem SameShape.getProps {tree tree' : ClassTree} (h : SameShape tree tree') (depth : ℕ) :
    getProps tree' depth = getProps tree depth := by
  induction depth with
  | zero => rfl
  | succ depth ih =>
    funext uri
    cases hc : tree.lookup uri with
    | none =>
      have hsame := h uri
      rw [hc, Option.map_none, Option.map_eq_none_iff] at hsame
      rw [OntologyModel.getProps, OntologyModel.getProps, hc, hsame, ih]
    | some c =>
      have hsame := h uri
      rw [hc, Option.map_some, Option.map_eq_some_iff] at hsame
      obtain ⟨c', hc', heq⟩ := hsame
      rw [OntologyModel.getProps, OntologyModel.getProps, hc, hc', ih]
      dsimp only
      rw [show c'.superClasses = c.superClasses from congrArg Prod.fst heq,
        show c'.properties = c.properties from congrArg Prod.snd heq]

theorem upwards_congr {α : Type} {parents parents' : α → List α} (h : Acyclic parents)
    (h' : Acyclic parents') (heq : parents = parents') : upwards h = upwards h' := by
  cases heq
  rfl

section
variable {ontology : Ontology} (hacyclic : Acyclic ontology.parents)
  (hresource : ontology.isKnown resource = true)

include hresource in
/-- In every tree that answers have left behind a call gets the right answer. -/
theorem exists_right (hacyclic' : Acyclic (superClasses (processOntology ontology)))
    (call : Call) : ∃ n, ∀ depth ≥ n, ∀ tree, Between hacyclic' tree →
      ∃ tree' answer, call.answer depth tree = some (tree', answer) ∧
        Between hacyclic' tree' ∧ call.Right ontology hacyclic answer := by
  obtain ⟨hknown, hsupers, hprops, hspecs⟩ := processOntology_spec ontology
  have hresource' : ((processOntology ontology).lookup resource).isSome := by
    rw [hknown, hresource]
  have hresolve : resolve (processOntology ontology) = ontology.resolve := by
    funext s
    rw [resolve, hknown, Ontology.resolve]
  cases call with
  | properties uri =>
    obtain ⟨n, hn⟩ := exists_getProps hacyclic' hresource' uri
    refine ⟨n, fun depth hdepth tree htree => ?_⟩
    have hcall := (congrFun (htree.shape.getProps depth) uri).trans (hn depth hdepth)
    refine ⟨tree, .properties (unique ((upwards hacyclic'
      (resolve (processOntology ontology) uri)).flatMap (propertiesOf (processOntology ontology)))),
      ?_, htree, nodup_unique _, fun p => ?_⟩
    · rw [Call.answer, getClassProperties, hcall]
      rfl
    · rw [mem_unique, List.mem_flatMap]
      refine exists_congr fun c => ?_
      rw [mem_upwards, hprops, hsupers, hresolve]
  | specifications uri =>
    obtain ⟨n, hn⟩ := @exists_answers _ hacyclic' hresource' uri
    refine ⟨n, fun depth hdepth tree htree => ?_⟩
    obtain ⟨tree', hcall, htree', -, hfull⟩ := hn depth hdepth tree htree
    refine ⟨tree', .specifications (specsOf tree' (resolve (processOntology ontology) uri)), ?_,
      htree', fun p => (hfull p).trans ?_⟩
    · rw [Call.answer, hcall]
      rfl
    · rw [inherited, upwards_congr hacyclic' hacyclic hsupers, hresolve]
      simp only [hspecs]

end

/-- A report is a document; its title has a specification of its own. -/
def reports : Ontology :=
  ((((((∅ : Ontology).insert "ex:Title" ⟨"rdf:Property", [], ["ex:Document"], [], []⟩).insert
    "ex:TitleSpec" ⟨"v-ui:PropertySpecification", [], [], ["ex:Document"], ["ex:Title"]⟩).insert
    "ex:ReportTitleSpec" ⟨"v-ui:PropertySpecification", [], [], ["ex:Report"], ["ex:Title"]⟩).insert
    "ex:Report" ⟨"owl:Class", ["ex:Document"], [], [], []⟩).insert
    "ex:Document" ⟨"owl:Class", [], [], [], []⟩).insert
    resource ⟨"rdfs:Class", [], [], [], []⟩

/-- How many classes are above. -/
def rank (uri : Uri) : ℕ :=
  if uri = "ex:Report" then 2 else if uri = "ex:Document" then 1 else 0

theorem acyclic_reports : Acyclic reports.parents := by
  have hrank (a b : Uri) (h : a ∈ reports.parents b) : rank a < rank b := by
    by_cases hreport : b = "ex:Report"
    · subst hreport
      revert a
      decide
    by_cases hdocument : b = "ex:Document"
    · subst hdocument
      revert a
      decide
    by_cases hresource : b = resource
    · subst hresource
      revert a
      decide
    have hclasses : reports.classes.map Prod.fst = [resource, "ex:Document", "ex:Report"] := by
      decide
    have hnone : reports.classes.lookup b = none := by
      rw [List.lookup_eq_none_iff]
      intro entry hentry
      have hmem : entry.1 ∈ [resource, "ex:Document", "ex:Report"] :=
        hclasses ▸ List.mem_map_of_mem hentry
      rw [bne_iff_ne]
      rintro rfl
      simp [hreport, hdocument, hresource] at hmem
    rw [Ontology.parents, hnone] at h
    exact absurd h List.not_mem_nil
  exact Subrelation.wf (fun {a b} => hrank a b) (measure rank).wf

def questions : List Call :=
  [.specifications "ex:Report", .properties "ex:Report", .specifications "ex:Report",
    .specifications "ex:Other"]

end Veda.Browser.OntologyModel
