import Mathlib.Data.List.AList

/-! # The ontology in the browser

The model of `ontology_model.js`: the tree of classes that `processOntology` makes, and the answers
of `getClassProperties` and `getClassSpecifications`. The second one writes what it inherits into
the class itself. -/

namespace Veda.Browser.OntologyModel

abbrev Uri := String

/-- An individual of the ontology: what is read of it. -/
structure OntoIndividual where
  /-- The first `rdf:type`. -/
  type : Uri
  subClassOf : List Uri
  domain : List Uri
  forClass : List Uri
  forProperty : List Uri

/-- `ontology`, by the uris. -/
abbrev Ontology := AList fun _ : Uri => OntoIndividual

abbrev Specifications := AList fun _ : Uri => Uri

/-- An entry of `classTree`. -/
structure Class where
  superClasses : List Uri
  properties : List Uri
  specifications : Specifications

abbrev ClassTree := AList fun _ : Uri => Class

def resource : Uri := "rdfs:Resource"

/-! ## `processOntology` -/

def isClass (x : OntoIndividual) : Bool := x.type ∈ ["rdfs:Class", "owl:Class"]

def isProperty (x : OntoIndividual) : Bool :=
  x.type ∈ ["rdf:Property", "owl:DatatypeProperty", "owl:ObjectProperty", "owl:OntologyProperty",
    "owl:AnnotationProperty"]

def isSpecification (x : OntoIndividual) : Bool :=
  x.type ∈ ["v-ui:PropertySpecification", "v-ui:DatatypePropertySpecification",
    "v-ui:ObjectPropertySpecification"]

/-- `classes`, `properties` or `specifications`. -/
def allocate (ontology : Ontology) (kind : OntoIndividual → Bool) : List (Uri × OntoIndividual) :=
  (ontology.entries.map fun entry => (entry.1, entry.2)).filter fun entry =>
    entry.1 ≠ "cfg:OntoVsn" && kind entry.2

/-- The superclasses of a class: `rdfs:Resource`, if it is a class, where there are none. -/
def superClassesOf (classes : List (Uri × OntoIndividual)) (uri : Uri) (x : OntoIndividual) :
    List Uri :=
  if uri = resource then []
  else if x.subClassOf = [] then
    if (classes.lookup resource).isSome then [resource] else []
  else x.subClassOf

/-- A class is put into the tree. -/
def addClass (classes : List (Uri × OntoIndividual)) (tree : ClassTree)
    (entry : Uri × OntoIndividual) : ClassTree :=
  tree.insert entry.1 ⟨superClassesOf classes entry.1 entry.2, [], ∅⟩

/-- A property is put into the classes of its domain. It throws where a class is not known. -/
def addProperty (uri : Uri) : List Uri → ClassTree → ClassTree
  | [], tree => tree
  | domain :: domains, tree =>
    match tree.lookup domain with
    | none => tree
    | some c =>
      addProperty uri domains (tree.insert domain { c with properties := c.properties ++ [uri] })

/-- A specification is put into its classes, for each of its properties. It throws where a class is
not known, if there are properties. -/
def addSpecification (uri : Uri) (forProperty : List Uri) : List Uri → ClassTree → ClassTree
  | [], tree => tree
  | forClass :: forClasses, tree =>
    match tree.lookup forClass with
    | none => if forProperty = [] then addSpecification uri forProperty forClasses tree else tree
    | some c =>
      addSpecification uri forProperty forClasses (tree.insert forClass { c with
        specifications := forProperty.foldl (fun specs property => specs.insert property uri)
          c.specifications })

/-- `processOntology`. -/
def processOntology (ontology : Ontology) : ClassTree :=
  let classes := allocate ontology isClass
  let tree := classes.foldl (addClass classes) ∅
  let tree := (allocate ontology isProperty).foldl
    (fun tree entry => addProperty entry.1 entry.2.domain tree) tree
  (allocate ontology isSpecification).foldl
    (fun tree entry => addSpecification entry.1 entry.2.forProperty entry.2.forClass tree) tree

/-! ## The answers -/

/-- `veda.Util.unique`. -/
def unique (arr : List Uri) : List Uri :=
  arr.foldl (fun r uri => if r.contains uri then r else r ++ [uri]) []

/-- One call after the other, each of which may not return. -/
def callAll {α : Type} (call : Uri → Option α) : List Uri → Option (List α)
  | [] => some []
  | uri :: uris => do
    let a ← call uri
    return a :: (← callAll call uris)

/-- `getProps`, for calls of a certain depth. -/
def getProps (tree : ClassTree) : ℕ → Uri → Option (List Uri)
  | 0, _ => none
  | depth + 1, uri =>
    match tree.lookup uri with
    | none => getProps tree depth resource
    | some c => do
      let props ← callAll (getProps tree depth) c.superClasses
      return c.properties ++ props.flatten

/-- `getClassProperties`. -/
def getClassProperties (tree : ClassTree) (depth : ℕ) (uri : Uri) : Option (List Uri) :=
  (getProps tree depth uri).map unique

def specsOf (tree : ClassTree) (uri : Uri) : Specifications :=
  ((tree.lookup uri).map Class.specifications).getD ∅

/-- `for (var property_uri in superSpecs)`. -/
def inherit (specs superSpecs : Specifications) : Specifications :=
  superSpecs.entries.foldl (fun specs entry =>
    if (specs.lookup entry.1).isSome then specs else specs.insert entry.1 entry.2) specs

/-- What the class inherits is written into its own specifications. -/
def merge (uri : Uri) (tree : ClassTree) (superClass : Uri) : ClassTree :=
  match tree.lookup uri with
  | none => tree
  | some c =>
    tree.insert uri { c with specifications := inherit c.specifications (specsOf tree superClass) }

/-- One call after the other, each of which may write into the tree. -/
def callInTurn {α : Type} (call : ClassTree → Uri → Option (ClassTree × α)) :
    List Uri → ClassTree → Option (ClassTree × List α)
  | [], tree => some (tree, [])
  | uri :: uris, tree => do
    let (tree, a) ← call tree uri
    let (tree, as) ← callInTurn call uris tree
    return (tree, a :: as)

/-- `getClassSpecifications`, for calls of a certain depth. An object that it returns is named by
the class to which it belongs. -/
def getClassSpecifications : ℕ → ClassTree → Uri → Option (ClassTree × Uri)
  | 0, _, _ => none
  | depth + 1, tree, uri =>
    match tree.lookup uri with
    | none => getClassSpecifications depth tree resource
    | some c => do
      let (tree, superSpecsArray) ← callInTurn (getClassSpecifications depth) c.superClasses tree
      return (superSpecsArray.foldl (merge uri) tree, uri)

/-- A question to the model. -/
inductive Call where
  | properties (uri : Uri)
  | specifications (uri : Uri)

inductive Answer where
  | properties (uris : List Uri)
  | specifications (specs : Specifications)

def Call.answer (depth : ℕ) (tree : ClassTree) : Call → Option (ClassTree × Answer)
  | properties uri => do return (tree, .properties (← getClassProperties tree depth uri))
  | specifications uri => do
    let (tree, owner) ← getClassSpecifications depth tree uri
    return (tree, .specifications (specsOf tree owner))

/-- The answers to the questions, one after the other. -/
def answers (depth : ℕ) : List Call → ClassTree → Option (List Answer)
  | [], _ => some []
  | call :: calls, tree => do
    let (tree, answer) ← call.answer depth tree
    return answer :: (← answers depth calls tree)

end Veda.Browser.OntologyModel
