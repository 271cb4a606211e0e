import Veda.Onto.Individual

/-! # The cache of the ontology

The model of `onto.d`: the individuals of the ontology, and of its classes and of its properties
what is above and what is below each. The order in which an associative array is gone through is
left open. -/

namespace Veda.Ontology

open Veda.Onto

/-- The keys of a `bool[ string ]`. -/
abbrev Names := List String

/-- The order in which the keys of an associative array come. -/
structure Order where
  keys : List String → List String
  perm : ∀ l, (keys l).Perm l

@[simp] theorem Order.mem_keys (order : Order) {l : List String} {x : String} :
    x ∈ order.keys l ↔ x ∈ l :=
  (order.perm l).mem_iff

abbrev Individuals := AList fun _ : String => Individual

/-- `individuals.get(uri, Individual.init)`. -/
def get (individuals : Individuals) (uri : String) : Individual :=
  (individuals.lookup uri).getD .init

/-- `class Bdathe`. -/
structure Bdathe where
  superEls : String → Names
  subEls : String → Names
  orphans : String → Bool
  els : Names

def Bdathe.empty : Bdathe := ⟨fun _ => [], fun _ => [], fun _ => false, []⟩

/-- The two hierarchies. -/
inductive Kind where
  | property
  | cls
  deriving DecidableEq

namespace Kind

/-- The types of the elements. -/
def types : Kind → List String
  | property => ["rdf:Property", "owl:ObjectProperty", "owl:DatatypeProperty"]
  | .cls => ["owl:Class", "rdfs:Class"]

def parentPredicate : Kind → String
  | property => "rdfs:subPropertyOf"
  | .cls => "rdfs:subClassOf"

end Kind

/-- `rs == object` for a text. -/
def beqString : Resource → String → Bool
  | .uri s, v | .str s, v => s = v
  | _, _ => false

/-- `anyExists`. -/
def anyExists (indv : Individual) (predicate : String) (objects : List String) : Bool :=
  (indv.getResources predicate).any fun rs => objects.any (beqString rs)

/-- Whether an individual is a property or a class. -/
def kind? (indv : Individual) : Option Kind :=
  if anyExists indv "rdf:type" Kind.property.types then some .property
  else if anyExists indv "rdf:type" Kind.cls.types then some .cls
  else none

def isDeleted (indv : Individual) : Bool := indv.isExists "v-s:deleted" true

/-- `class Onto`. -/
structure Onto where
  individuals : Individuals
  bdathe : Kind → Bdathe

namespace Onto

/-- `new Onto`. -/
def new : Onto := ⟨∅, fun _ => .empty⟩

def getSuperClasses (onto : Onto) (classUri : String) : Names :=
  (onto.bdathe .cls).superEls classUri

def getSubClasses (onto : Onto) (classUri : String) : Names :=
  (onto.bdathe .cls).subEls classUri

def getSubProperies (onto : Onto) (uri : String) : Names :=
  (onto.bdathe .property).subEls uri

end Onto

/-- `prepare_superelements`. On a cycle of more than one element it calls itself without end; `fuel`
is the depth that it may go to. -/
def prepareSuperelements (parentPredicate : String) (elementes : Individuals) :
    ℕ → String → Names → Option Names
  | 0, _, _ => none
  | fuel + 1, lookCl, superelementes =>
    ((get elementes lookCl).getResources parentPredicate).foldlM
      (fun superelementes elementz =>
        let superelementes := superelementes.insert elementz.uriOf
        if elementz.uriOf ≠ lookCl then
          prepareSuperelements parentPredicate elementes fuel elementz.uriOf superelementes
        else some superelementes)
      superelementes

section
variable (order : Order)

/-- One pass of the loop in `_update_element`. -/
def addSubelement (individuals : Individuals) (typeUri : String) (elh : Bdathe)
    (elementz : String) : Bdathe :=
  let elh :=
    if get individuals elementz = .init then
      { elh with
        orphans := Function.update elh.orphans elementz true
        els := elh.els.erase elementz }
    else elh
  { elh with
    subEls := Function.update elh.subEls elementz ((elh.subEls elementz).insert typeUri) }

/-- `_update_element`. -/
def updateElement (individuals : Individuals) (typeUri : String) (elh : Bdathe)
    (parentPredicate : String) : Option Bdathe := do
  let superelementes ←
    prepareSuperelements parentPredicate individuals (individuals.keys.length + 1) typeUri []
  let elh := { elh with superEls := Function.update elh.superEls typeUri superelementes }
  return (order.keys superelementes).foldl (addSubelement individuals typeUri) elh

/-- `if (icl is null) _update_element(…)`. -/
def updateSelf (individuals : Individuals) (kind : Kind) (uri : String) (icl : Names)
    (elh : Bdathe) : Option Bdathe :=
  if icl = [] then updateElement order individuals uri elh kind.parentPredicate else some elh

/-- Where an element was an orphan, those that mention it are updated. The mark is taken off them,
not off the one that was found. -/
def updateMentions (individuals : Individuals) (kind : Kind) (uri : String) (elh : Bdathe) :
    Option Bdathe :=
  if elh.orphans uri then
    (order.keys (elh.subEls uri)).foldlM
      (fun elh cl => do
        let elh ← updateElement order individuals cl elh kind.parentPredicate
        return { elh with orphans := Function.update elh.orphans cl false })
      elh
  else some elh

/-- `_property.els[ indv.uri ] = true`. -/
def addEl (kind : Kind) (uri : String) (elh : Bdathe) : Bdathe :=
  if kind = .property then { elh with els := elh.els.insert uri } else elh

/-- `update_onto_hierarchy` for a property or a class that is not deleted. -/
def updateKind (onto : Onto) (kind : Kind) (indv : Individual) (replace : Bool) :
    Option Onto := do
  let elh := onto.bdathe kind
  let individuals :=
    if replace then onto.individuals.insert indv.uri indv else onto.individuals
  let icl := if replace then [] else elh.superEls indv.uri
  let elh ← updateSelf order individuals kind indv.uri icl elh
  let elh ← updateMentions order individuals kind indv.uri (addEl kind indv.uri elh)
  return ⟨individuals, Function.update onto.bdathe kind elh⟩

/-- `update_onto_hierarchy`. For a deleted individual it calls itself for all that are left; `fuel`
is the depth that it may go to. -/
def updateOntoHierarchy : ℕ → Onto → Individual → Bool → Option Onto
  | 0, _, _, _ => none
  | fuel + 1, onto, indv, replace =>
    if isDeleted indv then
      let individuals := onto.individuals.erase indv.uri
      (order.keys individuals.keys).foldlM
        (fun onto uri => updateOntoHierarchy fuel onto (get individuals uri) false)
        { onto with individuals := individuals }
    else
      match kind? indv with
      | some kind => updateKind order onto kind indv replace
      | none => some onto

namespace Onto

/-- `update_onto_hierarchy` as it is called from outside. -/
def update (onto : Onto) (indv : Individual) (replace : Bool) : Option Onto :=
  updateOntoHierarchy order (onto.individuals.keys.length + 2) onto indv replace

/-- `load`. -/
def load (onto : Onto) (individuals : List Individual) : Option Onto :=
  individuals.foldlM (fun onto indv => onto.update order indv false)
    { onto with
      individuals := individuals.foldl (fun all indv => all.insert indv.uri indv)
        onto.individuals }

end Onto

end

/-- A call from outside. -/
inductive Call where
  | load (individuals : List Individual)
  | update (indv : Individual) (replace : Bool)

def Onto.call (order : Order) (onto : Onto) : Call → Option Onto
  | .load individuals => onto.load order individuals
  | .update indv replace => onto.update order indv replace

/-- The calls one after the other, on a new cache. -/
def run (order : Order) (calls : List Call) : Option Onto := calls.foldlM (Onto.call order) .new

end Veda.Ontology
