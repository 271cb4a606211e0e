import Veda.Onto.Individual
import Veda.Search.XapianVql

/-! # The full text indexer

The model of `indexer_property.d` and of `index_msg` in `xapian_indexer.d`: which database an
individual goes to, and what is done to the databases. The terms that the values of an individual
give are a parameter; where there are none, making them throws. -/

namespace Veda.FtIndexer

open Veda.Onto

/-! ## The schema -/

/-- `class IndexerProperty`. Of `database__2__true` these are the keys: every value is `true`. -/
structure IndexerProperty where
  classProperty2Indiviual : AList (fun _ : String => Individual)
  class2Database : AList (fun _ : String => String)
  uri2Indiviual : AList (fun _ : String => Individual)
  database2True : List String

namespace IndexerProperty

def empty : IndexerProperty := ⟨∅, ∅, ∅, []⟩

def getDbnames (s : IndexerProperty) : AList (fun _ : String => Bool) :=
  s.database2True.foldl (fun names name => names.insert name true) ∅

def getDbnameOfClass (s : IndexerProperty) (uri : String) : String :=
  (s.class2Database.lookup uri).getD "base"

/-- `class__2__database[ uri ] = indexed_to[ 0 ]; database__2__true[ indexed_to[ 0 ] ] = true`, if
there is one. -/
def setDatabase (s : IndexerProperty) (indexedTo : Resources) (uri : String) : IndexerProperty :=
  match indexedTo with
  | [] => s
  | target :: _ =>
    { s with
      class2Database := s.class2Database.insert uri target.getString
      database2True := s.database2True.insert target.getString }

def setIndex (s : IndexerProperty) (indv : Individual) (key : String) : IndexerProperty :=
  { s with classProperty2Indiviual := s.classProperty2Indiviual.insert key indv }

/-- `if (resources.length == 0) resources ~= Resource.init`. -/
def orInit (rss : Resources) : Resources := if rss = [] then [.init] else rss

variable (getSubClasses : String → List String)

/-- The pass of `add_schema_data` for one class. -/
def addClass (indv : Individual) (indexedTo forProperties : Resources) (s : IndexerProperty)
    (forClass : Resource) : IndexerProperty :=
  let subclasses := getSubClasses forClass.uriOf
  let s := s.setDatabase indexedTo forClass.uriOf
  let subclasses := if subclasses = [] then [""] else subclasses
  let s := subclasses.foldl
    (fun s sc =>
      let s := s.setDatabase indexedTo sc
      forProperties.foldl (fun s forProperty => s.setIndex indv (sc ++ forProperty.uriOf)) s) s
  forProperties.foldl (fun s forProperty => s.setIndex indv (forClass.uriOf ++ forProperty.uriOf)) s

/-- `add_schema_data`. -/
def addSchemaData (s : IndexerProperty) (indv : Individual) : IndexerProperty :=
  let s := { s with uri2Indiviual := s.uri2Indiviual.insert indv.uri indv }
  let forClasses := orInit (indv.getResources "vdi:forClass")
  let forProperties := orInit (indv.getResources "vdi:forProperty")
  let indexedTo := indv.getResources "vdi:indexed_to"
  forClasses.foldl (addClass getSubClasses indv indexedTo forProperties) s

/-- `load`, given what the query for `vdi:ClassIndex` finds. -/
def load (indvs : List Individual) : IndexerProperty :=
  let s := indvs.foldl (addSchemaData getSubClasses) empty
  { s with database2True := s.database2True.insert "base" }

end IndexerProperty

/-! ## The databases -/

/-- A document of Xapian: its terms and its data. -/
structure Doc where
  terms : List String
  data : String
  deriving DecidableEq

/-- `new_Document`. -/
def Doc.new : Doc := ⟨[], ""⟩

abbrev Database := List Doc

/-- `delete_document`: of a term, all the documents that it indexes. -/
def Database.deleteDocument (db : Database) (term : String) : Database :=
  db.filter fun doc => term ∉ doc.terms

/-- `replace_document`. The term is not added to the document. -/
def Database.replaceDocument (db : Database) (term : String) (doc : Doc) : Database :=
  db.deleteDocument term ++ [doc]

/-- What `index_msg` does to a database. -/
inductive DbOp where
  | delete (name term : String)
  | replace (name term : String) (doc : Doc)
  deriving DecidableEq

/-- The databases by name. -/
abbrev Databases := String → Database

def DbOp.apply (dbs : Databases) : DbOp → Databases
  | delete name term => Function.update dbs name ((dbs name).deleteDocument term)
  | replace name term doc => Function.update dbs name ((dbs name).replaceDocument term doc)

theorem DbOp.apply_delete (dbs : Databases) (name term : String) :
    (DbOp.delete name term).apply dbs =
      Function.update dbs name ((dbs name).deleteDocument term) := rfl

theorem DbOp.apply_replace (dbs : Databases) (name term : String) (doc : Doc) :
    (DbOp.replace name term doc).apply dbs =
      Function.update dbs name ((dbs name).replaceDocument term doc) := rfl

/-! ## One message -/

/-- `INDV_OP`, as far as it is told apart here. -/
inductive IndvOp where
  | put
  | remove
  deriving DecidableEq

/-- `getFirstLiteral`. -/
def getFirstLiteral (indv : Individual) (predicate : String) : Option String :=
  (indv.getResources predicate).head?.map Resource.getString

/-- `indv == Individual.init`. -/
def isInit (indv : Individual) : Bool := indv.uri = "" && indv.resources.entries.isEmpty

def isDeleted (indv : Individual) : Bool := indv.isExists "v-s:deleted" true

/-- The individual is a draft. -/
def isDraft (indv : Individual) : Bool := (getFirstLiteral indv "v-s:isDraftOf").isSome

/-- The individual is a version that is not the actual one. -/
def isOldVersion (indv : Individual) : Bool :=
  !isDeleted indv && (getFirstLiteral indv "v-s:actualVersion").any (· != indv.uri)

def uuidOf (indv : Individual) : String :=
  "uid_" ++ Search.Xapian.toLowerAndReplaceDelimeters indv.uri

/-- The database of the previous state: that of the first type that has another one than `base`. -/
def prevDbname (s : IndexerProperty) : Resources → String
  | [] => "base"
  | type :: types =>
    let dbname := s.getDbnameOfClass type.uriOf
    if dbname ≠ "base" then dbname else prevDbname s types

/-- `class IndexerContext`: the schema, the names of the open databases, and the only database to
use if there is one. -/
structure IndexerContext where
  iproperty : IndexerProperty
  indexDbs : List String
  useDb : Option String

section
variable (getSubClasses : String → List String)

/-- `if (_type.uri == "vdi:ClassIndex") iproperty.add_schema_data(indv)`. -/
def lookAt (indv : Individual) (s : IndexerProperty) (type : Resource) : IndexerProperty :=
  if type.uriOf = "vdi:ClassIndex" then s.addSchemaData getSubClasses indv else s

/-- The scan of the types. -/
def chooseDb (indv : Individual) (s : IndexerProperty) : Resources → IndexerProperty × String
  | [] => (s, "base")
  | type :: types =>
    let s := lookAt getSubClasses indv s type
    let dbname := s.getDbnameOfClass type.uriOf
    if dbname ≠ "base" then (s, dbname) else chooseDb indv s types

variable (content : IndexerProperty → Individual → Option (List String))

/-- The last part of `index_msg`. -/
def putDocument (ictx : IndexerContext) (indv : Individual) (isRestored : Bool) (dbname : String)
    (terms : List String) : List DbOp :=
  let uuid := uuidOf indv
  let doc : Doc := ⟨terms ++ [uuid], indv.uri⟩
  let inDeleted :=
    if "deleted" ∈ ictx.indexDbs then
      (if isRestored then [.delete "deleted" uuid] else []) ++
        (if isDeleted indv then [.replace "deleted" uuid doc] else [])
    else []
  -- where the document went into `deleted`, an empty one is left
  let doc := if "deleted" ∈ ictx.indexDbs ∧ isDeleted indv then .new else doc
  inDeleted ++ (if dbname ∈ ictx.indexDbs then [.replace dbname uuid doc] else [])

/-- `index_msg`: the schema after it and what is done to the databases. -/
def indexMsg (ictx : IndexerContext) (indv prevIndv : Individual) (cmd : IndvOp) :
    IndexerProperty × List DbOp :=
  let s := ictx.iproperty
  if cmd = .remove then (s, [])
  else
    let isRestored := isDeleted prevIndv && !isDeleted indv && ictx.useDb.isNone
    if indv.uri = "" ∨ indv.resources.entries = [] then (s, [])
    else if isDraft indv || isOldVersion indv then (s, [])
    else
      let prevDb := prevDbname s (prevIndv.getResources "rdf:type")
      let (s, dbname) := chooseDb getSubClasses indv s (indv.getResources "rdf:type")
      let moved : List DbOp :=
        if prevDb ≠ dbname ∧ !isInit prevIndv ∧ ictx.useDb = none ∧ prevDb ∈ ictx.indexDbs then
          [.delete prevDb (uuidOf indv)]
        else []
      if !isDeleted indv && dbname = "not-indexed" then (s, moved)
      else if ictx.useDb.any fun useDb => useDb ≠ "deleted" && (isDeleted indv || dbname ≠ useDb)
      then (s, moved)
      else
        match content s indv with
        | none => (s, moved)
        | some terms => (s, moved ++ putDocument ictx indv isRestored dbname terms)

end

end Veda.FtIndexer
