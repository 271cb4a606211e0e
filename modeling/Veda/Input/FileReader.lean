import Mathlib.Data.List.AList
import Mathlib.Data.List.Infix
import Mathlib.Data.Int.Notation
import Mathlib.Logic.Function.Basic

/-! # Loading of ontology files

The model of `check_and_read_changed`, `processed` and `prepare_list` in `file_reader.d`: the
records of the files that have changed are stored first, and then the individuals of these files. A
store may be refused, and the reader may be stopped before any store. -/

namespace Veda.Input.FileReader

/-! ## Individuals -/

inductive Resource where
  | uri (value : String)
  | str (value : String)
  | int (value : ℤ)
  deriving DecidableEq

def Resource.literal : Resource → String
  | uri value => value
  | str value => value
  | int value => toString value

/-- The resources of each predicate. -/
abbrev Resources := AList fun _ : String => List Resource

def Resources.get (rss : Resources) (predicate : String) : List Resource :=
  (rss.lookup predicate).getD []

structure Individual where
  uri : String
  resources : Resources
  deriving DecidableEq

namespace Individual

def get (indv : Individual) (predicate : String) : List Resource := indv.resources.get predicate

def getFirstLiteral (indv : Individual) (predicate : String) : Option String :=
  (indv.get predicate).head?.map Resource.literal

def getFirstInteger (indv : Individual) (predicate : String) (default : ℤ) : ℤ :=
  match indv.get predicate with
  | .int value :: _ => value
  | _ => default

def set (indv : Individual) (predicate : String) (rss : List Resource) : Individual :=
  { indv with resources := indv.resources.insert predicate rss }

def removeResource (indv : Individual) (predicate : String) : Individual :=
  { indv with resources := indv.resources.erase predicate }

/-- `compare`: the same number of predicates, and for each of them as many resources, all of them
there in the other one. -/
def compare (a b : Individual) : Bool :=
  b.resources.keys.length = a.resources.keys.length &&
    a.resources.keys.all fun key => (a.get key).length = (b.get key).length &&
      (a.get key).all (· ∈ b.get key)

/-- An instance of `owl:Ontology`. -/
def isOntology (indv : Individual) : Bool := .uri "owl:Ontology" ∈ indv.get "rdf:type"

end Individual

/-! ## The reader -/

/-- What `ttl2individuals` reads from a file. -/
abbrev Content := List Individual

variable {η : Type}

/-- The storage: the hashes of the records of files, by the names of the files without their
folders, and the other individuals. -/
structure Store (η : Type) where
  records : String → Option η
  individuals : String → Option Individual

/-- The global tables of the reader. -/
structure Tables where
  filename2prefix : List (String × String)
  prefix2priority : String → Option ℤ

def Tables.init : Tables := ⟨[], fun _ => none⟩

/-- The prefix is defined in a file. -/
def Tables.define (t : Tables) (key filename : String) : Tables :=
  { t with
    filename2prefix :=
      if t.filename2prefix.any (·.1 = key) then
        t.filename2prefix.map fun e => if e.1 = key then (key, filename) else e
      else t.filename2prefix ++ [(key, filename)] }

def Tables.prioritize (t : Tables) (key : String) (priority : ℤ) : Tables :=
  { t with prefix2priority := Function.update t.prefix2priority key (some priority) }

/-- The priority of a prefix. -/
def Tables.priority (t : Tables) (key : Option String) : ℤ :=
  (key.bind t.prefix2priority).getD 99

/-- The first ontology of a file that no other file defines. -/
def findOntology (t : Tables) (filename : String) (content : Content) : Option Individual :=
  content.find? fun indv => indv.isOntology &&
    (t.filename2prefix.find? (·.1 = indv.uri)).all (·.2 = filename)

/-- What a loaded file defines. -/
def Tables.load (t : Tables) (filename : String) (content : Content) : Tables :=
  match findOntology t filename content with
  | some indv =>
    let t := t.define indv.uri filename
    if 0 ≤ indv.getFirstInteger "v-s:loadPriority" (-1) then
      t.prioritize indv.uri (indv.getFirstInteger "v-s:loadPriority" (-1))
    else t
  | none => (t.define filename filename).prioritize filename 90

/-- The entries that are prepared with each priority. After each round the name of the file that was
prepared last is removed. -/
def rounds (t : Tables) : List ℕ → List (String × String) → List (String × String)
  | [], _ => []
  | priority :: priorities, entries =>
    let now := entries.filter fun e => t.priority (some e.1) = priority
    now ++ rounds t priorities (match now.getLast? with
      | none => entries
      | some last => entries.filter (·.1 ≠ last.2))

/-- What remains of the entries after the rounds. -/
def remaining (t : Tables) : List ℕ → List (String × String) → List (String × String)
  | [], entries => entries
  | priority :: priorities, entries =>
    let now := entries.filter fun e => t.priority (some e.1) = priority
    remaining t priorities (match now.getLast? with
      | none => entries
      | some last => entries.filter (·.1 ≠ last.2))

/-- An ontology gets its full url. -/
def withFullUrl (fullUrl : String → String) (ss : Individual) : Individual :=
  if ss.isOntology then ss.set "v-s:fullUrl" [.str (fullUrl ss.uri)] else ss

/-- What does not say by what it is defined gets the name of the ontology. -/
def withIsDefinedBy (onto : String) (ss : Individual) : Individual :=
  if "rdfs:isDefinedBy" ∈ ss.resources then ss else ss.set "rdfs:isDefinedBy" [.uri onto]

/-- An individual as `prepare_list` takes it. -/
def prepareIndividual (fullUrl : String → String) (onto : String) (ss : Individual) : Individual :=
  withIsDefinedBy onto (withFullUrl fullUrl ss)

/-- The individuals of a file that have a type are added, if they are not there. -/
def collect (fullUrl : String → String) (onto : String) (content : Content)
    (individuals : List Individual) : List Individual :=
  content.foldl (fun individuals ss =>
    if ss.get "rdf:type" = [] ∨ individuals.any (·.uri = ss.uri) then individuals
    else individuals ++ [prepareIndividual fullUrl onto ss]) individuals

/-- The files that are looked at: with the extension `.ttl`, without `#` and not `module.ttl`. -/
def isTtl (fname : String) : Bool :=
  match fname.toList.reverse with
  | 'l' :: 't' :: 't' :: '.' :: c :: _ =>
    c ≠ '/' && '#' ∉ fname.toList && ¬ "module.ttl".toList <:+: fname.toList
  | _ => false

/-- The name of a file without its folder. -/
def baseName (fname : String) : String :=
  String.ofList (fname.toList.reverse.takeWhile (· ≠ '/')).reverse

/-! ## Stores -/

/-- The course of the stores of a call: which of them are accepted, and before which of them the
reader is stopped. -/
structure Course where
  accepted : ℕ → Bool
  crash : Option ℕ

/-- The storage after a number of stores. -/
structure Progress (η : Type) where
  store : Store η
  count : ℕ

/-- One store, if the reader gets to it. -/
def Progress.put (c : Course) (f : Store η → Store η) (p : Progress η) : Option (Progress η) :=
  if c.crash = some p.count then none
  else some ⟨if c.accepted p.count then f p.store else p.store, p.count + 1⟩

section
variable (md5 : Content → η) (fullUrl : String → String) (files : String → Option Content)
  (c : Course)

def Store.putRecord (filename : String) (hash : η) (s : Store η) : Store η :=
  { s with records := Function.update s.records (baseName filename) (some hash) }

def Store.putIndividual (indv : Individual) (s : Store η) : Store η :=
  { s with individuals := Function.update s.individuals indv.uri (some indv) }

/-- `prepare_list` for the entries one after the other: the storage, and the collected individuals
if the reader was not stopped. -/
def prepareLists (loaded : List String) : List (String × String) → List Individual → Progress η →
    Progress η × Option (List Individual)
  | [], individuals, p => (p, some individuals)
  | (onto, filename) :: entries, individuals, p =>
    match if filename ∈ loaded then files filename else none with
    | none => prepareLists loaded entries individuals p
    | some content =>
      match p.put c (Store.putRecord filename (md5 content)) with
      | none => (p, none)
      | some p =>
        prepareLists loaded entries (collect fullUrl onto content individuals) p

/-- An individual without what the storage keeps in it. -/
def strip (indv : Individual) : Individual :=
  ((indv.removeResource "v-s:updateCounter").removeResource
    "v-s:previousVersion").removeResource "v-s:actualVersion"

/-- What is stored of an individual of a file, if anything is. -/
def toStore (isCheck : Bool) (s : Store η) (indv : Individual) : Option Individual :=
  match s.individuals indv.uri with
  | none => some (strip indv)
  | some stored =>
    if isCheck && (strip indv).compare (strip stored) then none
    else if 0 < stored.getFirstInteger "v-s:updateCounter" 0 then
      some ((strip indv).set "v-s:updateCounter"
        [.int (stored.getFirstInteger "v-s:updateCounter" 0)])
    else some (strip indv)

/-- The individuals are stored one after the other. -/
def storeIndividuals (isCheck : Bool) : List Individual → Progress η → Progress η × Bool
  | [], p => (p, true)
  | indv :: indvs, p =>
    match toStore isCheck p.store indv with
    | none => storeIndividuals isCheck indvs p
    | some new =>
      match p.put c (Store.putIndividual new) with
      | none => (p, false)
      | some p => storeIndividuals isCheck indvs p

/-- The individuals in the order of their priorities. -/
def inOrder (t : Tables) (indvs : List Individual) : List Individual :=
  (List.range 100).flatMap fun (priority : ℕ) =>
    indvs.filter fun indv => t.priority (indv.getFirstLiteral "rdfs:isDefinedBy") = (priority : ℤ)

/-- The files to load. There is nothing where a file to check is not there. -/
def filesToLoad [DecidableEq η] (isCheck : Bool) (s : Store η) : List String → Option (List String)
  | [] => some []
  | fname :: fnames =>
    if isCheck then
      match files fname with
      | none => none
      | some content => (filesToLoad isCheck s fnames).map fun toLoad =>
        if s.records (baseName fname) = some (md5 content) then toLoad else fname :: toLoad
    else (filesToLoad isCheck s fnames).map (fname :: ·)

/-- `processed`: the storage, and the tables if the reader was not stopped. -/
def processed [DecidableEq η] (changes : List String) (isCheck : Bool) (t : Tables) (s : Store η) :
    Store η × Option Tables :=
  match filesToLoad md5 files isCheck s (changes.filter isTtl) with
  | none => (s, some t)
  | some [] => (s, some t)
  | some toLoad =>
    let t := toLoad.foldl (fun t fname => t.load fname ((files fname).getD [])) t
    match prepareLists md5 fullUrl files c toLoad
      (rounds t (List.range 100) t.filename2prefix) [] ⟨s, 0⟩ with
    | (p, none) => (p.store, none)
    | (p, some indvs) =>
      match storeIndividuals c isCheck (inOrder t indvs) p with
      | (p, false) => (p.store, none)
      | (p, true) =>
        (p.store, some { t with filename2prefix := remaining t (List.range 100) t.filename2prefix })

end

end Veda.Input.FileReader
