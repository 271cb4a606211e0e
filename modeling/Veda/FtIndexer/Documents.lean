import Veda.FtIndexer.Indexer
import Veda.Lib.Run

/-! # Where the documents are

A sequence of calls of `index_msg` under one schema, with all databases open, each call with the
state that the previous one left: each individual has its document in the database that its state
says and nowhere else, as long as no call is one of those that `index_msg` does not take care of. -/

namespace Veda.FtIndexer

open Veda.Onto Veda.Run

/-- `get_xapian_db_names`. -/
def xapianDbNames : List String := ["base", "system", "deleted", "az"]

/-- The database of the types of an individual. -/
def dbOf (s : IndexerProperty) (indv : Individual) : String :=
  prevDbname s (indv.getResources "rdf:type")

/-! ## Runs -/

/-- The schema, the databases, and the last state of every individual. -/
structure State where
  iproperty : IndexerProperty
  dbs : Databases
  current : String → Option Individual

/-- A new state of an individual, or its removal. -/
inductive Event where
  | put (indv : Individual)
  | remove (uri : String)

namespace Event

def uri : Event → String
  | put indv => indv.uri
  | remove uri => uri

/-- What `index_msg` is called with. -/
def indv : Event → Individual
  | put indv => indv
  | remove uri => ⟨uri, ∅⟩

def cmd : Event → IndvOp
  | put _ => .put
  | remove _ => .remove

/-- The state that the event leaves. -/
def next : Event → Option Individual
  | put indv => some indv
  | remove _ => none

/-- The individual is neither a draft nor an old version, and does not change the schema. -/
def Plain : Event → Prop
  | put indv => isDraft indv = false ∧ isOldVersion indv = false ∧
    ∀ type ∈ indv.getResources "rdf:type", type.uriOf ≠ "vdi:ClassIndex"
  | remove _ => True

end Event

section
variable (getSubClasses : String → List String)
  (content : IndexerProperty → Individual → Option (List String))

/-- A call of `index_msg` with the previous state, and what it does to the databases. -/
def step (e : Event) (st : State) : State :=
  let prevIndv := (st.current e.uri).getD .init
  let (s, ops) := indexMsg getSubClasses content ⟨st.iproperty, xapianDbNames, none⟩ e.indv prevIndv
    e.cmd
  ⟨s, ops.foldl DbOp.apply st.dbs, Function.update st.current e.uri e.next⟩

/-- Nothing is indexed yet. -/
def State.new (s : IndexerProperty) : State := ⟨s, fun _ => [], fun _ => none⟩

/-- The document of an individual. -/
def docOf (s : IndexerProperty) (indv : Individual) : Doc :=
  ⟨(content s indv).getD [] ++ [uuidOf indv], indv.uri⟩

/-- The documents of an individual in a database. -/
def docs (dbs : Databases) (uri name : String) : List Doc :=
  (dbs name).filter fun doc => doc.data = uri

/-- The documents that a state of an individual asks for. -/
def expected (s : IndexerProperty) (state : Option Individual) (name : String) : List Doc :=
  match state with
  | none => []
  | some indv =>
    let place := if isDeleted indv then "deleted" else dbOf s indv
    if place ≠ "not-indexed" ∧ name = place then [docOf content s indv] else []

/-- A live individual goes to a database that is open and is not `deleted`, or is not indexed. -/
def Placeable (s : IndexerProperty) (indv : Individual) : Prop :=
  isDeleted indv = true ∨ dbOf s indv = "not-indexed" ∨
    dbOf s indv ∈ xapianDbNames ∧ dbOf s indv ≠ "deleted"

/-- Every individual is indexed exactly where its current state says. -/
def Placed (st : State) : Prop :=
  (∀ uri name, uri ≠ "" → docs st.dbs uri name =
    expected content st.iproperty (st.current uri) name) ∧
  ∀ uri indv, st.current uri = some indv → Placeable st.iproperty indv

/-- What the documents of other individuals are not indexed by. -/
def Own (st : State) (uri uuid : String) : Prop :=
  ∀ uri' name, uri' ≠ uri → ∀ doc ∈ expected content st.iproperty (st.current uri') name,
    uuid ∉ doc.terms

/-- A call that `index_msg` takes care of. A removal is one of an individual that has no document.
A new state has a uri and at least one predicate, and its terms can be made; no document of another
individual is indexed by its identifier; its classes go to an open database that is not `deleted`,
or it is not indexed, and then it is not one that was deleted before. -/
def Proper (st : State) : Event → Prop
  | .remove uri => ∀ name, expected content st.iproperty (st.current uri) name = []
  | .put indv =>
    indv.uri ≠ "" ∧ indv.resources.entries ≠ [] ∧ content st.iproperty indv ≠ none ∧
      Own content st indv.uri (uuidOf indv) ∧ Placeable st.iproperty indv ∧
      (isDeleted indv = true → dbOf st.iproperty indv ≠ "deleted") ∧
      (isDeleted indv = false → dbOf st.iproperty indv = "not-indexed" →
        ((st.current indv.uri).map isDeleted).getD false = false)

end

/-! ## What is done to the documents of an individual -/

/-- The term and the document of an operation. -/
def DbOp.term : DbOp → String
  | delete _ term => term
  | replace _ term _ => term

def DbOp.data : DbOp → String
  | delete _ _ => ""
  | replace _ _ doc => doc.data

/-- What an operation leaves of the documents of an individual in a database, when all of them are
indexed by its term. -/
def DbOp.effect (uri name : String) (docs : List Doc) : DbOp → List Doc
  | delete name' _ => if name' = name then [] else docs
  | replace name' _ doc =>
    if name' = name then (if doc.data = uri then [doc] else []) else docs

theorem DbOp.mem_effect {op : DbOp} {docs : List Doc} (h : doc ∈ op.effect uri name docs) :
    doc ∈ docs ∨ ∃ name' term, op = .replace name' term doc ∧ doc.data = uri := by
  cases op with
  | delete name' term =>
    dsimp only [effect] at h
    split at h
    · exact absurd h List.not_mem_nil
    · exact .inl h
  | replace name' term doc' =>
    dsimp only [effect] at h
    split at h
    · split at h
      next hdata =>
        cases List.mem_singleton.mp h
        exact .inr ⟨name', term, rfl, hdata⟩
      next => exact absurd h List.not_mem_nil
    · exact .inl h

theorem docs_apply_delete (dbs : Databases) (uri name name' term : String) :
    docs (DbOp.apply dbs (.delete name' term)) uri name =
      if name' = name then (docs dbs uri name).filter fun doc => term ∉ doc.terms
      else docs dbs uri name := by
  rw [docs, docs, DbOp.apply_delete]
  split
  next h =>
    subst h
    rw [Function.update_self, Database.deleteDocument, List.filter_filter, List.filter_filter]
    exact List.filter_congr fun doc _ => Bool.and_comm _ _
  next h => rw [Function.update_of_ne (Ne.symm h)]

theorem docs_apply_replace (dbs : Databases) (uri name name' term : String) (doc : Doc) :
    docs (DbOp.apply dbs (.replace name' term doc)) uri name =
      if name' = name then
        ((docs dbs uri name).filter fun doc => term ∉ doc.terms) ++
          (if doc.data = uri then [doc] else [])
      else docs dbs uri name := by
  rw [docs, docs, DbOp.apply_replace]
  split
  next h =>
    subst h
    rw [Function.update_self, Database.replaceDocument, Database.deleteDocument,
      List.filter_append, List.filter_filter, List.filter_filter]
    congr 1
    · exact List.filter_congr fun doc _ => Bool.and_comm _ _
    · by_cases hdata : doc.data = uri <;> simp [hdata]
  next h => rw [Function.update_of_ne (Ne.symm h)]

theorem filter_of_notMem {docs : List Doc} (h : ∀ doc ∈ docs, term ∉ doc.terms) :
    docs.filter (fun doc => term ∉ doc.terms) = docs :=
  List.filter_eq_self.mpr fun doc hdoc => decide_eq_true (h doc hdoc)

theorem filter_of_mem {docs : List Doc} (h : ∀ doc ∈ docs, term ∈ doc.terms) :
    docs.filter (fun doc => term ∉ doc.terms) = [] :=
  List.filter_eq_nil_iff.mpr fun doc hdoc => by simp [h doc hdoc]

/-- The documents of other individuals stay. -/
theorem docs_foldl_other {ops : List DbOp} (hterm : ∀ op ∈ ops, op.term = uuid)
    (hdata : ∀ op ∈ ops, op.data ≠ uri) (hdocs : ∀ doc ∈ docs dbs uri name, uuid ∉ doc.terms) :
    docs (ops.foldl DbOp.apply dbs) uri name = docs dbs uri name := by
  induction ops generalizing dbs with
  | nil => rfl
  | cons op ops ih =>
    have hop : docs (op.apply dbs) uri name = docs dbs uri name := by
      have hterm := hterm op List.mem_cons_self
      have hdata := hdata op List.mem_cons_self
      cases op with
      | delete name' term =>
        obtain rfl : term = uuid := hterm
        rw [docs_apply_delete, filter_of_notMem hdocs, ite_self]
      | replace name' term doc =>
        obtain rfl : term = uuid := hterm
        have hdata : ¬doc.data = uri := hdata
        rw [docs_apply_replace, filter_of_notMem hdocs, if_neg hdata, List.append_nil, ite_self]
    rw [List.foldl_cons, ih (fun op h => hterm op (List.mem_cons_of_mem _ h))
      (fun op h => hdata op (List.mem_cons_of_mem _ h)) (hop ▸ hdocs), hop]

/-- The documents of the individual itself are all indexed by the term, and what becomes of them is
the effect of the operations. -/
theorem docs_foldl_self {ops : List DbOp} (hterm : ∀ op ∈ ops, op.term = uuid)
    (hown : ∀ name' doc, .replace name' uuid doc ∈ ops → doc.data = uri → uuid ∈ doc.terms)
    (hdocs : ∀ doc ∈ docs dbs uri name, uuid ∈ doc.terms) :
    docs (ops.foldl DbOp.apply dbs) uri name =
      ops.foldl (DbOp.effect uri name) (docs dbs uri name) := by
  induction ops generalizing dbs with
  | nil => rfl
  | cons op ops ih =>
    have hop : docs (op.apply dbs) uri name = op.effect uri name (docs dbs uri name) := by
      have hterm := hterm op List.mem_cons_self
      cases op with
      | delete name' term =>
        obtain rfl : term = uuid := hterm
        rw [docs_apply_delete, filter_of_mem hdocs]
        rfl
      | replace name' term doc =>
        obtain rfl : term = uuid := hterm
        rw [docs_apply_replace, filter_of_mem hdocs, List.nil_append]
        rfl
    rw [List.foldl_cons, List.foldl_cons, ih (fun op h => hterm op (List.mem_cons_of_mem _ h))
      (fun name' doc h => hown name' doc (List.mem_cons_of_mem _ h)) ?_, hop]
    intro doc hdoc
    rw [hop] at hdoc
    obtain hdoc | ⟨name', term, rfl, hdata⟩ := DbOp.mem_effect hdoc
    · exact hdocs doc hdoc
    · obtain rfl : term = uuid := hterm _ List.mem_cons_self
      exact hown name' doc List.mem_cons_self hdata

/-! ## What one call does -/

section
variable {getSubClasses : String → List String}
  {content : IndexerProperty → Individual → Option (List String)}
  {s : IndexerProperty} {indv prevIndv : Individual}

theorem chooseDb_plain {types : Resources}
    (h : ∀ type ∈ types, type.uriOf ≠ "vdi:ClassIndex") :
    chooseDb getSubClasses indv s types = (s, prevDbname s types) := by
  induction types with
  | nil => rfl
  | cons type types ih =>
    have hlook : lookAt getSubClasses indv s type = s := if_neg (h type List.mem_cons_self)
    rw [chooseDb, prevDbname, hlook, ih fun t ht => h t (List.mem_cons_of_mem _ ht)]
    split <;> rfl

/-- What is taken from the database of the previous state. -/
def moved (s : IndexerProperty) (indv prevIndv : Individual) : List DbOp :=
  if dbOf s prevIndv ≠ dbOf s indv ∧ !isInit prevIndv ∧ dbOf s prevIndv ∈ xapianDbNames then
    [.delete (dbOf s prevIndv) (uuidOf indv)]
  else []

/-- What a call does. -/
def putOps (s : IndexerProperty) (indv prevIndv : Individual) (terms : List String) : List DbOp :=
  moved s indv prevIndv ++
    if !isDeleted indv && dbOf s indv = "not-indexed" then []
    else putDocument ⟨s, xapianDbNames, none⟩ indv (isDeleted prevIndv && !isDeleted indv)
      (dbOf s indv) terms

theorem indexMsg_put (hplain : (Event.put indv).Plain) (huri : indv.uri ≠ "")
    (hres : indv.resources.entries ≠ []) (hterms : content s indv = some terms) :
    indexMsg getSubClasses content ⟨s, xapianDbNames, none⟩ indv prevIndv .put =
      (s, putOps s indv prevIndv terms) := by
  obtain ⟨hdraft, hold, htypes⟩ := hplain
  unfold indexMsg
  rw [if_neg nofun, if_neg (not_or.mpr ⟨huri, hres⟩), hdraft, hold, chooseDb_plain htypes]
  simp only [Bool.or_self, Bool.false_eq_true, if_false, Option.any_none, hterms, true_and,
    Option.isNone_none, Bool.and_true]
  simp only [← dbOf.eq_1 s indv, ← dbOf.eq_1 s prevIndv, ← moved.eq_1, putOps]
  split <;> simp

theorem term_moved : ∀ op ∈ moved s indv prevIndv, op.term = uuidOf indv := by
  unfold moved
  split
  · exact List.forall_mem_singleton.mpr rfl
  · exact List.forall_mem_nil _

theorem foldl_moved (docs : List Doc) :
    (moved s indv prevIndv).foldl (DbOp.effect uri name) docs =
      if name = dbOf s prevIndv ∧ dbOf s prevIndv ≠ dbOf s indv ∧ isInit prevIndv = false ∧
        dbOf s prevIndv ∈ xapianDbNames then [] else docs := by
  unfold moved
  by_cases hname : name = dbOf s prevIndv
  · subst hname
    by_cases h : dbOf s prevIndv ≠ dbOf s indv ∧ isInit prevIndv = false ∧
        dbOf s prevIndv ∈ xapianDbNames <;> simp [h, DbOp.effect]
  · have hname' : ¬dbOf s prevIndv = name := fun h => hname h.symm
    split <;> simp [hname, hname', DbOp.effect]

theorem term_putDocument {ictx : IndexerContext} {restored : Bool} :
    ∀ op ∈ putDocument ictx indv restored dbname terms, op.term = uuidOf indv := by
  intro op hop
  simp only [putDocument, List.mem_append] at hop
  obtain hop | hop := hop
  · split at hop
    · obtain hop | hop := List.mem_append.mp hop
      all_goals
        split at hop
        · cases List.mem_singleton.mp hop
          rfl
        · exact absurd hop List.not_mem_nil
    · exact absurd hop List.not_mem_nil
  · split at hop
    · cases List.mem_singleton.mp hop
      rfl
    · exact absurd hop List.not_mem_nil

/-- The document of the individual, or an empty one. -/
theorem doc_putDocument {ictx : IndexerContext} {restored : Bool}
    (h : .replace name uuid doc ∈ putDocument ictx indv restored dbname terms) :
    doc = ⟨terms ++ [uuidOf indv], indv.uri⟩ ∨ doc = .new := by
  simp only [putDocument, List.mem_append] at h
  obtain h | h := h
  · split at h
    · obtain h | h := List.mem_append.mp h
      all_goals
        split at h
        · cases List.mem_singleton.mp h
          try exact .inl rfl
        · exact absurd h List.not_mem_nil
    · exact absurd h List.not_mem_nil
  · split at h
    · cases List.mem_singleton.mp h
      split
      · exact .inr rfl
      · exact .inl rfl
    · exact absurd h List.not_mem_nil

theorem deleted_mem : "deleted" ∈ xapianDbNames := by decide

theorem foldl_putDocument_live {restored : Bool} (hlive : isDeleted indv = false)
    (hd : d ∈ xapianDbNames) (docs : List Doc) :
    (putDocument ⟨s, xapianDbNames, none⟩ indv restored d terms).foldl
        (DbOp.effect indv.uri name) docs =
      if name = d then [⟨terms ++ [uuidOf indv], indv.uri⟩]
      else if name = "deleted" ∧ restored = true then [] else docs := by
  simp only [putDocument, hlive, hd, deleted_mem, if_true, Bool.false_eq_true, if_false, and_false,
    List.append_nil]
  cases restored
  all_goals simp [DbOp.effect, eq_comm]

theorem foldl_putDocument_deleted (hdel : isDeleted indv = true) (huri : indv.uri ≠ "")
    (hd : d ≠ "deleted") (docs : List Doc) :
    (putDocument ⟨s, xapianDbNames, none⟩ indv false d terms).foldl
        (DbOp.effect indv.uri name) docs =
      if name = "deleted" then [⟨terms ++ [uuidOf indv], indv.uri⟩]
      else if name = d ∧ d ∈ xapianDbNames then [] else docs := by
  simp only [putDocument, hdel, deleted_mem, if_true, Bool.false_eq_true, if_false, and_true,
    List.nil_append]
  by_cases hopen : d ∈ xapianDbNames
  · by_cases hname : name = "deleted"
    · simp [hopen, hname, hd, DbOp.effect]
    · simp [hopen, hname, DbOp.effect, Doc.new, huri.symm, eq_comm]
  · simp [hopen, DbOp.effect, eq_comm]

theorem expected_some_live (hlive : isDeleted indv = false) :
    expected content s (some indv) name =
      if dbOf s indv ≠ "not-indexed" ∧ name = dbOf s indv then [docOf content s indv] else [] := by
  simp [expected, hlive]

theorem expected_some_deleted (hdel : isDeleted indv = true) :
    expected content s (some indv) name =
      if name = "deleted" then [docOf content s indv] else [] := by
  simp [expected, hdel]

theorem not_mem_xapianDbNames : "not-indexed" ∉ xapianDbNames := by decide

/-- What is known of a state that was put before. -/
def Known (s : IndexerProperty) (indv : Individual) : Prop :=
  indv.uri ≠ "" ∧ Placeable s indv ∧ (isDeleted indv = true → dbOf s indv ≠ "deleted")

/-- What is left of the previous documents before anything is put. -/
theorem foldl_moved_expected {state : Option Individual}
    (hstate : ∀ p, state = some p → Known s p) :
    (moved s indv (state.getD .init)).foldl (DbOp.effect uri name)
        (expected content s state name) =
      if (state.map isDeleted).getD false = false ∧ name ≠ dbOf s indv then []
      else expected content s state name := by
  rw [foldl_moved]
  cases state with
  | none => simp [expected]
  | some p =>
    obtain ⟨huri, hplace, hne⟩ := hstate p rfl
    have hinit : isInit p = false := by simp [isInit, huri]
    simp only [Option.getD_some, Option.map_some, hinit, true_and]
    rcases Bool.eq_false_or_eq_true (isDeleted p) with hdel | hdel
    · rw [expected_some_deleted hdel]
      by_cases hname : name = "deleted"
      · simp [hname, hdel, (hne hdel).symm]
      · simp [hname]
    · rw [expected_some_live hdel]
      obtain hdel' | hn | ⟨hopen, -⟩ := hplace
      · exact absurd hdel' (by simp [hdel])
      · simp [hn]
      · by_cases hname : name = dbOf s p
        · subst hname
          have hn : dbOf s p ≠ "not-indexed" := fun h => not_mem_xapianDbNames (h ▸ hopen)
          simp [hopen, hn, hdel]
        · simp [hname]

theorem expected_of_closed {state : Option Individual} (hstate : ∀ p, state = some p → Known s p)
    (hname : name ∉ xapianDbNames) : expected content s state name = [] := by
  cases state with
  | none => rfl
  | some p =>
    obtain ⟨-, hplace, -⟩ := hstate p rfl
    rcases Bool.eq_false_or_eq_true (isDeleted p) with hdel | hdel
    · have hne : name ≠ "deleted" := fun h => hname (h ▸ deleted_mem)
      rw [expected_some_deleted hdel, if_neg hne]
    · rw [expected_some_live hdel]
      obtain hdel' | hn | ⟨hopen, -⟩ := hplace
      · exact absurd hdel' (by simp [hdel])
      · simp [hn]
      · have hne : name ≠ dbOf s p := fun h => hname (h ▸ hopen)
        simp [hne]

theorem expected_of_deleted {state : Option Individual}
    (hdel : (state.map isDeleted).getD false = true) (hname : name ≠ "deleted") :
    expected content s state name = [] := by
  cases state with
  | none => rfl
  | some p => rw [expected_some_deleted hdel, if_neg hname]

/-- A call leaves the documents that the new state asks for. -/
theorem foldl_expected {state : Option Individual} (hstate : ∀ p, state = some p → Known s p)
    (hknown : Known s indv) (hterms : content s indv = some terms)
    (hrestored : isDeleted indv = false → dbOf s indv = "not-indexed" →
      (state.map isDeleted).getD false = false) :
    (putOps s indv (state.getD .init) terms).foldl (DbOp.effect indv.uri name)
        (expected content s state name) =
      expected content s (some indv) name := by
  obtain ⟨huri, hplace, hne⟩ := hknown
  have hdoc : (⟨terms ++ [uuidOf indv], indv.uri⟩ : Doc) = docOf content s indv := by
    rw [docOf, hterms]
    rfl
  have hprev : isDeleted (state.getD .init) = (state.map isDeleted).getD false := by
    cases state <;> rfl
  rw [putOps, List.foldl_append, foldl_moved_expected hstate, hprev]
  rcases Bool.eq_false_or_eq_true ((state.map isDeleted).getD false) with hwas | hwas
  all_goals rcases Bool.eq_false_or_eq_true (isDeleted indv) with hdel | hdel
  all_goals simp only [hwas, hdel, Bool.not_true, Bool.not_false, Bool.and_true, Bool.and_false,
    Bool.true_and, Bool.false_and, Bool.false_eq_true, Bool.true_eq_false, decide_eq_true_eq,
    if_false, true_and, false_and]
  · -- it stays deleted
    rw [foldl_putDocument_deleted hdel huri (hne hdel), hdoc, expected_some_deleted hdel]
    by_cases hname : name = "deleted"
    · simp [hname]
    · simp [hname, expected_of_deleted hwas hname]
  · -- it is restored
    obtain hdel' | hn | ⟨hopen, hd⟩ := hplace
    · exact absurd hdel' (by simp [hdel])
    · exact absurd hwas (by simp [hrestored hdel hn])
    · have hn : dbOf s indv ≠ "not-indexed" := fun h => not_mem_xapianDbNames (h ▸ hopen)
      rw [if_neg hn, foldl_putDocument_live hdel hopen, hdoc, expected_some_live hdel]
      by_cases hname : name = "deleted"
      · simp [hname, hn]
      · simp [hname, hn, expected_of_deleted hwas hname]
  · -- it is deleted
    rw [foldl_putDocument_deleted hdel huri (hne hdel), hdoc, expected_some_deleted hdel]
    by_cases hname : name = "deleted"
    · simp [hname]
    · by_cases hd : name = dbOf s indv
      · subst hd
        by_cases hopen : dbOf s indv ∈ xapianDbNames
        · simp [hname, hopen]
        · simp [hname, hopen, expected_of_closed hstate hopen]
      · simp [hname, hd]
  · -- it stays live
    rw [expected_some_live hdel]
    obtain hdel' | hn | ⟨hopen, -⟩ := hplace
    · exact absurd hdel' (by simp [hdel])
    · by_cases hname : name = "not-indexed"
      · simp [hn, hname, expected_of_closed hstate not_mem_xapianDbNames]
      · simp [hn, hname]
    · have hn : dbOf s indv ≠ "not-indexed" := fun h => not_mem_xapianDbNames (h ▸ hopen)
      rw [if_neg hn, foldl_putDocument_live hdel hopen, hdoc]
      by_cases hname : name = dbOf s indv <;> simp [hname, hn]

theorem term_putOps : ∀ op ∈ putOps s indv prevIndv terms, op.term = uuidOf indv := by
  intro op hop
  obtain hop | hop := List.mem_append.mp hop
  · exact term_moved op hop
  · split at hop
    · exact absurd hop List.not_mem_nil
    · exact term_putDocument op hop

theorem doc_putOps (h : .replace name uuid doc ∈ putOps s indv prevIndv terms) :
    doc = ⟨terms ++ [uuidOf indv], indv.uri⟩ ∨ doc = .new := by
  obtain h | h := List.mem_append.mp h
  · unfold moved at h
    split at h
    · cases List.mem_singleton.mp h
    · exact absurd h List.not_mem_nil
  · split at h
    · exact absurd h List.not_mem_nil
    · exact doc_putDocument h

theorem data_putOps : ∀ op ∈ putOps s indv prevIndv terms, op.data = indv.uri ∨ op.data = "" := by
  intro op hop
  cases op with
  | delete name term => exact .inr rfl
  | replace name term doc =>
    obtain rfl | rfl := doc_putOps hop
    · exact .inl rfl
    · exact .inr rfl

/-! ## Runs that are taken care of -/

/-- All is placed, and what was put is known. -/
def Inv (content : IndexerProperty → Individual → Option (List String)) (st : State) : Prop :=
  Placed content st ∧ ∀ uri indv, st.current uri = some indv →
    indv.uri = uri ∧ Known st.iproperty indv

theorem mem_terms_expected {state : Option Individual}
    (hstate : ∀ p, state = some p → uuidOf p = uuid) :
    ∀ doc ∈ expected content s state name, uuid ∈ doc.terms := by
  intro doc hdoc
  cases state with
  | none => exact absurd hdoc List.not_mem_nil
  | some p =>
    have hmem : doc ∈ [docOf content s p] := by
      simp only [expected] at hdoc
      split_ifs at hdoc <;> simp_all
    cases List.mem_singleton.mp hmem
    simp [docOf, hstate p rfl]

/-- Nothing changes for an individual that is not put. -/
theorem Inv.update {st : State} (h : Inv content st) {dbs : Databases} {uri : String}
    {state : Option Individual}
    (hother : ∀ uri' name, uri' ≠ uri → uri' ≠ "" →
      docs dbs uri' name = docs st.dbs uri' name)
    (hself : ∀ name, uri ≠ "" → docs dbs uri name = expected content st.iproperty state name)
    (hknown : ∀ p, state = some p → p.uri = uri ∧ Known st.iproperty p) :
    Inv content ⟨st.iproperty, dbs, Function.update st.current uri state⟩ := by
  obtain ⟨⟨hdocs, hplace⟩, hcur⟩ := h
  have hcurrent : ∀ uri' p, Function.update st.current uri state uri' = some p →
      p.uri = uri' ∧ Known st.iproperty p := by
    intro uri' p hp
    rcases eq_or_ne uri' uri with rfl | hne
    · rw [Function.update_self] at hp
      exact hknown p hp
    · rw [Function.update_of_ne hne] at hp
      exact hcur uri' p hp
  refine ⟨⟨fun uri' name huri => ?_, fun uri' p hp => (hcurrent uri' p hp).2.2.1⟩, hcurrent⟩
  rcases eq_or_ne uri' uri with rfl | hne
  · simpa using hself name huri
  · simpa [hne] using (hother uri' name hne huri).trans (hdocs uri' name huri)

theorem step_inv {st : State} (h : Inv content st) (hplain : e.Plain)
    (hproper : Proper content st e) : Inv content (step getSubClasses content e st) := by
  cases e with
  | remove uri =>
    refine h.update (fun _ _ _ _ => rfl) (fun name huri => ?_) nofun
    exact (h.1.1 uri name huri).trans (hproper name)
  | put indv =>
    obtain ⟨huri, hres, hterms, hown, hplace, hne, hrestored⟩ := hproper
    obtain ⟨terms, hterms⟩ := Option.ne_none_iff_exists'.mp hterms
    have hknown : Known st.iproperty indv := ⟨huri, hplace, hne⟩
    have hstate : ∀ p, st.current indv.uri = some p → Known st.iproperty p := fun p hp =>
      (h.2 indv.uri p hp).2
    have hstep := @indexMsg_put getSubClasses content st.iproperty indv
      ((st.current indv.uri).getD .init) terms hplain huri hres hterms
    simp only [step, Event.uri, Event.indv, Event.cmd, Event.next]
    rw [hstep]
    refine h.update (fun uri' name hne' huri' => ?_) (fun name _ => ?_)
      fun p hp => Option.some.inj hp ▸ ⟨rfl, hknown⟩
    · refine docs_foldl_other term_putOps (fun op hop => ?_) ?_
      · obtain hdata | hdata := data_putOps op hop
        · exact hdata ▸ hne'.symm
        · exact hdata ▸ huri'.symm
      · rw [h.1.1 uri' name huri']
        exact hown uri' name hne'
    · have hdocs : ∀ doc ∈ docs st.dbs indv.uri name, uuidOf indv ∈ doc.terms := by
        rw [h.1.1 indv.uri name huri]
        exact mem_terms_expected fun p hp => congrArg
          (fun uri => "uid_" ++ Search.Xapian.toLowerAndReplaceDelimeters uri) (h.2 indv.uri p hp).1
      rw [docs_foldl_self term_putOps (fun name' doc hop hdata => ?_) hdocs,
        h.1.1 indv.uri name huri, foldl_expected hstate hknown hterms hrestored]
      obtain rfl | rfl := doc_putOps hop
      · simp
      · exact absurd hdata huri.symm

theorem inv_new : Inv content (.new s) :=
  ⟨⟨fun _ _ _ => rfl, nofun⟩, nofun⟩

theorem own_of_alone {st : State} (h : ∀ uri', uri' ≠ uri → st.current uri' = none) :
    Own content st uri uuid := by
  intro uri' name hne doc hdoc
  rw [h uri' hne] at hdoc
  exact absurd hdoc List.not_mem_nil

end

/-- The schema leaves the instances of `v-s:Secret` out of the index. -/
def secretIndex : Individual :=
  ⟨"cfg:SecretIndex", List.toAList [⟨"rdf:type", [.uri "vdi:ClassIndex"]⟩,
    ⟨"vdi:forClass", [.uri "v-s:Secret"]⟩, ⟨"vdi:indexed_to", [.str "not-indexed"]⟩]⟩

def secretSchema : IndexerProperty := .load (fun _ => []) [secretIndex]

def liveTask : Individual := ⟨"d:task", List.toAList [⟨"rdf:type", [.uri "v-s:Task"]⟩]⟩

def deletedTask : Individual :=
  ⟨"d:task", List.toAList [⟨"rdf:type", [.uri "v-s:Task"]⟩, ⟨"v-s:deleted", [.boolean true]⟩]⟩

def secretTask : Individual := ⟨"d:task", List.toAList [⟨"rdf:type", [.uri "v-s:Secret"]⟩]⟩

end Veda.FtIndexer
