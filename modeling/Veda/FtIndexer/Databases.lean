import Veda.FtIndexer.Indexer
import Veda.Search.Print

/-! # Where a query looks

The choice of databases in `query` of `xapian_reader.d`, and when a query for a class looks into the
database in which the indexer puts an individual of that class. -/

namespace Veda.FtIndexer

open Veda.Onto Veda.Search.Vel

/-! ## The databases of a query -/

/-- `databasenames`: the value is `false` for a database that the query names. -/
abbrev Databasenames := AList fun _ : String => Bool

/-- `getDatabasesOfClass`; it gives back the text of the node. -/
def getDatabasesOfClass (s : IndexerProperty) : TTA → Databasenames → Option String × Databasenames
  | .null, databasenames => (none, databasenames)
  | .node op _ l r, databasenames =>
    let (ll, databasenames) := getDatabasesOfClass s l databasenames
    let (rr, databasenames) := getDatabasesOfClass s r databasenames
    match ll, rr with
    | some ll, some rr =>
      if ll = "rdf:type" then
        (some op, databasenames.insert (s.getDbnameOfClass rr) false)
      else if ll = "v-s:deleted" then (some op, databasenames.insert "deleted" false)
      else (some op, databasenames)
    | _, _ => (some op, databasenames)

/-- The loop over `databasenames`, in the order in which its entries come. -/
def pickDatabases (dbNames : List String) : List (Sigma fun _ : String => Bool) → List String
  | [] => dbNames
  | ⟨key, value⟩ :: entries =>
    if value = false then
      let dbNames := if key ≠ "not-indexed" then dbNames ++ [key] else dbNames
      if key = "deleted" then [key] else pickDatabases dbNames entries
    else pickDatabases dbNames entries

/-- The databases of a query that names none. -/
def queryDatabases (entries : List (Sigma fun _ : String => Bool)) : List String :=
  let dbNames := pickDatabases [] entries
  if dbNames = [] then ["base"] else dbNames

/-- The tree of the query `'rdf:type' === 'C'`. -/
def typeQuery (c : String) : TTA :=
  .node "===" .none (.node "rdf:type" .quoted .null .null) (.node c .quoted .null .null)

/-- `databasenames` before the loop. -/
def typeDatabasenames (s : IndexerProperty) (c : String) : Databasenames :=
  (getDatabasesOfClass s (typeQuery c) s.getDbnames).2

/-- The text of the query, however it is spaced, has that tree. -/
theorem parseExpr_typeQuery (x : Text) {text : List Char}
    (h : Rendered [.text ⟨"rdf:type".toList, by decide⟩, .op .eqq, .text x] text) :
    parseExpr text = .ok (typeQuery (String.ofList x.chars)) := by
  rw [parseExpr_rendered (.bin .eqq (.text ⟨"rdf:type".toList, by decide⟩) (.text x)) h]
  rfl

theorem lookup_getDbnames (s : IndexerProperty) (name : String) :
    s.getDbnames.lookup name ≠ some false := by
  have fold : ∀ (keys : List String) (names : Databasenames), names.lookup name ≠ some false →
      (keys.foldl (fun names name => names.insert name true) names).lookup name ≠ some false := by
    intro keys
    induction keys with
    | nil => exact fun _ h => h
    | cons key keys ih =>
      intro names h
      apply ih
      rcases eq_or_ne name key with rfl | hne
      · simp
      · rwa [AList.lookup_insert_ne hne]
  exact fold _ ∅ (by simp)

/-- The query names the database of its class and no other. -/
theorem lookup_typeDatabasenames (s : IndexerProperty) (c name : String) :
    (typeDatabasenames s c).lookup name = some false ↔ name = s.getDbnameOfClass c := by
  have h : typeDatabasenames s c = s.getDbnames.insert (s.getDbnameOfClass c) false := rfl
  rw [h]
  rcases eq_or_ne name (s.getDbnameOfClass c) with rfl | hne
  · simp
  · rw [AList.lookup_insert_ne hne]
    exact iff_of_false (lookup_getDbnames s name) hne

theorem pickDatabases_append {pre : List (Sigma fun _ : String => Bool)}
    (h : ∀ name, ⟨name, false⟩ ∉ pre) (rest : List (Sigma fun _ : String => Bool)) :
    pickDatabases dbNames (pre ++ rest) = pickDatabases dbNames rest := by
  induction pre with
  | nil => rfl
  | cons entry pre ih =>
    obtain ⟨key, value⟩ := entry
    cases value with
    | false => exact absurd List.mem_cons_self (h key)
    | true => exact ih fun name hmem => h name (List.mem_cons_of_mem _ hmem)

/-- The loop over entries of which one is `false`. -/
theorem pickDatabases_eq {entries : List (Sigma fun _ : String => Bool)}
    (hnodup : entries.NodupKeys) (h : ∀ name, ⟨name, false⟩ ∈ entries ↔ name = d) :
    pickDatabases [] entries = if d = "not-indexed" then [] else [d] := by
  obtain ⟨pre, post, rfl⟩ := List.append_of_mem ((h d).mpr rfl)
  rw [List.nodupKeys_middle, List.nodupKeys_cons] at hnodup
  have hpre : ∀ name, ⟨name, false⟩ ∉ pre := fun name hmem =>
    hnodup.1 (List.mem_keys_of_mem
      (List.mem_append_left _ ((h name).mp (List.mem_append_left _ hmem) ▸ hmem)))
  have hpost : ∀ name, ⟨name, false⟩ ∉ post := fun name hmem =>
    hnodup.1 (List.mem_keys_of_mem (List.mem_append_right _
      ((h name).mp (List.mem_append_right _ (List.mem_cons_of_mem _ hmem)) ▸ hmem)))
  rw [pickDatabases_append hpre]
  have hend (dbNames : List String) : pickDatabases dbNames post = dbNames := by
    simpa [pickDatabases] using @pickDatabases_append dbNames post hpost []
  by_cases hd : d = "deleted"
  · subst hd
    rfl
  · by_cases hn : d = "not-indexed" <;> simp [pickDatabases, hd, hn, hend]

/-- In whatever order the entries come, the query for a class looks into the database of the class;
where that is `not-indexed`, into `base`. -/
theorem mem_queryDatabases_type {s : IndexerProperty} {c : String}
    {entries : List (Sigma fun _ : String => Bool)}
    (horder : entries.Perm (typeDatabasenames s c).entries) :
    name ∈ queryDatabases entries ↔
      if s.getDbnameOfClass c = "not-indexed" then name = "base"
      else name = s.getDbnameOfClass c := by
  have hnodup : entries.NodupKeys :=
    (List.perm_nodupKeys horder).mpr (typeDatabasenames s c).nodupKeys
  have h (name : String) : ⟨name, false⟩ ∈ entries ↔ name = s.getDbnameOfClass c := by
    rw [horder.mem_iff, ← lookup_typeDatabasenames, AList.lookup, ← Option.mem_def,
      List.mem_dlookup_iff (typeDatabasenames s c).nodupKeys]
  rw [queryDatabases, pickDatabases_eq hnodup h]
  split <;> simp

/-! ## The scan of the types -/

section
variable (getSubClasses : String → List String)

/-- The schema after a look at some types. -/
def schemaAt (indv : Individual) (s : IndexerProperty) (types : Resources) : IndexerProperty :=
  types.foldl (lookAt getSubClasses indv) s

/-- The database of a type when it is looked at after others. -/
def lookedUp (indv : Individual) (s : IndexerProperty) (before : Resources) (type : Resource) :
    String :=
  (schemaAt getSubClasses indv s (before ++ [type])).getDbnameOfClass type.uriOf

/-- Each of the types has the database `base` when it is looked at. -/
def AllBase (indv : Individual) (s : IndexerProperty) (types : Resources) : Prop :=
  ∀ before type after, types = before ++ type :: after →
    lookedUp getSubClasses indv s before type = "base"

/-- The class has the database of the first type that has another one than `base`; where no type
has, it has `base` or `not-indexed`. -/
def Agrees (indv : Individual) (s : IndexerProperty) (types : Resources) (c : String) : Prop :=
  (∀ before type after, types = before ++ type :: after → AllBase getSubClasses indv s before →
    lookedUp getSubClasses indv s before type ≠ "base" →
    (schemaAt getSubClasses indv s (before ++ [type])).getDbnameOfClass c =
      lookedUp getSubClasses indv s before type) ∧
  (AllBase getSubClasses indv s types →
    (schemaAt getSubClasses indv s types).getDbnameOfClass c ∈ ["base", "not-indexed"])

variable {getSubClasses} {indv : Individual} {s : IndexerProperty}

theorem allBase_nil : AllBase getSubClasses indv s [] := by
  intro before type after h
  simp at h

theorem allBase_cons :
    AllBase getSubClasses indv s (type :: types) ↔
      lookedUp getSubClasses indv s [] type = "base" ∧
        AllBase getSubClasses indv (lookAt getSubClasses indv s type) types := by
  constructor
  · intro h
    refine ⟨h [] type types rfl, fun before type' after heq => ?_⟩
    exact h (type :: before) type' after (congrArg (type :: ·) heq)
  · rintro ⟨hfirst, hrest⟩ before type' after heq
    cases before with
    | nil =>
      cases heq
      exact hfirst
    | cons t before =>
      cases heq
      exact hrest before type' after rfl

/-- The first type decides where it has another database than `base`. -/
theorem agrees_cons_of_ne (h : lookedUp getSubClasses indv s [] type ≠ "base") :
    Agrees getSubClasses indv s (type :: types) c ↔
      (lookAt getSubClasses indv s type).getDbnameOfClass c =
        lookedUp getSubClasses indv s [] type := by
  constructor
  · exact fun hagrees => hagrees.1 [] type types rfl allBase_nil h
  · intro hc
    refine ⟨fun before type' after heq hbase _ => ?_,
      fun hbase => absurd (allBase_cons.mp hbase).1 h⟩
    cases before with
    | nil =>
      cases heq
      exact hc
    | cons t before =>
      cases heq
      exact absurd (allBase_cons.mp hbase).1 h

/-- Otherwise the next ones do. -/
theorem agrees_cons_of_eq (h : lookedUp getSubClasses indv s [] type = "base") :
    Agrees getSubClasses indv s (type :: types) c ↔
      Agrees getSubClasses indv (lookAt getSubClasses indv s type) types c := by
  constructor
  · intro hagrees
    refine ⟨fun before type' after heq hbase hne => ?_, fun hbase => ?_⟩
    · exact hagrees.1 (type :: before) type' after (congrArg (type :: ·) heq)
        (allBase_cons.mpr ⟨h, hbase⟩) hne
    · exact hagrees.2 (allBase_cons.mpr ⟨h, hbase⟩)
  · intro hagrees
    refine ⟨fun before type' after heq hbase hne => ?_, fun hbase => ?_⟩
    · cases before with
      | nil =>
        cases heq
        exact absurd h hne
      | cons t before =>
        cases heq
        exact hagrees.1 before type' after rfl (allBase_cons.mp hbase).2 hne
    · exact hagrees.2 (allBase_cons.mp hbase).2

/-- Where the scan ends, the database of the class is the one that was chosen exactly when the class
agrees. -/
theorem agrees_iff (types : Resources) :
    Agrees getSubClasses indv s types c ↔
      let (s', dbname) := chooseDb getSubClasses indv s types
      s'.getDbnameOfClass c = dbname ∨ dbname = "base" ∧ s'.getDbnameOfClass c = "not-indexed" := by
  induction types generalizing s with
  | nil =>
    refine ⟨fun h => ?_, fun h => ⟨fun before type after heq => by simp at heq, fun _ => ?_⟩⟩
    · simpa [chooseDb, schemaAt] using h.2 allBase_nil
    · simpa [chooseDb, schemaAt] using h
  | cons type types ih =>
    by_cases h : lookedUp getSubClasses indv s [] type = "base"
    · have hscan : chooseDb getSubClasses indv s (type :: types) =
          chooseDb getSubClasses indv (lookAt getSubClasses indv s type) types :=
        if_neg (not_not_intro h)
      rw [agrees_cons_of_eq h, hscan]
      exact ih
    · have hscan : chooseDb getSubClasses indv s (type :: types) =
          (lookAt getSubClasses indv s type, lookedUp getSubClasses indv s [] type) := if_pos h
      rw [agrees_cons_of_ne h, hscan]
      simp [h]

/-! ## Where the indexer writes -/

variable {content : IndexerProperty → Individual → Option (List String)} {ictx : IndexerContext}
  {prevIndv : Individual}

/-- `index_msg` puts the document of the individual into the database. -/
def Puts (getSubClasses : String → List String)
    (content : IndexerProperty → Individual → Option (List String)) (ictx : IndexerContext)
    (indv prevIndv : Individual) (cmd : IndvOp) (name : String) : Prop :=
  ∃ uuid doc, .replace name uuid doc ∈ (indexMsg getSubClasses content ictx indv prevIndv cmd).2 ∧
    doc.data = indv.uri

/-- A live individual is put into the database that was chosen, under the schema after the scan. -/
theorem Puts.chosen (h : Puts getSubClasses content ictx indv prevIndv cmd name)
    (hlive : isDeleted indv = false) :
    chooseDb getSubClasses indv ictx.iproperty (indv.getResources "rdf:type") =
      ((indexMsg getSubClasses content ictx indv prevIndv cmd).1, name) ∧
    name ≠ "not-indexed" := by
  obtain ⟨uuid, doc, hmem, -⟩ := h
  revert hmem
  unfold indexMsg
  dsimp only
  split
  next => simp
  split
  next => simp
  split
  next => simp
  generalize chooseDb getSubClasses indv ictx.iproperty (indv.getResources "rdf:type") = chosen
  obtain ⟨s', dbname⟩ := chosen
  dsimp only
  -- what is taken from the old database is no document that is put
  have hmoved (p : Prop) [Decidable p] (prevDb : String) :
      DbOp.replace name uuid doc ∉ if p then [.delete prevDb (uuidOf indv)] else [] := by
    split <;> simp
  split
  next => exact fun hmem => absurd hmem (hmoved _ _)
  next hindexed =>
    split
    next => exact fun hmem => absurd hmem (hmoved _ _)
    split
    next => exact fun hmem => absurd hmem (hmoved _ _)
    next =>
      intro hmem
      obtain hmem | hmem := List.mem_append.mp hmem
      · exact absurd hmem (hmoved _ _)
      · obtain ⟨-, rfl⟩ : dbname ∈ ictx.indexDbs ∧ name = dbname := by
          simp only [putDocument, hlive, List.mem_append] at hmem
          obtain hmem | hmem := hmem
          · split at hmem <;> simp at hmem
          · split at hmem
            · simp_all
            · simp at hmem
        refine ⟨rfl, ?_⟩
        rintro rfl
        exact hindexed (by simp [hlive])

/-- The query for a class looks into the database in which the indexer has put a live individual
exactly when the class agrees with the types of the individual. -/
theorem puts_mem_queryDatabases {c : String} {entries : List (Sigma fun _ : String => Bool)}
    (hlive : isDeleted indv = false)
    (h : Puts getSubClasses content ictx indv prevIndv cmd name)
    (horder : entries.Perm
      (typeDatabasenames (indexMsg getSubClasses content ictx indv prevIndv cmd).1 c).entries) :
    name ∈ queryDatabases entries ↔
      Agrees getSubClasses indv ictx.iproperty (indv.getResources "rdf:type") c := by
  obtain ⟨hchosen, hname⟩ := h.chosen hlive
  rw [mem_queryDatabases_type horder, agrees_iff, hchosen]
  dsimp only
  split
  next hc => simp [hc, hname.symm]
  next hc => simp [hc, eq_comm]

end

/-! ## Two types -/

/-- The schema sends the instances of `v-s:Person` into `system`. -/
def personIndex : Individual :=
  ⟨"cfg:PersonIndex", List.toAList [⟨"rdf:type", [.uri "vdi:ClassIndex"]⟩,
    ⟨"vdi:forClass", [.uri "v-s:Person"]⟩, ⟨"vdi:indexed_to", [.str "system"]⟩]⟩

def personContext : IndexerContext where
  iproperty := .load (fun _ => []) [personIndex]
  indexDbs := ["base", "system", "deleted", "az"]
  useDb := none

def appointee : Individual :=
  ⟨"d:appointee", List.toAList [⟨"rdf:type", [.uri "v-s:Appointment", .uri "v-s:Person"]⟩]⟩

theorem puts_appointee :
    Puts (fun _ => []) (fun _ _ => some []) personContext appointee .init .put "system" :=
  ⟨"uid_d_appointee", ⟨["uid_d_appointee"], "d:appointee"⟩, by decide +kernel, rfl⟩

/-- The query for the second type looks where the individual is. -/
theorem puts_mem_queryDatabases_person :
    "system" ∈ queryDatabases (typeDatabasenames
      (indexMsg (fun _ => []) (fun _ _ => some []) personContext appointee .init .put).1
      "v-s:Person").entries :=
  (puts_mem_queryDatabases (by decide) puts_appointee (.refl _)).mpr (by
    rw [agrees_iff]
    decide)

/-- The query for the first type does not. -/
theorem not_puts_mem_queryDatabases :
    ¬∀ name c entries, c ∈ appointee.types →
      Puts (fun _ => []) (fun _ _ => some []) personContext appointee .init .put name →
      entries.Perm (typeDatabasenames
        (indexMsg (fun _ => []) (fun _ _ => some []) personContext appointee .init .put).1
        c).entries →
      name ∈ queryDatabases entries := by
  intro h
  have hmem := h "system" "v-s:Appointment" _ (by decide) puts_appointee (.refl _)
  revert hmem
  decide

end Veda.FtIndexer
