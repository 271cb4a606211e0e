import Veda.FtIndexer.Documents

/-! # The documents of other individuals

Documents are addressed by a term that is made of the uri: the letters are put in lower case, and
`:` and `-` become `_`. A call of `index_msg` for one individual leaves the documents of another one
alone as long as none of these, in a database that the call changes, is indexed by that term. -/

namespace Veda.FtIndexer

open Veda.Onto

/-- The database of an operation. -/
def DbOp.name : DbOp → String
  | delete name _ => name
  | replace name _ _ => name

section
variable (getSubClasses : String → List String)
  (content : IndexerProperty → Individual → Option (List String))

/-! ## The property -/

/-- The databases after a call of `index_msg`. -/
def dbsAfter (ictx : IndexerContext) (dbs : Databases) (indv prevIndv : Individual)
    (cmd : IndvOp) : Databases :=
  (indexMsg getSubClasses content ictx indv prevIndv cmd).2.foldl DbOp.apply dbs

/-- The call leaves every document of the other individual in its database. -/
def LeavesAlone (ictx : IndexerContext) (dbs : Databases) (indv prevIndv : Individual)
    (cmd : IndvOp) (other : Individual) : Prop :=
  ∀ name, (docs dbs other.uri name).Sublist
    (docs (dbsAfter getSubClasses content ictx dbs indv prevIndv cmd) other.uri name)

/-! ## The condition -/

/-- The individual is looked at: it is put, it is no draft and no old version. -/
def IsRead (indv : Individual) (cmd : IndvOp) : Prop :=
  cmd ≠ .remove ∧ indv.uri ≠ "" ∧ indv.resources.entries ≠ [] ∧ isDraft indv = false ∧
    isOldVersion indv = false

/-- The schema after the scan of the types, and the database of the individual. -/
def chosen (ictx : IndexerContext) (indv : Individual) : IndexerProperty × String :=
  chooseDb getSubClasses indv ictx.iproperty (indv.getResources "rdf:type")

/-- The document of the previous state is deleted from the database. -/
def LeavesDb (ictx : IndexerContext) (indv prevIndv : Individual) (name : String) : Prop :=
  let prevDb := prevDbname ictx.iproperty (prevIndv.getResources "rdf:type")
  prevDb ≠ (chosen getSubClasses ictx indv).2 ∧ isInit prevIndv = false ∧ ictx.useDb = none ∧
    prevDb ∈ ictx.indexDbs ∧ name = prevDb

/-- A document is made. -/
def IsIndexed (ictx : IndexerContext) (indv : Individual) : Prop :=
  let (s, dbname) := chosen getSubClasses ictx indv
  ¬(isDeleted indv = false ∧ dbname = "not-indexed") ∧
    (∀ useDb ∈ ictx.useDb, useDb = "deleted" ∨ isDeleted indv = false ∧ dbname = useDb) ∧
      (content s indv).isSome

/-- The document is put into the database, or deleted from `deleted` because the individual is
restored. -/
def EntersDb (ictx : IndexerContext) (indv prevIndv : Individual) (name : String) : Prop :=
  let isRestored := isDeleted prevIndv = true ∧ isDeleted indv = false ∧ ictx.useDb = none
  name = "deleted" ∧ "deleted" ∈ ictx.indexDbs ∧ (isRestored ∨ isDeleted indv = true) ∨
    name = (chosen getSubClasses ictx indv).2 ∧ name ∈ ictx.indexDbs

/-- The call deletes or replaces in the database what is indexed by the term of the individual. -/
def Changes (ictx : IndexerContext) (indv prevIndv : Individual) (cmd : IndvOp) (name : String) :
    Prop :=
  IsRead indv cmd ∧ (LeavesDb getSubClasses ictx indv prevIndv name ∨
    IsIndexed getSubClasses content ictx indv ∧ EntersDb getSubClasses ictx indv prevIndv name)

end

/-! ## Operations under one term -/

section
variable {uri term name : String} {ops : List DbOp} {dbs : Databases} {doc : Doc}

/-- An operation leaves the other databases as they are. -/
theorem docs_apply_of_name {op : DbOp} (h : op.name ≠ name) :
    docs (op.apply dbs) uri name = docs dbs uri name := by
  cases op with
  | delete name' term =>
    have h : ¬name' = name := h
    rw [docs_apply_delete, if_neg h]
  | replace name' term doc =>
    have h : ¬name' = name := h
    rw [docs_apply_replace, if_neg h]

/-- What is not indexed by the term stays. -/
theorem filter_sublist_foldl (hterm : ∀ op ∈ ops, op.term = term) :
    ((docs dbs uri name).filter fun doc => term ∉ doc.terms).Sublist
      (docs (ops.foldl DbOp.apply dbs) uri name) := by
  induction ops generalizing dbs with
  | nil => exact List.filter_sublist
  | cons op ops ih =>
    have hone : ((docs dbs uri name).filter fun doc => term ∉ doc.terms).Sublist
        ((docs (op.apply dbs) uri name).filter fun doc => term ∉ doc.terms) := by
      have hterm := hterm op List.mem_cons_self
      cases op with
      | delete name' term' =>
        obtain rfl : term' = term := hterm
        rw [docs_apply_delete]
        split
        next => rw [List.filter_filter]; simp only [Bool.and_self, List.Sublist.refl]
        next => exact .refl _
      | replace name' term' doc =>
        obtain rfl : term' = term := hterm
        rw [docs_apply_replace]
        split
        next =>
          rw [List.filter_append, List.filter_filter]
          simp only [Bool.and_self, List.sublist_append_left]
        next => exact .refl _
    exact hone.trans (ih fun op h => hterm op (List.mem_cons_of_mem _ h))

/-- Where there is an operation, nothing is left that the term indexes. -/
theorem notMem_terms_foldl (hterm : ∀ op ∈ ops, op.term = term)
    (hnew : ∀ name' term' doc, .replace name' term' doc ∈ ops → doc.data = uri →
      term ∉ doc.terms)
    (hname : (∃ op ∈ ops, op.name = name) ∨ ∀ doc ∈ docs dbs uri name, term ∉ doc.terms) :
    ∀ doc ∈ docs (ops.foldl DbOp.apply dbs) uri name, term ∉ doc.terms := by
  induction ops generalizing dbs with
  | nil => exact hname.resolve_left nofun
  | cons op ops ih =>
    refine ih (fun op h => hterm op (List.mem_cons_of_mem _ h))
      (fun name' term' doc h => hnew name' term' doc (List.mem_cons_of_mem _ h)) ?_
    have hterm := hterm op List.mem_cons_self
    by_cases hop : op.name = name
    · -- the operation itself takes away what the term indexes
      refine .inr fun doc hdoc => ?_
      cases op with
      | delete name' term' =>
        obtain rfl : term' = term := hterm
        obtain rfl : name' = name := hop
        rw [docs_apply_delete, if_pos rfl] at hdoc
        exact of_decide_eq_true (List.mem_filter.mp hdoc).2
      | replace name' term' doc' =>
        obtain rfl : term' = term := hterm
        obtain rfl : name' = name := hop
        rw [docs_apply_replace, if_pos rfl] at hdoc
        rcases List.mem_append.mp hdoc with hdoc | hdoc
        · exact of_decide_eq_true (List.mem_filter.mp hdoc).2
        · split at hdoc
          next hdata =>
            cases List.mem_singleton.mp hdoc
            exact hnew _ _ doc List.mem_cons_self hdata
          next => exact absurd hdoc List.not_mem_nil
    · rcases hname with ⟨op', hmem, hname⟩ | hnone
      · rcases List.mem_cons.mp hmem with rfl | hmem
        · exact absurd hname hop
        · exact .inl ⟨op', hmem, hname⟩
      · refine .inr fun doc hdoc => hnone doc ?_
        rwa [docs_apply_of_name hop] at hdoc

theorem docs_foldl_of_name (hname : ∀ op ∈ ops, op.name ≠ name) :
    docs (ops.foldl DbOp.apply dbs) uri name = docs dbs uri name := by
  induction ops generalizing dbs with
  | nil => rfl
  | cons op ops ih =>
    rw [List.foldl_cons, ih fun op h => hname op (List.mem_cons_of_mem _ h),
      docs_apply_of_name (hname op List.mem_cons_self)]

/-- Operations under one term leave the documents alone exactly where they find none that the term
indexes. -/
theorem sublist_foldl_iff (hterm : ∀ op ∈ ops, op.term = term)
    (hnew : ∀ name' term' doc, .replace name' term' doc ∈ ops → doc.data = uri →
      term ∉ doc.terms) :
    (docs dbs uri name).Sublist (docs (ops.foldl DbOp.apply dbs) uri name) ↔
      ((∃ op ∈ ops, op.name = name) → ∀ doc ∈ docs dbs uri name, term ∉ doc.terms) := by
  constructor
  · exact fun h hop doc hdoc => notMem_terms_foldl hterm hnew (.inl hop) doc (h.subset hdoc)
  · intro h
    by_cases hop : ∃ op ∈ ops, op.name = name
    · have hsub := @filter_sublist_foldl uri term name ops dbs hterm
      rwa [filter_of_notMem (h hop)] at hsub
    · rw [docs_foldl_of_name fun op hmem heq => hop ⟨op, hmem, heq⟩]

end

/-! ## The operations of a call -/

section
variable {getSubClasses : String → List String}
  {content : IndexerProperty → Individual → Option (List String)}
  {ictx : IndexerContext} {dbs : Databases} {indv prevIndv other : Individual} {cmd : IndvOp}
  {name : String}

theorem name_putDocument {restored : Bool} {dbname : String} {terms : List String} :
    (∃ op ∈ putDocument ictx indv restored dbname terms, op.name = name) ↔
      name = "deleted" ∧ "deleted" ∈ ictx.indexDbs ∧ (restored = true ∨ isDeleted indv = true) ∨
        name = dbname ∧ name ∈ ictx.indexDbs := by
  have hlast {doc : Doc} : (∃ op ∈ (if dbname ∈ ictx.indexDbs then
      [DbOp.replace dbname (uuidOf indv) doc] else []), op.name = name) ↔
        name = dbname ∧ name ∈ ictx.indexDbs := by
    split
    next h =>
      simp only [List.mem_singleton, exists_eq_left, DbOp.name]
      exact ⟨fun heq => heq ▸ ⟨rfl, h⟩, fun heq => heq.1.symm⟩
    next h =>
      refine ⟨nofun, ?_⟩
      rintro ⟨rfl, hmem⟩
      exact absurd hmem h
  simp only [putDocument, List.mem_append, or_and_right, exists_or, hlast]
  refine or_congr_left ?_
  split
  next h =>
    cases restored <;> cases isDeleted indv <;>
      simp [DbOp.name, h, eq_comm]
  next h => simp [h]

/-- What a call does, as far as the individual is looked at. -/
theorem indexMsg_of_isRead (h : IsRead indv cmd) :
    (indexMsg getSubClasses content ictx indv prevIndv cmd).2 =
      let prevDb := prevDbname ictx.iproperty (prevIndv.getResources "rdf:type")
      let (s, dbname) := chosen getSubClasses ictx indv
      let moved : List DbOp :=
        if prevDb ≠ dbname ∧ !isInit prevIndv ∧ ictx.useDb = none ∧ prevDb ∈ ictx.indexDbs then
          [.delete prevDb (uuidOf indv)]
        else []
      if !isDeleted indv && dbname = "not-indexed" then moved
      else if ictx.useDb.any fun useDb => useDb ≠ "deleted" && (isDeleted indv || dbname ≠ useDb)
      then moved
      else
        match content s indv with
        | none => moved
        | some terms => moved ++ putDocument ictx indv
          (isDeleted prevIndv && !isDeleted indv && ictx.useDb.isNone) dbname terms := by
  obtain ⟨hcmd, huri, hres, hdraft, hold⟩ := h
  unfold indexMsg
  rw [if_neg hcmd, if_neg (not_or.mpr ⟨huri, hres⟩), hdraft, hold, ← chosen.eq_1]
  generalize chosen getSubClasses ictx indv = s
  simp only [Bool.or_self, Bool.false_eq_true, if_false]
  split
  next => rfl
  next =>
    split
    next => rfl
    next => cases content s.1 indv <;> rfl

theorem indexMsg_of_not_isRead (h : ¬IsRead indv cmd) :
    (indexMsg getSubClasses content ictx indv prevIndv cmd).2 = [] := by
  unfold indexMsg
  split
  next => rfl
  next hcmd =>
    dsimp only
    split
    next => rfl
    next hempty =>
      obtain ⟨huri, hres⟩ := not_or.mp hempty
      split
      next => rfl
      next hskip =>
        rw [Bool.not_eq_true, Bool.or_eq_false_iff] at hskip
        exact absurd ⟨hcmd, huri, hres, hskip⟩ h

/-- The deletion from the database of the previous state. -/
theorem name_moved {prevDb dbname : String} :
    (∃ op ∈ (if prevDb ≠ dbname ∧ !isInit prevIndv ∧ ictx.useDb = none ∧
      prevDb ∈ ictx.indexDbs then [DbOp.delete prevDb (uuidOf indv)] else []), op.name = name) ↔
        prevDb ≠ dbname ∧ isInit prevIndv = false ∧ ictx.useDb = none ∧
          prevDb ∈ ictx.indexDbs ∧ name = prevDb := by
  split
  next h =>
    simp only [List.mem_singleton, exists_eq_left, DbOp.name]
    rw [Bool.not_eq_true'] at h
    exact ⟨fun heq => ⟨h.1, h.2.1, h.2.2.1, h.2.2.2, heq.symm⟩, fun heq => heq.2.2.2.2.symm⟩
  next h =>
    rw [Bool.not_eq_true'] at h
    exact ⟨nofun, fun ⟨hne, hinit, huse, hmem, _⟩ => absurd ⟨hne, hinit, huse, hmem⟩ h⟩

/-- The databases in which a call does something. -/
theorem changes_iff : (∃ op ∈ (indexMsg getSubClasses content ictx indv prevIndv cmd).2,
    op.name = name) ↔ Changes getSubClasses content ictx indv prevIndv cmd name := by
  by_cases hread : IsRead indv cmd
  · rw [indexMsg_of_isRead hread, Changes, and_iff_right hread, LeavesDb]
    dsimp only
    generalize hchosen : chosen getSubClasses ictx indv = s
    obtain ⟨s, dbname⟩ := s
    dsimp only
    split
    next hskip =>
      rw [name_moved]
      refine (or_iff_left fun hindexed => ?_).symm
      rw [IsIndexed, hchosen] at hindexed
      exact hindexed.1.1 (by simpa using hskip)
    next hplace =>
      split
      next hskip =>
        rw [name_moved]
        refine (or_iff_left fun hindexed => ?_).symm
        rw [IsIndexed, hchosen] at hindexed
        obtain ⟨useDb, huse, hskip⟩ := (Option.any_eq_true _ _).mp hskip
        rcases hindexed.1.2.1 useDb huse with rfl | ⟨hlive, rfl⟩
        · simp at hskip
        · simp [hlive] at hskip
      next huse =>
        split
        next hnone =>
          rw [name_moved]
          refine (or_iff_left fun hindexed => ?_).symm
          rw [IsIndexed, hchosen] at hindexed
          exact absurd hindexed.1.2.2 (by rw [hnone]; nofun)
        next terms hterms =>
          simp only [List.mem_append, or_and_right, exists_or]
          rw [name_moved, name_putDocument]
          refine or_congr_right ?_
          have hindexed : IsIndexed getSubClasses content ictx indv := by
            rw [IsIndexed, hchosen]
            refine ⟨by simpa using hplace, fun useDb hmem => ?_, by rw [hterms]; rfl⟩
            rw [Option.mem_def.mp hmem] at huse
            by_cases hdeleted : useDb = "deleted"
            · exact .inl hdeleted
            · exact .inr (by simpa [hdeleted] using huse)
          rw [and_iff_right hindexed, EntersDb, hchosen]
          cases ictx.useDb <;> simp
  · rw [indexMsg_of_not_isRead hread]
    exact ⟨nofun, fun h => absurd h.1 hread⟩

theorem term_indexMsg : ∀ op ∈ (indexMsg getSubClasses content ictx indv prevIndv cmd).2,
    op.term = uuidOf indv := by
  have hmoved {c : Prop} [Decidable c] {prevDb : String} :
      ∀ op ∈ (if c then [DbOp.delete prevDb (uuidOf indv)] else []), op.term = uuidOf indv := by
    split
    · exact List.forall_mem_singleton.mpr rfl
    · exact List.forall_mem_nil _
  by_cases hread : IsRead indv cmd
  · rw [indexMsg_of_isRead hread]
    dsimp only
    split
    next => exact hmoved
    next =>
      split
      next => exact hmoved
      next =>
        split
        next => exact hmoved
        next =>
          exact fun op hop => (List.mem_append.mp hop).elim (hmoved op) (term_putDocument op)
  · rw [indexMsg_of_not_isRead hread]
    exact List.forall_mem_nil _

/-- A document that a call puts is that of the individual, or an empty one. -/
theorem doc_indexMsg {term : String} {doc : Doc}
    (h : .replace name term doc ∈
      (indexMsg getSubClasses content ictx indv prevIndv cmd).2) :
    doc.data = indv.uri ∨ doc = .new := by
  have hmoved {c : Prop} [Decidable c] {prevDb : String} :
      .replace name term doc ∉ (if c then [DbOp.delete prevDb (uuidOf indv)] else []) := by
    split
    · exact fun h => absurd (List.mem_singleton.mp h) nofun
    · exact List.not_mem_nil
  by_cases hread : IsRead indv cmd
  · rw [indexMsg_of_isRead hread] at h
    dsimp only at h
    split at h
    next => exact absurd h hmoved
    next =>
      split at h
      next => exact absurd h hmoved
      next =>
        split at h
        next => exact absurd h hmoved
        next =>
          rcases doc_putDocument ((List.mem_append.mp h).resolve_left hmoved) with rfl | rfl
          · exact .inl rfl
          · exact .inr rfl
  · rw [indexMsg_of_not_isRead hread] at h
    exact absurd h List.not_mem_nil

end

def small : Individual := ⟨"d:report-1", List.toAList [⟨"rdf:type", [.uri "v-s:Report"]⟩]⟩

def capital : Individual := ⟨"d:Report_1", List.toAList [⟨"rdf:type", [.uri "v-s:Report"]⟩]⟩

def openContext : IndexerContext := ⟨.load (fun _ => []) [], xapianDbNames, none⟩

/-- The document of an individual is in the base. -/
def withDocument (indv : Individual) : Databases :=
  Function.update (fun _ => []) "base" [⟨[uuidOf indv], indv.uri⟩]

end Veda.FtIndexer
