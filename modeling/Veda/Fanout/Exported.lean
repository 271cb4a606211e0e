import Veda.Fanout.ToSql
import Veda.Lib.Run

/-! # What has been exported

The rows of a document are those of the last state that was exported, however often statements
failed, and in whatever order the two processes take their turns. -/

namespace Veda.Fanout

open Bj8individual (Text ascii Resource Individual)
open Run

/-! ## What a statement leaves alone -/

/-- Only rows of the document in tables of the predicates have changed. -/
def Spares (docId : Text) (predicates : List Text) (db db' : Db) : Prop :=
  ∀ d p, d ≠ docId ∨ p ∉ predicates → rowsAt db' d p = rowsAt db d p

section
variable {docId : Text} {predicates predicates' : List Text} {db db' db'' : Db}

theorem Spares.refl (docId : Text) (predicates : List Text) (db : Db) :
    Spares docId predicates db db := fun _ _ _ => rfl

theorem Spares.trans (h : Spares docId predicates db db') (h' : Spares docId predicates db' db'') :
    Spares docId predicates db db'' :=
  fun d p hp => (h' d p hp).trans (h d p hp)

theorem Spares.mono (h : Spares docId predicates db db') (hsub : predicates ⊆ predicates') :
    Spares docId predicates' db db' :=
  fun d p hp => h d p (hp.imp_right fun hnot hmem => hnot (hsub hmem))

end

/-- The rows that a statement changes are of the document, in a table of the predicates. -/
def Statement.IsFor (docId : Text) (predicates : List Text) : Statement → Prop
  | delete p d => d = docId ∧ p ∈ predicates
  | insert p row => row.docId = docId ∧ p ∈ predicates
  | _ => True

theorem rowsAt_update (db : Db) (predicate : Text) (table : Option Table) (d p : Text) :
    rowsAt (Function.update db predicate table) d p =
      if p = predicate then ((table.map Table.rows).getD []).filter (·.docId = d)
      else rowsAt db d p := by
  rw [rowsAt]
  split
  · next h =>
    rw [h, Function.update_self]
  · next h =>
    rw [Function.update_of_ne h]
    rfl

theorem spares_run {db db' : Db} {statement : Statement} {docId : Text} {predicates : List Text}
    (hfor : statement.IsFor docId predicates) (h : statement.run db = .ok db') :
    Spares docId predicates db db' := by
  intro d p hp
  cases statement with
  | plain =>
    cases h
    rfl
  | createTable q =>
    rw [Statement.run] at h
    cases htable : db q with
    | some table =>
      rw [htable] at h
      cases h
    | none =>
      rw [htable] at h
      cases h
      rw [rowsAt_update]
      split
      · next heq =>
        rw [heq, rowsAt, htable]
        rfl
      · rfl
  | addDeleted q =>
    rw [Statement.run] at h
    cases htable : db q with
    | none =>
      rw [htable] at h
      cases h
    | some table =>
      rw [htable] at h
      dsimp only at h
      split at h
      · cases h
      · cases h
        rw [rowsAt_update]
        split
        · next heq =>
          rw [heq, rowsAt, htable]
          rfl
        · rfl
  | delete q d' =>
    obtain ⟨rfl, hq⟩ := hfor
    rw [Statement.run] at h
    cases htable : db q with
    | none =>
      rw [htable] at h
      cases h
    | some table =>
      rw [htable] at h
      cases h
      rw [rowsAt_update]
      split
      · next heq =>
        have hd := hp.resolve_right fun hne => hne (heq ▸ hq)
        rw [heq, rowsAt, htable]
        change (table.rows.filter _).filter _ = table.rows.filter _
        rw [List.filter_filter]
        refine List.filter_congr fun row _ => ?_
        by_cases hrow : row.docId = d
        · simp [hrow, hd]
        · simp [hrow]
      · rfl
  | insert q row =>
    obtain ⟨rfl, hq⟩ := hfor
    rw [Statement.run] at h
    cases htable : db q with
    | none =>
      rw [htable] at h
      cases h
    | some table =>
      rw [htable] at h
      dsimp only at h
      split at h
      · cases h
        rw [rowsAt_update]
        split
        · next heq =>
          have hd := hp.resolve_right fun hne => hne (heq ▸ hq)
          rw [heq, rowsAt, htable]
          change (table.rows ++ [row]).filter _ = table.rows.filter _
          rw [List.filter_append, List.filter_singleton]
          simp [hd.symm]
        · rfl
      · cases h

/-- A query runs its statement or not, and the one only if nothing is raised. -/
theorem query_cases {c c' : Conn} {statement : Statement} {failure : Option Failure}
    (h : c.query statement = (failure, c')) : c'.existsTable = c.existsTable ∧
      ((statement.run c.db = .ok c'.db ∧ (failure = none ∨ failure = some .other)) ∨
        c'.db = c.db ∧ (statement.run c.db = .error (failure.getD .other) ∧ failure ≠ none ∨
          failure = some .other)) := by
  rw [Conn.query] at h
  cases hrun : statement.run c.db with
  | error failure' =>
    rw [hrun] at h
    cases h
    exact ⟨rfl, .inr ⟨rfl, .inl ⟨rfl, Option.some_ne_none _⟩⟩⟩
  | ok db =>
    rw [hrun] at h
    cases houtcome : c.outcomes.headD .ok with
    | ok =>
      rw [houtcome] at h
      cases h
      exact ⟨rfl, .inl ⟨rfl, .inl rfl⟩⟩
    | fails =>
      rw [houtcome] at h
      cases h
      exact ⟨rfl, .inr ⟨rfl, .inr rfl⟩⟩
    | lost =>
      rw [houtcome] at h
      cases h
      exact ⟨rfl, .inl ⟨rfl, .inr rfl⟩⟩

theorem spares_query {c c' : Conn} {statement : Statement} {failure : Option Failure}
    {docId : Text} {predicates : List Text} (hfor : statement.IsFor docId predicates)
    (h : c.query statement = (failure, c')) : Spares docId predicates c.db c'.db := by
  obtain ⟨-, ⟨hrun, -⟩ | ⟨heq, -⟩⟩ := query_cases h
  · exact spares_run hfor hrun
  · rw [heq]
    exact .refl _ _ _

theorem spares_plain {c c' : Conn} {failure : Option Failure} {docId : Text}
    {predicates : List Text} (h : c.query .plain = (failure, c')) :
    Spares docId predicates c.db c'.db :=
  @spares_query _ _ .plain _ _ _ trivial h

/-! ## What the loops leave alone -/

section
variable {docId predicate : Text} {predicates : List Text} {c c' : Conn}
  {failure : Option Failure} {indv : Individual}

theorem andThen_cases {r : Option Failure × Conn} {next : Conn → Option Failure × Conn}
    (h : andThen r next = (failure, c')) :
    (∃ c, r = (none, c) ∧ next c = (failure, c')) ∨ ∃ f, failure = some f ∧ r = (some f, c') := by
  obtain ⟨f, c⟩ := r
  cases f with
  | none => exact .inl ⟨c, rfl, h⟩
  | some f =>
    cases h
    exact .inr ⟨f, rfl, rfl⟩

theorem spares_forEach {α : Type} {body : α → Conn → Option Failure × Conn} {xs : List α}
    (hbody : ∀ x ∈ xs, ∀ c failure c', body x c = (failure, c') →
      Spares docId predicates c.db c'.db)
    (h : forEach body xs c = (failure, c')) : Spares docId predicates c.db c'.db := by
  induction xs generalizing c with
  | nil =>
    cases h
    exact .refl _ _ _
  | cons x xs ih =>
    obtain ⟨hx, hxs⟩ := List.forall_mem_cons.mp hbody
    rw [forEach] at h
    obtain ⟨c₁, hfirst, hrest⟩ | ⟨f, rfl, hfirst⟩ := andThen_cases h
    · exact (hx c _ c₁ hfirst).trans (ih hxs hrest)
    · exact hx c _ c' hfirst

theorem spares_createTableIfNotExists (docId : Text) (predicates : List Text)
    (h : createTableIfNotExists predicate c = (failure, c')) :
    Spares docId predicates c.db c'.db := by
  rw [createTableIfNotExists] at h
  split at h
  · cases h
    exact .refl _ _ _
  obtain ⟨c₁, hfirst, hrest⟩ | ⟨f, rfl, hfirst⟩ := andThen_cases h
  · refine (spares_plain hfirst).trans ?_
    split at hrest
    · obtain ⟨c₂, hcreate, hlast⟩ | ⟨f, rfl, hcreate⟩ := andThen_cases hrest
      · have hspares := @spares_query _ _ (.createTable predicate) _ docId predicates trivial hcreate
        cases hlast
        exact hspares
      · exact @spares_query _ _ (.createTable predicate) _ _ _ trivial hcreate
    · cases hrest
      exact .refl _ _ _
  · exact spares_plain hfirst

theorem docId_of_rowOf {rs rtype : Resource} {row : Row} (h : rowOf indv rs rtype = some row) :
    row.docId = indv.uri := by
  rw [rowOf, Option.bind_eq_bind, Option.bind_eq_some_iff] at h
  obtain ⟨created, -, h⟩ := h
  dsimp only at h
  split at h
  · cases h
    rfl
  · obtain ⟨value, -, h⟩ := Option.bind_eq_some_iff.mp h
    cases h
    rfl

theorem spares_insertValue {value : Resource × Resource}
    (h : insertValue indv predicate value c = (failure, c')) :
    Spares indv.uri [predicate] c.db c'.db := by
  rw [insertValue] at h
  obtain ⟨c₁, hfirst, hrest⟩ | ⟨f, rfl, hfirst⟩ := andThen_cases h
  · refine (spares_plain hfirst).trans ?_
    cases hrow : rowOf indv value.1 value.2 with
    | none =>
      rw [hrow] at hrest
      cases hrest
      exact .refl _ _ _
    | some row =>
      rw [hrow] at hrest
      exact @spares_query _ _ (.insert predicate row) _ _ _
        ⟨docId_of_rowOf hrow, List.mem_singleton_self _⟩ hrest
  · exact spares_plain hfirst

theorem spares_insertToSql (h : insertToSql indv predicate c = (failure, c')) :
    Spares indv.uri [predicate] c.db c'.db := by
  rw [insertToSql] at h
  split at h
  · cases h
    exact .refl _ _ _
  obtain ⟨c₁, hfirst, hrest⟩ | ⟨f, rfl, hfirst⟩ := andThen_cases h
  · exact (spares_createTableIfNotExists _ _ hfirst).trans
      (spares_forEach (fun value _ _ _ _ => spares_insertValue) hrest)
  · exact spares_createTableIfNotExists _ _ hfirst

theorem spares_rollback {result : Result} (h : rollback c = (result, c')) :
    Spares docId predicates c.db c'.db := by
  rw [rollback] at h
  rcases hquery : c.query .plain with ⟨failure, c''⟩
  rw [hquery] at h
  have hspares := @spares_plain _ _ _ docId predicates hquery
  cases failure with
  | none =>
    cases h
    exact hspares
  | some failure =>
    cases h
    exact hspares

theorem spares_deleteAll {ps : List Text} (hsub : ps ⊆ predicates) {result : Option Result}
    (h : deleteAll docId ps c = (result, c')) : Spares docId predicates c.db c'.db := by
  induction ps generalizing c with
  | nil =>
    cases h
    exact .refl _ _ _
  | cons p ps ih =>
    obtain ⟨hp, hps⟩ := List.cons_subset.mp hsub
    rw [deleteAll] at h
    rcases hquery : c.query (.delete p docId) with ⟨failure, c₁⟩
    have hspares := @spares_query _ _ (.delete p docId) _ _ _ ⟨rfl, hp⟩ hquery
    refine hspares.trans ?_
    rw [hquery] at h
    cases failure with
    | none => exact ih hps h
    | some failure =>
      cases failure with
      | doesntExist => exact ih hps h
      | _ =>
        rcases hrollback : rollback c₁ with ⟨result', c₂⟩
        dsimp only at h
        rw [hrollback] at h
        cases h
        exact spares_rollback hrollback

theorem spares_insertAll {ps : List Text} (hsub : ps ⊆ predicates) {result : Option Result}
    (h : insertAll indv ps c = (result, c')) : Spares indv.uri predicates c.db c'.db := by
  induction ps generalizing c with
  | nil =>
    cases h
    exact .refl _ _ _
  | cons p ps ih =>
    obtain ⟨hp, hps⟩ := List.cons_subset.mp hsub
    have hone : [p] ⊆ predicates := List.cons_subset.mpr ⟨hp, List.nil_subset _⟩
    rw [insertAll] at h
    rcases hinsert : insertToSql indv p c with ⟨failure, c₁⟩
    refine ((spares_insertToSql hinsert).mono hone).trans ?_
    rw [hinsert] at h
    cases failure with
    | none => exact ih hps h
    | some failure =>
      cases failure with
      | error =>
        cases h
        exact .refl _ _ _
      | unknownColumn =>
        dsimp only at h
        rcases hagain : andThen (c₁.query (.addDeleted p)) (insertToSql indv p) with ⟨failure', c₂⟩
        rw [hagain] at h
        have hspares : Spares indv.uri predicates c₁.db c₂.db := by
          obtain ⟨c₃, hadd, hrest⟩ | ⟨f, rfl, hadd⟩ := andThen_cases hagain
          · have hcolumn := @spares_query _ _ (.addDeleted p) _ indv.uri predicates trivial hadd
            exact hcolumn.trans ((spares_insertToSql hrest).mono hone)
          · exact @spares_query _ _ (.addDeleted p) _ _ _ trivial hadd
        refine hspares.trans ?_
        cases failure' with
        | none => exact ih hps h
        | some failure' =>
          cases h
          exact .refl _ _ _
      | _ =>
        rcases hrollback : rollback c₁ with ⟨result', c₂⟩
        dsimp only at h
        rw [hrollback] at h
        cases h
        exact spares_rollback hrollback

end

/-- However it ends, a push changes only rows of its document, of predicates that it has or had. -/
theorem spares_pushToMysql (r : Record) (meets : Meets) (db : Db) :
    Spares r.newIndv.uri r.usePredicates db (pushToMysql r meets db).2 := by
  rw [pushToMysql]
  dsimp only
  split
  · exact .refl _ _ _
  have hkeys : r.newIndv.resources.keys ⊆ r.usePredicates := List.subset_append_left _ _
  split
  · next failure c hcreated =>
    obtain ⟨c₁, hstart, hcreate⟩ | ⟨f, -, hstart⟩ := andThen_cases hcreated
    · exact (spares_plain hstart).trans
        (spares_forEach (fun p _ _ _ _ => spares_createTableIfNotExists _ _) hcreate)
    · exact spares_plain hstart
  · next c hcreated =>
    obtain ⟨c₁, hstart, hcreate⟩ | ⟨f, hnone, -⟩ := andThen_cases hcreated
    swap
    · cases hnone
    have htables : Spares r.newIndv.uri r.usePredicates db c.db := (spares_plain hstart).trans
      (spares_forEach (fun p _ _ _ _ => spares_createTableIfNotExists _ _) hcreate)
    refine htables.trans ?_
    have horder : meets.order r.usePredicates ⊆ r.usePredicates := (meets.perm _).subset
    split
    · next result c₂ hdelete => exact spares_deleteAll horder hdelete
    · next c₂ hdelete =>
      refine (spares_deleteAll horder hdelete).trans ?_
      split
      · next result c₃ hinsert => exact spares_insertAll hkeys hinsert
      · next c₃ hinsert =>
        refine (spares_insertAll hkeys hinsert).trans ?_
        split
        · next c₄ hcommit => exact spares_plain hcommit
        · next failure c₄ hcommit => exact spares_plain hcommit

/-! ## What a push that succeeds does -/

/-- The rows of a state for a predicate. -/
def rowsOf (indv : Individual) (predicate : Text) : List Row :=
  (valuesOf indv predicate).filterMap fun value => rowOf indv value.1 value.2

theorem rowsOf_of_notMem {indv : Individual} {p : Text} (h : p ∉ indv.resources.keys) :
    rowsOf indv p = [] := by
  have hget : indv.get p = [] := by
    rw [Individual.get, AList.lookup_eq_none.mpr h]
    rfl
  rw [rowsOf, valuesOf, hget]
  rfl

section
variable {docId predicate : Text} {c c' : Conn} {indv : Individual}

theorem run_of_query {statement : Statement} (h : c.query statement = (none, c')) :
    statement.run c.db = .ok c'.db := by
  obtain ⟨-, ⟨hrun, -⟩ | ⟨-, ⟨-, hne⟩ | hother⟩⟩ := query_cases h
  · exact hrun
  · exact absurd rfl hne
  · cases hother

theorem run_of_query_error {statement : Statement} {failure : Failure} (hne : failure ≠ .other)
    (h : c.query statement = (some failure, c')) :
    statement.run c.db = .error failure ∧ c'.db = c.db := by
  obtain ⟨-, ⟨-, hnone | hother⟩ | ⟨hdb, ⟨hrun, -⟩ | hother⟩⟩ := query_cases h
  · cases hnone
  · exact absurd (Option.some_inj.mp hother) hne
  · exact ⟨hrun, hdb⟩
  · exact absurd (Option.some_inj.mp hother) hne

theorem rowsAt_deleted {db db' : Db} {q : Text}
    (h : (Statement.delete predicate docId).run db = .ok db') :
    rowsAt db' docId q = if q = predicate then [] else rowsAt db docId q := by
  rw [Statement.run] at h
  cases htable : db predicate with
  | none =>
    rw [htable] at h
    cases h
  | some table =>
    rw [htable] at h
    cases h
    rw [rowsAt_update]
    split
    · change (table.rows.filter _).filter _ = _
      rw [List.filter_filter, List.filter_eq_nil_iff]
      intro row _ hrow
      rw [Bool.and_eq_true, decide_eq_true_eq, decide_eq_true_eq] at hrow
      exact hrow.2 hrow.1
    · rfl

/-- No row of the document is left. -/
theorem rowsAt_deleteAll {ps : List Text} (h : deleteAll docId ps c = (none, c')) {p : Text}
    (hp : p ∈ ps ∨ rowsAt c.db docId p = []) : rowsAt c'.db docId p = [] := by
  induction ps generalizing c with
  | nil =>
    cases h
    exact hp.resolve_left List.not_mem_nil
  | cons q ps ih =>
    rw [deleteAll] at h
    rcases hquery : c.query (.delete q docId) with ⟨failure, c₁⟩
    rw [hquery] at h
    have hnext (hc₁ : rowsAt c₁.db docId p = if p = q then [] else rowsAt c.db docId p)
        (h : deleteAll docId ps c₁ = (none, c')) : rowsAt c'.db docId p = [] := by
      refine ih h ?_
      by_cases hpq : p = q
      · exact .inr (hc₁.trans (if_pos hpq))
      · rw [if_neg hpq] at hc₁
        rw [hc₁]
        exact hp.imp_left fun hmem => (List.mem_cons.mp hmem).resolve_left hpq
    cases failure with
    | none => exact hnext (rowsAt_deleted (run_of_query hquery)) h
    | some failure =>
      cases failure with
      | doesntExist =>
        obtain ⟨hrun, hdb⟩ := run_of_query_error (by decide) hquery
        refine hnext ?_ h
        rw [hdb]
        split
        · next hpq =>
          rw [Statement.run] at hrun
          cases htable : c.db q with
          | none =>
            rw [hpq, rowsAt, htable]
            rfl
          | some table =>
            rw [htable] at hrun
            cases hrun
        · rfl
      | _ =>
        dsimp only at h
        rcases rollback c₁ with ⟨result, c₂⟩
        cases h

/-- The table is there and has its column. -/
def HasColumn (db : Db) (predicate : Text) : Prop := ∃ table, db predicate = some table ∧
  table.hasDeleted = true

theorem rowsAt_inserted {db db' : Db} {row : Row}
    (h : (Statement.insert predicate row).run db = .ok db') :
    rowsAt db' row.docId predicate = rowsAt db row.docId predicate ++ [row] ∧
      HasColumn db' predicate := by
  rw [Statement.run] at h
  cases htable : db predicate with
  | none =>
    rw [htable] at h
    cases h
  | some table =>
    rw [htable] at h
    dsimp only at h
    split at h
    · next hcolumn =>
      cases h
      refine ⟨?_, ⟨_, Function.update_self _ _ _, hcolumn⟩⟩
      rw [rowsAt_update, if_pos rfl, rowsAt, htable]
      change (table.rows ++ [row]).filter _ = table.rows.filter _ ++ [row]
      rw [List.filter_append, List.filter_singleton]
      simp
    · cases h

theorem rowsAt_insertValue {value : Resource × Resource}
    (h : insertValue indv predicate value c = (none, c')) : HasColumn c'.db predicate ∧
      ∃ row, rowOf indv value.1 value.2 = some row ∧
        rowsAt c'.db indv.uri predicate = rowsAt c.db indv.uri predicate ++ [row] := by
  rw [insertValue] at h
  obtain ⟨c₁, hfirst, hrest⟩ | ⟨f, hnone, -⟩ := andThen_cases h
  swap
  · cases hnone
  cases hrow : rowOf indv value.1 value.2 with
  | none =>
    rw [hrow] at hrest
    cases hrest
  | some row =>
    rw [hrow] at hrest
    obtain ⟨hrows, hcolumn⟩ := rowsAt_inserted (run_of_query hrest)
    have hplain : c₁.db = c.db := (Except.ok.inj (run_of_query hfirst)).symm
    rw [docId_of_rowOf hrow, hplain] at hrows
    exact ⟨hcolumn, row, rfl, hrows⟩

theorem rowsAt_forEach_insertValue {values : List (Resource × Resource)}
    (h : forEach (insertValue indv predicate) values c = (none, c')) :
    rowsAt c'.db indv.uri predicate = rowsAt c.db indv.uri predicate ++
      values.filterMap fun value => rowOf indv value.1 value.2 := by
  induction values generalizing c with
  | nil =>
    cases h
    exact (List.append_nil _).symm
  | cons value values ih =>
    rw [forEach] at h
    obtain ⟨c₁, hfirst, hrest⟩ | ⟨f, hnone, -⟩ := andThen_cases h
    · obtain ⟨-, row, hrow, hrows⟩ := rowsAt_insertValue hfirst
      rw [ih hrest, hrows, List.filterMap_cons, hrow, List.append_assoc]
      rfl
    · cases hnone

/-- Where the column is missing nothing has been inserted. -/
theorem forEach_insertValue_unknownColumn {values : List (Resource × Resource)}
    (h : forEach (insertValue indv predicate) values c = (some .unknownColumn, c')) :
    c'.db = c.db ∧ ¬HasColumn c.db predicate := by
  induction values generalizing c with
  | nil => cases h
  | cons value values ih =>
    rw [forEach] at h
    obtain ⟨c₁, hfirst, hrest⟩ | ⟨f, hf, hfirst⟩ := andThen_cases h
    · exact absurd (rowsAt_insertValue hfirst).1 (ih hrest).2
    · cases hf
      rw [insertValue] at hfirst
      obtain ⟨c₁, hplain, hinsert⟩ | ⟨f, hf, hplain⟩ := andThen_cases hfirst
      · have hsame : c₁.db = c.db := (Except.ok.inj (run_of_query hplain)).symm
        cases hrow : rowOf indv value.1 value.2 with
        | none =>
          rw [hrow] at hinsert
          cases hinsert
        | some row =>
          rw [hrow] at hinsert
          obtain ⟨hrun, hdb⟩ := run_of_query_error (by decide) hinsert
          refine ⟨hdb.trans hsame, ?_⟩
          rintro ⟨table, htable, hcolumn⟩
          rw [hsame, Statement.run, htable] at hrun
          dsimp only at hrun
          rw [if_pos hcolumn] at hrun
          cases hrun
      · cases hf
        exact nomatch (run_of_query_error (by decide) hplain).1

theorem rowsAt_createTableIfNotExists {failure : Option Failure} {d p : Text}
    (h : createTableIfNotExists predicate c = (failure, c')) :
    rowsAt c'.db d p = rowsAt c.db d p :=
  spares_createTableIfNotExists d [] h d p (.inr List.not_mem_nil)

theorem rowsAt_insertToSql (h : insertToSql indv predicate c = (none, c')) :
    rowsAt c'.db indv.uri predicate =
      rowsAt c.db indv.uri predicate ++ rowsOf indv predicate := by
  rw [insertToSql] at h
  split at h
  · next hget =>
    cases h
    rw [rowsOf, valuesOf, hget]
    exact (List.append_nil _).symm
  obtain ⟨c₁, hfirst, hrest⟩ | ⟨f, hnone, -⟩ := andThen_cases h
  · rw [rowsAt_forEach_insertValue hrest, rowsAt_createTableIfNotExists hfirst]
    rfl
  · cases hnone

theorem rowsAt_insertToSql_unknownColumn
    (h : insertToSql indv predicate c = (some .unknownColumn, c')) (d p : Text) :
    rowsAt c'.db d p = rowsAt c.db d p := by
  rw [insertToSql] at h
  split at h
  · cases h
  obtain ⟨c₁, hfirst, hrest⟩ | ⟨f, -, hfirst⟩ := andThen_cases h
  · rw [(forEach_insertValue_unknownColumn hrest).1, rowsAt_createTableIfNotExists hfirst]
  · exact rowsAt_createTableIfNotExists hfirst

/-- All rows of the state have been added. -/
theorem rowsAt_insertAll {ps : List Text} (hnodup : ps.Nodup)
    (h : insertAll indv ps c = (none, c')) {p : Text} (hp : p ∈ ps) :
    rowsAt c'.db indv.uri p = rowsAt c.db indv.uri p ++ rowsOf indv p := by
  induction ps generalizing c with
  | nil => cases hp
  | cons q ps ih =>
    obtain ⟨hq, hnodup⟩ := List.nodup_cons.mp hnodup
    rw [insertAll] at h
    rcases hinsert : insertToSql indv q c with ⟨failure, c₁⟩
    rw [hinsert] at h
    -- once the rows of `q` are there, the others are added and leave them alone
    have hnext {c₂ : Conn} (hspares : Spares indv.uri [q] c.db c₂.db)
        (hrows : rowsAt c₂.db indv.uri q = rowsAt c.db indv.uri q ++ rowsOf indv q)
        (hall : insertAll indv ps c₂ = (none, c')) :
        rowsAt c'.db indv.uri p = rowsAt c.db indv.uri p ++ rowsOf indv p := by
      rcases List.mem_cons.mp hp with rfl | hp
      · rw [spares_insertAll (List.Subset.refl ps) hall _ _ (.inr hq), hrows]
      · have hne : p ∉ [q] := fun hmem => hq (List.mem_singleton.mp hmem ▸ hp)
        rw [ih hnodup hall hp, hspares _ _ (.inr hne)]
    cases failure with
    | none => exact hnext (spares_insertToSql hinsert) (rowsAt_insertToSql hinsert) h
    | some failure =>
      cases failure with
      | error => cases h
      | unknownColumn =>
        dsimp only at h
        rcases hagain : andThen (c₁.query (.addDeleted q)) (insertToSql indv q) with ⟨failure', c₂⟩
        rw [hagain] at h
        cases failure' with
        | some failure' => cases h
        | none =>
          obtain ⟨c₃, hadd, hrest⟩ | ⟨f, hnone, -⟩ := andThen_cases hagain
          swap
          · cases hnone
          have hcolumn := @spares_query _ _ (.addDeleted q) _ indv.uri [] trivial hadd
          have hsame (d p : Text) : rowsAt c₃.db d p = rowsAt c.db d p :=
            (hcolumn d p (.inr List.not_mem_nil)).trans
              (rowsAt_insertToSql_unknownColumn hinsert d p)
          refine hnext (fun d p hp => ?_) ?_ h
          · rw [spares_insertToSql hrest d p hp, hsame]
          · rw [rowsAt_insertToSql hrest, hsame]
      | _ =>
        dsimp only at h
        rcases rollback c₁ with ⟨result, c₂⟩
        cases h

end

theorem rollback_ne_ok (c : Conn) : (rollback c).1 ≠ .ok := by
  rw [rollback]
  rcases c.query .plain with ⟨failure, c'⟩
  cases failure with
  | none => exact fun h => by cases h
  | some failure => exact fun h => by cases h

theorem deleteAll_ne_ok {docId : Text} {ps : List Text} {c c' : Conn} {result : Result}
    (h : deleteAll docId ps c = (some result, c')) : result ≠ .ok := by
  induction ps generalizing c with
  | nil => cases h
  | cons p ps ih =>
    rw [deleteAll] at h
    rcases hquery : c.query (.delete p docId) with ⟨failure, c₁⟩
    rw [hquery] at h
    cases failure with
    | none => exact ih h
    | some failure =>
      cases failure with
      | doesntExist => exact ih h
      | _ =>
        have hresult : (rollback c₁).1 = result := Option.some_inj.mp (congrArg Prod.fst h)
        exact hresult ▸ rollback_ne_ok c₁

theorem insertAll_ne_ok {indv : Individual} {ps : List Text} {c c' : Conn} {result : Result}
    (h : insertAll indv ps c = (some result, c')) : result ≠ .ok := by
  induction ps generalizing c with
  | nil => cases h
  | cons p ps ih =>
    rw [insertAll] at h
    rcases hinsert : insertToSql indv p c with ⟨failure, c₁⟩
    rw [hinsert] at h
    cases failure with
    | none => exact ih h
    | some failure =>
      cases failure with
      | error =>
        cases h
        exact fun h => by cases h
      | unknownColumn =>
        dsimp only at h
        rcases hagain : andThen (c₁.query (.addDeleted p)) (insertToSql indv p) with ⟨failure', c₂⟩
        rw [hagain] at h
        cases failure' with
        | none => exact ih h
        | some failure' =>
          cases h
          exact fun h => by cases h
      | _ =>
        have hresult : (rollback c₁).1 = result := Option.some_inj.mp (congrArg Prod.fst h)
        exact hresult ▸ rollback_ne_ok c₁

/-- A push that succeeds leaves the rows of the new state. -/
theorem rowsAt_pushToMysql {r : Record} {meets : Meets} {db : Db} (hneed : r.needPrepare = true)
    (h : (pushToMysql r meets db).1 = .ok) {p : Text} (hp : p ∈ r.usePredicates) :
    rowsAt (pushToMysql r meets db).2 r.newIndv.uri p = rowsOf r.newIndv p := by
  rw [pushToMysql] at h ⊢
  simp only [hneed, Bool.not_true, Bool.false_eq_true, if_false] at h ⊢
  rcases hcreated : andThen (Conn.query ⟨db, meets.outcomes, []⟩ .plain)
    (forEach createTableIfNotExists
      (r.newIndv.resources.keys.filter fun predicate => r.newIndv.get predicate ≠ [])) with
    ⟨failure, c⟩
  rw [hcreated] at h
  cases failure with
  | some failure => cases h
  | none =>
    dsimp only at h ⊢
    rcases hdelete : deleteAll r.newIndv.uri (meets.order r.usePredicates) c with ⟨result, c₂⟩
    rw [hdelete] at h
    cases result with
    | some result => exact absurd h (deleteAll_ne_ok hdelete)
    | none =>
      dsimp only at h ⊢
      have hdeleted := rowsAt_deleteAll hdelete (.inl ((meets.perm _).mem_iff.mpr hp))
      rcases hinsert : insertAll r.newIndv r.newIndv.resources.keys c₂ with ⟨result, c₃⟩
      rw [hinsert] at h
      cases result with
      | some result => exact absurd h (insertAll_ne_ok hinsert)
      | none =>
        dsimp only at h ⊢
        have hrows : rowsAt c₃.db r.newIndv.uri p = rowsOf r.newIndv p := by
          by_cases hkey : p ∈ r.newIndv.resources.keys
          · rw [rowsAt_insertAll r.newIndv.resources.keys_nodup hinsert hkey, hdeleted,
              List.nil_append]
          · rw [spares_insertAll (List.Subset.refl _) hinsert _ _ (.inr hkey), hdeleted,
              rowsOf_of_notMem hkey]
        rcases hcommit : c₃.query .plain with ⟨failure, c₄⟩
        have hplain : Spares r.newIndv.uri [] c₃.db c₄.db := spares_plain hcommit
        rw [hcommit] at h
        cases failure with
        | some failure => cases h
        | none => exact (hplain _ _ (.inr List.not_mem_nil)).trans hrows

/-! ## The turns of the processes -/

/-- The record is of a state of the document that goes into the tables. -/
def Record.exports (r : Record) (docId : Text) : Bool :=
  !r.isRemove && r.needPrepare && r.newIndv.uri = docId

theorem exports_iff {r : Record} {docId : Text} : r.exports docId = true ↔
    r.isRemove = false ∧ r.needPrepare = true ∧ r.newIndv.uri = docId := by
  simp [Record.exports, and_assoc]

/-- What has been exported once the records have. -/
def lastOf (indv : Individual) (rs : List Record) : Individual :=
  rs.foldl (fun _ r => r.newIndv) indv

/-- Each record has the predicates of the state exported before it. -/
def Chained (indv : Individual) : List Record → Prop
  | [] => True
  | r :: rs => indv.resources.keys ⊆ r.usePredicates ∧ Chained r.newIndv rs

section
variable (lowPriorityUser : Text) (records : List Record) (docId : Text)

/-- The record that a process pushes in its turn. -/
def pushed (e : Event) (s : State) : Option Record :=
  records[s.countPopped e.priority]?.filter fun r =>
    !r.isRemove && !(e.priority = .low && s.countPopped .normal < s.countPopped .low) &&
      r.isFor lowPriorityUser e.priority

/-- No push of the document is left by something that is raised. -/
def Returns (e : Event) (s : State) : Prop :=
  ∀ r ∈ pushed lowPriorityUser records e s, r.exports docId →
    (pushToMysql r e.meets s.db).1 ≠ .swallowed

instance (e : Event) (s : State) : Decidable (Returns lowPriorityUser records docId e s) :=
  inferInstanceAs (Decidable (∀ r ∈ pushed lowPriorityUser records e s, _))

/-- The changes by the user of low priority come after all others. -/
def LowLast : Prop :=
  (records.filter (·.exports docId)).Pairwise fun r r' =>
    r.isFor lowPriorityUser .low → r'.isFor lowPriorityUser .low

instance : Decidable (LowLast lowPriorityUser records docId) :=
  inferInstanceAs (Decidable (List.Pairwise _ _))

/-- The records of the document that a process has still to push. -/
def stillFor (priority : Priority) (s : State) : List Record :=
  (records.drop (s.countPopped priority)).filter fun r =>
    r.exports docId && r.isFor lowPriorityUser priority

/-- The records of the document that are still to be pushed. -/
def ahead (s : State) : List Record :=
  stillFor lowPriorityUser records docId .normal s ++ stillFor lowPriorityUser records docId .low s

end

/-- A process has committed its record. -/
def State.commit (s : State) (priority : Priority) (db : Db) : State :=
  ⟨db, Function.update s.countPopped priority (s.countPopped priority + 1)⟩

section
variable (lowPriorityUser : Text) (records : List Record) (docId : Text)

theorem isFor_normal (r : Record) :
    r.isFor lowPriorityUser .normal = !r.isFor lowPriorityUser .low :=
  decide_not

/-- A turn commits nothing, or commits a record that is not to be pushed, or is a push. -/
theorem step_cases (e : Event) (s : State) :
    step lowPriorityUser records e s = s ∨
    (∃ r, records[s.countPopped e.priority]? = some r ∧
      (r.isRemove = true ∨ r.isFor lowPriorityUser e.priority = false) ∧
      step lowPriorityUser records e s = s.commit e.priority s.db) ∨
    ∃ r, pushed lowPriorityUser records e s = some r ∧
      records[s.countPopped e.priority]? = some r ∧ r.isFor lowPriorityUser e.priority = true ∧
      (e.priority = .low → s.countPopped .low ≤ s.countPopped .normal) ∧
      step lowPriorityUser records e s =
        if (pushToMysql r e.meets s.db).1 = .failCommit then
          { s with db := (pushToMysql r e.meets s.db).2 }
        else s.commit e.priority (pushToMysql r e.meets s.db).2 := by
  rw [step, pushed]
  cases hnext : records[s.countPopped e.priority]? with
  | none => exact .inl rfl
  | some r =>
    dsimp only
    cases hremove : r.isRemove with
    | true => exact .inr (.inl ⟨r, rfl, .inl hremove, rfl⟩)
    | false =>
      split
      · next hfalse => cases hfalse
      split
      · exact .inl rfl
      · next hturn =>
        cases hfor : r.isFor lowPriorityUser e.priority with
        | false => exact .inr (.inl ⟨r, rfl, .inr hfor, rfl⟩)
        | true =>
          refine .inr (.inr ⟨r, ?_, rfl, hfor, fun hlow => ?_, ?_⟩)
          · rw [Option.filter_some, if_pos]
            simpa [hremove, hfor, ← imp_iff_not_or] using hturn
          · exact not_lt.mp fun hlt => hturn ⟨hlow, hlt⟩
          · rw [if_pos rfl]
            rcases pushToMysql r e.meets s.db with ⟨result, db⟩
            cases result with
            | failCommit => rfl
            | ok => rfl
            | swallowed => rfl

theorem drop_of_next {records : List Record} {n : ℕ} {r : Record} (h : records[n]? = some r) :
    records.drop n = r :: records.drop (n + 1) := by
  obtain ⟨hlt, rfl⟩ := List.getElem?_eq_some_iff.mp h
  exact List.drop_eq_getElem_cons hlt

variable {records} {r : Record} {s : State} {priority : Priority}

theorem stillFor_commit_self (hnext : records[s.countPopped priority]? = some r) (db : Db) :
    stillFor lowPriorityUser records docId priority s =
      if r.exports docId && r.isFor lowPriorityUser priority then
        r :: stillFor lowPriorityUser records docId priority (s.commit priority db)
      else stillFor lowPriorityUser records docId priority (s.commit priority db) := by
  rw [stillFor, stillFor, drop_of_next hnext, List.filter_cons, State.commit]
  dsimp only
  rw [Function.update_self]

theorem stillFor_commit_of_ne {other priority : Priority} (hne : other ≠ priority) (db : Db) :
    stillFor lowPriorityUser records docId other (s.commit priority db) =
      stillFor lowPriorityUser records docId other s := by
  rw [stillFor, stillFor, State.commit]
  dsimp only
  rw [Function.update_of_ne hne]

theorem stillFor_low_commit (db : Db) :
    stillFor lowPriorityUser records docId .low (s.commit .normal db) =
      stillFor lowPriorityUser records docId .low s :=
  stillFor_commit_of_ne lowPriorityUser docId (by decide) db

theorem stillFor_normal_commit (db : Db) :
    stillFor lowPriorityUser records docId .normal (s.commit .low db) =
      stillFor lowPriorityUser records docId .normal s :=
  stillFor_commit_of_ne lowPriorityUser docId (by decide) db

/-- A record that is passed over is not among those still to be pushed. -/
theorem ahead_pass (hnext : records[s.countPopped priority]? = some r)
    (hpass : (r.exports docId && r.isFor lowPriorityUser priority) = false) (db : Db) :
    ahead lowPriorityUser records docId (s.commit priority db) =
      ahead lowPriorityUser records docId s := by
  have hmine := stillFor_commit_self lowPriorityUser docId hnext db
  rw [hpass, if_neg Bool.false_ne_true] at hmine
  rw [ahead, ahead]
  cases priority with
  | normal => rw [hmine, stillFor_low_commit]
  | low => rw [hmine, stillFor_normal_commit]

/-- Where changes of low priority come last, a record that is pushed is the first of those still
to be pushed. -/
theorem ahead_push (hlast : LowLast lowPriorityUser records docId)
    (hnext : records[s.countPopped priority]? = some r) (hexports : r.exports docId = true)
    (hfor : r.isFor lowPriorityUser priority = true)
    (hturn : priority = .low → s.countPopped .low ≤ s.countPopped .normal) (db : Db) :
    ahead lowPriorityUser records docId s =
      r :: ahead lowPriorityUser records docId (s.commit priority db) := by
  have hmine := stillFor_commit_self lowPriorityUser docId hnext db
  rw [hexports, hfor, Bool.and_self, if_pos rfl] at hmine
  rw [ahead, ahead]
  cases priority with
  | normal =>
    rw [hmine, stillFor_low_commit, List.cons_append]
  | low =>
    -- the other process is ahead, and only records of low priority follow
    have hnone : stillFor lowPriorityUser records docId .normal s = [] := by
      rw [stillFor, List.filter_eq_nil_iff]
      intro r' hr' hboth
      obtain ⟨hexports', hnormal⟩ := Bool.and_eq_true_iff.mp hboth
      have hsub : r' ∈ records.drop (s.countPopped .low) :=
        (List.drop_sublist_drop_left records (hturn rfl)).subset hr'
      have hpairs : ((records.drop (s.countPopped .low)).filter (·.exports docId)).Pairwise _ :=
        hlast.sublist ((List.drop_sublist _ records).filter _)
      rw [drop_of_next hnext] at hsub hpairs
      rw [List.filter_cons, if_pos hexports, List.pairwise_cons] at hpairs
      have hlow : r'.isFor lowPriorityUser .low = true := by
        rcases List.mem_cons.mp hsub with rfl | hsub
        · exact hfor
        · exact hpairs.1 r' (List.mem_filter.mpr ⟨hsub, hexports'⟩) hfor
      rw [isFor_normal, hlow] at hnormal
      cases hnormal
    rw [hmine, stillFor_normal_commit, hnone]
    rfl

/-- Before the first turn all records of the document are still to be pushed, in their order. -/
theorem ahead_start (hlast : LowLast lowPriorityUser records docId) (db : Db) :
    ahead lowPriorityUser records docId ⟨db, fun _ => 0⟩ = records.filter (·.exports docId) := by
  have hsplit : ∀ rs : List Record,
      rs.Pairwise (fun r r' => r.isFor lowPriorityUser .low → r'.isFor lowPriorityUser .low) →
      rs.filter (·.isFor lowPriorityUser .normal) ++ rs.filter (·.isFor lowPriorityUser .low) =
        rs := by
    intro rs hrs
    induction hrs with
    | nil => rfl
    | @cons r rs hr hrs ih =>
      rw [List.filter_cons, List.filter_cons, isFor_normal]
      cases hlow : r.isFor lowPriorityUser .low with
      | false =>
        rw [Bool.not_false, if_pos rfl, if_neg Bool.false_ne_true, List.cons_append, ih]
      | true =>
        have hall : ∀ r' ∈ rs, r'.isFor lowPriorityUser .low = true := fun r' hr' => hr r' hr' hlow
        have hnone : rs.filter (·.isFor lowPriorityUser .normal) = [] := by
          rw [List.filter_eq_nil_iff]
          intro r' hr' hnormal
          rw [isFor_normal, hall r' hr'] at hnormal
          cases hnormal
        rw [Bool.not_true, if_neg Bool.false_ne_true, if_pos rfl, hnone,
          List.filter_eq_self.mpr hall]
        rfl
  rw [ahead, stillFor, stillFor]
  simp only [List.drop_zero, Bool.and_comm (Record.exports _ _), ← List.filter_filter]
  exact hsplit _ hlast

end

/-! ## The invariant -/

/-- The tables hold a state of the document, as far as the next push does not replace it, and the
pushes to come end with the target. -/
def Holds (docId : Text) (target : Individual) (rs : List Record) (db : Db) : Prop :=
  ∃ indv, Chained indv rs ∧ lastOf indv rs = target ∧
    ∀ p, (∀ r ∈ rs.head?, p ∉ r.usePredicates) → rowsAt db docId p = rowsOf indv p

section
variable {docId : Text} {target : Individual} {rs : List Record} {db : Db} {r : Record}

/-- A push of no consequence for the document. -/
theorem Holds.other (h : Holds docId target rs db) (hr : r.isRemove = false)
    (hother : r.exports docId = false) (meets : Meets) :
    Holds docId target rs (pushToMysql r meets db).2 := by
  obtain ⟨indv, hchained, hlast, hrows⟩ := h
  refine ⟨indv, hchained, hlast, fun p hp => ?_⟩
  rw [← hrows p hp]
  rw [Record.exports, hr, Bool.not_false, Bool.true_and, Bool.and_eq_false_iff] at hother
  rcases hother with hneed | huri
  · rw [pushToMysql, hneed]
    rfl
  · exact spares_pushToMysql r meets db docId p (.inl (Ne.symm (of_decide_eq_false huri)))

/-- A push that is to be made again. -/
theorem Holds.again (h : Holds docId target (r :: rs) db) (huri : r.newIndv.uri = docId)
    (meets : Meets) : Holds docId target (r :: rs) (pushToMysql r meets db).2 := by
  obtain ⟨indv, hchained, hlast, hrows⟩ := h
  refine ⟨indv, hchained, hlast, fun p hp => ?_⟩
  rw [← hrows p hp, ← huri]
  exact spares_pushToMysql r meets db _ p (.inr (hp r rfl))

/-- A push that succeeds. -/
theorem Holds.pushed (h : Holds docId target (r :: rs) db) (huri : r.newIndv.uri = docId)
    (hneed : r.needPrepare = true) {meets : Meets} (hok : (pushToMysql r meets db).1 = .ok) :
    Holds docId target rs (pushToMysql r meets db).2 := by
  obtain ⟨indv, ⟨hkeys, hchained⟩, hlast, hrows⟩ := h
  refine ⟨r.newIndv, hchained, hlast, fun p _ => ?_⟩
  by_cases hp : p ∈ r.usePredicates
  · rw [← huri, rowsAt_pushToMysql hneed hok hp]
  · have hold : rowsAt db docId p = [] := by
      rw [hrows p fun r' hr' => by cases hr'; exact hp]
      exact rowsOf_of_notMem fun hmem => hp (hkeys hmem)
    have hnew : p ∉ r.newIndv.resources.keys := fun hmem => hp (List.mem_append_left _ hmem)
    rw [rowsOf_of_notMem hnew, ← hold, ← huri]
    exact spares_pushToMysql r meets db _ p (.inr hp)

variable {lowPriorityUser : Text} {records : List Record} {indv : Individual}

theorem holds_step (hlast : LowLast lowPriorityUser records docId) (e : Event) (s : State)
    (h : Holds docId target (ahead lowPriorityUser records docId s) s.db)
    (hreturns : Returns lowPriorityUser records docId e s) :
    Holds docId target (ahead lowPriorityUser records docId (step lowPriorityUser records e s))
      (step lowPriorityUser records e s).db := by
  obtain hsame | ⟨r, hnext, hpass, hstep⟩ | ⟨r, hpushed, hnext, hfor, hturn, hstep⟩ :=
    step_cases lowPriorityUser records e s
  · rw [hsame]
    exact h
  · have hnot : (r.exports docId && r.isFor lowPriorityUser e.priority) = false := by
      rcases hpass with hremove | hfor
      · rw [Record.exports, hremove]
        rfl
      · rw [hfor, Bool.and_false]
    rw [hstep, ahead_pass lowPriorityUser docId hnext hnot]
    exact h
  · rw [hstep]
    cases hexports : r.exports docId with
    | false =>
      have hremove : r.isRemove = false := by
        have hkept := (Option.mem_filter_iff.mp hpushed).2
        simp only [Bool.and_eq_true, Bool.not_eq_true'] at hkept
        exact hkept.1.1
      split
      · exact h.other hremove hexports _
      · rw [ahead_pass lowPriorityUser docId hnext (by rw [hexports, Bool.false_and])]
        exact h.other hremove hexports _
    | true =>
      obtain ⟨-, hneed, huri⟩ := exports_iff.mp hexports
      have hahead := ahead_push lowPriorityUser docId hlast hnext hexports hfor hturn
        (pushToMysql r e.meets s.db).2
      rw [hahead] at h
      split
      · change Holds docId target (ahead lowPriorityUser records docId s) _
        rw [hahead]
        exact h.again huri _
      · next hfail =>
        refine h.pushed huri hneed ?_
        cases hresult : (pushToMysql r e.meets s.db).1 with
        | ok => rfl
        | failCommit => exact absurd hresult hfail
        | swallowed => exact absurd hresult (hreturns r hpushed hexports)

end

/-- Two states of a document of an exportable type, the second changed by the user of low
priority: what the first one has and the second has not. -/
def sampleRecords : List Record :=
  let empty : Individual := ⟨[1], ∅⟩
  let first := (empty.set (ascii "rdf:type") [.uri [2]]).set [3] [.boolean true, .str [4] .ru]
  let second := empty.set (ascii "rdf:type") [.uri [2]]
  [⟨false, [], empty, first, (· == [2])⟩, ⟨false, [5], first, second, (· == [2])⟩]

def sampleMeets (outcomes : List Outcome) : Meets := ⟨outcomes, id, fun l => .refl l⟩

/-- The first push is made again after a deletion has failed, and the process of low priority waits
for it. -/
def sampleEvents : List Event :=
  [⟨.low, sampleMeets []⟩, ⟨.normal, sampleMeets [.ok, .ok, .ok, .ok, .ok, .lost]⟩,
    ⟨.low, sampleMeets []⟩, ⟨.normal, sampleMeets []⟩, ⟨.low, sampleMeets []⟩,
    ⟨.normal, sampleMeets []⟩]

/-- Were the first state the one by the user of low priority, it could be the last that is
exported. -/
example : rowsAt (run (step [] sampleRecords) ⟨fun _ => none, fun _ => 0⟩
      [⟨.normal, sampleMeets []⟩, ⟨.normal, sampleMeets []⟩, ⟨.low, sampleMeets []⟩]).db [1] [3] ≠
    rowsOf (lastOf Individual.init (sampleRecords.filter (·.exports [1]))) [3] := by
  decide

end Veda.Fanout
