import Veda.Bj8individual.IndividualJson

/-! # The export to MySQL

The model of `push_to_mysql` and of `prepare` in `to_sql.d`. There is a table for each predicate,
and a row for each value and type of a document. A statement may fail, and then it may have been
carried out all the same. The tables are of `MyISAM`, where `ROLLBACK` takes nothing back. -/

namespace Veda.Fanout

open Bj8individual (Text ascii Lang Resource Resources Individual)
open Bj8individual.Json (bytes langText)
open Bj8individual.SysTime (toISOExtString unixTimeToStdTime)

/-! ## Values -/

/-- `get!string`, where the value is a text. -/
def getString : Resource → Option Text
  | .uri s | .str s _ | .binary s => some s
  | _ => none

/-- `getFirstLiteral`. -/
def getFirstLiteral (indv : Individual) (predicate : Text) : Option Text :=
  (indv.get predicate).head?.bind getString

/-- `isExists` for `true`. -/
def isExists (indv : Individual) (predicate : Text) : Bool :=
  (indv.get predicate).any (· == .boolean true)

/-- `asString`; `none` is an error of a slice. -/
def asString : Resource → Option Text
  | .uri s | .str s _ => some s
  | .boolean b => some (ascii (if b then "true" else "false"))
  | .datetime n => some (toISOExtString (unixTimeToStdTime n))
  | .decimal mantissa exponent =>
    (Common.Decimal.mk (.ofBitVec mantissa) (.ofBitVec exponent)).asString.map bytes
  | .integer n => some (bytes (Common.text n.toInt))
  | .binary _ => some []

/-- `text(rs.lang)`. -/
def langOf : Resource → Text
  | .str _ lang => langText lang
  | _ => langText .none

/-! ## The database -/

/-- The column `value`. -/
inductive Cell where
  | bool (b : Bool)
  | text (s : Text)
  deriving DecidableEq

structure Row where
  docId : Text
  docType : Text
  created : Text
  value : Cell
  /-- `NULL` for a boolean. -/
  lang : Option Text
  deleted : Bool
  deriving DecidableEq

structure Table where
  rows : List Row
  /-- The table has the column `deleted`. -/
  hasDeleted : Bool

/-- The tables by their names. -/
abbrev Db := Text → Option Table

/-- The rows of a document in a table. -/
def rowsAt (db : Db) (docId predicate : Text) : List Row :=
  ((db predicate).map Table.rows |>.getD []).filter (·.docId = docId)

/-- What a statement raises, as far as the messages are told apart. -/
inductive Failure where
  | doesntExist
  | unknownColumn
  /-- Any other exception. -/
  | other
  /-- An error of a slice, which is no `Exception`. -/
  | error
  deriving DecidableEq

/-- A statement in a healthy database. -/
inductive Statement where
  /-- `START TRANSACTION`, `COMMIT`, `ROLLBACK`, `SET NAMES` and the queries. -/
  | plain
  | createTable (predicate : Text)
  | delete (predicate docId : Text)
  | insert (predicate : Text) (row : Row)
  | addDeleted (predicate : Text)

def Statement.run (db : Db) : Statement → Except Failure Db
  | plain => .ok db
  | createTable predicate =>
    match db predicate with
    | none => .ok (Function.update db predicate (some ⟨[], true⟩))
    | some _ => .error .other
  | delete predicate docId =>
    match db predicate with
    | none => .error .doesntExist
    | some table => .ok (Function.update db predicate
        (some { table with rows := table.rows.filter (·.docId ≠ docId) }))
  | insert predicate row =>
    match db predicate with
    | none => .error .doesntExist
    | some table =>
      if table.hasDeleted then .ok (Function.update db predicate
        (some { table with rows := table.rows ++ [row] }))
      else .error .unknownColumn
  | addDeleted predicate =>
    match db predicate with
    | none => .error .doesntExist
    | some table =>
      if table.hasDeleted then .error .other
      else .ok (Function.update db predicate (some { table with hasDeleted := true }))

/-- What becomes of a statement. -/
inductive Outcome where
  | ok
  /-- It fails without being carried out. -/
  | fails
  /-- It is carried out, and fails all the same. -/
  | lost
  deriving DecidableEq

/-- The database, what becomes of the next statements, none of which fails after these, and
`existsTable`. -/
structure Conn where
  db : Db
  outcomes : List Outcome
  existsTable : List Text

/-- `mysql_conn.query`. -/
def Conn.query (c : Conn) (statement : Statement) : Option Failure × Conn :=
  match statement.run c.db, c.outcomes.headD .ok with
  | .error failure, _ => (some failure, { c with outcomes := c.outcomes.tail })
  | .ok db, .ok => (none, { c with db := db, outcomes := c.outcomes.tail })
  | .ok _, .fails => (some .other, { c with outcomes := c.outcomes.tail })
  | .ok db, .lost => (some .other, { c with db := db, outcomes := c.outcomes.tail })

/-! ## The export -/

/-- One thing after the other, as long as nothing is raised. -/
def andThen (r : Option Failure × Conn) (next : Conn → Option Failure × Conn) :
    Option Failure × Conn :=
  match r with
  | (none, c) => next c
  | (some failure, c) => (some failure, c)

/-- A loop. -/
def forEach {α : Type} (body : α → Conn → Option Failure × Conn) :
    List α → Conn → Option Failure × Conn
  | [], c => (none, c)
  | x :: xs, c => andThen (body x c) (forEach body xs)

/-- `create_table_if_not_exists`. -/
def createTableIfNotExists (predicate : Text) (c : Conn) : Option Failure × Conn :=
  if c.existsTable.contains predicate then (none, c)
  else
    andThen (c.query .plain) fun c =>
      if (c.db predicate).isNone then
        andThen (c.query (.createTable predicate)) fun c =>
          (none, { c with existsTable := predicate :: c.existsTable })
      else (none, { c with existsTable := predicate :: c.existsTable })

/-- The row of a value for a type; `none` where a text cannot be made. -/
def rowOf (indv : Individual) (rs rtype : Resource) : Option Row := do
  let created ← asString ((indv.get (ascii "v-s:created")).headD (.uri []))
  let row := Row.mk indv.uri ((getString rtype).getD []) created
  match rs with
  | .boolean b => return row (.bool b) none (isExists indv (ascii "v-s:deleted"))
  | _ =>
    return row (.text (← asString rs)) (some (langOf rs)) (isExists indv (ascii "v-s:deleted"))

/-- The values of a predicate, for each type of the document. -/
def valuesOf (indv : Individual) (predicate : Text) : List (Resource × Resource) :=
  (indv.get predicate).flatMap fun rs => (indv.get (ascii "rdf:type")).map fun rtype => (rs, rtype)

/-- The statements for one value and one type. -/
def insertValue (indv : Individual) (predicate : Text) (value : Resource × Resource) (c : Conn) :
    Option Failure × Conn :=
  andThen (c.query .plain) fun c =>
    match rowOf indv value.1 value.2 with
    | none => (some .error, c)
    | some row => c.query (.insert predicate row)

/-- `insert_to_sql`. -/
def insertToSql (indv : Individual) (predicate : Text) (c : Conn) : Option Failure × Conn :=
  if indv.get predicate = [] then (none, c)
  else
    andThen (createTableIfNotExists predicate c) <|
      forEach (insertValue indv predicate) (valuesOf indv predicate)

/-- How `push_to_mysql` ends. -/
inductive Result where
  | ok
  | failCommit
  /-- It is left by something that is raised; then it returns `Ok` too. -/
  | swallowed
  deriving DecidableEq

/-- `ROLLBACK` and the return of `FailCommit`. -/
def rollback (c : Conn) : Result × Conn :=
  match c.query .plain with
  | (none, c) => (.failCommit, c)
  | (some _, c) => (.swallowed, c)

/-- The loop that deletes. -/
def deleteAll (docId : Text) : List Text → Conn → Option Result × Conn
  | [], c => (none, c)
  | predicate :: predicates, c =>
    match c.query (.delete predicate docId) with
    | (none, c) | (some .doesntExist, c) => deleteAll docId predicates c
    | (some _, c) => Prod.map some id (rollback c)

/-- The loop that inserts. -/
def insertAll (indv : Individual) : List Text → Conn → Option Result × Conn
  | [], c => (none, c)
  | predicate :: predicates, c =>
    match insertToSql indv predicate c with
    | (none, c) => insertAll indv predicates c
    | (some .error, c) => (some .swallowed, c)
    | (some .unknownColumn, c) =>
      match andThen (c.query (.addDeleted predicate)) (insertToSql indv predicate) with
      | (none, c) => insertAll indv predicates c
      | (some _, c) => (some .swallowed, c)
    | (some _, c) => Prod.map some id (rollback c)

/-- A record of the queue. -/
structure Record where
  isRemove : Bool
  userUri : Text
  prevIndv : Individual
  newIndv : Individual
  /-- The types that are subclasses of `v-s:Exportable`. -/
  isExportable : Text → Bool

/-- The tests for drafts and other versions, and for the types. -/
def Record.needPrepare (r : Record) : Bool :=
  (getFirstLiteral r.newIndv (ascii "v-s:isDraftOf")).isNone &&
    ((getFirstLiteral r.newIndv (ascii "v-s:actualVersion")).getD r.newIndv.uri = r.newIndv.uri) &&
    (r.newIndv.get (ascii "rdf:type")).any fun type => (getString type).any r.isExportable

/-- The predicates of the new state and those of the state before. -/
def Record.usePredicates (r : Record) : List Text :=
  let keys := r.newIndv.resources.keys
  keys ++ r.prevIndv.resources.keys.filter (!keys.contains ·)

/-- What a push meets: the failures, and the order of the array `use_predicates`. -/
structure Meets where
  outcomes : List Outcome
  order : List Text → List Text
  perm : ∀ l, (order l).Perm l

/-- `push_to_mysql`. -/
def pushToMysql (r : Record) (meets : Meets) (db : Db) : Result × Db :=
  let c : Conn := ⟨db, meets.outcomes, []⟩
  if !r.needPrepare then (.ok, db)
  else
    let indv := r.newIndv
    let predicates := indv.resources.keys
    let created := andThen (c.query .plain) <| forEach createTableIfNotExists
      (predicates.filter fun predicate => indv.get predicate ≠ [])
    match created with
    | (some _, c) => (.swallowed, c.db)
    | (none, c) =>
      match deleteAll indv.uri (meets.order r.usePredicates) c with
      | (some result, c) => (result, c.db)
      | (none, c) =>
        match insertAll indv predicates c with
        | (some result, c) => (result, c.db)
        | (none, c) =>
          match c.query .plain with
          | (none, c) => (.ok, c.db)
          | (some _, c) => (.swallowed, c.db)

/-! ## The two processes -/

/-- `priority`. -/
inductive Priority where
  | normal
  | low
  deriving DecidableEq

/-- The tables, and how many records of the queue each process has committed. -/
structure State where
  db : Db
  countPopped : Priority → ℕ

/-- A record is pushed by the process of one priority. -/
def Record.isFor (r : Record) (lowPriorityUser : Text) : Priority → Bool
  | .low => r.userUri = lowPriorityUser
  | .normal => r.userUri ≠ lowPriorityUser

/-- A process prepares its next record. -/
structure Event where
  priority : Priority
  meets : Meets

section
variable (lowPriorityUser : Text) (records : List Record)

/-- `prepare`, and the commit of the record unless it is `NotReady`. The process of low priority
waits until the other one has come as far. -/
def step (e : Event) (s : State) : State :=
  match records[s.countPopped e.priority]? with
  | none => s
  | some r =>
    let committed := Function.update s.countPopped e.priority (s.countPopped e.priority + 1)
    if r.isRemove then { s with countPopped := committed }
    else if e.priority = .low ∧ s.countPopped .normal < s.countPopped .low then s
    else if r.isFor lowPriorityUser e.priority then
      match pushToMysql r e.meets s.db with
      | (.failCommit, db) => { s with db := db }
      | (_, db) => ⟨db, committed⟩
    else { s with countPopped := committed }

end

end Veda.Fanout
