import Mathlib.Data.Int.ModEq
import Veda.Gluecode.PrepareScript
import Veda.Lib.Loop
import Veda.Queue.Consumer

/-! # Long-running scripts

The model of `ltrs_thread` in `ltr_scripts.d`: a task goes through a queue of uris and runs a
script, its codelet, for each of them. The tasks take turns, and all of them use the scripts that
were compiled in the thread. -/

namespace Veda.Gluecode.Ltr

open Onto Queue
open Scripts (ScriptVM ScriptsWorkPlace Sections prepareScript)

/-- What a task was started with. -/
structure TaskInfo where
  queueId : String
  executedScriptBinobj : String
  codeletId : Option String
  deriving DecidableEq

/-- `Task`. The tasks are numbered as they are started. -/
structure Task where
  info : TaskInfo
  number : ℕ
  consumer : Consumer

/-- `Tasks`. -/
abbrev Tasks := AList fun _ : String => Task

/-- A uri that `execute_script` does not turn away. -/
structure Handled where
  number : ℕ
  codeletId : String
  uri : Bytes
  deriving DecidableEq

/-- A run of a script. -/
structure Executed (Script : Type) where
  handled : Handled
  script : Script
  deriving DecidableEq

/-- What the thread calls. The files of the queues do not change. -/
structure Env (Script : Type) where
  vm : ScriptVM Script
  getIndividual : String → Individual
  deserialize : String → Option Individual
  queues : String → Files
  crc32 : Bytes → BitVec 32

/-- The variables of the thread, and what it has done. -/
structure LtrState (Script : Type) where
  wpl : ScriptsWorkPlace Script
  tasks2Priority : AList fun _ : ℤ => Tasks
  started : List TaskInfo
  /-- The tasks that were removed when they were complete. -/
  completed : List ℕ
  handled : List Handled
  executed : List (Executed Script)

variable {Script : Type}

namespace LtrState

def init : LtrState Script := ⟨.new, ∅, [], [], [], []⟩

def task? (s : LtrState Script) (priority : ℤ) (scriptUri : String) : Option Task :=
  (s.tasks2Priority.lookup priority).bind (·.lookup scriptUri)

/-- `tasks_2_priority[ priority ].list[ script_uri ] = task`. -/
def setTask (s : LtrState Script) (priority : ℤ) (scriptUri : String) (task : Task) :
    LtrState Script :=
  let tasks := (s.tasks2Priority.lookup priority).getD ∅
  { s with tasks2Priority := s.tasks2Priority.insert priority (tasks.insert scriptUri task) }

/-- A complete task is removed. -/
def removeTask (s : LtrState Script) (priority : ℤ) (scriptUri : String) (number : ℕ) :
    LtrState Script :=
  let tasks := ((s.tasks2Priority.lookup priority).getD ∅).erase scriptUri
  let tasks2Priority := s.tasks2Priority.insert priority tasks
  { s with
    tasks2Priority := if tasks.keys = [] then tasks2Priority.erase priority else tasks2Priority
    completed := s.completed ++ [number] }

end LtrState

def varsForCodeletScript : String :=
  "var uri = get_env_str_var ('$uri');" ++ "var user_uri = get_env_str_var ('$user');" ++
    "var execute_script = get_individual ('$execute_script');"

/-- The sections of a codelet. -/
def codeletSections : Sections := ⟨"", "", varsForCodeletScript, ""⟩

variable (env : Env Script)

/-- `execute_script`. A script that is compiled here is not looked up again. -/
def executeScript (task : Task) (uri : Bytes) (s : LtrState Script) : LtrState Script :=
  match task.info.codeletId with
  | none => s
  | some scriptUri =>
    if uri.length ≤ 3 ∨ scriptUri.utf8ByteSize ≤ 3 ∨
        task.info.executedScriptBinobj.utf8ByteSize ≤ 3 then s
    else
      let handled : Handled := ⟨task.number, scriptUri, uri⟩
      let s := { s with handled := s.handled ++ [handled] }
      match s.wpl.scripts.lookup scriptUri with
      | none =>
        let codelet := env.getIndividual scriptUri
        { s with wpl := prepareScript env.vm codeletSections s.wpl codelet }
      | some script =>
        match script.compiledScript with
        | none => s
        | some compiledScript => { s with executed := s.executed ++ [⟨handled, compiledScript⟩] }

/-- How the loop over the tasks of a priority is left. -/
inductive Leave where
  | break
  | thrown

/-- The turn of a task. -/
def handleTask (priority : ℤ) (scriptUri : String) (s : LtrState Script) :
    Step (LtrState Script) Leave :=
  match s.task? priority scriptUri with
  | none => .next s
  | some task =>
    let files := env.queues task.info.queueId
    match task.consumer.pop files with
    | (.raised, consumer) => .done .thrown (s.setTask priority scriptUri { task with consumer })
    | (.msg uri, consumer) =>
      let s := executeScript env task uri s
      let (res, consumer) := consumer.commitAndNext env.crc32 files
      let s := s.setTask priority scriptUri { task with consumer }
      if res then .next s else .done .break s
    | (.null, _) => .next (s.removeTask priority scriptUri task.number)

/-- The tasks of a priority. -/
def handlePriority (priority : ℤ) (s : LtrState Script) : Step (LtrState Script) Unit :=
  match s.tasks2Priority.lookup priority with
  | none => .next s
  | some tasks =>
    match Step.loop (handleTask env priority) tasks.keys s with
    | .next s | .done .break s => .next s
    | .done .thrown s => .done () s

/-- `foreach (priority; sort(tasks_2_priority.keys))`. -/
def handleTasks (s : LtrState Script) : LtrState Script :=
  match Step.loop (handlePriority env) (s.tasks2Priority.keys.mergeSort (· ≤ ·)) s with
  | .next s | .done _ s => s

/-- The message `CMD_START`. A task for the same individual takes the place of the one before. -/
def receive (instOfCodelet queueId : String) (s : LtrState Script) : LtrState Script :=
  match env.deserialize instOfCodelet with
  | none => s
  | some indv =>
    if indv.getFirstBoolean "v-s:isSuccess" false then s
    else
      let priority := (indv.getFirstInteger "v-s:priority" 16).bmod (2 ^ 32)
      let codeletId := Scripts.getFirstLiteral indv "v-s:useScript"
      let info : TaskInfo := ⟨queueId, instOfCodelet, codeletId⟩
      let task : Task := ⟨info, s.started.length, .openNew⟩
      { s.setTask priority indv.uri task with started := s.started ++ [info] }

/-- A turn of the loop of `ltrs_thread`, with the message that came in. -/
def turn (s : LtrState Script) (message : Option (String × String)) : LtrState Script :=
  let s :=
    match message with
    | none => s
    | some (instOfCodelet, queueId) => receive env instOfCodelet queueId s
  if s.tasks2Priority.keys.length > 0 then handleTasks env s else s

/-- Turns of the loop. -/
def run (messages : List (Option (String × String))) : LtrState Script :=
  messages.foldl (turn env) .init

end Veda.Gluecode.Ltr
