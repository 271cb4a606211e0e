import Veda.Gluecode.PrepareScript
import Veda.Gluecode.Script
import Veda.Gluecode.SuperClasses

/-! # The process of the event scripts

The model of `prepare` in `scripts.d` and of `is_filter_pass` in `v8d_bind.d`: for a message of
`individuals-flow`, a process runs its scripts one after the other, and the changes that a script
has made are committed and come as messages themselves. What a script does is left open, and so is
what the storage server meets. -/

namespace Veda.Gluecode

open Onto Ontology Scripts
open Mstorage (IndvOp ResultCode Manager Env BinObj)

/-! ## The tests before a script is run -/

/-- `isSubClasses`. -/
def isSubClasses (onto : Onto) (classUri : String) (subclassesUri : Finset String) : Bool :=
  decide (∃ subclassUri ∈ subclassesUri, classUri ∈ onto.getSubClasses subclassUri)

/-- `is_filter_pass`. -/
def isFilterPass {Script : Type} (script : ScriptInfo Script) (individualId : String)
    (indvTypes : List String) (onto : Onto) : Bool :=
  if indvTypes.any fun indvType => decide (indvType ∈ script.preventByType) ||
      isSubClasses onto indvType script.preventByType then false
  else if script.triggerByUid = ∅ ∧ script.triggerByType = ∅ then true
  else decide (individualId ∈ script.triggerByUid) ||
    indvTypes.any fun indvType => decide (indvType ∈ script.triggerByType) ||
      isSubClasses onto indvType script.triggerByType

/-- `MAX_COUNT_LOOPS`. -/
def maxCountLoops : ℕ := 100

/-- `run_script_id`. -/
def runScriptId (individualId scriptId : String) : String := individualId ++ "+" ++ scriptId

/-- `event_id.split(";")`. -/
def fullPathEls (eventId : String) : List (List Char) :=
  if eventId = "" then [] else eventId.toList.splitOn ';'

/-- The tests of `event_id`, which name the scripts that led to the message. -/
def isLooped (eventId runScriptId : String) : Bool :=
  if 1 < eventId.utf8ByteSize then
    let els := fullPathEls eventId
    els.head? = some runScriptId.toList || els.head? = some "IGNORE".toList ||
      decide (maxCountLoops < els.count runScriptId.toList)
  else false

/-! ## The process -/

/-- A message of `individuals-flow`. -/
structure Message where
  item : Mstorage.TransactionItem
  src : Option String

/-- `new_indv`. -/
def Message.newIndv (msg : Message) : Individual :=
  (msg.item.newBinobj.bind BinObj.deserialize).getD .init

/-- `class ScriptProcess`. -/
structure ScriptProcess (Script : Type) where
  vmId : String
  queueName : String
  scriptVm : ScriptVM Script
  sections : Sections
  wpl : ScriptsWorkPlace Script
  onto : Onto
  /-- The messages that the consumer has committed. -/
  countPopped : ℕ

/-- What goes on around a call of `prepare`. -/
structure Surroundings where
  env : Env
  /-- The user of a ticket. -/
  userOf : String → Option String
  /-- The calls of a script; there are none if it throws. -/
  calls : String → Manager → Option (List Call)

/-- The calls of the binding all pass `g_event_id`. -/
def Call.within (gEventId : String) : Call → Call
  | .putIndividual caller obj => .putIndividual ⟨caller.ticketId, gEventId⟩ obj
  | .addToIndividual caller obj => .addToIndividual ⟨caller.ticketId, gEventId⟩ obj
  | .setInIndividual caller obj => .setInIndividual ⟨caller.ticketId, gEventId⟩ obj
  | .removeFromIndividual caller obj => .removeFromIndividual ⟨caller.ticketId, gEventId⟩ obj
  | .removeIndividual caller uri => .removeIndividual ⟨caller.ticketId, gEventId⟩ uri

/-- The items that the manager has pushed, the oldest first. -/
def pushed (m m' : Manager) : List Mstorage.TransactionItem :=
  ((m'.flow.take (m'.flow.length - m.flow.length)).map Prod.fst).reverse

namespace ScriptProcess

variable {Script : Type} (w : Surroundings) (p : ScriptProcess Script) (msg : Message)

/-- The tests of a script. -/
def starts (scriptId : String) (script : ScriptInfo Script) : Bool :=
  script.compiledScript.isSome &&
    (if msg.src = some "?" then
      (getFirstLiteral msg.newIndv "v-s:runAt").getD script.runAt = p.vmId
    else true) &&
    isFilterPass script msg.newIndv.uri msg.newIndv.types p.onto &&
    (script.isUnsafe || !isLooped msg.item.eventId (runScriptId msg.newIndv.uri scriptId))

/-- The run of a script, and the commit of its transaction. An exception of the script is caught. -/
def runScript (scriptId : String) (m : Manager) : ResultCode × Manager :=
  let gEventId := runScriptId msg.newIndv.uri scriptId ++ ";" ++ msg.item.eventId
  match w.calls scriptId m with
  | none => (.ok, m)
  | some calls =>
    let tnx := runCalls m.storage (calls.map (Call.within gEventId))
    Core.commit (Core.mstorage w.env w.userOf) tnx.queue m

/-- `tnx.src`. -/
def tnxSrc (script : ScriptInfo Script) : Option String :=
  if script.disallowChangingSource then msg.src else some p.queueName

/-- The loop over `scripts_order`, with the messages that are pushed in it. There is no result code
if it throws. -/
def runScripts : List String → Manager → Option ResultCode × List Message × Manager
  | [], m => (some .ok, [], m)
  | scriptId :: scriptIds, m =>
    match p.wpl.scripts.lookup scriptId with
    | none => (none, [], m)
    | some script =>
      if p.starts msg scriptId script then
        let (res, m') := runScript w msg scriptId m
        let messages := (pushed m m').map fun item => ⟨item, p.tnxSrc msg script⟩
        if res ≠ .ok then (some res, messages, m')
        else
          let (rc, rest, m'') := runScripts scriptIds m'
          (rc, messages ++ rest, m'')
      else runScripts scriptIds m

/-- What `prepare` does to the variables of the process before the scripts are run. -/
def prepared (order : Order) : ScriptProcess Script :=
  let types := msg.newIndv.types
  let prepareIfIsScript := "v-s:Event" ∈ types ∨ (p.wpl.scripts.lookup msg.newIndv.uri).isSome
  { p with
    wpl := if prepareIfIsScript then prepareScript p.scriptVm p.sections p.wpl msg.newIndv else p.wpl
    onto := (Events.setGSuperClasses order p.onto types).1 }

/-- `prepare`. -/
def prepare (order : Order) (m : Manager) :
    Option ResultCode × ScriptProcess Script × List Message × Manager :=
  if msg.item.cmd = .remove then (some .ok, p, [], m)
  else if msg.src ≠ some "?" ∧ msg.src ≠ some p.queueName then (some .ok, p, [], m)
  else if "v-s:PermissionStatement" ∈ msg.newIndv.types ∨ "v-s:Membership" ∈ msg.newIndv.types then
    (some .ok, p, [], m)
  else
    let p := p.prepared msg order
    let (rc, messages, m) := p.runScripts w msg p.wpl.scriptsOrder m
    (rc, p, messages, m)

end ScriptProcess

/-! ## The system -/

/-- The storage server, its queue and the processes that read it. -/
structure System (Script : Type) where
  manager : Manager
  /-- `individuals-flow`, the oldest message first. -/
  flow : List Message
  processes : List (ScriptProcess Script)

/-- The codes for which `prepare_queue` does not commit the message. -/
def repeats (rc : ResultCode) : Bool := rc = .notReady || rc = .internalServerError

/-- A process is done with its next message, and the messages that this leads to are pushed. A
message that is not for it, or that cannot be read, it passes over. -/
inductive Handled {Script : Type} (order : Order) : System Script → System Script → Prop where
  | prepared {manager manager' : Manager} {flow messages : List Message}
      {before after : List (ScriptProcess Script)} {p p' : ScriptProcess Script} {msg : Message}
      {w : Surroundings} {rc : ResultCode} (hmsg : flow[p.countPopped]? = some msg)
      (hprepare : p.prepare w msg order manager = (some rc, p', messages, manager'))
      (hrc : repeats rc = false) :
    Handled order ⟨manager, flow, before ++ p :: after⟩ ⟨manager', flow ++ messages,
      before ++ { p' with countPopped := p.countPopped + 1 } :: after⟩
  | passedOver {manager : Manager} {flow : List Message}
      {before after : List (ScriptProcess Script)} {p : ScriptProcess Script}
      (hmsg : p.countPopped < flow.length) :
    Handled order ⟨manager, flow, before ++ p :: after⟩
      ⟨manager, flow, before ++ { p with countPopped := p.countPopped + 1 } :: after⟩

end Veda.Gluecode
