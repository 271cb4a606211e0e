import Mathlib.Data.Finset.Card
import Mathlib.Data.Finset.Dedup
import Veda.Onto.Individual

/-! # The scripts of a process

The model of `script.d`: the scripts that were compiled, and the order in which they are run. -/

namespace Veda.Gluecode.Scripts

open Onto

/-- `ScriptVM`. What it compiles to is left open, and there is nothing where `compile` throws. -/
structure ScriptVM (Script : Type) where
  compile : String → Option Script

/-- `ScriptInfo`. A `bool[ string ]` is the set of its keys. -/
structure ScriptInfo (Script : Type) where
  id : String
  strScript : String
  triggerByType : Finset String
  preventByType : Finset String
  triggerByUid : Finset String
  dependency : Finset String
  compiledScript : Option Script
  runAt : String
  disallowChangingSource : Bool
  isUnsafe : Bool

/-- `ScriptsWorkPlace`. -/
structure ScriptsWorkPlace (Script : Type) where
  scripts : AList fun _ : String => ScriptInfo Script
  scriptsOrder : List String

variable {Script : Type}

namespace ScriptsWorkPlace

/-- `new ScriptsWorkPlace`. -/
def new : ScriptsWorkPlace Script := ⟨∅, []⟩

/-- The keys of `wpl.scripts[oo].dependency`. -/
def dependencyOf (wpl : ScriptsWorkPlace Script) (oo : String) : Finset String :=
  ((wpl.scripts.lookup oo).map ScriptInfo.dependency).getD ∅

end ScriptsWorkPlace

/-- The texts around the one of a script. -/
structure Sections where
  firstSection : String
  beforeVars : String
  varsEnv : String
  afterVars : String

/-- `str_script`. -/
def Sections.strScript (sections : Sections) (uri scriptsText : String) : String :=
  sections.firstSection ++ "try \x7b var ticket = get_env_str_var ('$ticket');" ++
    sections.beforeVars ++ "var _script_id = '" ++ uri ++ "';" ++ sections.varsEnv ++ "script();" ++
    sections.afterVars ++ "function script() \x7b" ++ scriptsText ++
    "\x7d; \x7d catch (e) \x7b log_trace (e); \x7d"

/-- `getFirstLiteral`. -/
def getFirstLiteral (indv : Individual) (predicate : String) : Option String :=
  (indv.getResources predicate).head?.map Resource.getString

/-- `foreach (filter; rss) names[ filter.uri ] = true`. -/
def names (rss : Resources) : Finset String := (rss.map Resource.uriOf).toFinset

/-- What a script that was compiled is stored as. -/
def scriptInfo (ss : Individual) (strScript : String) (compiledScript : Script) :
    ScriptInfo Script where
  id := ss.uri
  strScript := strScript
  triggerByType := names (ss.getResources "v-s:triggerByType")
  preventByType := names (ss.getResources "v-s:preventByType")
  triggerByUid := names (ss.getResources "v-s:triggerByUid")
  dependency := names (ss.getResources "v-s:dependency")
  compiledScript := some compiledScript
  runAt := (getFirstLiteral ss "v-s:runAt").getD "main"
  disallowChangingSource := ss.getFirstBoolean "v-s:disallowChangingSource" false
  isUnsafe := ss.getFirstBoolean "v-s:unsafe" false

/-- The variables of the loop over `scripts_order`. -/
structure Insertion where
  countFindDependency : ℕ
  inserted : Bool
  newScriptsOrder : List String

/-- One pass of the loop over `scripts_order`. -/
def insertionStep (wpl : ScriptsWorkPlace Script) (script : ScriptInfo Script) (st : Insertion)
    (oo : String) : Insertion :=
  let count :=
    if st.countFindDependency < script.dependency.card ∧ script.id ∈ wpl.dependencyOf oo then
      st.countFindDependency + 1
    else st.countFindDependency
  let here := st.inserted = false ∧ script.dependency.card ≤ count
  { countFindDependency := count
    inserted := st.inserted || decide here
    newScriptsOrder := st.newScriptsOrder ++ (if here then [script.id] else []) ++
      if oo ≠ script.id then [oo] else [] }

/-- The order with a script put in. -/
def insertScript (wpl : ScriptsWorkPlace Script) (script : ScriptInfo Script) : List String :=
  let st := wpl.scriptsOrder.foldl (insertionStep wpl script) ⟨0, false, []⟩
  if st.inserted = false then st.newScriptsOrder ++ [script.id] else st.newScriptsOrder

/-- A script is stored and put into the order. -/
def load (wpl : ScriptsWorkPlace Script) (script : ScriptInfo Script) : ScriptsWorkPlace Script :=
  let wpl := { wpl with scripts := wpl.scripts.insert script.id script }
  { wpl with scriptsOrder := insertScript wpl script }

def isDisabled (ss : Individual) : Bool :=
  ss.isExists "v-s:deleted" true || ss.isExists "v-s:disabled" true

/-- The script that a call of `prepare_script` compiles. -/
def compiled? (vm : ScriptVM Script) (sections : Sections) (ss : Individual) :
    Option (ScriptInfo Script) :=
  if isDisabled ss then none
  else
    let scriptsText := (ss.getFirstResource "v-s:script").getString
    if scriptsText.utf8ByteSize ≤ 0 then none
    else
      let strScript := sections.strScript ss.uri scriptsText
      (vm.compile strScript).map (scriptInfo ss strScript)

/-- `prepare_script`. -/
def prepareScript (vm : ScriptVM Script) (sections : Sections) (wpl : ScriptsWorkPlace Script)
    (ss : Individual) : ScriptsWorkPlace Script :=
  if isDisabled ss then
    match wpl.scripts.lookup ss.uri with
    | none => wpl
    | some script =>
      { wpl with scripts := wpl.scripts.insert ss.uri { script with compiledScript := none } }
  else
    match compiled? vm sections ss with
    | none => wpl
    | some script => load wpl script

end Veda.Gluecode.Scripts
