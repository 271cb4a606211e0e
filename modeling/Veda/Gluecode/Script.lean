import Veda.Core.Server

/-! # The transaction of a script

The model of the calls that `v8d_bind.d` offers to a script: the changes, which are collected in a
transaction (`fill_TransactionItem`), and `read_individual`. -/

namespace Veda.Gluecode

open Onto Veda.Core
open Mstorage hiding TransactionItem

/-- An item of the queue. The map `resources` of an individual is a reference: `cell` names the map
of `new_indv`, and is `none` where there is none. Items with one map show the same values. -/
structure Entry where
  item : TransactionItem
  cell : Option Nat

/-- `Transaction`, as a script fills it. -/
abbrev Transaction := List Entry

def Entry.uri (e : Entry) : String := e.item.newIndv.uri

/-- The map that is named by `cell` is changed. -/
def Entry.share (cell : Option Nat) (resources : AList fun _ : String => Resources) (e : Entry) :
    Entry :=
  if e.cell = cell ∧ cell ≠ none then
    { e with item := { e.item with newIndv := ⟨e.uri, resources⟩ } }
  else e

namespace Transaction

/-- `get`: in `buff` an item takes the place of the one that was added before it under its uri. -/
def get (tnx : Transaction) (uri : String) : Option Entry :=
  tnx.foldl (fun found e => if e.uri = uri then some e else found) none

/-- A map is changed, for all the items that refer to it. -/
def share (tnx : Transaction) (cell : Option Nat)
    (resources : AList fun _ : String => Resources) : Transaction :=
  tnx.map (Entry.share cell resources)

/-- The queue as `commit` gets it. -/
def queue (tnx : Transaction) : List TransactionItem := tnx.map Entry.item

end Transaction

/-- A map is there once it has a key; a new one is named after the place of its item. -/
def ownCell (tnx : Transaction) (indv : Individual) : Option Nat :=
  if indv.resources.keys = [] then none else some tnx.length

/-- The individual that a change is merged into, with its status and its map. -/
structure Prev where
  indv : Individual
  status : ResultCode
  cell : Option Nat

/-- `get_individual` of the context. -/
def getIndividual (storage : Storage) (tnx : Transaction) (uri : String) : Prev :=
  match readPrev storage uri with
  | some (some indv) => ⟨indv, .ok, ownCell tnx indv⟩
  | some none => ⟨.init, .notFound, none⟩
  | none => ⟨.init, .unprocessableEntity, none⟩

/-- The choice between the transaction and the storage. -/
def getPrev (storage : Storage) (tnx : Transaction) (uri : String) : Prev :=
  match tnx.get uri with
  | some e =>
    match e.item.newBinobj with
    | some _ => ⟨e.item.newIndv, e.item.status, e.cell⟩
    | none => getIndividual storage tnx uri
  | none => getIndividual storage tnx uri

/-- The ticket and the event of a call. -/
structure Caller where
  ticketId : String
  eventId : String

/-- The item of an individual that is passed, before anything is merged. -/
def newItem (caller : Caller) (obj : BinObj) (indv : Individual) : TransactionItem where
  cmd := .put
  ticketId := caller.ticketId
  eventId := caller.eventId
  uri := indv.uri
  newBinobj := some obj
  newIndv := indv
  status := .ok
  assignedSubsystems := allModules
  rc := .ok

/-- A change is merged into the individual before it and becomes a `PUT`. The map of that
individual is changed in place. -/
def merge (caller : Caller) (tnx : Transaction) (cmd : IndvOp) (obj : BinObj) (indv : Individual)
    (prev : Prev) : Transaction :=
  let new := indvApplyCmd cmd prev.indv indv
  let cell := if prev.cell = none then ownCell tnx new else prev.cell
  tnx.share prev.cell new.resources ++
    [⟨{ newItem caller obj indv with newIndv := new }, cell⟩]

/-- `fill_TransactionItem` and `add` for all commands but `REMOVE`. -/
def fill (caller : Caller) (storage : Storage) (tnx : Transaction) (cmd : IndvOp) (obj : BinObj) :
    ResultCode × Transaction :=
  match obj.deserialize with
  | none => (.unprocessableEntity, tnx)
  | some indv =>
    let prev := getPrev storage tnx indv.uri
    if cmd ≠ .put ∧ prev.status = .ok then (.ok, merge caller tnx cmd obj indv prev)
    else (.ok, tnx ++ [⟨newItem caller obj indv, ownCell tnx indv⟩])

/-- `fill_TransactionItem` and `add` for `REMOVE`: the text is the address. -/
def fillRemove (caller : Caller) (tnx : Transaction) (uri : String) : Transaction :=
  tnx ++ [{
    item := {
      cmd := .remove
      ticketId := caller.ticketId
      eventId := caller.eventId
      uri := ""
      newBinobj := if uri = "" then none else some .invalid
      newIndv := ⟨uri, ∅⟩
      status := .zero
      assignedSubsystems := allModules
      rc := .ok }
    cell := none }]

/-- The calls of a script that change something. -/
inductive Call where
  | putIndividual (caller : Caller) (obj : BinObj)
  | addToIndividual (caller : Caller) (obj : BinObj)
  | setInIndividual (caller : Caller) (obj : BinObj)
  | removeFromIndividual (caller : Caller) (obj : BinObj)
  | removeIndividual (caller : Caller) (uri : String)

/-- What a call returns to the script, and the transaction. -/
def call (storage : Storage) (tnx : Transaction) : Call → ResultCode × Transaction
  | .putIndividual caller obj => fill caller storage tnx .put obj
  | .addToIndividual caller obj => fill caller storage tnx .addIn obj
  | .setInIndividual caller obj => fill caller storage tnx .setIn obj
  | .removeFromIndividual caller obj => fill caller storage tnx .removeFrom obj
  | .removeIndividual caller uri => (.ok, fillRemove caller tnx uri)

/-- The calls of a script, one after the other, while the storage does not change. -/
def runCalls (storage : Storage) (calls : List Call) : Transaction :=
  calls.foldl (fun tnx c => (call storage tnx c).2) []

/-- What the special names stand for; `none` is an empty buffer. -/
structure Documents where
  document : Option BinObj
  prevState : Option BinObj
  executeScript : Option BinObj

/-- The names that `read_individual` does not look up. -/
def reserved (docs : Documents) (uri : String) : Option (Option BinObj) :=
  if uri = "undefined" then some none
  else if uri = "$document" then some docs.document
  else if uri = "$prev_state" then some docs.prevState
  else if uri = "$execute_script" then some docs.executeScript
  else none

/-- `read_individual`. -/
def readIndividual (docs : Documents) (storage : Storage) (tnx : Transaction) (uri : String) :
    Option BinObj :=
  match reserved docs uri with
  | some text => text
  | none =>
    match tnx.get uri with
    | some e => e.item.newBinobj.or (storage uri)
    | none => storage uri

end Veda.Gluecode
