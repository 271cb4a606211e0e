import Mathlib.Data.Int.Notation
import Mathlib.Data.Nat.Notation
import Veda.Lib.Loop

/-! # The queue of a module

`VedaModule.prepare_queue` in `vmodule.d`: the consumers of a module, one for each priority, work
through the same queue of messages, which is a list of parts. A consumer is the part that it reads
and the number of messages that it has committed there. At the end of a part `pop` returns no
message, and goes to the next part where there is one.

All commits succeed. The loop is not left by a signal, and the status `ConsumerIdNotEqual`, which
would leave it too, is set nowhere. -/

namespace Veda.Vmodule

/-- What `prepare` returns, as far as `prepare_queue` tells the codes apart. -/
inductive ResultCode where
  | Ok
  | ConnectError
  | InternalServerError
  | NotReady
  | ServiceUnavailable
  | TooManyRequests
  | other (code : ℕ)
  deriving DecidableEq, Repr

/-- The message is prepared again. -/
def ResultCode.repeats : ResultCode → Bool
  | ConnectError | InternalServerError | NotReady | ServiceUnavailable | TooManyRequests => true
  | Ok | other _ => false

/-- The fields of a message in the queue. -/
structure Message where
  cmd : BitVec 64
  newState : Option String
  prevState : Option String
  userUri : Option String
  eventId : Option String
  src : Option String
  tnxId : BitVec 64
  assignedSubsystems : BitVec 64
  opId : BitVec 64
  deriving DecidableEq

/-- The parts of a queue. A message is `none` if it cannot be deserialized. -/
abbrev Parts := List (List (Option Message))

/-- `id` and `count_popped`. -/
structure Consumer where
  id : ℕ
  countPopped : ℕ
  deriving DecidableEq

namespace Consumer

def init : Consumer := ⟨0, 0⟩

/-- The message that a consumer stands before. -/
def next (parts : Parts) (cs : Consumer) : Option (Option Message) :=
  (parts[cs.id]?.getD [])[cs.countPopped]?

/-- `pop`. -/
def pop (parts : Parts) (cs : Consumer) : Option (Option Message) × Consumer :=
  match cs.next parts with
  | some data => (some data, cs)
  | none => if cs.id + 1 < parts.length then (none, ⟨cs.id + 1, 0⟩) else (none, cs)

/-- `commit_and_next`. -/
def commitAndNext (cs : Consumer) : Consumer := { cs with countPopped := cs.countPopped + 1 }

end Consumer

/-- A call of `prepare`. -/
inductive Call (Indv : Type) where
  /-- For a message of the queue, by the consumer `i` that stands at `cs`. -/
  | message (i : ℕ) (cs : Consumer) (msg : Message) (prevIndv newIndv : Option Indv)
      (countReaded : ℕ)
  /-- For an individual of the batch queue. -/
  | batch (i : ℕ) (cs : Consumer) (uri : String) (indv : Indv) (countReaded : ℕ)

/-- What a module brings. An individual that cannot be deserialized or is not there is `none`, and
so is what `prepare` returns if it throws. -/
structure VedaModule (Indv : Type) where
  subsystemId : BitVec 64
  priority : String → ℤ
  deserialize : String → Option Indv
  getIndividual : String → Option Indv
  /-- `prepare`, after some calls. -/
  prepare : List (Call Indv) → Call Indv → Option ResultCode

/-- The variables of the loop, the queues, and the calls of `prepare`. -/
structure State (Indv : Type) where
  i : ℕ
  mainCs : List Consumer
  /-- What is left of the batch queue, if there is one. -/
  prepareBatch : Option (List String)
  countReaded : ℕ
  countSuccessPrepared : ℕ
  calls : List (Call Indv)

variable {Indv : Type}

/-- `n` consumers at the beginning of the queue. -/
def State.init (n : ℕ) (batch : Option (List String)) : State Indv :=
  ⟨0, List.replicate n .init, batch, 0, 0, []⟩

namespace VedaModule

variable (m : VedaModule Indv)

/-- The two tests of `assigned_subsystems`. -/
def skips (msg : Message) : Bool :=
  if 0 < msg.assignedSubsystems.toInt then
    (msg.assignedSubsystems &&& m.subsystemId) != m.subsystemId
  else if msg.assignedSubsystems.toInt < 0 then
    (msg.assignedSubsystems * -1 &&& m.subsystemId) == m.subsystemId
  else false

/-- The test of `user_uri`. -/
def isOther (i : ℕ) (msg : Message) : Bool :=
  match msg.userUri with
  | none => false
  | some userUri => 3 < userUri.utf8ByteSize && m.priority userUri != i

/-- `new_indv`. -/
def newIndv (msg : Message) : Option Indv := msg.newState.bind m.deserialize

/-- `prev_indv`, which is not read after a `new_state` that cannot be. -/
def prevIndv (msg : Message) : Option Indv :=
  if msg.newState.isSome ∧ (m.newIndv msg).isNone then none else msg.prevState.bind m.deserialize

/-- `main_cs[i].commit_and_next(true)`. -/
def commit (cs : Consumer) (s : State Indv) : State Indv :=
  { s with mainCs := s.mainCs.set s.i cs.commitAndNext }

/-- The call of `prepare` for a message and what follows it. -/
def prepareMessage (cs : Consumer) (msg : Message) (s : State Indv) : State Indv :=
  let s := { s with countSuccessPrepared := s.countSuccessPrepared + 1 }
  let call := Call.message s.i cs msg (m.prevIndv msg) (m.newIndv msg) s.countReaded
  let res := m.prepare s.calls call
  let s := { s with calls := s.calls ++ [call] }
  match res with
  | none => s
  | some res => if res.repeats then { s with i := 0 } else { commit cs s with i := 0 }

/-- An individual of the batch queue. -/
def prepareIndividual (cs : Consumer) (uri : String) (rest : List String) (s : State Indv) :
    State Indv :=
  match m.getIndividual uri with
  | none => { s with prepareBatch := some rest, i := 0 }
  | some indv =>
    let call := Call.batch s.i cs uri indv s.countReaded
    let rc := (m.prepare s.calls call).getD .InternalServerError
    let s := { s with calls := s.calls ++ [call], i := 0 }
    if rc ≠ .ConnectError then { s with prepareBatch := some rest } else s

/-- A turn of the loop. -/
def turn (parts : Parts) (s : State Indv) : Step (State Indv) Unit :=
  match s.mainCs[s.i]? with
  | none => .done () s
  | some cs =>
    let (data, cs) := cs.pop parts
    let s := { s with mainCs := s.mainCs.set s.i cs }
    if data.isNone ∧ s.i + 1 < s.mainCs.length then .next { s with i := s.i + 1 }
    else
      let s := { s with countReaded := s.countReaded + 1 }
      match data with
      | none =>
        match s.prepareBatch with
        | none => .done () s
        | some [] => .done () { s with prepareBatch := none }
        | some (uri :: rest) => .next (m.prepareIndividual cs uri rest s)
      | some none => .next { s with i := 0 }
      | some (some msg) =>
        if m.skips msg then .next (commit cs s)
        else if m.isOther s.i msg then .next { commit cs s with i := 0 }
        else .next (m.prepareMessage cs msg s)

/-- At most `fuel` turns of the loop. -/
def turns (parts : Parts) : ℕ → State Indv → Option (State Indv)
  | 0, _ => none
  | fuel + 1, s =>
    match m.turn parts s with
    | .next s => turns parts fuel s
    | .done _ s => some s

/-- `prepare_queue`. -/
def prepareQueue (parts : Parts) (fuel : ℕ) (s : State Indv) : Option (State Indv) :=
  m.turns parts fuel { s with i := 0 }

end VedaModule

end Veda.Vmodule
