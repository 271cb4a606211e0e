import Mathlib.Data.List.AList
import Veda.Bj8individual.Individual
import Veda.Mstorage.StorageManager

/-! # Individuals in JSON

The model of `json_to_resource` and `json_to_individual` in `individual8json.d` and of the branches
of `execute_json` in `mstorage.d` that store individuals. Arithmetic on floating point numbers and
the reading of dates are left open, and so is what `add_to_transaction` does. -/

namespace Veda.Bj8individual.Json

open Mstorage (IndvOp)

/-- `JSONValue`. The entries of an object are in the order in which the associative array is gone
through. -/
inductive JSONValue (F : Type) where
  | null
  | true
  | false
  | integer (n : BitVec 64)
  | uinteger (n : BitVec 64)
  | floating (x : F)
  | string (s : Text)
  | array (values : List (JSONValue F))
  | object (entries : List (Text × JSONValue F))

/-- How a computation fails: it throws, or it never returns. -/
inductive Failure where
  | exception
  | endless
  deriving DecidableEq

/-- `struct decimal`. -/
structure Decimal where
  mantissa : BitVec 64
  exponent : BitVec 8
  deriving DecidableEq

/-- `enum DataType : ubyte`. A cast makes one of any byte. -/
abbrev DataType := BitVec 8

namespace DataType

def uri : DataType := 1
def string : DataType := 2
def integer : DataType := 4
def datetime : DataType := 8
def decimal : DataType := 32
def boolean : DataType := 64
def binary : DataType := 128

def all : List DataType := [uri, string, integer, datetime, decimal, boolean, binary]

end DataType

/-- `Resource_type`. -/
def resourceType : List (Text × DataType) :=
  [(ascii "Uri", .uri), (ascii "String", .string), (ascii "Integer", .integer),
    (ascii "Datetime", .datetime), (ascii "Decimal", .decimal), (ascii "Boolean", .boolean),
    (ascii "Binary", .binary)]

/-- `Lang`, with the bytes of `enum LANG`. -/
def langs : List (Text × BitVec 8) :=
  [(ascii "NONE", 0), (ascii "none", 0), (ascii "RU", 1), (ascii "ru", 1), (ascii "EN", 2),
    (ascii "en", 2)]

/-- `m_data` of a `Resource`, by how it was written. -/
inductive Content where
  | null
  | text (s : Text)
  | long (n : BitVec 64)
  | bool (b : Bool)
  | decimal (d : Decimal)
  deriving DecidableEq

/-- `struct Resource`. -/
structure Resource where
  type : DataType
  lang : BitVec 8
  data : Content
  deriving DecidableEq

/-- `Resource.init`. -/
def Resource.init : Resource := ⟨.uri, 0, .null⟩

/-- `resource.data = str`, where the text may be null. -/
def Resource.setData (resource : Resource) (str : Option Text) : Resource :=
  { resource with type := .string, data := str.elim .null .text }

/-- What floating point numbers are used for, and what is done with dates. -/
structure Library (F : Type) where
  /-- `float` of a `double`, and back. -/
  toFloat : F → F
  /-- `double` of a `long`. -/
  ofLong : BitVec 64 → F
  /-- `decimal(double)`, where its loop ends. -/
  decimal : F → Option Decimal
  /-- `stdTimeToUnixTime(SysTime.fromISOExtString(val).stdTime())`, where it does not throw. -/
  fromISOExtString : Text → Option (BitVec 64)

/-! ## Reading JSON -/

section
variable {F : Type}

/-- `src[key]`. -/
def JSONValue.get (src : JSONValue F) (key : Text) : Except Failure (JSONValue F) :=
  match src with
  | .object entries => (entries.lookup key).elim (.error .exception) .ok
  | _ => .error .exception

/-- `str`. -/
def JSONValue.str : JSONValue F → Except Failure Text
  | .string s => .ok s
  | _ => .error .exception

/-- `getString`. -/
def getString (src : JSONValue F) (key : Text) : Except Failure (Option Text) := do
  match ← src.get key with
  | .string s => return some s
  | _ => return none

/-- `getLong`. -/
def getLong (src : JSONValue F) (key : Text) : Except Failure (BitVec 64) := do
  match ← src.get key with
  | .integer n => return n
  | _ => return 0

/-- `getBool`. -/
def getBool (src : JSONValue F) (key : Text) : Except Failure Bool := do
  match ← src.get key with
  | .true => return true
  | _ => return false

end

/-- The number that decimal digits are. -/
def digits (s : Text) : Option Nat :=
  s.foldlM (fun v c => if 48 ≤ c.toNat ∧ c.toNat ≤ 57 then some (v * 10 + (c.toNat - 48)) else none)
    0

/-- A digit as a byte. -/
theorem toNat_ofNat_of_isDigit {c : Char} (h : c.isDigit = true) :
    48 ≤ c.toNat ∧ c.toNat ≤ 57 ∧ (BitVec.ofNat 8 c.toNat).toNat = c.toNat := by
  obtain ⟨hle, hge⟩ : 48 ≤ c.toNat ∧ c.toNat ≤ 57 := by
    simp only [Char.isDigit, Bool.and_eq_true, decide_eq_true_eq, ge_iff_le,
      UInt32.le_iff_toNat_le] at h
    exact h
  refine ⟨hle, hge, ?_⟩
  rw [BitVec.toNat_ofNat]
  exact Nat.mod_eq_of_lt (by omega)

theorem digits_map {s : List Char} (h : ∀ c ∈ s, c.isDigit = true) :
    digits (s.map fun c => BitVec.ofNat 8 c.toNat) = some (Nat.ofDigitChars 10 s 0) := by
  have hfold : ∀ v : ℕ, (s.map fun c => BitVec.ofNat 8 c.toNat).foldlM (fun v c =>
      if 48 ≤ c.toNat ∧ c.toNat ≤ 57 then some (v * 10 + (c.toNat - 48)) else none) v =
      some (Nat.ofDigitChars 10 s v) := by
    induction s with
    | nil =>
      intro v
      rw [Nat.ofDigitChars_nil]
      rfl
    | cons c s ih =>
      intro v
      obtain ⟨hc, hs⟩ := List.forall_mem_cons.mp h
      obtain ⟨hle, hge, hnat⟩ := toNat_ofNat_of_isDigit hc
      rw [List.map_cons, List.foldlM_cons, hnat, if_pos ⟨hle, hge⟩, Option.bind_eq_bind,
        Option.bind_some, ih hs, Nat.ofDigitChars_cons]
      congr 2
      rw [Nat.mul_comm]
      rfl
  exact hfold 0

/-- `to!long(val)`. -/
def toLong (val : Text) : Except Failure (BitVec 64) :=
  let negative := val.head? = some 45
  let s := if negative ∨ val.head? = some 43 then val.tail else val
  match s, digits s with
  | _ :: _, some v =>
    if v < 2 ^ 63 then .ok (if negative then -BitVec.ofNat 64 v else BitVec.ofNat 64 v)
    else if negative ∧ v = 2 ^ 63 then .ok (-BitVec.ofNat 64 v)
    else .error .exception
  | _, _ => .error .exception

theorem toLong_digits {s : List Char} (h : ∀ c ∈ s, c.isDigit = true) (hne : s ≠ [])
    (hlt : Nat.ofDigitChars 10 s 0 < 2 ^ 63) :
    toLong (s.map fun c => BitVec.ofNat 8 c.toNat) =
      .ok (BitVec.ofNat 64 (Nat.ofDigitChars 10 s 0)) := by
  obtain ⟨c, cs, rfl⟩ := List.exists_cons_of_ne_nil hne
  have hdigits := digits_map h
  obtain ⟨hle, -, hnat⟩ := toNat_ofNat_of_isDigit (h c List.mem_cons_self)
  have hsign (sign : Byte) (h : sign.toNat < 48) : ¬ some (BitVec.ofNat 8 c.toNat) = some sign := by
    intro heq
    rw [Option.some_inj.mp heq] at hnat
    omega
  rw [List.map_cons] at hdigits ⊢
  unfold toLong
  simp only [List.head?_cons, hsign 45 (by decide), hsign 43 (by decide), or_self, if_false,
    hdigits, hlt, if_true]

/-- The smallest number is its own negation. -/
theorem toLong_minus_digits {s : List Char} (h : ∀ c ∈ s, c.isDigit = true) (hne : s ≠ [])
    (hle : Nat.ofDigitChars 10 s 0 ≤ 2 ^ 63) :
    toLong (45 :: s.map fun c => BitVec.ofNat 8 c.toNat) =
      .ok (-BitVec.ofNat 64 (Nat.ofDigitChars 10 s 0)) := by
  obtain ⟨c, cs, rfl⟩ := List.exists_cons_of_ne_nil hne
  have hdigits := digits_map h
  rw [List.map_cons] at hdigits ⊢
  unfold toLong
  simp only [List.head?_cons, List.tail_cons, true_or, if_true, hdigits, true_and]
  rcases Nat.lt_or_eq_of_le hle with hlt | heq
  · rw [if_pos hlt]
  · rw [if_neg (by omega), if_pos heq]

/-- `split(num, separator)`. An empty text has no parts. -/
def split (num : Text) (separator : Byte) : List Text :=
  if num = [] then [] else num.splitOn separator

/-- The parts of a number in a decimal. -/
def decimalParts (num : Text) : List Text :=
  if 0 < num.idxOf 44 ∧ 44 ∈ num then split num 44 else split num 46

/-- `decimal(string num)`. With no part or with more than two of them nothing is set. -/
def decimalOfString (num : Option Text) : Except Failure Decimal :=
  match num with
  | none => .ok ⟨0, 0⟩
  | some num =>
    match decimalParts num with
    | [whole, fraction] =>
      return ⟨← toLong (whole ++ fraction), -BitVec.ofNat 8 fraction.length⟩
    | [_] => return ⟨← toLong num, 0⟩
    | _ => .ok ⟨0, 0⟩

section
variable {F : Type} (lib : Library F)

/-- `decimal(double num)`. -/
def decimalOfDouble (num : F) : Except Failure Decimal :=
  (lib.decimal num).elim (.error .endless) .ok

/-- The time of a value of the type `Datetime`. -/
def timeOf (val : Option Text) : Except Failure (BitVec 64) :=
  match val with
  | none => .error .exception
  | some val =>
    if 0 < val.idxOf 45 ∧ 45 ∈ val then
      (lib.fromISOExtString val).elim (.error .exception) .ok
    else toLong val

/-- The language of a value of the type `String`, where it sets one. -/
def langOf (jlang : JSONValue F) : Option (BitVec 8) :=
  match jlang with
  | .string s => some ((langs.lookup s).getD 0)
  | .integer n => some (n.setWidth 8)
  | _ => none

/-- The data type that a value names. -/
def typeOf (json : JSONValue F) : Except Failure DataType := do
  match ← json.get (ascii "type") with
  | .integer _ => return (← getLong json (ascii "type")).setWidth 8
  | _ =>
    let name ← getString json (ascii "type")
    return (name.bind fun name => resourceType.lookup name).getD .string

/-- The branches of `json_to_resource`. -/
def convert (json : JSONValue F) (type : DataType) (data : JSONValue F) :
    Except Failure Resource := do
  if type = .string then
    let lang := match json.get (ascii "lang") with
      | .ok jlang => langOf jlang
      | .error _ => none
    return { Resource.init with lang := lang.getD 0 }.setData (← getString json (ascii "data"))
  else if type = .boolean then
    match data with
    | .true | .false => return { Resource.init with data := .bool (← getBool json (ascii "data")) }
    | _ => return .init
  else if type = .uri ∨ type = .binary then
    return Resource.init.setData (← getString json (ascii "data"))
  else if type = .decimal then
    match data with
    | .floating x =>
      return { Resource.init with data := .decimal (← decimalOfDouble lib (lib.toFloat x)) }
    | .integer _ =>
      let n ← getLong json (ascii "data")
      return { Resource.init with data := .decimal (← decimalOfDouble lib (lib.ofLong n)) }
    | .string _ =>
      let num ← getString json (ascii "data")
      return { Resource.init with data := .decimal (← decimalOfString num) }
    | _ => return .init
  else if type = .integer then
    return { Resource.init with data := .long (← getLong json (ascii "data")) }
  else if type = .datetime then
    return { Resource.init with data := .long (← timeOf lib (← getString json (ascii "data"))) }
  else
    return .init

/-- `json_to_resource`. -/
def jsonToResource (json : JSONValue F) : Except Failure Resource := do
  let type ← typeOf json
  let data ← json.get (ascii "data")
  let resource ← convert lib json type data
  return { resource with type := type }

end

/-- `struct Individual`. -/
structure Individual where
  uri : Text
  resources : AList (fun _ : Text => List Resource)
  deriving DecidableEq

/-- `Individual.init`. -/
def Individual.init : Individual := ⟨[], ∅⟩

/-- An entry of an object. -/
abbrev Entry (F : Type) := Text × JSONValue F

section
variable {F : Type} (lib : Library F)

/-- The entries that a loop over an object goes through. -/
def JSONValue.entries : JSONValue F → Except Failure (List (Entry F))
  | .object entries => .ok entries
  | _ => .error .exception

/-- The values that a loop over an array goes through. -/
def JSONValue.values : JSONValue F → Except Failure (List (JSONValue F))
  | .array values => .ok values
  | _ => .error .exception

/-- One turn of the loop of `json_to_individual`. -/
def addProperty (individual : Individual) (property : Entry F) : Except Failure Individual := do
  if property.1 = ascii "@" then
    return { individual with uri := ← property.2.str }
  else
    let resources ← (← property.2.values).mapM (jsonToResource lib)
    if resources.length > 0 then
      return { individual with resources := individual.resources.insert property.1 resources }
    else
      return individual

/-- The loop of `json_to_individual`, with the exceptions caught. -/
def addProperties (individual : Individual) : List (Entry F) → Except Failure Individual
  | [] => .ok individual
  | property :: properties =>
    match addProperty lib individual property with
    | .ok individual => addProperties individual properties
    | .error .exception => .ok individual
    | .error .endless => .error .endless

/-- `json_to_individual`. -/
def jsonToIndividual (json : JSONValue F) : Except Failure Individual :=
  match json.entries with
  | .ok properties => addProperties lib .init properties
  | .error _ => .ok .init

end

/-! ## Requests -/

/-- What `add_to_transaction` is called with, beside what is the same in all calls. -/
structure Arguments (T : Type) where
  transactionId : BitVec 64
  src : Option Text
  ticket : T
  cmd : IndvOp
  individual : Individual
  assignedSubsystems : BitVec 64
  eventId : Text

/-- `struct OpResult`. -/
structure OpResult where
  result : BitVec 32
  opId : BitVec 64

/-- The rest of the server: what is stored, and the functions of it that are called. -/
structure Server (S T : Type) where
  getTicket : S → Text → T
  addToTransaction : S → Arguments T → S × Except Failure OpResult

/-- A request that changes individuals. -/
structure Request (F : Type) where
  cmd : IndvOp
  ticket : Text
  assignedSubsystems : BitVec 64
  eventId : JSONValue F
  src : Option Text
  individuals : List (JSONValue F)

/-- The functions that change individuals. -/
def cmdOf : List (Text × IndvOp) :=
  [(ascii "put", .put), (ascii "remove", .remove), (ascii "add_to", .addIn),
    (ascii "set_in", .setIn), (ascii "remove_from", .removeFrom)]

section
variable {F S T : Type}

/-- `integer()`. -/
def JSONValue.toInteger : JSONValue F → Except Failure (BitVec 64)
  | .integer n => .ok n
  | _ => .error .exception

/-- What `execute_json` reads of a message whose function is one of `cmdOf`. -/
def Request.read (jsn : JSONValue F) : Except Failure (Option (Request F)) := do
  let sfn ← (← jsn.get (ascii "function")).str
  match cmdOf.lookup sfn with
  | none => return none
  | some cmd =>
    let ticket ← jsn.get (ascii "ticket")
    let assignedSubsystems ← (← jsn.get (ascii "assigned_subsystems")).toInteger
    let eventId ← jsn.get (ascii "event_id")
    let src ← match jsn.get (ascii "src") with
      | .ok src => do pure (some (← src.str))
      | .error _ => pure none
    return some ⟨cmd, ← ticket.str, assignedSubsystems, eventId, src,
      ← (← jsn.get (ascii "individuals")).values⟩

/-- `transaction_id` and `rc`. -/
structure Progress where
  transactionId : BitVec 64
  rc : List OpResult

/-- Before the first individual. -/
def Progress.init : Progress := ⟨0, []⟩

variable (lib : Library F) (server : Server S T) (ticket : T) (request : Request F)

/-- What is handed over for an individual. -/
def arguments (progress : Progress) (individual : Individual) (eventId : Text) : Arguments T :=
  ⟨progress.transactionId, request.src, ticket, request.cmd, individual,
    request.assignedSubsystems, eventId⟩

/-- An individual is handed over. -/
def handOver (state : S) (progress : Progress) (individual : Individual) :
    S × Except Failure Progress :=
  match request.eventId.str with
  | .error failure => (state, .error failure)
  | .ok eventId =>
    let (state, ires) :=
      server.addToTransaction state (arguments ticket request progress individual eventId)
    (state, ires.map fun ires =>
      { rc := progress.rc ++ [ires]
        transactionId :=
          if progress.transactionId.toInt ≤ 0 then ires.opId else progress.transactionId })

/-- One turn of the loop over the individuals. -/
def storeIndividual (state : S) (progress : Progress) (json : JSONValue F) :
    S × Except Failure Progress :=
  match jsonToIndividual lib json with
  | .error failure => (state, .error failure)
  | .ok individual => handOver server ticket request state progress individual

/-- The loop over the individuals. -/
def storeIndividuals (state : S) (progress : Progress) :
    List (JSONValue F) → S × Except Failure Progress
  | [] => (state, .ok progress)
  | json :: individuals =>
    match storeIndividual lib server ticket request state progress json with
    | (state, .ok progress) => storeIndividuals state progress individuals
    | (state, .error failure) => (state, .error failure)

/-- The branches of `execute_json` for the functions of `cmdOf`: what is stored afterwards, and the
results that the answer is made of. -/
def executeJson (state : S) (request : Request F) : S × Except Failure (List OpResult) :=
  let ticket := server.getTicket state request.ticket
  let (state, progress) := storeIndividuals lib server ticket request state .init
    request.individuals
  (state, progress.map (·.rc))

end

end Veda.Bj8individual.Json
