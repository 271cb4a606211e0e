import Mathlib.Data.List.AList
import Mathlib.Data.Int.Notation
import Mathlib.Logic.Function.Basic

/-! # Automatic numeration

The model of `numerator.js` for a class with one rule, whose scope is fixed and whose next value is
that of `getNextValueSimple`. The numbers of the class are kept as committed intervals of the scope,
and the event of every change of an individual is handled by `numerate`. -/

namespace Veda.Numeration

/-! ## The scope -/

structure Interval where
  intervalBegin : ℤ
  intervalEnd : ℤ

/-- The scope with its `v-s:numerationCommitedInterval`, the names of the intervals. -/
structure Scope where
  committedIntervals : Option (List ℕ)

/-- The scope and the intervals in the storage, and the next name that `genUri` gives. -/
structure Registry where
  scope : Option Scope
  intervals : ℕ → Option Interval
  genUri : ℕ

namespace Registry

def init : Registry := ⟨none, fun _ => none, 0⟩

def putScope (r : Registry) (scope : Scope) : Registry := { r with scope := some scope }

def putInterval (r : Registry) (uri : ℕ) (interval : Interval) : Registry :=
  { r with intervals := Function.update r.intervals uri (some interval) }

/-- An interval with a new name is put. -/
def putNew (r : Registry) (interval : Interval) : Registry :=
  { r.putInterval r.genUri interval with genUri := r.genUri + 1 }

end Registry

/-- The scope, which is created if it is not there. -/
def getOrCreateScope (r : Registry) : Scope × Registry :=
  match r.scope with
  | some scope => (scope, r)
  | none => (⟨none⟩, r.putScope ⟨none⟩)

/-! ## Values -/

/-- A value is a number, or a text with the digits of a number. -/
inductive Value where
  | num (n : ℤ)
  | str (n : ℤ)

def Value.toInt : Value → ℤ
  | num n => n
  | str n => n

/-- `value + 1` as it is compared with a number. To a text a digit is appended. -/
def Value.plusOne : Value → ℤ
  | num n => n + 1
  | str n => if 0 ≤ n then 10 * n + 1 else 10 * n - 1

/-- The last one of the ends and of the given number. -/
def maxEnd (r : Registry) : List ℕ → ℤ → Option ℤ
  | [], max => some max
  | uri :: uris, max =>
    match r.intervals uri with
    | none => none
    | some interval =>
      maxEnd r uris (if max < interval.intervalEnd then interval.intervalEnd else max)

/-- `getNextValueSimple`: the value, or nothing where an exception is thrown. -/
def getNextValueSimple (r : Registry) (scope : Scope) (FIRST_VALUE : ℤ) : Option Value :=
  match scope.committedIntervals with
  | none => some (.str FIRST_VALUE)
  | some [] => some (.str FIRST_VALUE)
  | some uris => (maxEnd r uris 0).map fun max => .str (max + 1)

/-- The intervals that end before the value and begin behind it, or nothing if the value is in an
interval. -/
def neighbours (r : Registry) (value : Value) :
    List ℕ → Option (ℕ × Interval) → Option (ℕ × Interval) →
      Option (Option (ℕ × Interval) × Option (ℕ × Interval))
  | [], prevInterval, nextInterval => some (prevInterval, nextInterval)
  | uri :: uris, prevInterval, nextInterval =>
    match r.intervals uri with
    | none => neighbours r value uris prevInterval nextInterval
    | some interval =>
      if interval.intervalBegin ≤ value.toInt ∧ value.toInt ≤ interval.intervalEnd then none
      else if interval.intervalBegin = value.plusOne then
        neighbours r value uris prevInterval (some (uri, interval))
      else if interval.intervalEnd = value.toInt - 1 then
        neighbours r value uris (some (uri, interval)) nextInterval
      else neighbours r value uris prevInterval nextInterval

/-- `commitValue`: the registry, and whether the value was not committed before. -/
def commitValue (r : Registry) (scope : Scope) (value : Value) : Bool × Registry :=
  match scope.committedIntervals with
  | some uris =>
    match neighbours r value uris none none with
    | none => (false, r)
    | some (some (prev, prevInterval), some (next, nextInterval)) =>
      let r := r.putInterval prev { prevInterval with intervalEnd := nextInterval.intervalEnd }
      (true, r.putScope ⟨some (uris.filter (· ≠ next))⟩)
    | some (some (prev, prevInterval), none) =>
      (true, r.putInterval prev { prevInterval with intervalEnd := value.toInt })
    | some (none, some (next, nextInterval)) =>
      (true, r.putInterval next { nextInterval with intervalBegin := value.toInt })
    | some (none, none) =>
      (true, (r.putNew ⟨value.toInt, value.toInt⟩).putScope ⟨some (uris ++ [r.genUri])⟩)
  | none => (true, (r.putNew ⟨value.toInt, value.toInt⟩).putScope ⟨some [r.genUri]⟩)

/-- One interval of `revokeValue`: the registry, and what stays of the interval. -/
def revokeOne (value : ℤ) (uri : ℕ) (interval : Interval) (r : Registry) : Registry × List ℕ :=
  if interval.intervalBegin = value then
    if interval.intervalBegin < interval.intervalEnd then
      (r.putInterval uri ⟨value + 1, interval.intervalEnd⟩, [uri])
    else (r, [])
  else if interval.intervalEnd = value then
    if interval.intervalBegin < interval.intervalEnd then
      (r.putInterval uri ⟨interval.intervalBegin, value - 1⟩, [uri])
    else (r, [])
  else if interval.intervalBegin < value ∧ value < interval.intervalEnd then
    ((r.putInterval uri ⟨interval.intervalBegin, value - 1⟩).putNew
      ⟨value + 1, interval.intervalEnd⟩, [uri, r.genUri])
  else (r, [uri])

/-- The intervals one after the other, up to one that is not there. -/
def revokeLoop (value : ℤ) : List ℕ → Registry → Registry × Option (List ℕ)
  | [], r => (r, some [])
  | uri :: uris, r =>
    match r.intervals uri with
    | none => (r, none)
    | some interval =>
      let one := revokeOne value uri interval r
      let rest := revokeLoop value uris one.1
      (rest.1, rest.2.map (one.2 ++ ·))

def revokeValue (r : Registry) (scope : Scope) (value : ℤ) : Registry :=
  match revokeLoop value (scope.committedIntervals.getD []) r with
  | (r, none) => r
  | (r, some uris) => r.putScope ⟨some uris⟩

/-! ## Numeration -/

/-- An individual of the class: what `parseInt` reads of its number, and 0 if it reads none. -/
structure Document where
  number : ℤ
  deleted : Bool
  deriving DecidableEq

/-- The event of a change. -/
structure Message where
  uri : String
  prevState : Option Document
  newState : Document
  /-- The change was made by `numerate`. -/
  isWriteBack : Bool

def Message.prevNumber (m : Message) : ℤ := (m.prevState.map Document.number).getD 0

/-- The individuals, the registry and the events that are not handled yet. -/
structure State where
  documents : AList fun _ : String => Document
  registry : Registry
  pending : List Message

def State.init : State := ⟨∅, .init, []⟩

def State.put (st : State) (uri : String) (new : Document) (isWriteBack : Bool) : State :=
  { st with
    documents := st.documents.insert uri new
    pending := st.pending ++ [⟨uri, st.documents.lookup uri, new, isWriteBack⟩] }

/-- Number and deletion are as before. -/
def Message.isUnchanged (m : Message) (document : Document) : Bool :=
  document.number ≠ 0 ∧ m.prevNumber ≠ 0 ∧ document.number = m.prevNumber ∧
    m.prevState.map Document.deleted = some document.deleted

/-- `numerate`, for the individual as it is now and the previous state of the event. -/
def numerate (FIRST_VALUE : ℤ) (m : Message) (st : State) : State :=
  match st.documents.lookup m.uri with
  | none => st
  | some document =>
    if m.isUnchanged document then st
    else
      let (scope, r) := getOrCreateScope st.registry
      if document.number = 0 ∧ m.prevNumber = 0 then
        match getNextValueSimple r scope FIRST_VALUE with
        | none => { st with registry := r }
        | some value => { st with registry := (commitValue r scope value).2 }.put m.uri
            { document with number := value.toInt } true
      else if document.number = 0 ∧ m.prevNumber ≠ 0 then
        { st with registry := r }.put m.uri { document with number := m.prevNumber } true
      else if document.number ≠ 0 ∧ m.prevState = none then
        { st with registry := (commitValue r scope (.num document.number)).2 }
      else if document.number ≠ 0 ∧ document.deleted then
        { st with registry := revokeValue r scope document.number }
      else if document.number ≠ 0 ∧ m.prevNumber ≠ 0 ∧ document.number ≠ m.prevNumber then
        let r := (commitValue r scope (.num document.number)).2
        match r.scope with
        | none => { st with registry := r }
        | some prevScope => { st with registry := revokeValue r prevScope m.prevNumber }
      else { st with registry := r }

inductive Event where
  /-- A user creates or changes an individual. -/
  | write (uri : String) (new : Document)
  /-- The first event that is pending is handled. -/
  | handle

def step (FIRST_VALUE : ℤ) (e : Event) (st : State) : State :=
  match e with
  | .write uri new => st.put uri new false
  | .handle =>
    match st.pending with
    | [] => st
    | m :: rest => numerate FIRST_VALUE m { st with pending := rest }

end Veda.Numeration
