import Mathlib.Data.List.AList
import Mathlib.Data.List.Infix
import Veda.Lib.Loop

/-! # The ACL index as the authorization library reads it

The index is a key-value database of text records. A record is a sequence of pairs
`id;access;`, where `access` is a hexadecimal numeral with an optional marker letter
(`get_elements_from_index` in `authorization.rs`). -/

namespace Veda.Authorization

/-- A string-keyed `HashMap` of the source. -/
abbrev StrMap (β : Type) := AList (fun _ : String => β)

/-- A byte of rights: create, read, update and delete in the low nibble, the denials of the
same four in the high nibble. -/
abbrev Access := BitVec 8

def permissionPrefix : String := "P"
def filterPrefix : String := "F"
def membershipPrefix : String := "M"

def mIsExclusive : Char := 'X'
def mIgnoreExclusive : Char := 'N'

/-- The marker of a record element without a marker letter, `0 as char`. -/
def noMarker : Char := Char.ofNat 0

/-- `ACCESS_LIST`. -/
def accessList : List Access := [1, 2, 4, 8]

/-- `struct Right`. -/
structure Right where
  id : String
  access : Access
  marker : Char
  isDeleted : Bool
  level : Nat
  deriving DecidableEq, Repr

/-- `char::to_digit(16)`. -/
def toDigit16 (c : Char) : Option Nat :=
  if '0' ≤ c ∧ c ≤ '9' then some (c.toNat - '0'.toNat)
  else if 'a' ≤ c ∧ c ≤ 'f' then some (c.toNat - 'a'.toNat + 10)
  else if 'A' ≤ c ∧ c ≤ 'F' then some (c.toNat - 'A'.toNat + 10)
  else none

/-- The local variables of the loop that reads one access token. -/
structure Element where
  access : BitVec 32
  shift : Nat
  marker : Char

/-- One character of an access token. The access is a `u32` here, so the shift amount is taken
modulo 32; a character that is neither a marker nor a digit is reported and skipped. -/
def Element.push (e : Element) (c : Char) : Element :=
  if c = mIsExclusive ∨ c = mIgnoreExclusive then { e with marker := c }
  else
    match toDigit16 c with
    | some v =>
      { e with
        access := e.access ||| (BitVec.ofNat 32 v <<< (e.shift % 32))
        shift := e.shift + 4 }
    | none => e

/-- The element `key;token`. -/
def rightOfToken (key token : List Char) : Right :=
  let e := token.foldl Element.push { access := 0, shift := 0, marker := noMarker }
  { id := String.ofList key
    access := e.access.setWidth 8
    marker := e.marker
    isDeleted := false
    level := 0 }

/-- The loop over the tokens of a record, two at a time. -/
def rightsOfTokens : List (List Char) → List Right
  | key :: token :: rest => rightOfToken key token :: rightsOfTokens rest
  | _ => []

/-- `get_elements_from_index`. -/
def getElementsFromIndex (src : String) (results : List Right) : Bool × List Right :=
  if src.isEmpty then (false, results)
  else (true, results ++ rightsOfTokens (src.toList.splitOn ';'))

/-- The elements of a record, read into an empty vector. -/
def elements (src : String) : List Right := (getElementsFromIndex src []).2

inductive MdbError where
  | notFound
  | other
  deriving DecidableEq

/-- A read transaction on the index: `db.get`. -/
abbrev Database := String → Except MdbError String

/-- `get_from_db`. -/
def getFromDb (key : String) (db : Database) : Except Int String :=
  match db key with
  | .ok val => .ok val
  | .error .notFound => .error 0
  | .error .other => .error (-1)

/-- An ACL index whose lookups never fail: a map from keys to records. -/
abbrev AclIndex := String → Option String

def AclIndex.db (m : AclIndex) : Database := fun key =>
  match m key with
  | some val => .ok val
  | none => .error .notFound

namespace AclIndex

variable {m : AclIndex}

theorem getFromDb_some (h : m key = some val) : getFromDb key m.db = .ok val := by
  simp [getFromDb, db, h]

theorem getFromDb_none (h : m key = none) : getFromDb key m.db = .error 0 := by
  simp [getFromDb, db, h]

/-- The entries of a record, none when the key is absent. -/
def entries (m : AclIndex) (key : String) : List Right := ((m key).map elements).getD []

theorem entries_some (h : m key = some val) : m.entries key = elements val := by
  simp [entries, h]

theorem entries_none (h : m key = none) : m.entries key = [] := by simp [entries, h]

/-- The membership entries of `uri`. -/
def memberships (m : AclIndex) (uri : String) : List Right := m.entries (membershipPrefix ++ uri)

/-- The permission entries of an object group under a filter (empty when there is none). -/
def permissions (m : AclIndex) (filter group : String) : List Right :=
  m.entries (permissionPrefix ++ filter ++ group)

end AclIndex

/-- `str::contains` for a string pattern. -/
def containsStr (s pat : String) : Bool := decide (pat.toList <:+: s.toList)

end Veda.Authorization
