import Veda.Search.Vel

/-! # From a parsed query to a query of Xapian

The model of `_transform_vql_to_xapian` in `xapian_vql.d`. What Xapian, the ontology and the
conversions to `double` give are parameters. A `double` is an `Option`: `none` is NaN, which is
also what a `double` holds before anything is assigned to it. -/

namespace Veda.Search.Vel

/-- `TTA.toString`. -/
def TTA.toString : TTA → String
  | .null => ""
  | .node op decor l r =>
    "\x7b" ++ l.toString ++
      (match decor with
        | .quoted => "\"" ++ op ++ "\""
        | .range => " RANGE (" ++ op ++ ")"
        | .none => op) ++
      r.toString ++ "\x7d"

end Veda.Search.Vel

namespace Veda.Search.Xapian

open Vel (TTA Decor)

/-! ## Texts -/

/-- `std.uni.isWhite`. -/
def isWhite (c : Char) : Bool :=
  let n := c.toNat
  (0x09 ≤ n && n ≤ 0x0d) || (0x2000 ≤ n && n ≤ 0x200a) ||
    n ∈ [0x20, 0x85, 0xa0, 0x1680, 0x2028, 0x2029, 0x202f, 0x205f, 0x3000]

/-- `strip`. -/
def strip (s : String) : String :=
  String.ofList ((s.toList.dropWhile isWhite).reverse.dropWhile isWhite).reverse

/-- `s[i] == c` for an ASCII character `c` counts code units: the character that begins at the
code unit `i`. -/
def unitAt : List Char → ℕ → Option Char
  | [], _ => none
  | c :: s, i =>
    if i = 0 then some c
    else if i < c.utf8Size then none
    else unitAt s (i - c.utf8Size)

/-- `s[0]`. -/
def first (s : String) : Option Char := unitAt s.toList 0

/-- `s.indexOf(c) >= 0`. -/
def has (c : Char) (s : String) : Bool := c ∈ s.toList

/-- `s.indexOf(c) > 0`. -/
def hasInside (c : Char) (s : String) : Bool := has c s && first s != some c

/-- `to_lower_and_replace_delimeters`. -/
def toLowerAndReplaceDelimeters (s : String) : String :=
  String.ofList (s.toList.map fun c => if c = ':' ∨ c = '-' then '_' else c.toLower)

/-- `[a-z0-9_-]`, read without regard to case; the last two fold to `k` and to `s`. -/
def isIdChar (c : Char) : Bool :=
  c.isAlphanum || c = '_' || c = '-' || c.toNat = 0x212a || c.toNat = 0x17f

/-- `r_is_uuid`: `^[a-z0-9_-]+:[a-z0-9_-]*$`. -/
def isUuid (s : String) : Bool :=
  let head := s.toList.takeWhile (· ≠ ':')
  match s.toList.dropWhile (· ≠ ':') with
  | [] => false
  | _ :: rest => !head.isEmpty && head.all isIdChar && rest.all isIdChar

/-- The decimal digits of `to!int`. -/
def digits (s : List Char) : Option ℕ :=
  if s ≠ [] ∧ s.all Char.isDigit then some (s.foldl (fun n c => 10 * n + (c.toNat - 48)) 0)
  else none

/-- `to!int`. -/
def toInt (s : List Char) : Option ℤ :=
  let value := match s with
    | '-' :: s => (digits s).map fun n => -(n : ℤ)
    | '+' :: s => (digits s).map fun n => (n : ℤ)
    | s => (digits s).map fun n => (n : ℤ)
  value.filter fun n => -2147483648 ≤ n ∧ n ≤ 2147483647

/-- `get_slot`. -/
def getSlot (key2slot : List (String × ℤ)) (key : String) : ℤ :=
  match key.toList with
  | [] => -1
  | '#' :: number => (toInt number).getD (-1)
  | _ => (key2slot.lookup key).getD (-1)

/-! ## The interface of Xapian -/

def flagBoolean : ℕ := 1

def flagPhrase : ℕ := 2

def flagLovehate : ℕ := 4

def flagWildcard : ℕ := 16

def flagPureNot : ℕ := 32

def flagDefault : ℕ := flagPhrase ||| flagBoolean ||| flagLovehate

/-- `XapianQueryParserError`. -/
def queryParserError : ℤ := -19

/-- `xapian_op`, as far as queries are joined with it. -/
inductive XapianOp where
  | and
  | or
  deriving DecidableEq

/-- What ends a translation: an `XapianError`, or what another call throws. -/
inductive Error where
  | xapian (msg : String)
  | other
  deriving DecidableEq

/-- What the translation calls. `V` are the values of a `double` and `Q` the queries of Xapian; a
call that gives no query gives `null`. -/
structure Env (V Q : Type) where
  key2slot : List (String × ℤ)
  subClasses : String → List String
  isAlpha : Char → Bool
  isNumber : Char → Bool
  parseDouble : String → Option (Option V)
  fromISOExtString : String → Option V
  sortableSerialise : Option V → String
  parseQuery : String → Option ℕ → Option String → Option Q × ℤ
  newQueryRange : ℤ → Option V → Option V → Option Q
  newQuery : String → Option Q
  addRightQuery : XapianOp → Q → Q → Option Q

inductive TokenType where
  | text
  | number
  | date
  | boolean
  deriving DecidableEq

/-- The shape of a date, with milliseconds or without. -/
def isDate (token : String) : Bool :=
  let marks := unitAt token.toList 4 = some '-' ∧ unitAt token.toList 7 = some '-' ∧
    unitAt token.toList 10 = some 'T' ∧ unitAt token.toList 13 = some ':' ∧
    unitAt token.toList 16 = some ':'
  (token.utf8ByteSize = 19 ∧ marks) ∨
    (token.utf8ByteSize = 24 ∧ marks ∧ unitAt token.toList 19 = some '.')

variable {V Q : Type}

section
variable (env : Env V Q)

/-- The counts of `is_good_token`. The index goes through the code units, `count` is the number of
characters. -/
def countToken (count : ℕ) : ℕ → List Char → ℕ × ℕ
  | _, [] => (0, 0)
  | idx, c :: s =>
    if idx < count then
      let (alpha, number) := countToken count (idx + c.utf8Size) s
      (alpha + (if env.isAlpha c then 1 else 0), number + (if env.isNumber c then 1 else 0))
    else (0, 0)

/-- `is_good_token`. -/
def isGoodToken (s : String) : Bool :=
  let (alpha, number) := countToken env s.length 0 s.toList
  !(alpha + number < 3) && !(alpha + number < 4 && number = 3)

/-- `get_token_type`. -/
def getTokenType [Zero V] [One V] (token : String) : Except Error (TokenType × Option V) :=
  let token := strip token
  if token = "true" then .ok (.boolean, some 1)
  else if token = "false" then .ok (.boolean, some 0)
  else if isDate token then
    match env.fromISOExtString token with
    | some value => .ok (.date, some value)
    | none => .error .other
  else
    match env.parseDouble token with
    | some value => .ok (.number, value)
    | none => .ok (.text, none)

/-- `parse_query`; a text that does not parse is tried again between quotes. It gives the text that
was tried last. -/
def parseQuery (queryStr : String) (flags : Option ℕ) (pref : Option String) :
    Option Q × ℤ × String :=
  let (query, err) := env.parseQuery queryStr flags pref
  if err = queryParserError then
    let queryStr := "\"" ++ queryStr ++ "\""
    let (query, err) := env.parseQuery queryStr flags pref
    (query, err, queryStr)
  else (query, err, queryStr)

/-- `if (err != 0) throw new XapianError(err, …)`. -/
def checked (msg : String → String) (answer : Option Q × ℤ × String) : Except Error (Option Q) :=
  if answer.2.1 ≠ 0 then .error (.xapian (msg answer.2.2)) else .ok answer.1

/-- `throw new XapianError(err, "parse_query '" ~ tta.toString() ~ "'")` for `null`. -/
def notNull (tta : TTA) (query : Option Q) : Except Error (Option Q) :=
  match query with
  | some q => .ok (some q)
  | none => .error (.xapian ("parse_query '" ++ tta.toString ++ "'"))

/-! ## Comparisons -/

/-- A value that names a class stands for its subclasses too. -/
def withSubClasses (strict : Bool) (rs : String) : String :=
  if !strict && hasInside ':' rs then
    let subclasses := env.subClasses rs
    if subclasses ≠ [] then
      toLowerAndReplaceDelimeters (subclasses.foldl (fun rs classz => rs ++ " OR " ++ classz) rs)
    else rs
  else rs

/-- `'@' == …`. -/
def equalUid (ne : Bool) (rs : String) : Except Error (Option Q) :=
  let queryStr := "uid_" ++ toLowerAndReplaceDelimeters rs
  let flags := flagDefault ||| flagWildcard
  checked (fun queryStr => "parse_query1 query=" ++ queryStr) <|
    if ne then parseQuery env ("NOT " ++ queryStr) (some (flags ||| flagPureNot)) none
    else parseQuery env queryStr (some flags) none

/-- `'*' == …`. -/
def equalAny (ne : Bool) (rs : String) : Except Error (Option Q) :=
  let xtr := if isUuid rs then toLowerAndReplaceDelimeters rs else rs
  if hasInside '*' xtr && isGoodToken env xtr then
    let flags := flagDefault ||| flagWildcard ||| flagPhrase
    checked (fun xtr => "parse_query4('*'=*) '" ++ xtr ++ "'") <|
      if ne then parseQuery env ("NOT " ++ xtr) (some (flags ||| flagPureNot)) none
      else parseQuery env xtr (some flags) none
  else checked (fun xtr => "parse_query5('*'=x) '" ++ xtr ++ "'") (parseQuery env xtr none none)

/-- The comparison with a boolean; the operator is not looked at. -/
def equalBoolean [One V] [DecidableEq V] (tta : TTA) (slot : ℤ) (value : Option V) :
    Except Error (Option Q) := do
  let xtr := "X" ++ toString slot ++ "D"
  let queryStr := if value = some 1 then "T" else "F"
  let answer := parseQuery env queryStr (some (flagDefault ||| flagPhrase ||| flagLovehate))
    (some xtr)
  let _ ← notNull tta answer.1
  checked (fun queryStr => "parse_query1.1 query=" ++ queryStr) answer

/-- The comparison with a quoted text, or with a pattern. -/
def equalText (ne : Bool) (slot : ℤ) (rs : String) : Except Error (Option Q) := do
  let rs := if has '*' rs && (first rs = some '+' && !isGoodToken env rs) then
      String.ofList (rs.toList.filter (· ≠ '*'))
    else rs
  if first rs = none then throw .other
  let queryStr := if first rs = some '*' then String.ofList rs.toList.reverse else rs
  let queryStr := if isUuid queryStr then toLowerAndReplaceDelimeters queryStr else queryStr
  let xtr := "X" ++ toString slot ++ "X"
  let flags := flagDefault ||| flagWildcard ||| flagPhrase ||| flagLovehate
  let queryStr' := if ne then "NOT " ++ queryStr else queryStr
  let flags' := if ne then flags ||| flagPureNot else flags
  checked (fun queryStr =>
      "parse_query2('x'=*) query='" ++ queryStr ++ "', xtr='" ++ xtr ++ "'")
    (parseQuery env queryStr' (some flags') (some xtr))

/-- The comparison with a text between brackets: two bounds, or a class. -/
def equalRange [Zero V] [One V] (strict : Bool) (tta : TTA) (slot : ℤ) (rs : String) :
    Except Error (Option Q) :=
  let isValue (type : TokenType) : Bool := type = .date || type = .number
  match if rs = "" then [] else rs.splitOn "," with
  | [low, high] => do
    let (type, cFrom) ← getTokenType env low
    if isValue type then
      let (type, cTo) ← getTokenType env high
      if isValue type then notNull tta (env.newQueryRange slot cFrom cTo) else return none
    else return none
  | [_] =>
    let el := if first rs = some '\'' && 2 < rs.utf8ByteSize && rs.toList.getLast? = some '\'' then
        String.ofList rs.toList.tail.dropLast
      else rs
    let xtr := "X" ++ toString slot ++ "X"
    let queryStr := if !strict && hasInside ':' rs then
        (env.subClasses el).foldl (fun queryStr classz => queryStr ++ " OR " ++ classz) el
      else el
    checked (fun queryStr =>
        "parse_query2.1('x'=*) query='" ++ queryStr ++ "', xtr='" ++ xtr ++ "'")
      (parseQuery env queryStr (some (flagDefault ||| flagWildcard ||| flagPhrase ||| flagLovehate))
        (some xtr))
  | _ => .ok none

/-- The comparison with a number. -/
def equalNumber (tta : TTA) (slot : ℤ) (rs : String) : Except Error (Option Q) :=
  let value := (env.parseDouble rs).getD none
  notNull tta (env.newQuery ("X" ++ toString slot ++ "X" ++ env.sortableSerialise value))

/-- The slot in which a property is looked for: that of the reversed texts for a pattern that begins
with `*`. -/
def slotOf (ls rs : String) : Except Error ℤ :=
  if first rs = some '*' && isGoodToken env rs then .ok (getSlot env.key2slot (ls ++ "#F"))
  else .ok (getSlot env.key2slot ls)

/-- `==`, `!=` and `===` once both sides gave no query; `decor` is that of the right side. -/
def equal [Zero V] [One V] [DecidableEq V] (tta : TTA) (ne strict : Bool) (decor : Decor)
    (ls rs : Option String) : Except Error (Option Q) := do
  let rs' := withSubClasses env strict (rs.getD "")
  if ls = some "*" then equalAny env ne rs'
  else if ls = some "@" then equalUid env ne rs'
  else
    if rs ≠ none ∧ rs' = "" then throw .other
    let slot ← slotOf env (ls.getD "") rs'
    if slot > 0 then
      let (type, value) ← getTokenType env rs'
      if type = .boolean then equalBoolean env tta slot value
      else if decor = .quoted || (has '*' rs' && isGoodToken env rs') then
        equalText env ne slot rs'
      else if decor = .range then equalRange env strict tta slot rs'
      else equalNumber env tta slot rs'
    else return none

/-! ## The translation -/

/-- What a call gives: the text it returns and its `out` parameters. -/
structure Out (V Q : Type) where
  ret : Option String
  lToken : Option String
  op : Option String
  query : Option Q
  rd : Option V

/-- A call that returns `null` and assigns nothing. -/
def Out.null : Out V Q := ⟨none, none, none, none, none⟩

/-- `throw new XapianError(err, "invalid tta=" ~ text(tta))`. -/
def invalid (tta : TTA) : Except Error α := .error (.xapian ("invalid tta=" ++ tta.toString))

/-- The end of `>` and `<`: nothing is built, the bound goes up to the caller. -/
def compare [Zero V] [One V] (op : String) (lo ro : Out V Q) : Except Error (Out V Q) := do
  let (type, value) ← getTokenType env (ro.ret.getD "")
  if type = .date || type = .number then
    return { ret := ro.ret, lToken := lo.ret, op := some op, query := none, rd := value }
  else return .null

/-- The two bounds of a range; the left side is looked at last. -/
def rangeBounds (opL opR : Option String) (ld rd : Option V) : Option V × Option V :=
  let cFrom := if opR = some ">" then rd else none
  let cTo := if opR = some "<" then rd else none
  (if opL = some ">" then ld else cFrom, if opL = some "<" then ld else cTo)

/-- `&&` of a query that may be missing with the right query. -/
def addRight (tta : TTA) (queryL queryR : Option Q) : Except Error (Option Q) :=
  match queryL with
  | none => notNull tta queryR
  | some queryL => notNull tta (queryR.bind (env.addRightQuery .and queryL))

/-- The query of `&&`: a single bound on the right makes a range with what the left side returns. -/
def andQuery (tta : TTA) (lo ro : Out V Q) : Except Error (Option Q) :=
  match ro.lToken, lo.ret with
  | some token, some _ =>
    let (cFrom, cTo) := rangeBounds lo.op ro.op lo.rd ro.rd
    addRight env tta lo.query (env.newQueryRange (getSlot env.key2slot token) cFrom cTo)
  | _, _ =>
    if ro.query.isSome then addRight env tta lo.query ro.query else .ok lo.query

/-- The end of `&&`. -/
def conjunction (tta : TTA) (lo ro : Out V Q) : Except Error (Out V Q) := do
  let query ← andQuery env tta lo ro
  let op := lo.op.or ro.op
  match lo.ret, ro.ret with
  | none, some ret => return ⟨some ret, none, op, query, ro.rd⟩
  | some ret, none => return ⟨some ret, none, op, query, lo.rd⟩
  | _, _ => return ⟨none, none, op, query, none⟩

/-- The end of `||`: what the two sides return is dropped. -/
def disjunction (tta : TTA) (lo ro : Out V Q) : Except Error (Out V Q) := do
  let query ← notNull tta
    (lo.query.bind fun queryL => ro.query.bind (env.addRightQuery .or queryL))
  return ⟨none, none, none, query, none⟩

/-- `TTA.token_decor`. -/
def decorOf : TTA → Decor
  | .null => .none
  | .node _ decor _ _ => decor

/-- `_transform_vql_to_xapian`. A missing side of `&&` or `||` is not translated. -/
def transform [Zero V] [One V] [DecidableEq V] : TTA → Except Error (Out V Q)
  | .null => .error .other
  | .node op decor l r =>
    if env.key2slot = [] then .ok .null
    else if op = ">" ∨ op = "<" then
      if l = .null ∨ r = .null then invalid (.node op decor l r)
      else do
        let lo ← transform l
        let ro ← transform r
        compare env op lo ro
    else if op = "==" ∨ op = "!=" ∨ op = "===" then
      let strict : Bool := op = "==="
      let tta := TTA.node (if strict then "==" else op) decor l r
      if l = .null ∨ r = .null then invalid tta
      else do
        let lo ← transform l
        let ro ← transform r
        if lo.query.isNone && ro.query.isNone then
          let query ← equal env tta (op = "!=") strict (decorOf r) lo.ret ro.ret
          return ⟨none, none, none, query, none⟩
        else return .null
    else if op = "&&" then do
      let ro ← if r = .null then .ok .null else transform r
      let lo ← if l = .null then .ok .null else transform l
      conjunction env (.node op decor l r) lo ro
    else if op = "||" then do
      let ro ← if r = .null then .ok .null else transform r
      let lo ← if l = .null then .ok .null else transform l
      disjunction env (.node op decor l r) lo ro
    else .ok { Out.null with ret := some op }

end

end Veda.Search.Xapian
