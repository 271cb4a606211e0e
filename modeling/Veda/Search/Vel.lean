import Mathlib.Data.List.Basic
import Mathlib.Data.Int.Notation

/-! # The parser of queries

The model of `parse_expr` in `vel.d`, with the class `stack` of `container.d` that it keeps its
operands and operators on. -/

namespace Veda.Search.Vel

/-- What ends a parse: an index that is out of range, or a push on a full stack. -/
inductive ParseError where
  | range
  | stackFull
  deriving DecidableEq

/-- `Decor`. -/
inductive Decor where
  | none
  | quoted
  | range
  deriving DecidableEq

/-- `class TTA`; `null` is no object. -/
inductive TTA where
  | null
  | node (op : String) (decor : Decor) (l r : TTA)
  deriving DecidableEq

/-! ## Stacks -/

/-- `pushBack`. The place 0 of the 100 is not used. -/
def pushBack (stack : List α) (val : α) : Except ParseError (List α) :=
  if stack.length < 99 then .ok (val :: stack) else .error .stackFull

/-- `popBack` of the operands. An empty stack gives what is in the place 0: no object. -/
def popBack : List TTA → TTA × List TTA
  | [] => (.null, [])
  | val :: stack => (val, stack)

@[simp] theorem popBack_cons (val : TTA) (stack : List TTA) :
    popBack (val :: stack) = (val, stack) := rfl

/-- `back` of the operands. -/
def back (stack : List TTA) : TTA := stack.headD .null

/-- Operands and operators. -/
structure State where
  st : List TTA
  op : List String

/-! ## Operators -/

def delim (c : Char) : Bool := c = ' ' || c = '\t' || c = '\r' || c = '\n'

/-- `is_op`. -/
def isOp : List Char → Option String
  | [c] => if c = '>' then some ">" else if c = '<' then some "<" else none
  | [c, d] =>
    let text := String.ofList [c, d]
    if text ∈ [">=", "<=", "==", "!=", "=*", "=+", "||", "&&"] then some text
    else if c = '>' ∧ d ≠ '=' then some ">"
    else if c = '<' ∧ d ≠ '=' then some "<"
    else none
  | [c, d, e] => if String.ofList [c, d, e] = "===" then some "===" else none
  | _ => none

def priority (op : String) : ℤ :=
  if op = "<" ∨ op = "<=" ∨ op = ">" ∨ op = "=>" then 4
  else if op = "==" ∨ op = "!=" ∨ op = "=*" ∨ op = "=+" ∨ op = "===" then 3
  else if op = "&&" then 2
  else if op = "||" then 1
  else -1

/-- The operators for which `process_op` makes a node. -/
def operators : List String :=
  ["<", ">", "==", "===", "!=", "=*", "=+", ">=", "<=", "||", "&&"]

/-- `process_op`. For anything but an operator the operands are dropped. -/
def processOp (st : List TTA) (op : String) : Except ParseError (List TTA) :=
  let (r, st) := popBack st
  let (l, st) := popBack st
  if op ∈ operators then pushBack st (.node op .none l r) else .ok st

/-- `while (!op.empty() && …) process_op(st, op.popBack())`. -/
def processWhile (p : String → Bool) (st : List TTA) : List String → Except ParseError State
  | [] => .ok ⟨st, []⟩
  | op :: ops =>
    if p op then
      match processOp st op with
      | .ok st => processWhile p st ops
      | .error e => .error e
    else .ok ⟨st, op :: ops⟩

/-! ## The loop -/

section
variable (s : List Char)

/-- `s[i]`. -/
def charAt (i : ℤ) : Except ParseError Char :=
  if i < 0 then .error .range
  else
    match s[i.toNat]? with
    | some c => .ok c
    | none => .error .range

/-- `s[i .. j]`. -/
def slice (i j : ℤ) : Except ParseError (List Char) :=
  if 0 ≤ i ∧ i ≤ j ∧ j ≤ s.length then .ok ((s.drop i.toNat).take (j - i).toNat)
  else .error .range

/-- Where a `while` over the characters from `i` on ends. -/
def scan (p : Char → Bool) (i : ℕ) : ℕ := i + ((s.drop i).takeWhile p).length

/-- `st.pushBack(new TTA(operand, null, null, decor))`. -/
def pushOperand (st : List TTA) (operand : List Char) (decor : Decor) :
    Except ParseError (List TTA) :=
  pushBack st (.node (String.ofList operand) decor .null .null)

/-- An operand between quotes. -/
def quoted (close : Char) (decor : Decor) (i : ℕ) (state : State) :
    Except ParseError (ℕ × State) := do
  let bp := i + 1
  let i := scan s (· ≠ close) bp
  let operand ← slice s bp i
  let st ← pushOperand state.st operand decor
  return (i, { state with st := st })

/-- The characters of an operand without quotes. -/
def plain (c : Char) : Bool := c ∉ ['&', '|', '=', '<', '>', '!', '-', ' ']

/-- An operand without quotes. A parenthesis at its end is left for the next pass. -/
def unquoted (i : ℕ) (state : State) : Except ParseError (ℕ × State) := do
  let bp := i
  let i := scan s plain bp
  let last ← charAt s (i - 1)
  if last = '(' ∨ last = ')' then
    let before ← charAt s (i - 2)
    let operand ← if before ≠ '\'' then slice s bp (i - 1) else slice s bp (i - 2)
    let st ← pushOperand state.st operand .none
    return (i - 2, { state with st := st })
  else
    let operand ← slice s bp i
    let st ← pushOperand state.st operand .none
    return (i, { state with st := st })

/-- The end of the slice in which an operator is looked for. -/
def opEnd (i : ℕ) (c : Char) : Except ParseError ℤ := do
  let e : ℤ := if i + 2 > s.length then s.length - 1 else i + 2
  if c = '=' then
    let d ← charAt s e
    if d = '=' then return e + 1 else return e
  else return e

/-- One pass of the loop, at a character that is no delimiter; it gives the index of the last
character that was read. -/
def pass (i : ℕ) (c : Char) (state : State) : Except ParseError (ℕ × State) :=
  if c = '(' then do
    let op ← pushBack state.op "("
    return (i, { state with op := op })
  else if c = ')' then do
    let state ← processWhile (· ≠ "(") state.st state.op
    return (i, { state with op := state.op.tail })
  else do
    let e ← opEnd s i c
    let text ← slice s i e
    match isOp text with
    | some curop =>
      let state ← processWhile (fun op => priority op ≥ priority curop) state.st state.op
      let op ← pushBack state.op curop
      return (i + (curop.length - 1), { state with op := op })
    | none =>
      if c = '\'' then quoted s '\'' .quoted i state
      else if c = '`' then quoted s '`' .quoted i state
      else if c = '[' then quoted s ']' .range i state
      else unquoted s i state

/-- `for (int i = 0; i < s.length; i++)`. Each pass goes on by at least one character, so that with
more fuel than characters none of it is missed. -/
def loop : ℕ → ℕ → State → Except ParseError State
  | 0, _, _ => .error .stackFull
  | fuel + 1, i, state =>
    match s[i]? with
    | none => .ok state
    | some c =>
      if delim c then loop fuel (i + 1) state
      else
        match pass s i c state with
        | .ok (i, state) => loop fuel (i + 1) state
        | .error e => .error e

/-- `parse_expr`. -/
def parseExpr : Except ParseError TTA := do
  let state ← loop s (s.length + 1000) 0 ⟨[], []⟩
  let state ← processWhile (fun _ => true) state.st state.op
  return back state.st

end

/-! ## What a pass does at the end of a prefix -/

section
variable {pre r : List Char}

theorem charAt_append {k : ℕ} {c : Char} (h : r[k]? = some c) :
    charAt (pre ++ r) (pre.length + k) = .ok c := by
  have hi : ¬((pre.length : ℤ) + k < 0) := by omega
  have hn : ((pre.length : ℤ) + k).toNat = pre.length + k := by omega
  have hg : (pre ++ r)[pre.length + k]? = some c := by
    rw [List.getElem?_append_right (by omega), Nat.add_sub_cancel_left, h]
  simp only [charAt, hi, if_false, hn, hg]

theorem slice_append {k : ℕ} (hk : k ≤ r.length) :
    slice (pre ++ r) pre.length (pre.length + k) = .ok (r.take k) := by
  have hc : 0 ≤ (pre.length : ℤ) ∧ (pre.length : ℤ) ≤ pre.length + k ∧
      (pre.length : ℤ) + k ≤ (pre ++ r).length := by
    simp only [List.length_append]
    omega
  have hn : ((pre.length : ℤ) + k - pre.length).toNat = k := by omega
  simp only [slice, hc, and_self, if_true, hn, Int.toNat_natCast, List.drop_left]

theorem opEnd_of_ne {c : Char} (hr : 2 ≤ r.length) (hc : c ≠ '=') :
    opEnd (pre ++ r) pre.length c = .ok (pre.length + 2) := by
  have hi : ¬(pre.length + 2 > (pre ++ r).length) := by
    simp only [List.length_append]
    omega
  simp only [opEnd, hi, if_false, hc]
  rfl

theorem opEnd_eq {d : Char} (hd : r[2]? = some d) :
    opEnd (pre ++ r) pre.length '=' = .ok (pre.length + if d = '=' then 3 else 2) := by
  have hr := (List.getElem?_eq_some_iff.mp hd).1
  have hi : ¬(pre.length + 2 > (pre ++ r).length) := by
    simp only [List.length_append]
    omega
  have hg : charAt (pre ++ r) (pre.length + 2) = .ok d := charAt_append (k := 2) hd
  simp only [opEnd, hi, if_false, if_true, hg, bind, Except.bind]
  split
  · simp only [pure, Except.pure, Int.add_assoc]
    rfl
  · rfl
end

theorem ofList_eq_iff {l : List Char} {s : String} : String.ofList l = s ↔ l = s.toList := by
  rw [← String.toList_inj, String.toList_ofList]

theorem isOp_gt {d : Char} (hd : d ≠ '=') : isOp ['>', d] = some ">" := by
  simp only [isOp, List.mem_cons, ofList_eq_iff, List.not_mem_nil, or_false]
  simp [hd]

theorem isOp_lt {d : Char} (hd : d ≠ '=') : isOp ['<', d] = some "<" := by
  simp only [isOp, List.mem_cons, ofList_eq_iff, List.not_mem_nil, or_false]
  simp [hd]

theorem isOp_quote (d : Char) : isOp ['\'', d] = none := by
  simp only [isOp, List.mem_cons, ofList_eq_iff, List.not_mem_nil, or_false]
  simp


/-- At `pre.length` the operator `text` is found. -/
def Found (pre r : List Char) (c : Char) (text : String) : Prop :=
  ∃ e t, opEnd (pre ++ r) pre.length c = .ok e ∧ slice (pre ++ r) pre.length e = .ok t ∧
    isOp t = some text

section
variable {pre r : List Char} {text : String}

theorem Found.of_ne {c : Char} (hr : 2 ≤ r.length) (hc : c ≠ '=')
    (ht : isOp (r.take 2) = some text) : Found pre r c text :=
  ⟨_, _, opEnd_of_ne hr hc, slice_append (k := 2) hr, ht⟩

theorem Found.two {d : Char} (hd : r[2]? = some d) (hn : d ≠ '=')
    (ht : isOp (r.take 2) = some text) : Found pre r '=' text := by
  have hr := (List.getElem?_eq_some_iff.mp hd).1
  refine ⟨_, _, opEnd_eq hd, ?_, ht⟩
  rw [if_neg hn]
  exact slice_append (k := 2) (Nat.le_of_lt hr)

theorem Found.three (hd : r[2]? = some '=') (ht : isOp (r.take 3) = some text) :
    Found pre r '=' text := by
  have hr := (List.getElem?_eq_some_iff.mp hd).1
  refine ⟨_, _, opEnd_eq hd, ?_, ht⟩
  rw [if_pos rfl]
  exact slice_append (k := 3) hr

end

theorem scan_append {pre t rest : List Char} {p : Char → Bool} {c : Char} (ht : ∀ x ∈ t, p x)
    (hc : p c = false) : scan (pre ++ (t ++ c :: rest)) p pre.length = pre.length + t.length := by
  simp only [scan, List.drop_left]
  rw [List.takeWhile_append_of_pos ht, List.takeWhile_cons_of_neg (by simp [hc]), List.append_nil]

theorem pass_found {pre r : List Char} {c : Char} {text : String} (state : State)
    (hc : c ≠ '(' ∧ c ≠ ')') (h : Found pre r c text) :
    pass (pre ++ r) pre.length c state = do
      let state ← processWhile (fun op => priority op ≥ priority text) state.st state.op
      let op ← pushBack state.op text
      return (pre.length + (text.length - 1), { state with op := op }) := by
  obtain ⟨e, t, he, ht, ho⟩ := h
  simp only [pass, hc.1, hc.2, if_false, he, bind, Except.bind, ht, ho]

/-- At a quote no operator is found. -/
theorem pass_quote {pre r : List Char} (state : State) (hr : 1 ≤ r.length) :
    pass (pre ++ '\'' :: r) pre.length '\'' state =
      quoted (pre ++ '\'' :: r) '\'' .quoted pre.length state := by
  have ht : isOp (('\'' :: r).take 2) = none := by
    cases r with
    | nil => cases hr
    | cons d r => exact isOp_quote d
  have he : opEnd (pre ++ '\'' :: r) pre.length '\'' = .ok (pre.length + 2) :=
    opEnd_of_ne (Nat.succ_le_succ hr) (by decide)
  have hs : slice (pre ++ '\'' :: r) pre.length (pre.length + 2) = .ok (('\'' :: r).take 2) :=
    slice_append (k := 2) (Nat.succ_le_succ hr)
  simp only [pass, he, hs, ht, bind, Except.bind]
  rfl

end Veda.Search.Vel
