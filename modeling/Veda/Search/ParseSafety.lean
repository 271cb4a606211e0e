import Veda.Search.Vel

/-! # Queries that are parsed to the end

When `parse_expr` ends without an index out of the string or out of one of its stacks: the text is
gone through as a list of tokens, and the tokens are counted on the stacks. -/

namespace Veda.Search.Vel.Scanner

/-! ## Tokens -/

/-- What a pass puts on a stack, or takes from it. -/
inductive Token where
  | opening
  | closing
  | operator (text : String)
  | operand

/-- The operator that begins a text, if there is one. Before the last character none is looked for,
and at a `=` the character behind the next one is looked at, which must be there. -/
def operatorOf : List Char → Option (Option String)
  | [] | [_] => some none
  | [c, d] => if c = '=' then none else some (isOp [c, d])
  | c :: d :: e :: _ => if c = '=' ∧ e = '=' then some (isOp [c, d, e]) else some (isOp [c, d])

/-- The end of an operand between quotes. -/
def closeOf (c : Char) : Option Char :=
  if c = '\'' then some '\'' else if c = '`' then some '`' else if c = '[' then some ']' else none

/-- An operand without quotes behind `pre`, and how many characters are passed with it. A
parenthesis at its end is left; any other character behind it is passed. Where it is empty, the
character before it must be there, and no parenthesis. -/
def unquotedAt (pre operand : List Char) : Option ℕ :=
  match (pre ++ operand).getLast? with
  | none => none
  | some last =>
    if last = '(' ∨ last = ')' then
      if operand = [] then none else some (operand.length - 1)
    else some (operand.length + 1)

/-- The token behind `pre`, if there is one, and how many characters are passed. -/
def next (pre : List Char) : List Char → Option (Option Token × ℕ)
  | [] => none
  | c :: r =>
    if delim c then some (none, 1)
    else if c = '(' then some (some .opening, 1)
    else if c = ')' then some (some .closing, 1)
    else
      match operatorOf (c :: r) with
      | none => none
      | some (some text) => some (some (.operator text), text.length)
      | some none =>
        match closeOf c with
        | some close => some (some .operand, 2 + (r.takeWhile (· ≠ close)).length)
        | none => (unquotedAt pre ((c :: r).takeWhile plain)).map fun n => (some .operand, n)

/-- A text behind `pre` is gone through as a list of tokens. -/
inductive Lexes : List Char → List Char → List Token → Prop
  | done : Lexes pre [] []
  | delim (hn : next pre r = some (none, n)) (h : Lexes (pre ++ r.take n) (r.drop n) toks) :
      Lexes pre r toks
  | token (hn : next pre r = some (some tok, n))
      (h : Lexes (pre ++ r.take n) (r.drop n) toks) : Lexes pre r (tok :: toks)

/-! ## Counting -/

/-- How many operands are on their stack, and the operators. -/
structure Heights where
  operands : ℕ
  ops : List String

namespace Heights

/-- What is left of so many operands when an operator is taken from its stack. -/
def processed (n : ℕ) (op : String) : ℕ := if op ∈ operators then n - 2 + 1 else n - 2

/-- Operators are taken from the stack as long as `p` holds for them. -/
def reduce (p : String → Bool) (n : ℕ) : List String → Heights
  | [] => ⟨n, []⟩
  | op :: ops => if p op then reduce p (processed n op) ops else ⟨n, op :: ops⟩

/-- A token is counted. No stack gets more than 99 elements. -/
def step (h : Heights) : Token → Option Heights
  | .opening => if h.ops.length < 99 then some ⟨h.operands, "(" :: h.ops⟩ else none
  | .closing =>
    let h := reduce (· ≠ "(") h.operands h.ops
    some ⟨h.operands, h.ops.tail⟩
  | .operator text =>
    let h := reduce (fun op => priority op ≥ priority text) h.operands h.ops
    if h.ops.length < 99 then some ⟨h.operands, text :: h.ops⟩ else none
  | .operand => if h.operands < 99 then some ⟨h.operands + 1, h.ops⟩ else none

end Heights

/-! ## The property -/

/-- A query is parsed to the end. -/
def Parses (s : List Char) : Prop := ∃ tta, parseExpr s = .ok tta

/-- A text behind `pre` can be gone through as tokens, of which no stack gets more than 99
elements. -/
def Fits (pre r : List Char) (h : Heights) : Prop :=
  ∃ toks h', Lexes pre r toks ∧ toks.foldlM Heights.step h = some h'

/-! ## The stacks -/

/-- What is on the stacks of a parse. -/
def heights (state : State) : Heights := ⟨state.st.length, state.op⟩

theorem popBack_length (st : List TTA) : (popBack st).2.length = st.length - 1 := by
  cases st with
  | nil => rfl
  | cons val st => rfl

theorem pushBack_of_lt {A : Type} {stack : List A} {val : A} (h : stack.length < 99) :
    pushBack stack val = .ok (val :: stack) := if_pos h

theorem pushBack_of_not_lt {A : Type} {stack : List A} {val : A} (h : ¬stack.length < 99) :
    pushBack stack val = .error .stackFull := if_neg h

/-- Two operands make room for the one that is made of them. -/
theorem processOp_ok {st : List TTA} (h : st.length ≤ 99) (op : String) :
    ∃ st', processOp st op = .ok st' ∧ st'.length = Heights.processed st.length op ∧
      st'.length ≤ 99 := by
  have hpop : (popBack (popBack st).2).2.length = st.length - 2 := by
    rw [popBack_length, popBack_length]
    omega
  rw [processOp, Heights.processed]
  dsimp only
  by_cases hop : op ∈ operators
  · rw [if_pos hop, if_pos hop, pushBack_of_lt (by omega)]
    refine ⟨_, rfl, ?_, ?_⟩ <;> rw [List.length_cons, hpop]
    omega
  · rw [if_neg hop, if_neg hop]
    exact ⟨_, rfl, hpop, by omega⟩

theorem processWhile_ok (p : String → Bool) {st : List TTA} (h : st.length ≤ 99)
    (ops : List String) :
    ∃ state, processWhile p st ops = .ok state ∧ heights state = Heights.reduce p st.length ops ∧
      state.st.length ≤ 99 := by
  induction ops generalizing st with
  | nil => exact ⟨_, rfl, rfl, h⟩
  | cons op ops ih =>
    rw [processWhile, Heights.reduce]
    by_cases hp : p op = true
    · obtain ⟨st', hst', hlen, hle⟩ := processOp_ok h op
      rw [if_pos hp, if_pos hp, hst', ← hlen]
      exact ih hle
    · rw [if_neg hp, if_neg hp]
      exact ⟨_, rfl, rfl, h⟩

/-! ## A pass -/

section
variable {pre r : List Char} {c : Char} {state : State}

theorem charAt_behind (s : List Char) : charAt s s.length = .error .range := by
  have hi : ¬((s.length : ℤ) < 0) := by omega
  have hg : s[s.length]? = none := List.getElem?_eq_none (Nat.le_refl _)
  simp only [charAt, hi, if_false, Int.toNat_natCast, hg]

theorem charAt_head : charAt (pre ++ c :: r) pre.length = .ok c := by
  have h : charAt (pre ++ c :: r) (pre.length + (0 : ℕ)) = .ok c := charAt_append rfl
  simpa using h

theorem slice_head : slice (pre ++ r) pre.length pre.length = .ok [] := by
  have h : slice (pre ++ r) pre.length (pre.length + (0 : ℕ)) = .ok (r.take 0) :=
    slice_append (Nat.zero_le _)
  simpa using h

/-- Where the slice at the last character ends. -/
theorem opEnd_last : opEnd (pre ++ [c]) pre.length c =
    .ok (if c = '=' then pre.length + 1 else pre.length) := by
  have hlen : ((pre ++ [c]).length : ℤ) - 1 = pre.length := by
    rw [List.length_append, List.length_singleton]
    omega
  have hi : pre.length + 2 > (pre ++ [c]).length := by
    rw [List.length_append, List.length_singleton]
    omega
  simp only [opEnd, if_pos hi, hlen]
  by_cases hc : c = '='
  · subst hc
    simp only [if_true, charAt_head, bind, Except.bind]
    rfl
  · simp only [if_neg hc]
    rfl

/-- How an operator is looked for. -/
theorem look {A : Type} (f : Option String → Except ParseError A) :
    (do
      let e ← opEnd (pre ++ c :: r) pre.length c
      let text ← slice (pre ++ c :: r) pre.length e
      f (isOp text)) =
      match operatorOf (c :: r) with
      | none => .error .range
      | some found => f found := by
  cases r with
  | nil =>
    rw [opEnd_last]
    by_cases hc : c = '='
    · subst hc
      have hslice : slice (pre ++ ['=']) pre.length (pre.length + 1) = .ok ['='] :=
        slice_append (k := 1) (Nat.le_refl _)
      simp only [if_true, hslice, bind, Except.bind]
      rfl
    · simp only [if_neg hc, slice_head, bind, Except.bind]
      rfl
  | cons d r =>
    have hslice : slice (pre ++ c :: d :: r) pre.length (pre.length + 2) = .ok [c, d] :=
      slice_append (k := 2) (by simp)
    cases r with
    | nil =>
      by_cases hc : c = '='
      · subst hc
        have hlen : ((pre ++ ['=', d]).length : ℤ) = pre.length + 2 := by simp
        have hi : ¬(pre.length + 2 > (pre ++ ['=', d]).length) := by simp
        have hbehind := charAt_behind (pre ++ ['=', d])
        rw [hlen] at hbehind
        simp only [opEnd, if_neg hi, if_true, hbehind, bind, Except.bind]
        rfl
      · rw [opEnd_of_ne (by simp) hc]
        simp only [hslice, bind, Except.bind, operatorOf, if_neg hc]
    | cons e r =>
      by_cases hc : c = '='
      · subst hc
        rw [opEnd_eq (d := e) rfl]
        by_cases he : e = '='
        · subst he
          have hslice : slice (pre ++ '=' :: d :: '=' :: r) pre.length (pre.length + 3) =
              .ok ['=', d, '='] := slice_append (k := 3) (by simp)
          simp only [hslice, bind, Except.bind, operatorOf, and_self, if_true]
        · simp only [hslice, bind, Except.bind, operatorOf, he, and_false, if_false]
      · rw [opEnd_of_ne (by simp) hc]
        simp only [hslice, bind, Except.bind, operatorOf, hc, false_and, if_false]

theorem isOp_pos {l : List Char} {text : String} (h : isOp l = some text) : 0 < text.length := by
  unfold isOp at h
  split at h
  · split at h
    · cases h
      decide
    · split at h
      · cases h
        decide
      · cases h
  · dsimp only at h
    split at h
    · cases h
      rw [String.length_ofList]
      exact Nat.succ_pos _
    · split at h
      · cases h
        decide
      · split at h
        · cases h
          decide
        · cases h
  · split at h
    · cases h
      decide
    · cases h
  · cases h

theorem takeWhile_eq_take (p : Char → Bool) (l : List Char) :
    l.take (l.takeWhile p).length = l.takeWhile p :=
  (List.prefix_iff_eq_take.mp (List.takeWhile_prefix p)).symm

theorem scan_eq (p : Char → Bool) :
    scan (pre ++ r) p pre.length = pre.length + (r.takeWhile p).length := by
  rw [scan, List.drop_left]

theorem charAt_ok {s : List Char} {i : ℤ} (h : 0 ≤ i) (hlt : i < s.length) :
    ∃ c, charAt s i = .ok c := by
  have hi : i.toNat < s.length := by omega
  have hnot : ¬i < 0 := by omega
  refine ⟨s[i.toNat], ?_⟩
  simp only [charAt, if_neg hnot, List.getElem?_eq_getElem hi]

theorem charAt_error {s : List Char} {i : ℤ} {e : ParseError} (h : charAt s i = .error e) :
    e = .range := by
  rw [charAt] at h
  split at h
  · cases h
    rfl
  · split at h
    · cases h
    · cases h
      rfl

/-- The last character of what was passed. -/
theorem charAt_last (l rest : List Char) :
    charAt (l ++ rest) (l.length - 1) = l.getLast?.elim (.error .range) .ok := by
  cases hl : l.getLast? with
  | none =>
    rw [List.getLast?_eq_none_iff.mp hl]
    rfl
  | some c =>
    obtain ⟨front, rfl⟩ := List.getLast?_eq_some_iff.mp hl
    have hi : ((front ++ [c]).length : ℤ) - 1 = front.length := by
      rw [List.length_append, List.length_singleton]
      omega
    rw [hi, List.append_assoc]
    exact charAt_head

theorem slice_ok {s : List Char} {i j : ℤ} (h : 0 ≤ i ∧ i ≤ j ∧ j ≤ s.length) :
    ∃ t, slice s i j = .ok t := ⟨_, if_pos h⟩

theorem slice_error {s : List Char} {i j : ℤ} (h : j < i) : slice s i j = .error .range := by
  rw [slice, if_neg]
  omega

/-- An operand is pushed, where there is room, and the rest follows. -/
theorem pushOperand_bind {A : Type} (st : List TTA) (operand : List Char) (decor : Decor)
    (f : List TTA → A) :
    (do
      let st ← pushOperand st operand decor
      return f st) =
      if st.length < 99 then .ok (f (.node (String.ofList operand) decor .null .null :: st))
      else .error .stackFull := by
  rw [pushOperand]
  by_cases h : st.length < 99
  · rw [pushBack_of_lt h, if_pos h]
    rfl
  · rw [pushBack_of_not_lt h, if_neg h]
    rfl

theorem operatorOf_pos {l : List Char} {text : String} (h : operatorOf l = some (some text)) :
    0 < text.length := by
  unfold operatorOf at h
  split at h
  · cases h
  · cases h
  · split at h
    · cases h
    · exact isOp_pos (Option.some.inj h)
  · split at h
    · exact isOp_pos (Option.some.inj h)
    · exact isOp_pos (Option.some.inj h)

/-- An operand between quotes is pushed, whether or not it is closed. -/
theorem quoted_eq (close : Char) (decor : Decor) :
    quoted (pre ++ c :: r) close decor pre.length state =
      if state.st.length < 99 then
        .ok (pre.length + 1 + (r.takeWhile (· ≠ close)).length,
          { state with st := .node (String.ofList (r.takeWhile (· ≠ close))) decor .null .null ::
              state.st })
      else .error .stackFull := by
  have happ : pre ++ c :: r = (pre ++ [c]) ++ r := by simp
  have hlen : (pre ++ [c]).length = pre.length + 1 := by simp
  have hscan := @scan_eq (pre ++ [c]) r (· ≠ close)
  have hslice : slice ((pre ++ [c]) ++ r) (pre ++ [c]).length
      ((pre ++ [c]).length + (r.takeWhile (· ≠ close)).length : ℕ) =
        .ok (r.take (r.takeWhile (· ≠ close)).length) := by
    rw [Int.natCast_add]
    exact slice_append (List.takeWhile_prefix _).length_le
  rw [takeWhile_eq_take] at hslice
  rw [hlen] at hscan hslice
  simp only [quoted, happ, hscan, hslice, bind, Except.bind]
  exact pushOperand_bind _ _ _ fun st =>
    (pre.length + 1 + (r.takeWhile (· ≠ close)).length, { state with st := st })

/-- An operand without quotes that ends with no parenthesis. -/
theorem unquoted_of_char {last : Char}
    (hlast : (pre ++ (c :: r).takeWhile plain).getLast? = some last)
    (hne : ¬(last = '(' ∨ last = ')')) :
    unquoted (pre ++ c :: r) pre.length state =
      if state.st.length < 99 then
        .ok (pre.length + ((c :: r).takeWhile plain).length,
          { state with st := .node (String.ofList ((c :: r).takeWhile plain)) .none .null .null ::
              state.st })
      else .error .stackFull := by
  have hprefix := List.takeWhile_append_dropWhile (p := plain) (l := c :: r)
  have hchar := charAt_last (pre ++ (c :: r).takeWhile plain) ((c :: r).dropWhile plain)
  rw [hlast, List.append_assoc, hprefix, List.length_append, Int.natCast_add] at hchar
  have hslice : slice (pre ++ c :: r) pre.length
      (pre.length + ((c :: r).takeWhile plain).length : ℕ) = .ok ((c :: r).takeWhile plain) := by
    have h := @slice_append pre (c :: r) _ (List.takeWhile_prefix plain).length_le
    rw [takeWhile_eq_take] at h
    rw [Int.natCast_add]
    exact h
  simp only [unquoted, scan_eq, Int.natCast_add] at hslice ⊢
  simp only [hchar, Option.elim, bind, Except.bind, if_neg hne, hslice]
  exact pushOperand_bind _ _ _ fun st =>
    (pre.length + ((c :: r).takeWhile plain).length, { state with st := st })

/-- Before an empty operand there must be a character. -/
theorem unquoted_of_none (hlast : (pre ++ (c :: r).takeWhile plain).getLast? = none) :
    unquoted (pre ++ c :: r) pre.length state = .error .range := by
  have hprefix := List.takeWhile_append_dropWhile (p := plain) (l := c :: r)
  have hchar := charAt_last (pre ++ (c :: r).takeWhile plain) ((c :: r).dropWhile plain)
  rw [hlast, List.append_assoc, hprefix, List.length_append, Int.natCast_add] at hchar
  simp only [unquoted, scan_eq, Int.natCast_add, hchar, Option.elim, bind, Except.bind]

/-- What is read right behind a parenthesis cannot be an empty operand. -/
theorem unquoted_empty {last : Char} (hlast : pre.getLast? = some last)
    (hp : last = '(' ∨ last = ')') (hempty : (c :: r).takeWhile plain = []) :
    unquoted (pre ++ c :: r) pre.length state = .error .range := by
  have hchar := charAt_last pre (c :: r)
  rw [hlast] at hchar
  simp only [unquoted, scan_eq, hempty, List.length_nil, Nat.add_zero, hchar, Option.elim, bind,
    Except.bind, if_pos hp]
  cases hbefore : charAt (pre ++ c :: r) (pre.length - 2) with
  | error e => rw [charAt_error hbefore]
  | ok before =>
    dsimp only
    split
    · rw [slice_error (by omega)]
    · rw [slice_error (by omega)]

/-- A parenthesis at the end of an operand is left for the next pass. -/
theorem unquoted_of_paren {last : Char}
    (hlast : (pre ++ (c :: r).takeWhile plain).getLast? = some last)
    (hp : last = '(' ∨ last = ')') (hlong : 2 ≤ ((c :: r).takeWhile plain).length) :
    ∃ operand, unquoted (pre ++ c :: r) pre.length state =
      if state.st.length < 99 then
        .ok (pre.length + ((c :: r).takeWhile plain).length - 2,
          { state with st := .node operand .none .null .null :: state.st })
      else .error .stackFull := by
  have hprefix := List.takeWhile_append_dropWhile (p := plain) (l := c :: r)
  have hchar := charAt_last (pre ++ (c :: r).takeWhile plain) ((c :: r).dropWhile plain)
  rw [hlast, List.append_assoc, hprefix, List.length_append, Int.natCast_add] at hchar
  have hle : ((c :: r).takeWhile plain).length ≤ (c :: r).length :=
    (List.takeWhile_prefix plain).length_le
  have hslen : ((pre ++ c :: r).length : ℤ) = pre.length + (c :: r).length := by
    rw [List.length_append, Int.natCast_add]
  obtain ⟨before, hbefore⟩ : ∃ before, charAt (pre ++ c :: r)
      (pre.length + ((c :: r).takeWhile plain).length - 2) = .ok before :=
    charAt_ok (by omega) (by omega)
  simp only [unquoted, scan_eq, Int.natCast_add, hchar, Option.elim, bind, Except.bind, if_pos hp,
    hbefore]
  by_cases hb : before ≠ '\''
  · obtain ⟨operand, hoperand⟩ := @slice_ok (pre ++ c :: r) pre.length
      (pre.length + ((c :: r).takeWhile plain).length - 1) (by omega)
    refine ⟨String.ofList operand, ?_⟩
    simp only [if_pos hb, hoperand]
    exact pushOperand_bind _ _ _ fun st =>
      (pre.length + ((c :: r).takeWhile plain).length - 2, { state with st := st })
  · obtain ⟨operand, hoperand⟩ := @slice_ok (pre ++ c :: r) pre.length
      (pre.length + ((c :: r).takeWhile plain).length - 2) (by omega)
    refine ⟨String.ofList operand, ?_⟩
    simp only [if_neg hb, hoperand]
    exact pushOperand_bind _ _ _ fun st =>
      (pre.length + ((c :: r).takeWhile plain).length - 2, { state with st := st })

theorem takeWhile_plain_length {last : Char} (hc : c ≠ '(' ∧ c ≠ ')')
    (hlast : (pre ++ (c :: r).takeWhile plain).getLast? = some last)
    (hp : last = '(' ∨ last = ')') (hne : (c :: r).takeWhile plain ≠ []) :
    2 ≤ ((c :: r).takeWhile plain).length := by
  rw [List.takeWhile_cons] at hlast hne ⊢
  split at hlast
  · rename_i hplain
    rw [if_pos hplain]
    cases ht : r.takeWhile plain with
    | nil =>
      rw [ht, List.getLast?_concat] at hlast
      cases hlast
      rcases hp with hp | hp
      · exact absurd hp hc.1
      · exact absurd hp hc.2
    | cons d t => exact Nat.succ_le_succ (Nat.succ_le_succ (Nat.zero_le _))
  · rename_i hplain
    exact absurd (if_neg hplain) hne

/-- What becomes of an operand without quotes. -/
theorem unquoted_spec (hc : c ≠ '(' ∧ c ≠ ')') :
    match unquotedAt pre ((c :: r).takeWhile plain) with
    | none => unquoted (pre ++ c :: r) pre.length state = .error .range
    | some n => 0 < n ∧ ∃ operand, unquoted (pre ++ c :: r) pre.length state =
      if state.st.length < 99 then
        .ok (pre.length + n - 1, { state with st := .node operand .none .null .null :: state.st })
      else .error .stackFull := by
  rw [unquotedAt]
  cases hlast : (pre ++ (c :: r).takeWhile plain).getLast? with
  | none => exact unquoted_of_none hlast
  | some last =>
    by_cases hp : last = '(' ∨ last = ')'
    · simp only [if_pos hp]
      by_cases hempty : (c :: r).takeWhile plain = []
      · rw [if_pos hempty]
        rw [hempty, List.append_nil] at hlast
        exact unquoted_empty hlast hp hempty
      · rw [if_neg hempty]
        have hlong := takeWhile_plain_length hc hlast hp hempty
        obtain ⟨operand, hoperand⟩ := @unquoted_of_paren pre r c state last hlast hp hlong
        refine ⟨by omega, operand, ?_⟩
        rw [hoperand, ← Nat.add_sub_assoc (by omega), Nat.sub_sub]
    · simp only [if_neg hp]
      refine ⟨Nat.succ_pos _, String.ofList ((c :: r).takeWhile plain), ?_⟩
      rw [unquoted_of_char hlast hp]
      rfl

/-- A pass that is counted, and the index that it ends at. -/
def Counted (result : Except ParseError (ℕ × State)) (i : ℕ) : Option Heights → Prop
  | none => result = .error .stackFull
  | some h => ∃ state, result = .ok (i, state) ∧ heights state = h ∧ state.st.length ≤ 99

theorem counted_operand {result : Except ParseError (ℕ × State)} {i : ℕ} {operand : TTA}
    (h : result = if state.st.length < 99 then .ok (i, { state with st := operand :: state.st })
      else .error .stackFull) :
    Counted result i ((heights state).step .operand) := by
  rw [Heights.step, h]
  by_cases hlt : state.st.length < 99
  · rw [if_pos hlt, if_pos (show (heights state).operands < 99 from hlt)]
    exact ⟨_, rfl, rfl, hlt⟩
  · rw [if_neg hlt, if_neg (show ¬(heights state).operands < 99 from hlt)]
    exact rfl

/-- An operator is put on its stack, where there is room. -/
theorem counted_push {i : ℕ} (op : String) (hst : state.st.length ≤ 99) :
    Counted (do
      let ops ← pushBack state.op op
      return (i, { state with op := ops })) i
      (if state.op.length < 99 then some ⟨state.st.length, op :: state.op⟩ else none) := by
  by_cases hlt : state.op.length < 99
  · rw [pushBack_of_lt hlt, if_pos hlt]
    exact ⟨_, rfl, rfl, hst⟩
  · rw [pushBack_of_not_lt hlt, if_neg hlt]
    rfl

/-- What a pass does when it has looked for an operator. -/
def afterLook (s : List Char) (i : ℕ) (c : Char) (state : State) :
    Option String → Except ParseError (ℕ × State)
  | some curop => do
    let state ← processWhile (fun op => priority op ≥ priority curop) state.st state.op
    let op ← pushBack state.op curop
    return (i + (curop.length - 1), { state with op := op })
  | none =>
    if c = '\'' then quoted s '\'' .quoted i state
    else if c = '`' then quoted s '`' .quoted i state
    else if c = '[' then quoted s ']' .range i state
    else unquoted s i state

theorem pass_look (hc : c ≠ '(' ∧ c ≠ ')') :
    pass (pre ++ c :: r) pre.length c state =
      match operatorOf (c :: r) with
      | none => .error .range
      | some found => afterLook (pre ++ c :: r) pre.length c state found := by
  rw [pass, if_neg hc.1, if_neg hc.2, ← look]
  rfl

theorem counted_operator (text : String) (htext : 0 < text.length) (hst : state.st.length ≤ 99) :
    Counted (afterLook (pre ++ c :: r) pre.length c state (some text))
      (pre.length + text.length - 1) ((heights state).step (.operator text)) := by
  obtain ⟨state', hstate', hheights, hle⟩ :=
    processWhile_ok (fun op => priority op ≥ priority text) hst state.op
  have hindex : pre.length + text.length - 1 = pre.length + (text.length - 1) :=
    Nat.add_sub_assoc htext _
  have hpush := @counted_push state' (pre.length + (text.length - 1)) text hle
  have hreduce : Heights.reduce (fun op => priority op ≥ priority text) (heights state).operands
      (heights state).ops = heights state' := hheights.symm
  have hstep : (heights state).step (.operator text) = if state'.op.length < 99 then
      some ⟨state'.st.length, text :: state'.op⟩ else none := by
    simp only [Heights.step, hreduce]
    rfl
  rw [afterLook, hstate', hindex, hstep]
  exact hpush

theorem counted_quoted {close : Char} {decor : Decor} :
    Counted (quoted (pre ++ c :: r) close decor pre.length state)
      (pre.length + (2 + (r.takeWhile (· ≠ close)).length) - 1)
      ((heights state).step .operand) := by
  refine @counted_operand state _ _ (.node (String.ofList (r.takeWhile (· ≠ close))) decor .null
    .null) ?_
  have hindex : pre.length + (2 + (r.takeWhile (· ≠ close)).length) - 1 =
      pre.length + 1 + (r.takeWhile (· ≠ close)).length := by omega
  rw [quoted_eq, hindex]

/-- What becomes of a pass. -/
theorem pass_spec (hd : delim c = false) (hst : state.st.length ≤ 99) :
    match next pre (c :: r) with
    | none => pass (pre ++ c :: r) pre.length c state = .error .range
    | some (none, _) => False
    | some (some tok, n) => 0 < n ∧
      Counted (pass (pre ++ c :: r) pre.length c state) (pre.length + n - 1)
        ((heights state).step tok) := by
  have hd' : ¬delim c = true := by rw [hd]; exact Bool.false_ne_true
  rw [next, if_neg hd']
  by_cases hopen : c = '('
  · rw [if_pos hopen, pass, if_pos hopen]
    exact ⟨Nat.one_pos, counted_push "(" hst⟩
  by_cases hclose : c = ')'
  · rw [if_neg hopen, if_pos hclose, pass, if_neg hopen, if_pos hclose]
    obtain ⟨state', hstate', hheights, hle⟩ := processWhile_ok (· ≠ "(") hst state.op
    refine ⟨Nat.one_pos, ?_⟩
    rw [hstate']
    refine ⟨_, rfl, ?_, hle⟩
    simp only [heights] at hheights ⊢
    rw [← hheights]
  rw [if_neg hopen, if_neg hclose, pass_look ⟨hopen, hclose⟩]
  cases hfound : operatorOf (c :: r) with
  | none => rfl
  | some found =>
    cases found with
    | some text =>
      have htext := operatorOf_pos hfound
      exact ⟨htext, counted_operator text htext hst⟩
    | none =>
      simp only [afterLook, closeOf]
      by_cases hquote : c = '\''
      · simp only [if_pos hquote]
        exact ⟨by omega, counted_quoted⟩
      by_cases hback : c = '`'
      · simp only [if_neg hquote, if_pos hback]
        exact ⟨by omega, counted_quoted⟩
      by_cases hrange : c = '['
      · simp only [if_neg hquote, if_neg hback, if_pos hrange]
        exact ⟨by omega, counted_quoted⟩
      simp only [if_neg hquote, if_neg hback, if_neg hrange]
      have hspec := @unquoted_spec pre r c state ⟨hopen, hclose⟩
      revert hspec
      cases unquotedAt pre ((c :: r).takeWhile plain) with
      | none => exact id
      | some n =>
        rintro ⟨hn, operand, hoperand⟩
        exact ⟨hn, counted_operand hoperand⟩

end

/-! ## The loop -/

section
variable {pre r : List Char} {n fuel : ℕ} {h : Heights} {state : State}

theorem fits_nil : Fits pre [] h := ⟨[], h, .done, rfl⟩

theorem fits_delim (hn : next pre r = some (none, n)) :
    Fits pre r h ↔ Fits (pre ++ r.take n) (r.drop n) h := by
  constructor
  · rintro ⟨toks, h', hlex, hfold⟩
    cases hlex with
    | done => cases hn
    | delim hn' hlex =>
      rw [hn] at hn'
      cases hn'
      exact ⟨toks, h', hlex, hfold⟩
    | token hn' =>
      rw [hn] at hn'
      cases hn'
  · rintro ⟨toks, h', hlex, hfold⟩
    exact ⟨toks, h', .delim hn hlex, hfold⟩

theorem fits_token {tok : Token} (hn : next pre r = some (some tok, n)) :
    Fits pre r h ↔ ∃ h', h.step tok = some h' ∧ Fits (pre ++ r.take n) (r.drop n) h' := by
  constructor
  · rintro ⟨toks, h', hlex, hfold⟩
    cases hlex with
    | done => cases hn
    | delim hn' =>
      rw [hn] at hn'
      cases hn'
    | token hn' hlex =>
      rw [hn] at hn'
      cases hn'
      rw [List.foldlM_cons, Option.bind_eq_bind, Option.bind_eq_some_iff] at hfold
      obtain ⟨h'', hstep, hfold⟩ := hfold
      exact ⟨h'', hstep, _, h', hlex, hfold⟩
  · rintro ⟨h'', hstep, toks, h', hlex, hfold⟩
    refine ⟨tok :: toks, h', .token hn hlex, ?_⟩
    rw [List.foldlM_cons, hstep]
    exact hfold

theorem not_fits (hr : r ≠ []) (hn : next pre r = none) : ¬Fits pre r h := by
  rintro ⟨toks, h', hlex, hfold⟩
  cases hlex with
  | done => exact hr rfl
  | delim hn' =>
    rw [hn] at hn'
    cases hn'
  | token hn' =>
    rw [hn] at hn'
    cases hn'

theorem loop_behind {s : List Char} {i : ℕ} (hi : s.length ≤ i) :
    loop s (fuel + 1) i state = .ok state := by
  rw [loop, List.getElem?_eq_none hi]

/-- Some characters are passed, perhaps more than there are. -/
theorem loop_pass (n : ℕ) :
    loop (pre ++ r) (fuel + 1) (pre.length + n) state =
      loop ((pre ++ r.take n) ++ r.drop n) (fuel + 1) (pre ++ r.take n).length state := by
  have happ : (pre ++ r.take n) ++ r.drop n = pre ++ r := by
    rw [List.append_assoc, List.take_append_drop]
  rw [happ]
  by_cases hle : n ≤ r.length
  · rw [List.length_append, List.length_take, Nat.min_eq_left hle]
  · rw [List.take_of_length_le (by omega), loop_behind (by rw [List.length_append]; omega),
      loop_behind (Nat.le_refl _)]

theorem loop_cons (c : Char) :
    loop (pre ++ c :: r) (fuel + 1) pre.length state =
      if delim c then loop (pre ++ c :: r) fuel (pre.length + 1) state
      else
        match pass (pre ++ c :: r) pre.length c state with
        | .ok (i, state) => loop (pre ++ c :: r) fuel (i + 1) state
        | .error e => .error e := by
  have hget : (pre ++ c :: r)[pre.length]? = some c := by
    rw [List.getElem?_append_right (Nat.le_refl _), Nat.sub_self]
    rfl
  rw [loop]
  split
  · rename_i hnone
    rw [hget] at hnone
    cases hnone
  · rename_i d hsome
    rw [hget] at hsome
    cases hsome
    rfl

/-- One turn of the loop: it fails, and what is left does not fit, or it goes on by at least one
character, and what is left then fits just if it did. -/
theorem loop_turn (c : Char) (hst : state.st.length ≤ 99) :
    (∃ e, (∀ fuel, loop (pre ++ c :: r) (fuel + 1) pre.length state = .error e) ∧
      ¬Fits pre (c :: r) (heights state)) ∨
    ∃ n state', 0 < n ∧ state'.st.length ≤ 99 ∧
      (∀ fuel, loop (pre ++ c :: r) (fuel + 2) pre.length state =
        loop ((pre ++ (c :: r).take n) ++ (c :: r).drop n) (fuel + 1)
          (pre ++ (c :: r).take n).length state') ∧
      (Fits pre (c :: r) (heights state) ↔
        Fits (pre ++ (c :: r).take n) ((c :: r).drop n) (heights state')) := by
  by_cases hd : delim c = true
  · have hn : next pre (c :: r) = some (none, 1) := by rw [next, if_pos hd]
    refine .inr ⟨1, state, Nat.one_pos, hst, fun fuel => ?_, fits_delim hn⟩
    rw [loop_cons, if_pos hd, loop_pass 1]
  · have hspec := @pass_spec pre r c state (Bool.eq_false_iff.mpr hd) hst
    revert hspec
    cases hn : next pre (c :: r) with
    | none =>
      intro hpass
      refine .inl ⟨.range, fun fuel => ?_, not_fits (List.cons_ne_nil _ _) hn⟩
      rw [loop_cons, if_neg hd, hpass]
    | some p =>
      obtain ⟨tok, n⟩ := p
      cases tok with
      | none => exact False.elim
      | some tok =>
        rintro ⟨hpos, hcounted⟩
        rw [fits_token hn]
        cases hstep : (heights state).step tok with
        | none =>
          rw [hstep] at hcounted
          have hpass : pass (pre ++ c :: r) pre.length c state = .error .stackFull := hcounted
          refine .inl ⟨.stackFull, fun fuel => ?_, ?_⟩
          · rw [loop_cons, if_neg hd, hpass]
          · rintro ⟨h', hsome, -⟩
            cases hsome
        | some h =>
          rw [hstep] at hcounted
          obtain ⟨state', hpass, rfl, hle⟩ := hcounted
          have hindex : pre.length + n - 1 + 1 = pre.length + n := by omega
          refine .inr ⟨n, state', hpos, hle, fun fuel => ?_, ?_⟩
          · rw [loop_cons, if_neg hd, hpass]
            dsimp only
            rw [hindex, loop_pass n]
          · constructor
            · rintro ⟨h', hsome, hfits⟩
              cases hsome
              exact hfits
            · intro hfits
              exact ⟨_, rfl, hfits⟩

/-- The loop ends with all characters gone through as tokens that fit on the stacks, or it fails
and they do not fit. -/
theorem loop_spec (hf : r.length < fuel) (hst : state.st.length ≤ 99) :
    (∃ state', loop (pre ++ r) fuel pre.length state = .ok state' ∧ state'.st.length ≤ 99 ∧
      Fits pre r (heights state)) ∨
    ∃ e, loop (pre ++ r) fuel pre.length state = .error e ∧ ¬Fits pre r (heights state) := by
  induction fuel generalizing pre r state with
  | zero => exact absurd hf (Nat.not_lt_zero _)
  | succ fuel ih =>
    cases r with
    | nil =>
      rw [List.append_nil, loop_behind (Nat.le_refl _)]
      exact .inl ⟨state, rfl, hst, fits_nil⟩
    | cons c r =>
      have hlen : r.length < fuel := Nat.succ_lt_succ_iff.mp hf
      rcases @loop_turn pre r state c hst with
        ⟨e, hloop, hfits⟩ | ⟨n, state', hpos, hle, hloop, hfits⟩
      · exact .inr ⟨e, hloop fuel, hfits⟩
      · obtain ⟨fuel, rfl⟩ : ∃ k, fuel = k + 1 := ⟨fuel - 1, by omega⟩
        rw [hloop, hfits]
        refine ih ?_ hle
        rw [List.length_drop, List.length_cons]
        omega

/-- Each pass goes on by at least one character, so that more passes than characters change
nothing. -/
theorem loop_stable (hf : r.length < fuel) (hst : state.st.length ≤ 99) :
    loop (pre ++ r) (fuel + 1) pre.length state = loop (pre ++ r) fuel pre.length state := by
  induction fuel generalizing pre r state with
  | zero => exact absurd hf (Nat.not_lt_zero _)
  | succ fuel ih =>
    cases r with
    | nil =>
      rw [List.append_nil, loop_behind (Nat.le_refl _), loop_behind (Nat.le_refl _)]
    | cons c r =>
      have hlen : r.length < fuel := Nat.succ_lt_succ_iff.mp hf
      rcases @loop_turn pre r state c hst with ⟨e, hloop, -⟩ | ⟨n, state', hpos, hle, hloop, -⟩
      · rw [hloop, hloop]
      · obtain ⟨fuel, rfl⟩ : ∃ k, fuel = k + 1 := ⟨fuel - 1, by omega⟩
        rw [hloop, hloop]
        refine ih ?_ hle
        rw [List.length_drop, List.length_cons]
        omega

end

/-- A query is parsed to the end just if it can be gone through as tokens of which no stack gets
more than 99 elements. -/
theorem parses_iff (s : List Char) : Parses s ↔ Fits [] s ⟨0, []⟩ := by
  have hspec := @loop_spec [] s (s.length + 1000) ⟨[], []⟩ (by omega) (Nat.zero_le _)
  rw [List.nil_append] at hspec
  rcases hspec with ⟨state, hloop, hle, hfits⟩ | ⟨e, hloop, hfits⟩
  · refine iff_of_true ?_ hfits
    obtain ⟨state', hwhile, -⟩ := processWhile_ok (fun _ => true) hle state.op
    refine ⟨back state'.st, ?_⟩
    rw [List.length_nil] at hloop
    rw [parseExpr, hloop]
    simp only [bind, Except.bind, hwhile]
    rfl
  · refine iff_of_false ?_ hfits
    rintro ⟨tta, h⟩
    rw [List.length_nil] at hloop
    rw [parseExpr, hloop] at h
    cases h

/-- A query that ends with an operator: the character behind its end is looked at. -/
theorem not_parses : ¬∀ s, Parses s := by
  intro h
  obtain ⟨tta, h⟩ := h ['\'', 'a', '\'', ' ', '=', '=']
  cases h

end Veda.Search.Vel.Scanner
