import Veda.Search.Vel

/-! # Queries as they are printed

Expressions over quoted texts, the ways to print one, and `parse_expr` read as a machine over the
tokens of what is printed. -/

namespace Veda.Search.Vel

/-- The operators of an expression. -/
inductive Op where
  | eq | ne | eqq | gt | lt | ge | le | and | or
  deriving DecidableEq

namespace Op

def text : Op → String
  | eq => "=="
  | ne => "!="
  | eqq => "==="
  | gt => ">"
  | lt => "<"
  | ge => ">="
  | le => "<="
  | and => "&&"
  | or => "||"

/-- The usual precedence. -/
def level : Op → ℕ
  | and => 2
  | or => 1
  | _ => 3

theorem text_inj {o p : Op} (h : o.text = p.text) : o = p := by
  cases o <;> cases p <;> first | rfl | exact absurd h (by decide)

theorem text_mem (o : Op) : o.text ∈ operators := by
  cases o <;> decide

theorem text_ne_paren (o : Op) : o.text ≠ "(" := by
  cases o <;> decide

end Op

/-- The characters of a text between single quotes. -/
structure Text where
  chars : List Char
  noQuote : '\'' ∉ chars

/-- An expression. -/
inductive Expr where
  | text (x : Text)
  | bin (o : Op) (l r : Expr)

/-- An expression with the parentheses with which it is printed. -/
inductive Cst where
  | text (x : Text)
  | paren (c : Cst)
  | bin (o : Op) (l r : Cst)

/-- The tree that stands for a text. -/
def Text.tta (x : Text) : TTA := .node (String.ofList x.chars) .quoted .null .null

/-- The tree that stands for an expression. -/
def Expr.tta : Expr → TTA
  | .text x => x.tta
  | .bin o l r => .node o.text .none l.tta r.tta

namespace Cst

/-- The expression without its parentheses. -/
def strip : Cst → Expr
  | text x => .text x
  | paren c => c.strip
  | bin o l r => .bin o l.strip r.strip

/-- The precedence of what an expression is on the outside. -/
def level : Cst → ℕ
  | bin o _ _ => o.level
  | _ => 4

/-- `o` needs no parentheses around `c`. A chain of `&&` or of `||` needs none. -/
def FitsUnder (o : Op) (c : Cst) : Prop :=
  o.level < c.level ∨ ((o = .and ∨ o = .or) ∧ o.level ≤ c.level)

/-- The parentheses that the usual precedence requires are there. -/
def WellPrec : Cst → Prop
  | text _ => True
  | paren c => c.WellPrec
  | bin o l r => FitsUnder o l ∧ FitsUnder o r ∧ l.WellPrec ∧ r.WellPrec

instance (o : Op) (c : Cst) : Decidable (FitsUnder o c) := inferInstanceAs (Decidable (_ ∨ _))

/-- Parentheses around an expression that is no text. -/
def enclose : Cst → Cst
  | text x => text x
  | c => paren c

/-- Parentheses where they are needed under `o`. -/
def encloseUnder (o : Op) (c : Cst) : Cst := if FitsUnder o c then c else paren c

end Cst

namespace Expr

/-- Parentheses around every sub-expression. -/
def full : Expr → Cst
  | .text x => .text x
  | .bin o l r => .bin o l.full.enclose r.full.enclose

/-- Only the parentheses that are required. -/
def minimal : Expr → Cst
  | .text x => .text x
  | .bin o l r => .bin o (l.minimal.encloseUnder o) (r.minimal.encloseUnder o)

/-- `c` is a way to print the expression. -/
structure Prints (e : Expr) (c : Cst) : Prop where
  strip : c.strip = e
  wellPrec : c.WellPrec

end Expr

section
variable {c : Cst}

theorem Cst.FitsUnder.atom {o : Op} (h : c.level = 4) : Cst.FitsUnder o c := by
  left
  rw [h]
  cases o <;> decide

@[simp] theorem Cst.strip_enclose : c.enclose.strip = c.strip := by
  cases c <;> rfl

theorem Cst.WellPrec.enclose (h : c.WellPrec) : c.enclose.WellPrec := by
  cases c <;> exact h

theorem Cst.level_enclose : c.enclose.level = 4 := by
  cases c <;> rfl

@[simp] theorem Cst.strip_encloseUnder {o : Op} : (c.encloseUnder o).strip = c.strip := by
  unfold Cst.encloseUnder
  split <;> rfl

theorem Cst.WellPrec.encloseUnder {o : Op} (h : c.WellPrec) :
    (c.encloseUnder o).FitsUnder o ∧ (c.encloseUnder o).WellPrec := by
  unfold Cst.encloseUnder
  split
  · exact ⟨‹_›, h⟩
  · exact ⟨.atom rfl, h⟩

end

theorem Expr.prints_full (e : Expr) : e.Prints e.full := by
  induction e with
  | text x => exact ⟨rfl, trivial⟩
  | bin o l r ihl ihr =>
    refine ⟨?_, .atom Cst.level_enclose, .atom Cst.level_enclose, ihl.wellPrec.enclose,
      ihr.wellPrec.enclose⟩
    simp [full, Cst.strip, ihl.strip, ihr.strip]

theorem Expr.prints_minimal (e : Expr) : e.Prints e.minimal := by
  induction e with
  | text x => exact ⟨rfl, trivial⟩
  | bin o l r ihl ihr =>
    have hl := ihl.wellPrec.encloseUnder (o := o)
    have hr := ihr.wellPrec.encloseUnder (o := o)
    refine ⟨?_, hl.1, hr.1, hl.2, hr.2⟩
    simp [minimal, Cst.strip, ihl.strip, ihr.strip]

/-! ## Tokens -/

inductive Token where
  | text (x : Text)
  | op (o : Op)
  | lparen
  | rparen

/-- The characters of a token. -/
def Token.chars : Token → List Char
  | .text x => '\'' :: x.chars ++ ['\'']
  | .op o => o.text.toList
  | .lparen => ['(']
  | .rparen => [')']

def Cst.tokens : Cst → List Token
  | .text x => [.text x]
  | .paren c => .lparen :: c.tokens ++ [.rparen]
  | .bin o l r => l.tokens ++ .op o :: r.tokens

/-- `s` is the tokens with any white space before, between and after them. -/
inductive Rendered : List Token → List Char → Prop where
  | nil {gap : List Char} : gap.all delim → Rendered [] gap
  | cons {gap rest : List Char} {tok : Token} {toks : List Token} : gap.all delim →
      Rendered toks rest → Rendered (tok :: toks) (gap ++ tok.chars ++ rest)

/-- The tokens with nothing between them. -/
def printed (toks : List Token) : List Char := toks.flatMap Token.chars

theorem rendered_printed (toks : List Token) : Rendered toks (printed toks) := by
  induction toks with
  | nil => exact .nil rfl
  | cons tok toks ih => exact Rendered.cons (List.all_nil : [].all delim = true) ih

/-- A token with which an operand begins. -/
def Token.Opens : Token → Prop
  | .text _ => True
  | .lparen => True
  | _ => False

/-- After each operator an operand begins. -/
def Operands : List Token → Prop
  | [] => True
  | .op _ :: toks => (∃ tok, toks.head? = some tok ∧ tok.Opens) ∧ Operands toks
  | _ :: toks => Operands toks

theorem Cst.tokens_opens (c : Cst) (toks : List Token) :
    ∃ tok, (c.tokens ++ toks).head? = some tok ∧ tok.Opens := by
  induction c generalizing toks with
  | text x => exact ⟨.text x, rfl, trivial⟩
  | paren c _ => exact ⟨.lparen, rfl, trivial⟩
  | bin o l r ihl _ =>
    simp only [tokens, List.append_assoc]
    exact ihl _

theorem Cst.operands_tokens (c : Cst) {toks : List Token} (h : Operands toks) :
    Operands (c.tokens ++ toks) := by
  induction c generalizing toks with
  | text x => exact h
  | paren c ih =>
    simp only [tokens, List.cons_append, List.append_assoc, Operands]
    exact ih h
  | bin o l r ihl ihr =>
    simp only [tokens, List.cons_append, List.append_assoc]
    exact ihl ⟨r.tokens_opens toks, ihr h⟩

/-! ## The machine over tokens -/

/-- What the parser does at a token. -/
def step (state : State) : Token → Except ParseError State
  | .text x => do
    let st ← pushOperand state.st x.chars .quoted
    return { state with st := st }
  | .op o => do
    let state ← processWhile (fun op => priority op ≥ priority o.text) state.st state.op
    let op ← pushBack state.op o.text
    return { state with op := op }
  | .lparen => do
    let op ← pushBack state.op "("
    return { state with op := op }
  | .rparen => do
    let state ← processWhile (· ≠ "(") state.st state.op
    return { state with op := state.op.tail }

def run (state : State) (toks : List Token) : Except ParseError State :=
  toks.foldlM step state

/-- Before a character that is no `=`, the text of an operator is found as that operator. -/
theorem found_op (o : Op) {pre : List Char} {c d : Char} {rest : List Char}
    (hc : o.text.toList.head? = some c) (hd : d ≠ '=') :
    Found pre (o.text.toList ++ d :: rest) c o.text := by
  have two (p : Op) (hp : p.text.toList.head? = some c) (hl : p.text.toList.length = 2)
      (hn : c ≠ '=') (ht : isOp p.text.toList = some p.text) :
      Found pre (p.text.toList ++ d :: rest) c p.text := by
    refine .of_ne (by simp only [List.length_append, hl]; omega) hn ?_
    rw [List.take_append_of_le_length (Nat.le_of_eq hl.symm), ← hl, List.take_length]
    exact ht
  cases o <;> obtain rfl := Option.some.inj hc
  case gt => exact .of_ne (Nat.le_add_left ..) (by decide) (isOp_gt hd)
  case lt => exact .of_ne (Nat.le_add_left ..) (by decide) (isOp_lt hd)
  case eq => exact .two (d := d) rfl hd (by rfl)
  case eqq => exact .three rfl (by rfl)
  all_goals exact two _ rfl rfl (by decide) (by rfl)


/-- What comes after a token lets it end: after an operator something comes that is no `=`. -/
def Token.EndsAt : Token → List Char → Prop
  | .op _, rest => ∃ d rest', rest = d :: rest' ∧ d ≠ '='
  | _, _ => True

theorem quoted_text (x : Text) {pre rest : List Char} (state : State) :
    quoted (pre ++ '\'' :: (x.chars ++ '\'' :: rest)) '\'' .quoted pre.length state = do
      let st ← pushOperand state.st x.chars .quoted
      return (pre.length + 1 + x.chars.length, { state with st := st }) := by
  have hp : ∀ c ∈ x.chars, decide (c ≠ '\'') = true := by
    intro c hc
    apply decide_eq_true
    rintro rfl
    exact x.noQuote hc
  have hsc : scan (pre ++ '\'' :: (x.chars ++ '\'' :: rest)) (· ≠ '\'') (pre.length + 1) =
      pre.length + 1 + x.chars.length := by
    have hq : decide ('\'' ≠ '\'') = false := by decide
    simpa using @scan_append (pre ++ ['\'']) x.chars rest (· ≠ '\'') '\'' hp hq
  have hsl : slice (pre ++ '\'' :: (x.chars ++ '\'' :: rest)) ((pre.length + 1 : ℕ) : ℤ)
      ((pre.length + 1 + x.chars.length : ℕ) : ℤ) = .ok x.chars := by
    have := @slice_append (pre ++ ['\'']) (x.chars ++ '\'' :: rest) x.chars.length (by simp)
    simpa using this
  simp only [quoted, hsc, hsl, bind, Except.bind]

/-- A pass at the first character of a token is a step at the token. -/
theorem pass_token (tok : Token) {pre rest : List Char} {c : Char} (state : State)
    (hc : tok.chars.head? = some c) (he : tok.EndsAt rest) :
    pass (pre ++ (tok.chars ++ rest)) pre.length c state = do
      let state ← step state tok
      return (pre.length + (tok.chars.length - 1), state) := by
  cases tok with
  | lparen =>
    obtain rfl := Option.some.inj hc
    simp [pass, step, Token.chars]
  | rparen =>
    obtain rfl := Option.some.inj hc
    simp [pass, step, Token.chars]
  | op o =>
    obtain ⟨d, rest, rfl, hd⟩ := he
    have hp : c ≠ '(' ∧ c ≠ ')' := by
      cases o <;> obtain rfl := Option.some.inj hc <;> decide
    have hl : o.text.toList.length = o.text.length := String.length_toList
    simp only [Token.chars, step, bind_assoc, pure_bind, hl]
    exact pass_found state hp (found_op o hc hd)
  | text x =>
    obtain rfl := Option.some.inj hc
    have hs : pre ++ (('\'' :: x.chars ++ ['\'']) ++ rest) =
        pre ++ '\'' :: (x.chars ++ '\'' :: rest) := by
      simp only [List.cons_append, List.append_assoc, List.nil_append]
    have hl : pre.length + (('\'' :: x.chars ++ ['\'']).length - 1) =
        pre.length + 1 + x.chars.length := by
      simp only [List.length_append, List.length_cons, List.length_nil]
      omega
    simp only [Token.chars, step, bind_assoc, pure_bind, hl, hs]
    rw [pass_quote state (by rw [List.length_append]; exact Nat.le_add_left ..), quoted_text]

/-- The white space before a token is passed over. -/
theorem loop_gap {gap pre rest : List Char} (hg : gap.all delim) (fuel : ℕ) (state : State) :
    loop (pre ++ (gap ++ rest)) (fuel + gap.length) pre.length state =
      loop (pre ++ gap ++ rest) fuel (pre ++ gap).length state := by
  induction gap generalizing pre with
  | nil => simp
  | cons c gap ih =>
    rw [List.all_cons, Bool.and_eq_true] at hg
    have hc : (pre ++ (c :: gap ++ rest))[pre.length]? = some c := by
      simp
    have hi := @ih (pre ++ [c]) hg.2
    rw [List.length_cons, ← Nat.add_assoc, loop, hc]
    simp only [hg.1, if_true]
    simpa using hi

theorem Token.chars_head (tok : Token) :
    ∃ c, tok.chars.head? = some c ∧ delim c = false ∧ (tok.Opens → c ≠ '=') := by
  cases tok with
  | text x => exact ⟨'\'', rfl, by decide, fun _ => by decide⟩
  | lparen => exact ⟨'(', rfl, by decide, fun _ => by decide⟩
  | rparen => exact ⟨')', rfl, by decide, fun _ => by decide⟩
  | op o => cases o <;> exact ⟨_, rfl, by decide, False.elim⟩

theorem Rendered.endsAt {tok : Token} {toks : List Token} {s : List Char} (hs : Rendered toks s)
    (ho : Operands (tok :: toks)) : tok.EndsAt s := by
  cases tok with
  | op o =>
    obtain ⟨⟨next, hn, hopen⟩, _⟩ := ho
    cases hs with
    | nil _ => cases hn
    | @cons gap rest first _ hg _ =>
      obtain rfl := Option.some.inj hn
      obtain ⟨c, hc, _, hne⟩ := first.chars_head
      obtain ⟨cs, hcs⟩ := List.head?_eq_some_iff.mp hc
      cases gap with
      | nil => exact ⟨c, cs ++ rest, by simp [hcs], hne hopen⟩
      | cons d gap =>
        rw [List.all_cons, Bool.and_eq_true] at hg
        refine ⟨d, gap ++ first.chars ++ rest, by simp, ?_⟩
        rintro rfl
        exact absurd hg.1 (by decide)
  | _ => trivial

theorem Operands.tail {tok : Token} {toks : List Token} (h : Operands (tok :: toks)) :
    Operands toks := by
  cases tok with
  | op o => exact h.2
  | _ => exact h

/-- Over what is printed, the loop is the machine over the tokens. -/
theorem loop_rendered {toks : List Token} {s : List Char} (hs : Rendered toks s)
    (ho : Operands toks) {pre : List Char} {fuel : ℕ} (hf : s.length < fuel) (state : State) :
    loop (pre ++ s) fuel pre.length state = run state toks := by
  induction hs generalizing pre fuel state with
  | @nil gap hg =>
    obtain ⟨fuel, rfl⟩ : ∃ n, fuel = n + 1 + gap.length := ⟨fuel - gap.length - 1, by omega⟩
    have := @loop_gap gap pre [] hg (fuel + 1) state
    simp only [List.append_nil] at this
    rw [this, loop, List.getElem?_eq_none (Nat.le_refl _)]
    rfl
  | @cons gap rest tok toks hg hr ih =>
    obtain ⟨c, hc, hd, _⟩ := tok.chars_head
    obtain ⟨cs, hcs⟩ := List.head?_eq_some_iff.mp hc
    simp only [List.length_append, hcs, List.length_cons] at hf
    obtain ⟨fuel, rfl⟩ : ∃ n, fuel = n + 1 + gap.length := ⟨fuel - gap.length - 1, by omega⟩
    have hget : (pre ++ gap ++ (tok.chars ++ rest))[(pre ++ gap).length]? = some c := by
      simp [hcs]
    have hpass := @pass_token tok (pre ++ gap) rest c state hc (hr.endsAt ho)
    rw [List.append_assoc gap, loop_gap hg, loop, hget]
    simp only [hd, Bool.false_eq_true, if_false, hpass]
    rw [run, List.foldlM_cons]
    cases step state tok with
    | error e => rfl
    | ok state =>
      have hnext := @ih ho.tail (pre ++ gap ++ tok.chars) fuel (by omega) state
      have hl : (pre ++ gap).length + (tok.chars.length - 1) + 1 =
          (pre ++ gap ++ tok.chars).length := by
        simp only [List.length_append, hcs, List.length_cons]
        omega
      simp only [bind, Except.bind, pure, Except.pure, hl]
      rw [← List.append_assoc]
      exact hnext

/-- A parse of what is printed is a run over its tokens. -/
theorem parseExpr_rendered (c : Cst) {s : List Char} (hs : Rendered c.tokens s) :
    parseExpr s = do
      let state ← run ⟨[], []⟩ c.tokens
      let state ← processWhile (fun _ => true) state.st state.op
      return back state.st := by
  have ho : Operands c.tokens := by
    simpa using @Cst.operands_tokens c [] trivial
  have := @loop_rendered c.tokens s hs ho [] (s.length + 1000) (by omega) ⟨[], []⟩
  simp only [List.nil_append, List.length_nil] at this
  rw [parseExpr, this]

end Veda.Search.Vel
