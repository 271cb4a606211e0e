import Mathlib.Data.List.TakeWhile
import Veda.Search.Precedence

/-! # The operator `>=`

The table of priorities has `=>` for `>=`, so that `>=` is below everything, the parenthesis
included: when it comes, the whole stack of operators is worked off, and an open parenthesis takes
two operands with it. -/

namespace Veda.Search.Vel

/-! ## Texts that are lost -/

/-- The number of texts in a tree. -/
def TTA.leaves : TTA → ℕ
  | .null => 0
  | .node _ .quoted _ _ => 1
  | .node _ _ l r => l.leaves + r.leaves

/-- The number of texts on the stack of operands. -/
def leaves : List TTA → ℕ
  | [] => 0
  | t :: st => t.leaves + leaves st

@[simp] theorem leaves_nil : leaves [] = 0 := rfl

@[simp] theorem leaves_cons (t : TTA) (st : List TTA) : leaves (t :: st) = t.leaves + leaves st :=
  rfl

def Token.texts : Token → ℕ
  | .text _ => 1
  | _ => 0

/-- The number of texts among tokens. -/
def texts : List Token → ℕ
  | [] => 0
  | tok :: toks => tok.texts + texts toks

@[simp] theorem texts_nil : texts [] = 0 := rfl

@[simp] theorem texts_cons (tok : Token) (toks : List Token) :
    texts (tok :: toks) = tok.texts + texts toks :=
  rfl

@[simp] theorem texts_append (toks toks' : List Token) :
    texts (toks ++ toks') = texts toks + texts toks' := by
  induction toks with
  | nil => exact (Nat.zero_add _).symm
  | cons tok toks ih => rw [List.cons_append, texts_cons, ih, texts_cons, Nat.add_assoc]

theorem leaves_tta (c : Cst) : c.strip.tta.leaves = texts c.tokens := by
  induction c with
  | text x => rfl
  | paren c ih => simpa [Cst.strip, Cst.tokens, Token.texts] using ih
  | bin o l r ihl ihr =>
    simp [Cst.strip, Cst.tokens, Expr.tta, TTA.leaves, Token.texts, ihl, ihr]

/-- The operands that an operator takes. -/
theorem leaves_popBack (st : List TTA) :
    leaves (popBack st).2 + (popBack st).1.leaves = leaves st := by
  cases st with
  | nil => rfl
  | cons t st => simp [popBack, Nat.add_comm]

theorem processOp_leaves (st : List TTA) (op : String) :
    Yields (processOp st op) fun st' => leaves st' ≤ leaves st := by
  have hr := leaves_popBack st
  have hl := leaves_popBack (popBack st).2
  refine (processOp_yields st op).mono ?_
  rintro _ rfl
  split
  · simp only [leaves_cons, TTA.leaves]
    omega
  · omega

theorem processWhile_leaves (p : String → Bool) (st : List TTA) (ops : List String) :
    Yields (processWhile p st ops) fun state => leaves state.st ≤ leaves st := by
  induction ops generalizing st with
  | nil => exact Nat.le_refl _
  | cons op ops ih =>
    by_cases hop : p op
    · exact processWhile_cons hop (processOp_leaves st op) fun st' h =>
        (ih st').mono fun _ hle => hle.trans h
    · rw [processWhile, if_neg hop]
      exact Nat.le_refl _

theorem step_leaves (state : State) (tok : Token) :
    Yields (step state tok) fun state' => leaves state'.st ≤ leaves state.st + tok.texts := by
  cases tok with
  | text x =>
    refine (pushBack_yields ..).bind ?_
    rintro _ rfl
    show leaves (_ :: _) ≤ _
    simp [TTA.leaves, Token.texts, Nat.add_comm]
  | op o =>
    refine (processWhile_leaves ..).bind fun state' h => ?_
    exact (pushBack_yields ..).bind fun _ _ => h
  | lparen => exact (pushBack_yields ..).bind fun _ _ => Nat.le_refl _
  | rparen => exact (processWhile_leaves ..).bind fun state' h => h

theorem run_leaves (state : State) (toks : List Token) :
    Yields (run state toks) fun state' => leaves state'.st ≤ leaves state.st + texts toks := by
  induction toks generalizing state with
  | nil => exact Nat.le_refl _
  | cons tok toks ih =>
    rw [run_cons]
    refine (step_leaves state tok).bind fun state' h => (ih state').mono fun state'' h' => ?_
    rw [texts_cons]
    omega

/-- The tokens bring fewer texts onto the stack than there are among them. -/
def Loses (state : State) (toks : List Token) : Prop :=
  Yields (run state toks) fun state' => leaves state'.st < leaves state.st + texts toks

theorem Loses.append {state : State} {toks : List Token} (h : Loses state toks)
    (toks' : List Token) : Loses state (toks ++ toks') := by
  rw [Loses, run_append]
  refine Yields.bind h fun state' h => (run_leaves state' toks').mono fun state'' h' => ?_
  rw [texts_append]
  omega

theorem Loses.after {state : State} {toks toks' : List Token} {P : State → Prop}
    (hp : Yields (run state toks) P) (h : ∀ state', P state' → Loses state' toks') :
    Loses state (toks ++ toks') := by
  rw [Loses, run_append]
  refine (hp.and (run_leaves state toks)).bind fun state' ⟨hp, hle⟩ => ?_
  refine Yields.mono (h state' hp) fun state'' hlt => ?_
  rw [texts_append]
  omega

theorem Loses.after_step {state : State} {tok : Token} {toks : List Token} {P : State → Prop}
    (hp : Yields (step state tok) P) (h : ∀ state', P state' → Loses state' toks) :
    Loses state (tok :: toks) := by
  refine @Loses.after state [tok] toks P ?_ h
  rwa [run_singleton]

/-- An open parenthesis that is worked off takes the operand on top with it. -/
theorem processWhile_loses {p : String → Bool} {ops : List String} (hp : ∀ op ∈ ops, p op)
    (hparen : "(" ∈ ops) {t : TTA} (ht : 0 < t.leaves) (st : List TTA) :
    Yields (processWhile p (t :: st) ops) fun state => leaves state.st < leaves (t :: st) := by
  induction ops generalizing t st with
  | nil => cases hparen
  | cons op ops ih =>
    have hop : p op := hp op List.mem_cons_self
    have hl := leaves_popBack st
    refine processWhile_cons hop (processOp_yields ..) ?_
    rintro _ rfl
    simp only [popBack_cons]
    split
    · rename_i hm
      have hin : "(" ∈ ops := by
        rcases List.mem_cons.mp hparen with rfl | h
        · exact absurd hm (by decide)
        · exact h
      refine (ih (fun op h => hp op (List.mem_cons_of_mem _ h)) hin ?_ _).mono fun state h => ?_
      · exact Nat.add_pos_right _ ht
      · simp only [leaves_cons, TTA.leaves] at h ⊢
        omega
    · refine (processWhile_leaves p (popBack st).2 ops).mono fun state h => ?_
      rw [leaves_cons]
      omega

/-! ## Operators that stay -/

theorem processWhile_op (p : String → Bool) (st : List TTA) (ops : List String) :
    Yields (processWhile p st ops) fun state => state.op = ops.dropWhile p := by
  induction ops generalizing st with
  | nil => exact rfl
  | cons op ops ih =>
    by_cases hop : p op
    · rw [List.dropWhile_cons_of_pos hop]
      exact processWhile_cons hop (processOp_leaves st op) fun st' _ => ih st'
    · rw [List.dropWhile_cons_of_neg hop, processWhile, if_neg hop]
      exact rfl

/-- The operators from the innermost open parenthesis on. -/
def outer (ops : List String) : List String := ops.dropWhile (· ≠ "(")

@[simp] theorem outer_paren (ops : List String) : outer ("(" :: ops) = "(" :: ops := rfl

theorem outer_cons {op : String} (h : op ≠ "(") (ops : List String) :
    outer (op :: ops) = outer ops :=
  List.dropWhile_cons_of_pos (p := (· ≠ "(")) (decide_eq_true h)

theorem outer_dropWhile {p : String → Bool} (hp : p "(" = false) (ops : List String) :
    outer (ops.dropWhile p) = outer ops := by
  induction ops with
  | nil => rfl
  | cons op ops ih =>
    by_cases hop : p op
    · have hne : op ≠ "(" := by
        rintro rfl
        rw [hp] at hop
        cases hop
      rw [List.dropWhile_cons_of_pos hop, ih, outer_cons hne]
    · rw [List.dropWhile_cons_of_neg hop]

theorem mem_iff_outer {ops : List String} : "(" ∈ ops ↔ outer ops ≠ [] := by
  induction ops with
  | nil => exact iff_of_false List.not_mem_nil fun h => h rfl
  | cons op ops ih =>
    by_cases hop : op = "("
    · subst hop
      exact iff_of_true List.mem_cons_self (List.cons_ne_nil _ ops)
    · rw [outer_cons hop, ← ih, List.mem_cons, or_iff_right (Ne.symm hop)]

/-- What a step at an operator other than `>=` leaves of the operators. -/
theorem step_op_yields (state : State) (o : Op) :
    Yields (step state (.op o)) fun state' => state'.op =
      o.text :: state.op.dropWhile fun op => priority op ≥ priority o.text := by
  refine (processWhile_op ..).bind fun state' h => ?_
  refine (pushBack_yields ..).bind ?_
  rintro _ rfl
  exact congrArg _ h

theorem step_op_outer (state : State) {o : Op} (ho : o ≠ .ge) :
    Yields (step state (.op o)) fun state' => outer state'.op = outer state.op := by
  refine (step_op_yields state o).mono fun state' h => ?_
  have hp : decide (priority "(" ≥ priority o.text) = false :=
    decide_eq_false (not_le.mpr ((by decide : priority "(" < 0).trans (Op.priority_pos ho)))
  rw [h, outer_cons o.text_ne_paren,
    outer_dropWhile (p := fun op => priority op ≥ priority o.text) hp]

theorem step_lparen (state : State) :
    Yields (step state .lparen) (· = ⟨state.st, "(" :: state.op⟩) := by
  refine (pushBack_yields ..).bind ?_
  rintro _ rfl
  exact rfl

theorem step_rparen (state : State) :
    Yields (step state .rparen) fun state' => state'.op = (outer state.op).tail :=
  (processWhile_op ..).bind fun _ h => congrArg List.tail h

/-- When `>=` comes inside a parenthesis, that costs a text. -/
theorem Loses.step_ge {ops : List String} (h : "(" ∈ ops) {t : TTA} (ht : 0 < t.leaves)
    (st : List TTA) : Loses ⟨t :: st, ops⟩ [.op .ge] := by
  rw [Loses, run_singleton]
  have hp : ∀ op ∈ ops, decide (priority op ≥ priority Op.ge.text) = true := fun op _ =>
    decide_eq_true (priority_ge op)
  refine (processWhile_loses hp h ht st).bind fun state hlt => ?_
  exact (pushBack_yields ..).bind fun _ _ => hlt

/-- What is lost inside parentheses is lost. -/
theorem Loses.paren {state : State} {toks : List Token}
    (h : ∀ {state : State}, "(" ∈ state.op → Loses state toks) :
    Loses state (.lparen :: toks ++ [.rparen]) := by
  have hopen : Loses state (.lparen :: toks) := by
    refine .after_step (step_lparen state) ?_
    rintro _ rfl
    exact h List.mem_cons_self
  exact hopen.append [.rparen]

namespace Cst

/-- Without `>=`, what is below the innermost open parenthesis is kept. -/
theorem GeFree.outer {c : Cst} (h : c.GeFree) (state : State) :
    Yields (run state c.tokens) fun state' => Vel.outer state'.op = Vel.outer state.op := by
  induction c generalizing state with
  | text x =>
    rw [tokens, run_singleton]
    exact (pushBack_yields ..).bind fun _ _ => rfl
  | paren c ih =>
    rw [tokens, List.cons_append, run_cons]
    refine (step_lparen state).bind ?_
    rintro _ rfl
    rw [run_append]
    refine (ih h _).bind fun state' hs => ?_
    rw [run_singleton]
    refine (step_rparen state').mono fun state'' hs' => ?_
    rw [hs', hs]
    rfl
  | bin o l r ihl ihr =>
    rw [tokens, run_append]
    refine (ihl h.2.1 state).bind fun state' hs => ?_
    rw [run_cons]
    refine (step_op_outer state' h.1).bind fun state'' hs' => ?_
    refine (ihr h.2.2 state'').mono fun state''' hs'' => ?_
    rw [hs'', hs', hs]

/-- What is in parentheses leaves the operators as they were. -/
theorem GeFree.paren_op {c : Cst} (h : c.GeFree) (state : State) :
    Yields (run state c.paren.tokens) fun state' => state'.op = state.op := by
  rw [tokens, List.cons_append, run_cons]
  refine (step_lparen state).bind ?_
  rintro _ rfl
  rw [run_append]
  refine (h.outer _).bind fun state' hs => ?_
  rw [run_singleton]
  refine (step_rparen state').mono fun state'' hs' => ?_
  rw [hs', hs]
  rfl

/-! ## `>=` in parentheses -/

theorem texts_pos (c : Cst) : 0 < texts c.tokens := by
  induction c with
  | text x => exact Nat.one_pos
  | paren c ih => simpa [tokens, Token.texts] using ih
  | bin o l r ihl _ =>
    rw [tokens, texts_append]
    exact Nat.add_pos_left ihl _

/-- There is a `>=` in parentheses. -/
def ParenGe : Cst → Prop
  | text _ => False
  | paren c => ¬c.GeFree
  | bin _ l r => l.ParenGe ∨ r.ParenGe

/-- There is a `>=` outside all parentheses. -/
def OpenGe : Cst → Prop
  | bin o l r => o = .ge ∨ l.OpenGe ∨ r.OpenGe
  | _ => False

theorem geFree_of_not {c : Cst} (hp : ¬c.ParenGe) (ho : ¬c.OpenGe) : c.GeFree := by
  induction c with
  | text x => trivial
  | paren c _ => exact not_not.mp hp
  | bin o l r ihl ihr =>
    simp only [ParenGe, OpenGe, not_or] at hp ho
    exact ⟨ho.1, ihl hp.1 ho.2.1, ihr hp.2 ho.2.2⟩

/-- The operands of a comparison are texts or are in parentheses. -/
theorem FitsUnder.isAtom {c : Cst} (h : FitsUnder .ge c) : c.prio = 5 := by
  cases c with
  | bin p a b =>
    have hp : ¬(Op.ge.level < p.level ∨ (Op.ge.IsAssoc ∧ Op.ge.level ≤ p.level)) := by
      cases p <;> decide
    exact absurd h hp
  | _ => rfl

/-- The left operand of a comparison is on top of the stack when the operator comes. -/
theorem GeFree.atom_top {c : Cst} (h : c.GeFree) (hc : c.WellPrec) (ha : c.prio = 5)
    (state : State) :
    Yields (run state c.tokens) fun state' =>
      state'.op = state.op ∧ ∃ t st, state'.st = t :: st ∧ 0 < t.leaves := by
  have hb := (hc.strict_nest h).builds state.st state.op fun op _ => by
    rw [prio_nest, ha]
    exact priority_lt op
  rw [tokens_nest, prio_nest, ha] at hb
  refine hb.mono ?_
  rintro _ ⟨u, pend, rfl, hu, hpend⟩
  have hnil : pend = [] := List.eq_nil_iff_forall_not_mem.mpr fun x hx =>
    absurd (hpend x hx) (not_le.mpr (priority_lt _))
  subst hnil
  refine ⟨rfl, u, state.st, rfl, ?_⟩
  rw [show u = _ from hu, leaves_tta, tokens_nest]
  exact c.texts_pos

/-- A `>=` that comes inside a parenthesis costs a text. -/
theorem WellPrec.loses {c : Cst} (h : c.WellPrec) (hc : ¬c.GeFree) {state : State}
    (hs : "(" ∈ state.op) : Loses state c.tokens := by
  induction c generalizing state with
  | text x => exact absurd trivial hc
  | paren c ih => exact Loses.paren (ih h hc)
  | bin o l r ihl ihr =>
    obtain ⟨hol, hor, hl, hr⟩ := h
    rw [tokens]
    by_cases hcl : l.GeFree
    · by_cases ho : o = .ge
      · subst ho
        refine .after (hcl.atom_top hl hol.isAtom state) ?_
        rintro ⟨_, _⟩ ⟨rfl, t, st, rfl, ht⟩
        exact (Loses.step_ge hs ht st).append r.tokens
      · have hcr : ¬r.GeFree := fun hcr => hc ⟨ho, hcl, hcr⟩
        refine .after (hcl.outer state) fun state' hs' => ?_
        refine .after_step (step_op_outer state' ho) fun state'' hs'' => ?_
        refine ihr hr hcr ?_
        rwa [mem_iff_outer, hs'', hs', ← mem_iff_outer]
    · exact (ihl hl hcl hs).append _

theorem ParenGe.loses {c : Cst} (hc : c.ParenGe) (h : c.WellPrec) (state : State) :
    Loses state c.tokens := by
  induction c generalizing state with
  | text x => exact hc.elim
  | paren c _ => exact Loses.paren (WellPrec.loses (c := c) h hc)
  | bin o l r ihl ihr =>
    rw [tokens]
    rcases hc with hc | hc
    · exact (ihl hc h.2.2.1 state).append _
    · refine .after (run_leaves ..) fun state' _ => ?_
      refine .after_step (step_leaves ..) fun state'' _ => ?_
      exact ihr hc h.2.2.2 state''

end Cst

/-! ## `>=` outside parentheses -/

theorem getLast?_dropWhile {p : α → Bool} {l : List α} {a : α} (h : l.getLast? = some a)
    (ha : p a = false) : (l.dropWhile p).getLast? = some a := by
  induction l with
  | nil => cases h
  | cons b l ih =>
    by_cases hb : p b
    · rw [List.dropWhile_cons_of_pos hb]
      refine ih ?_
      cases l with
      | nil =>
        obtain rfl : b = a := by simpa using h
        rw [ha] at hb
        cases hb
      | cons c l => simpa using h
    · rwa [List.dropWhile_cons_of_neg hb]

/-- `>=` is at the bottom of the operators. -/
def AtBottom (ops : List String) : Prop := ops.getLast? = some ">="

theorem AtBottom.cons {ops : List String} (h : AtBottom ops) (op : String) :
    AtBottom (op :: ops) := by
  rw [AtBottom] at h ⊢
  rw [List.getLast?_cons, h]
  rfl

/-- Other operators leave a `>=` at the bottom. -/
theorem AtBottom.step_op {state : State} (h : AtBottom state.op) {o : Op} (ho : o ≠ .ge) :
    Yields (step state (.op o)) fun state' => AtBottom state'.op := by
  have hp : decide (priority ">=" ≥ priority o.text) = false :=
    decide_eq_false (not_le.mpr ((by decide : priority ">=" < 0).trans (Op.priority_pos ho)))
  refine (step_op_yields state o).mono fun state' hs => ?_
  rw [hs]
  exact AtBottom.cons (getLast?_dropWhile h hp) _

/-- A `>=` that comes is at the bottom. -/
theorem step_ge (state : State) :
    Yields (step state (.op .ge)) fun state' => AtBottom state'.op := by
  refine (step_op_yields state .ge).mono fun state' hs => ?_
  have hnil : state.op.dropWhile (fun op => priority op ≥ priority Op.ge.text) = [] :=
    List.dropWhile_eq_nil_iff.mpr fun op _ => decide_eq_true (priority_ge op)
  rw [hs, hnil]
  exact rfl

namespace Cst

theorem GeFree.atBottom {c : Cst} (hc : c.GeFree) {state : State} (h : AtBottom state.op) :
    Yields (run state c.tokens) fun state' => AtBottom state'.op := by
  induction c generalizing state with
  | text x =>
    rw [tokens, run_singleton]
    exact (pushBack_yields ..).bind fun _ _ => h
  | paren c _ =>
    refine (GeFree.paren_op (c := c) hc state).mono fun state' hs => ?_
    rwa [hs]
  | bin o l r ihl ihr =>
    rw [tokens, run_append]
    refine (ihl hc.2.1 h).bind fun state' h => ?_
    rw [run_cons]
    exact (h.step_op hc.1).bind fun state'' h => ihr hc.2.2 h

theorem OpenGe.atBottom {c : Cst} (hc : c.OpenGe) (hp : ¬c.ParenGe) (state : State) :
    Yields (run state c.tokens) fun state' => AtBottom state'.op := by
  induction c generalizing state with
  | bin o l r ihl ihr =>
    obtain ⟨hpl, hpr⟩ := not_or.mp hp
    rw [tokens, run_append]
    by_cases hr : r.OpenGe
    · refine (run_leaves ..).bind fun state' _ => ?_
      rw [run_cons]
      exact (step_leaves ..).bind fun state'' _ => ihr hr hpr state''
    · have hfree := geFree_of_not hpr hr
      by_cases ho : o = .ge
      · subst ho
        refine (run_leaves ..).bind fun state' _ => ?_
        rw [run_cons]
        exact (step_ge state').bind fun state'' h => hfree.atBottom h
      · have hl : l.OpenGe := (hc.resolve_left ho).resolve_right hr
        refine (ihl hl hpl state).bind fun state' h => ?_
        rw [run_cons]
        exact (h.step_op ho).bind fun state'' h => hfree.atBottom h
  | _ => exact hc.elim

end Cst

/-- The operator or the text of a tree. -/
def TTA.op? : TTA → Option String
  | .null => none
  | .node op _ _ _ => some op

/-- The operator at the bottom is the last that a node is made for. -/
theorem AtBottom.back {ops : List String} (h : AtBottom ops) (st : List TTA) :
    Yields (processWhile (fun _ => true) st ops) fun state =>
      (back state.st).op? = some ">=" := by
  induction ops generalizing st with
  | nil => cases h
  | cons op ops ih =>
    refine processWhile_cons rfl (processOp_yields st op) ?_
    rintro _ rfl
    cases ops with
    | nil =>
      obtain rfl : op = ">=" := by simpa [AtBottom] using h
      exact rfl
    | cons op' ops => exact ih (by simpa [AtBottom] using h) _

/-! ## The parser -/

theorem Reassoc.leaves {t u : TTA} (h : Reassoc t u) : t.leaves = u.leaves := by
  induction h with
  | refl => rfl
  | symm _ ih => exact ih.symm
  | trans _ _ ih ih' => exact ih.trans ih'
  | node op decor _ _ ihl ihr => cases decor <;> simp only [TTA.leaves, ihl, ihr]
  | assoc o a b c _ => simp only [TTA.leaves, Nat.add_assoc]

theorem Reassoc.op? {t u : TTA} (h : Reassoc t u) : t.op? = u.op? := by
  induction h with
  | symm _ ih => exact ih.symm
  | trans _ _ ih ih' => exact ih.trans ih'
  | _ => rfl

namespace Cst

/-- With a `>=` in parentheses the parser drops a text. -/
theorem ParenGe.parse {c : Cst} (hp : c.ParenGe) (hc : c.WellPrec) {s : List Char}
    (hs : Rendered c.tokens s) : Yields (parseExpr s) fun t => ¬Reassoc t c.strip.tta := by
  rw [parseExpr_rendered c hs]
  refine Yields.bind (hp.loses hc ⟨[], []⟩) fun state h => ?_
  refine (processWhile_leaves _ state.st state.op).bind fun state' h' => ?_
  intro hr
  have hl := hr.leaves
  have hback := leaves_popBack state'.st
  have hb : back state'.st = (popBack state'.st).1 := by
    cases state'.st <;> rfl
  rw [leaves_tta, hb] at hl
  simp only [leaves_nil] at h
  omega

/-- With a `>=` outside parentheses the parser makes it the operator of the whole expression. -/
theorem OpenGe.parse {c : Cst} (ho : c.OpenGe) (hp : ¬c.ParenGe) {s : List Char}
    (hs : Rendered c.tokens s) : Yields (parseExpr s) fun t => t.op? = some ">=" := by
  rw [parseExpr_rendered c hs]
  refine (ho.atBottom hp ⟨[], []⟩).bind fun state h => ?_
  exact (h.back state.st).bind fun _ h => h

/-- A `>=` that is outside parentheses and not the operator of the whole expression is under
`&&` or `||`. -/
theorem OpenGe.op? {c : Cst} (ho : c.OpenGe) (hp : ¬c.ParenGe) (hc : c.WellPrec)
    (hr : ¬c.GeAtRoot) : c.strip.tta.op? ≠ some ">=" := by
  cases c with
  | bin o l r =>
    intro h
    obtain rfl : o = .ge := Op.text_inj (p := .ge) (Option.some.inj h)
    obtain ⟨hpl, hpr⟩ := not_or.mp hp
    have hclosed : ∀ {d : Cst}, FitsUnder .ge d → ¬d.OpenGe := by
      intro d hd hopen
      have hd := hd.isAtom
      cases d with
      | bin p a b => exact absurd hd (priority_lt _).ne
      | _ => exact hopen
    exact hr ⟨geFree_of_not hpl (hclosed hc.1), geFree_of_not hpr (hclosed hc.2.1)⟩
  | _ => exact ho.elim

end Cst

/-- `parse_expr` gives back the expression that was printed, up to the associativity of `&&` and
of `||`, exactly when there is no `>=` but as the operator of the whole expression, outside all
parentheses. -/
theorem parseExpr_iff {e : Expr} {c : Cst} (hc : e.Prints c) {s : List Char}
    (hs : Rendered c.tokens s) (hn : parseExpr s ≠ .error .stackFull) :
    (∃ t, parseExpr s = .ok t ∧ Reassoc t e.tta) ↔ c.GeAtRoot := by
  obtain ⟨rfl, hw⟩ := hc
  constructor
  · rintro ⟨t, ht, hr⟩
    by_contra hroot
    by_cases hp : c.ParenGe
    · obtain ⟨_, hu, hnr⟩ := (hp.parse hw hs).exists_ok hn
      obtain rfl := Except.ok.inj (ht.symm.trans hu)
      exact hnr hr
    · have ho : c.OpenGe := by
        by_contra ho
        have hfree := Cst.geFree_of_not hp ho
        refine hroot ?_
        cases c with
        | bin o l r => exact hfree.2
        | _ => exact hfree
      obtain ⟨_, hu, hop⟩ := (ho.parse hp hs).exists_ok hn
      obtain rfl := Except.ok.inj (ht.symm.trans hu)
      exact ho.op? hp hw hroot (hr.op?.symm.trans hop)
  · intro h
    exact (h.parse hw hs).exists_ok hn

/-- `'a' > 'b' && 'c'`, with any operator for `>`. -/
def aboveAnd (o : Op) : Expr :=
  .bin .and (.bin o (.text ⟨['a'], by decide⟩) (.text ⟨['b'], by decide⟩))
    (.text ⟨['c'], by decide⟩)

theorem parseExpr_iff_gt :
    ∃ t, parseExpr (printed (aboveAnd .gt).minimal.tokens) = .ok t ∧
      Reassoc t (aboveAnd .gt).tta :=
  (parseExpr_iff (aboveAnd .gt).prints_minimal (rendered_printed _) (by decide)).mpr
    (by decide)

/-- In `'a' >= 'b' && 'c'` the `>=` becomes the operator of the whole expression. -/
theorem parseExpr_ge_and :
    ¬∀ (e : Expr) (c : Cst), c = e.full ∨ c = e.minimal → ∀ s : List Char, Rendered c.tokens s →
      parseExpr s ≠ .error .stackFull → ∃ t, parseExpr s = .ok t ∧ Reassoc t e.tta := by
  intro h
  obtain ⟨t, ht, hr⟩ := h (aboveAnd .ge) _ (.inr rfl) _ (rendered_printed _) (by decide)
  have hop : (aboveAnd .ge).minimal.OpenGe := .inr (.inl (.inl rfl))
  have hp : ¬(aboveAnd .ge).minimal.ParenGe := by
    rintro ((h | h) | h) <;> exact h
  obtain ⟨u, hu, hge⟩ := (hop.parse hp (rendered_printed _)).exists_ok (by decide)
  obtain rfl := Except.ok.inj (ht.symm.trans hu)
  exact absurd (hr.op?.symm.trans hge) (by decide)

end Veda.Search.Vel
