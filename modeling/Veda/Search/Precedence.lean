import Mathlib.Algebra.Order.Group.Int
import Veda.Search.Print

/-! # Precedence

The trees that `parse_expr` builds. Where each operator is above the one that comes before it, the
two stacks hold, over what was there before, the operators that still wait for their right operand,
each with its left one. -/

namespace Veda.Search.Vel

/-! ## Results on stacks of any height -/

/-- A value of which `Q` holds, or a stack that was full. -/
def Yields (r : Except ParseError α) (Q : α → Prop) : Prop :=
  match r with
  | .ok a => Q a
  | .error e => e = .stackFull

namespace Yields

variable {r : Except ParseError α} {f : α → Except ParseError β} {P Q : α → Prop} {R : β → Prop}

theorem bind (h : Yields r P) (hf : ∀ a, P a → Yields (f a) R) : Yields (r >>= f) R := by
  cases r with
  | ok a => exact hf a h
  | error e => exact h

theorem mono (h : Yields r P) (hpq : ∀ a, P a → Q a) : Yields r Q := by
  cases r with
  | ok a => exact hpq a h
  | error e => exact h

theorem and (hp : Yields r P) (hq : Yields r Q) : Yields r fun a => P a ∧ Q a := by
  cases r with
  | ok a => exact ⟨hp, hq⟩
  | error e => exact hp

theorem exists_ok (h : Yields r P) (hr : r ≠ .error .stackFull) : ∃ a, r = .ok a ∧ P a := by
  cases r with
  | ok a => exact ⟨a, rfl, h⟩
  | error e => exact absurd (congrArg Except.error h) hr

end Yields

theorem pushBack_yields (stack : List α) (val : α) :
    Yields (pushBack stack val) (· = val :: stack) := by
  unfold pushBack
  split <;> rfl

theorem processOp_yields (st : List TTA) (op : String) :
    Yields (processOp st op) fun st' =>
      st' = if op ∈ operators then
          .node op .none (popBack (popBack st).2).1 (popBack st).1 :: (popBack (popBack st).2).2
        else (popBack (popBack st).2).2 := by
  simp only [processOp]
  split
  · exact pushBack_yields ..
  · exact rfl

/-- One operator that the condition of the `while` holds of. -/
theorem processWhile_cons {p : String → Bool} {st : List TTA} {op : String} {ops : List String}
    {P : List TTA → Prop} {Q : State → Prop} (hop : p op) (h : Yields (processOp st op) P)
    (hw : ∀ st', P st' → Yields (processWhile p st' ops) Q) :
    Yields (processWhile p st (op :: ops)) Q := by
  unfold processWhile
  rw [if_pos hop]
  split
  · rename_i st' he
    rw [he] at h
    exact hw st' h
  · rename_i e he
    rw [he] at h
    exact h

theorem run_append (state : State) (toks toks' : List Token) :
    run state (toks ++ toks') = run state toks >>= fun state => run state toks' :=
  List.foldlM_append ..

theorem run_cons (state : State) (tok : Token) (toks : List Token) :
    run state (tok :: toks) = step state tok >>= fun state => run state toks :=
  List.foldlM_cons ..

@[simp] theorem run_nil (state : State) : run state [] = .ok state := rfl

theorem run_singleton (state : State) (tok : Token) : run state [tok] = step state tok := by
  rw [run_cons]
  cases step state tok <;> rfl

/-! ## Operators that wait -/

/-- The operand under construction, with the operators that wait applied to it. -/
def unwind (t : TTA) : List (Op × TTA) → TTA
  | [] => t
  | (o, l) :: pend => unwind (.node o.text .none l t) pend

theorem unwind_append (t : TTA) (pend pend' : List (Op × TTA)) :
    unwind t (pend ++ pend') = unwind (unwind t pend) pend' := by
  induction pend generalizing t with
  | nil => rfl
  | cons x pend ih => exact ih _

/-- The operators that wait are on top of the stack, and `p` holds of them and of nothing below. -/
theorem processWhile_yields {p : String → Bool} {pend : List (Op × TTA)} {ops : List String}
    (hp : ∀ x ∈ pend, p x.1.text) (ho : ∀ op ∈ ops.head?, p op = false) (t : TTA)
    (st : List TTA) :
    Yields (processWhile p (t :: (pend.map Prod.snd ++ st)) (pend.map (·.1.text) ++ ops))
      (· = ⟨unwind t pend :: st, ops⟩) := by
  induction pend generalizing t with
  | nil =>
    cases ops with
    | nil => rfl
    | cons op ops =>
      have := ho op rfl
      simp only [List.map_nil, List.nil_append, processWhile, this, Bool.false_eq_true, if_false]
      rfl
  | cons x pend ih =>
    obtain ⟨o, l⟩ := x
    have hpo : p o.text := hp (o, l) List.mem_cons_self
    refine processWhile_cons hpo (processOp_yields ..) ?_
    rintro _ rfl
    rw [if_pos o.text_mem]
    exact ih (fun x hx => hp x (List.mem_cons_of_mem _ hx)) _

theorem priority_lt (op : String) : priority op < 5 := by
  unfold priority
  split <;> [decide; split] <;> [decide; split] <;> [decide; split] <;> decide

theorem priority_ge (op : String) : -1 ≤ priority op := by
  unfold priority
  split <;> [decide; split] <;> [decide; split] <;> [decide; split] <;> decide

namespace Cst

/-- The priority of what an expression is on the outside. -/
def prio : Cst → ℤ
  | bin o _ _ => priority o.text
  | _ => 5

/-- Each right operand is above its operator, each left operand is not below it, and what is in
parentheses is above the parenthesis. -/
def Strict : Cst → Prop
  | text _ => True
  | paren c => -1 < c.prio ∧ c.Strict
  | bin o l r => priority o.text ≤ l.prio ∧ priority o.text < r.prio ∧ l.Strict ∧ r.Strict

end Cst

/-- Over `st` and `ops` there is the tree `t`, in operators that wait, none of them below `k`. -/
def Built (k : ℤ) (t : TTA) (st : List TTA) (ops : List String) (state : State) : Prop :=
  ∃ u pend, state = ⟨u :: (pend.map Prod.snd ++ st), pend.map (·.1.text) ++ ops⟩ ∧
    unwind u pend = t ∧ ∀ x ∈ pend, k ≤ priority x.1.text

/-- Over whatever is below `c`, its tokens build the tree `t`. -/
def Builds (c : Cst) (t : TTA) : Prop :=
  ∀ st ops, (∀ op ∈ ops.head?, priority op < c.prio) →
    Yields (run ⟨st, ops⟩ c.tokens) (Built c.prio t st ops)

theorem builds_text (x : Text) : Builds (.text x) x.tta := by
  intro st ops _
  rw [Cst.tokens, run_singleton]
  refine (pushBack_yields ..).bind ?_
  rintro _ rfl
  exact ⟨_, [], rfl, rfl, fun x hx => absurd hx List.not_mem_nil⟩

/-- When an operator comes that is not above what waits, all of it is applied. -/
theorem Built.step_op {k : ℤ} {t : TTA} {st : List TTA} {ops : List String} {state : State}
    (h : Built k t st ops state) (o : Op) (hk : priority o.text ≤ k)
    (ho : ∀ op ∈ ops.head?, priority op < priority o.text) :
    Yields (step state (.op o)) (· = ⟨t :: st, o.text :: ops⟩) := by
  obtain ⟨u, pend, rfl, rfl, hpend⟩ := h
  have hw := processWhile_yields (p := fun op => priority op ≥ priority o.text)
    (fun x hx => decide_eq_true (hk.trans (hpend x hx)))
    (fun op hop => decide_eq_false (not_le.mpr (ho op hop))) u st
  refine hw.bind ?_
  rintro _ rfl
  refine (pushBack_yields ..).bind ?_
  rintro _ rfl
  exact rfl

theorem builds_bin {l r : Cst} {a b : TTA} {o : Op} (hl : Builds l a) (hr : Builds r b)
    (hol : priority o.text ≤ l.prio) (hor : priority o.text < r.prio) :
    Builds (.bin o l r) (.node o.text .none a b) := by
  intro st ops ho
  have hbase : ∀ op ∈ ops.head?, priority op < l.prio := fun op h => (ho op h).trans_le hol
  rw [Cst.tokens, run_append]
  refine (hl st ops hbase).bind fun state hs => ?_
  rw [run_cons]
  refine (hs.step_op o hol ho).bind ?_
  rintro _ rfl
  have hright : ∀ op ∈ (o.text :: ops).head?, priority op < r.prio := by
    intro op hop
    obtain rfl := Option.some.inj hop
    exact hor
  refine (hr _ _ hright).mono ?_
  rintro _ ⟨u, pend, rfl, rfl, hpend⟩
  refine ⟨u, pend ++ [(o, a)], ?_, unwind_append .., ?_⟩
  · simp
  · intro x hx
    rcases List.mem_append.mp hx with hx | hx
    · exact hor.le.trans (hpend x hx)
    · obtain rfl := List.mem_singleton.mp hx
      exact le_rfl

theorem builds_paren {c : Cst} {t : TTA} (hc : Builds c t) (hp : -1 < c.prio) :
    Builds (.paren c) t := by
  intro st ops _
  rw [Cst.tokens, List.cons_append, run_cons]
  refine Yields.bind (P := (· = ⟨st, "(" :: ops⟩)) ?_ ?_
  · refine (pushBack_yields ..).bind ?_
    rintro _ rfl
    exact rfl
  · rintro _ rfl
    have hbase : ∀ op ∈ ("(" :: ops).head?, priority op < c.prio := by
      intro op hop
      obtain rfl := Option.some.inj hop
      exact hp
    rw [run_append]
    refine (hc _ _ hbase).bind ?_
    rintro _ ⟨u, pend, rfl, rfl, -⟩
    rw [run_singleton]
    have hw := @processWhile_yields (· ≠ "(") pend ("(" :: ops)
      (fun x _ => decide_eq_true x.1.text_ne_paren) (by simp) u st
    refine hw.bind ?_
    rintro _ rfl
    exact ⟨_, [], rfl, rfl, fun x hx => absurd hx List.not_mem_nil⟩

theorem Cst.Strict.builds {c : Cst} (h : c.Strict) : Builds c c.strip.tta := by
  induction c with
  | text x => exact builds_text x
  | paren c ih => exact builds_paren (ih h.2) h.1
  | bin o l r ihl ihr => exact builds_bin (ihl h.2.2.1) (ihr h.2.2.2) h.1 h.2.1

/-- At the end of the input all that waits is applied. -/
theorem Builds.parse {c : Cst} {t : TTA} (h : Builds c t) :
    Yields (do
      let state ← run ⟨[], []⟩ c.tokens
      let state ← processWhile (fun _ => true) state.st state.op
      return back state.st) (· = t) := by
  refine (h [] [] (by simp)).bind ?_
  rintro _ ⟨u, pend, rfl, rfl, -⟩
  refine (@processWhile_yields _ _ [] (fun _ _ => rfl) (by simp) u []).bind ?_
  rintro _ rfl
  exact rfl

/-! ## Chains

A chain of `&&` or of `||` that is printed without parentheses is built from the left. -/

/-- The operators that are associative. -/
def Op.IsAssoc (o : Op) : Prop := o = .and ∨ o = .or

instance (o : Op) : Decidable o.IsAssoc := inferInstanceAs (Decidable (_ ∨ _))

theorem Op.IsAssoc.eq_of_priority {o p : Op} (ho : o.IsAssoc)
    (h : priority o.text = priority p.text) : p = o := by
  revert h
  rcases ho with rfl | rfl <;> cases p <;> decide

theorem Op.priority_lt_of_level {o p : Op} (h : o.level < p.level) (hp : p ≠ .ge) :
    priority o.text < priority p.text := by
  revert h hp
  cases o <;> cases p <;> decide

theorem Op.IsAssoc.priority_le_of_level {o p : Op} (ho : o.IsAssoc) (h : o.level ≤ p.level)
    (hp : p ≠ .ge) : priority o.text ≤ priority p.text := by
  revert h hp
  rcases ho with rfl | rfl <;> cases p <;> decide

theorem Op.priority_pos {o : Op} (h : o ≠ .ge) : 0 < priority o.text := by
  revert h
  cases o <;> decide

/-- Trees that are the same up to the associativity of `&&` and of `||`. -/
inductive Reassoc : TTA → TTA → Prop where
  | refl (t : TTA) : Reassoc t t
  | symm {t u : TTA} : Reassoc t u → Reassoc u t
  | trans {t u v : TTA} : Reassoc t u → Reassoc u v → Reassoc t v
  | node (op : String) (decor : Decor) {l l' r r' : TTA} : Reassoc l l' → Reassoc r r' →
      Reassoc (.node op decor l r) (.node op decor l' r')
  | assoc (o : Op) (a b c : TTA) : o.IsAssoc →
      Reassoc (.node o.text .none (.node o.text .none a b) c)
        (.node o.text .none a (.node o.text .none b c))

namespace Cst

/-- `l` under `o` at the left end of the chain of `o` that the last operand is. -/
def join (o : Op) (l : Cst) : Cst → Cst
  | bin p a b => if o.IsAssoc ∧ p = o then bin o (join o l a) b else bin o l (bin p a b)
  | r => bin o l r

/-- The same tokens with each chain nested to the left. -/
def nest : Cst → Cst
  | text x => text x
  | paren c => paren c.nest
  | bin o l r => join o l.nest r.nest

theorem tokens_join (o : Op) (l r : Cst) :
    (join o l r).tokens = l.tokens ++ .op o :: r.tokens := by
  induction r with
  | text x => rfl
  | paren c _ => rfl
  | bin p a b iha _ =>
    unfold join
    split
    · rename_i h
      simp [tokens, iha, h.2]
    · rfl

theorem tokens_nest (c : Cst) : c.nest.tokens = c.tokens := by
  induction c with
  | text x => rfl
  | paren c ih => simp only [nest, tokens, ih]
  | bin o l r ihl ihr => rw [nest, tokens_join, ihl, ihr, tokens]

theorem join_reassoc (o : Op) (l r : Cst) :
    Reassoc (join o l r).strip.tta (.node o.text .none l.strip.tta r.strip.tta) := by
  induction r with
  | text x => exact .refl _
  | paren c _ => exact .refl _
  | bin p a b iha _ =>
    unfold join
    split
    · rename_i h
      obtain ⟨ha, rfl⟩ := h
      exact (iha.node _ _ (.refl _)).trans (.assoc _ _ _ _ ha)
    · exact .refl _

theorem nest_reassoc (c : Cst) : Reassoc c.nest.strip.tta c.strip.tta := by
  induction c with
  | text x => exact .refl _
  | paren c ih => exact ih
  | bin o l r ihl ihr => exact (join_reassoc ..).trans (.node _ _ ihl ihr)

@[simp] theorem prio_join (o : Op) (l r : Cst) : (join o l r).prio = priority o.text := by
  cases r <;> (unfold join; try split) <;> rfl

theorem prio_nest (c : Cst) : c.nest.prio = c.prio := by
  cases c with
  | bin o l r => exact prio_join ..
  | _ => rfl

/-- `r` is above `o`, or it goes on with a chain of `o`. -/
def Follows (o : Op) (r : Cst) : Prop :=
  priority o.text < r.prio ∨ (o.IsAssoc ∧ ∃ a b, r = bin o a b)

theorem Follows.of_le {o : Op} {r : Cst} (ho : o.IsAssoc) (h : priority o.text ≤ r.prio) :
    Follows o r := by
  cases r with
  | bin p a b =>
    rcases h.lt_or_eq with h | h
    · exact .inl h
    · exact .inr ⟨ho, a, b, by rw [ho.eq_of_priority h]⟩
  | _ => exact .inl (priority_lt _)

theorem strict_join {o : Op} {l r : Cst} (hl : l.Strict) (hr : r.Strict)
    (hol : priority o.text ≤ l.prio) (hor : Follows o r) : (join o l r).Strict := by
  induction r with
  | text x => exact ⟨hol, priority_lt _, hl, hr⟩
  | paren c _ => exact ⟨hol, priority_lt _, hl, hr⟩
  | bin p a b iha _ =>
    unfold join
    split
    · rename_i h
      obtain ⟨ho, rfl⟩ := h
      refine ⟨(prio_join ..).ge, hr.2.1, ?_, hr.2.2.2⟩
      exact iha hr.2.2.1 (.of_le ho hr.1)
    · rename_i h
      refine ⟨hol, ?_, hl, hr⟩
      rcases hor with hor | ⟨ho, a', b', heq⟩
      · exact hor
      · cases heq
        exact absurd ⟨ho, rfl⟩ h

/-- There is no `>=`. -/
def GeFree : Cst → Prop
  | text _ => True
  | paren c => c.GeFree
  | bin o l r => o ≠ .ge ∧ l.GeFree ∧ r.GeFree

instance decidableGeFree : (c : Cst) → Decidable c.GeFree
  | text _ => inferInstanceAs (Decidable True)
  | paren c => decidableGeFree c
  | bin _ l r =>
    have := decidableGeFree l
    have := decidableGeFree r
    inferInstanceAs (Decidable (_ ∧ _ ∧ _))

/-- The only `>=` there may be is the operator of the whole expression, outside all
parentheses. -/
def GeAtRoot : Cst → Prop
  | bin _ l r => l.GeFree ∧ r.GeFree
  | c => c.GeFree

instance : (c : Cst) → Decidable c.GeAtRoot
  | bin _ _ _ => inferInstanceAs (Decidable (_ ∧ _))
  | text x => decidableGeFree (text x)
  | paren c => decidableGeFree (paren c)

theorem GeFree.prio_pos {c : Cst} (h : c.GeFree) : 0 < c.prio := by
  cases c with
  | bin o l r => exact Op.priority_pos h.1
  | _ => exact (by decide : (0 : ℤ) < 5)

/-- Where there is no `>=`, the priorities are in the order of the usual precedence. -/
theorem FitsUnder.prio {o : Op} {c : Cst} (h : FitsUnder o c) (hc : c.GeFree) :
    priority o.text ≤ c.prio ∧ Follows o c := by
  cases c with
  | bin p a b =>
    rcases h with h | ⟨ho, h⟩
    · have hlt := Op.priority_lt_of_level h hc.1
      exact ⟨hlt.le, .inl hlt⟩
    · have hle := Op.IsAssoc.priority_le_of_level ho h hc.1
      exact ⟨hle, .of_le ho hle⟩
  | _ => exact ⟨(priority_lt _).le, .inl (priority_lt _)⟩

theorem WellPrec.strict_nest {c : Cst} (h : c.WellPrec) (hc : c.GeFree) : c.nest.Strict := by
  induction c with
  | text x => trivial
  | paren c ih =>
    refine ⟨?_, ih h hc⟩
    rw [prio_nest]
    exact (by decide : (-1 : ℤ) < 0).trans (GeFree.prio_pos (c := c) hc)
  | bin o l r ihl ihr =>
    obtain ⟨hol, hor, hl, hr⟩ := h
    obtain ⟨-, hcl, hcr⟩ := hc
    have hfollows : Follows o r.nest := by
      rcases (hor.prio hcr).2 with h | ⟨ho, -⟩
      · exact .inl (by rwa [prio_nest])
      · exact .of_le ho (by rw [prio_nest]; exact (hor.prio hcr).1)
    refine strict_join (ihl hl hcl) (ihr hr hcr) ?_ hfollows
    rw [prio_nest]
    exact (hol.prio hcl).1

theorem GeAtRoot.strict_nest {c : Cst} (h : c.GeAtRoot) (hc : c.WellPrec) : c.nest.Strict := by
  cases c with
  | bin o l r =>
    by_cases ho : o = .ge
    · subst ho
      obtain ⟨-, -, hl, hr⟩ := hc
      have hlt : ∀ {d : Cst}, d.GeFree → priority Op.ge.text < d.nest.prio := by
        intro d hd
        rw [prio_nest]
        exact (by decide : priority Op.ge.text < 0).trans hd.prio_pos
      exact strict_join (hl.strict_nest h.1) (hr.strict_nest h.2) (hlt h.1).le (.inl (hlt h.2))
    · exact hc.strict_nest ⟨ho, h⟩
  | _ => exact hc.strict_nest h

/-- Where `>=` is the operator of the whole expression or does not occur, the parser builds the
expression. -/
theorem GeAtRoot.parse {c : Cst} (h : c.GeAtRoot) (hc : c.WellPrec) {s : List Char}
    (hs : Rendered c.tokens s) : Yields (parseExpr s) fun t => Reassoc t c.strip.tta := by
  have hp := (h.strict_nest hc).builds.parse
  rw [tokens_nest] at hp
  rw [parseExpr_rendered c hs]
  refine hp.mono ?_
  rintro _ rfl
  exact c.nest_reassoc

end Cst

end Veda.Search.Vel
