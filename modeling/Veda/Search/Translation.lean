import Mathlib
import Veda.Search.Vql

/-! # What a translated query selects -/

namespace Veda.Search.Xapian

open Vel (TTA Decor)

variable {V Q Doc : Type}

section
variable [Zero V] [One V] {env : Env V Q} {chars : WordChars}

/-! ## Comparisons -/

/-- A plain word is not taken for a boolean. -/
theorem Word.getTokenType_eq (env : Env V Q) (w : Word chars) (hw : w.Plain) :
    ∃ type value, getTokenType env w.text = .ok (type, value) ∧ type ≠ .boolean := by
  have ht : w.text ≠ "true" ∧ w.text ≠ "false" := by
    simpa only [List.mem_cons, List.not_mem_nil, or_false, not_or] using hw.1
  simp only [getTokenType, w.strip_eq, ht.1, ht.2, if_false, w.isDate_eq, Bool.false_eq_true]
  cases env.parseDouble w.text with
  | none => exact ⟨.text, none, rfl, nofun⟩
  | some value => exact ⟨.number, value, rfl, nofun⟩

section
variable [DecidableEq V]

theorem transform_leaf {text : String} (decor : Decor) (hs : env.key2slot ≠ [])
    (hl : text ∉ operators) :
    transform env (leaf text decor) = .ok ⟨some text, none, none, none, none⟩ := by
  simp only [operators, List.mem_cons, List.not_mem_nil, or_false, not_or] at hl
  simp [leaf, transform, hs, hl, Out.null]

theorem transform_bound (hs : env.key2slot ≠ []) (b : Bound env) :
    transform env (Vql.bound b : Vql env chars).tta =
      .ok ⟨some b.lit.text, some b.property.text, some b.dir.text, none, some b.lit.value⟩ := by
  have hl := transform_leaf b.property.decor hs b.property.leaf
  have hr := transform_leaf b.lit.decor hs b.lit.leaf
  have hd : b.dir.text = ">" ∨ b.dir.text = "<" := by
    cases b.dir
    · exact .inl rfl
    · exact .inr rfl
  have hn (text : String) (decor : Decor) : leaf text decor ≠ .null := nofun
  simp only [Vql.tta, transform, hs, hd, hn, if_false, if_true, or_self, hl, hr, bind, Except.bind,
    compare, Option.getD_some]
  obtain h | h := b.lit.type
  all_goals
    rw [h]
    rfl

/-- `==` and `!=` of a property with a text. -/
theorem transform_equality (hs : env.key2slot ≠ []) (ne : Bool) (p : Property env) {text : String}
    {decor : Decor} (hl : text ∉ operators) :
    transform env (.node (equality ne) .none (leaf p.text p.decor) (leaf text decor)) = do
      let query ← equal env (.node (equality ne) .none (leaf p.text p.decor) (leaf text decor)) ne
        false decor (some p.text) (some text)
      return ⟨none, none, none, query, none⟩ := by
  have hlo := transform_leaf p.decor hs p.leaf
  have hro := transform_leaf decor hs hl
  have hn (text : String) (decor : Decor) : leaf text decor ≠ .null := nofun
  have hd : decorOf (leaf text decor) = decor := rfl
  cases ne
  all_goals
    simp only [transform, equality, hs, hn, hlo, hro, hd, bind, Except.bind, String.reduceEq,
      Bool.false_eq_true, or_self, or_true, or_false, if_false, if_true, decide_false,
      decide_true, Option.isNone_none, Bool.and_self]

theorem equal_eq {tta : TTA} {ne : Bool} {decor : Decor} {text : String} (p : Property env)
    {type : TokenType} {value : Option V} (hg : getTokenType env text = .ok (type, value))
    (hc : withSubClasses env false text = text) (hf : first text ≠ some '*') (ht : text ≠ "") :
    equal env tta ne false decor (some p.text) (some text) =
      if type = .boolean then equalBoolean env tta p.slot value
      else if decor = .quoted || (has '*' text && isGoodToken env text) then
        equalText env ne p.slot text
      else if decor = .range then equalRange env false tta p.slot text
      else equalNumber env tta p.slot text := by
  have hp : getSlot env.key2slot p.text > 0 := p.indexed
  simp only [equal, Option.getD_some, hc, Option.some.injEq, p.one, if_false, ht, and_false,
    slotOf, hf, decide_false, Bool.false_and, Bool.false_eq_true, bind, Except.bind, pure,
    Except.pure, hp, if_true, hg, Property.slot]

theorem transform_word (hs : env.key2slot ≠ []) {ne : Bool} {p : Property env} {w : Word chars}
    (hw : w.Plain) {q : Q}
    (hq : env.parseQuery (if ne then "NOT " ++ w.text else w.text) (some (if ne then 55 else 23))
      (some p.words) = (some q, 0)) :
    transform env (Vql.word ne p w).tta = .ok ⟨none, none, none, some q, none⟩ := by
  obtain ⟨type, value, hg, ht⟩ := w.getTokenType_eq env hw
  obtain ⟨c, hf, hi⟩ := w.first_eq
  have hn : first w.text ≠ some '*' := by
    intro h
    cases hf.symm.trans h
    rw [chars.punct '*' (by decide)] at hi
    cases hi
  have hf : ¬first w.text = none := by
    rw [hf]
    nofun
  have hq' : parseQuery env (if ne then "NOT " ++ w.text else w.text)
      (some (if ne then flagDefault ||| flagWildcard ||| flagPhrase ||| flagLovehate ||| flagPureNot
        else flagDefault ||| flagWildcard ||| flagPhrase ||| flagLovehate))
      (some ("X" ++ toString p.slot ++ "X")) =
        (some q, 0, if ne then "NOT " ++ w.text else w.text) := parseQuery_eq hq
  rw [Vql.tta, transform_equality hs ne p w.leaf, equal_eq p hg (w.withSubClasses_eq env) hn w.ne]
  simp only [ht, if_false, decide_true, Bool.true_or, if_true, equalText, w.has_eq (c := '*')
    (by decide), Bool.false_and, Bool.false_eq_true, hf, hn, w.isUuid_eq, bind, Except.bind, pure,
    Except.pure, hq', checked]
  rfl

theorem transform_bool (hs : env.key2slot ≠ []) (h01 : (0 : V) ≠ 1) {ne : Bool} {p : Property env}
    {b : Bool} {q : Q}
    (hq : env.parseQuery (booleanTerm b) (some 7) (some p.booleans) = (some q, 0)) :
    transform env (Vql.bool ne p b : Vql env chars).tta = .ok ⟨none, none, none, some q, none⟩ := by
  have hq' : parseQuery env (booleanTerm b) (some (flagDefault ||| flagPhrase ||| flagLovehate))
      (some ("X" ++ toString p.slot ++ "D")) = (some q, 0, booleanTerm b) := parseQuery_eq hq
  have he (tta : TTA) (value : Option V)
      (hv : (if value = some 1 then "T" else "F") = booleanTerm b) :
      equalBoolean env tta p.slot value = .ok (some q) := by
    simp only [equalBoolean, hv, hq']
    rfl
  cases b
  · have hg : getTokenType env "false" = .ok (.boolean, some 0) := rfl
    rw [Vql.tta, if_neg Bool.false_ne_true, transform_equality hs ne p (by decide),
      equal_eq p hg rfl (by decide) (by decide), if_pos rfl, he]
    · rfl
    · rw [if_neg (fun h => h01 (Option.some.inj h))]
      rfl
  · have hg : getTokenType env "true" = .ok (.boolean, some 1) := rfl
    rw [Vql.tta, if_pos rfl, transform_equality hs ne p (by decide),
      equal_eq p hg rfl (by decide) (by decide), if_pos rfl, he]
    · rfl
    · exact if_pos rfl

theorem transform_and (hs : env.key2slot ≠ []) {l r : Vql env chars} {lo ro : Out V Q}
    (hl : transform env l.tta = .ok lo) (hr : transform env r.tta = .ok ro) :
    transform env (Vql.and l r).tta = conjunction env (Vql.and l r).tta lo ro := by
  simp only [Vql.tta, transform, hs, l.tta_ne, r.tta_ne, hl, hr, if_false, String.reduceEq,
    or_self, if_true, bind, Except.bind]

theorem transform_or (hs : env.key2slot ≠ []) {l r : Vql env chars} {lo ro : Out V Q}
    (hl : transform env l.tta = .ok lo) (hr : transform env r.tta = .ok ro) :
    transform env (Vql.or l r).tta = disjunction env (Vql.or l r).tta lo ro := by
  simp only [Vql.tta, transform, hs, l.tta_ne, r.tta_ne, hl, hr, if_false, String.reduceEq,
    or_self, if_true, bind, Except.bind]

end

/-! ## Trees -/

theorem Vql.of_single {q : Vql env chars} (h : q.single.isSome) : ∃ b, q = .bound b := by
  cases q with
  | bound b => exact ⟨b, rfl⟩
  | _ => cases h

section
variable [LE V] (index : Index Doc V) (sel : Q → Set Doc)

/-- The documents that a query selects; no query restricts nothing. -/
def passes (query : Option Q) (d : Doc) : Prop := ∀ q ∈ query, d ∈ sel q

/-- What the translation of a tree gives: the operator that goes up, the property of a single bound,
and a query with the meaning of the tree, or of what is left of it next to the bound that goes
up. -/
structure Translated (q : Vql env chars) (out : Out V Q) : Prop where
  op : out.op = q.firstOp.map Dir.text
  lToken : out.lToken = q.single.map fun b => b.property.text
  closed : q.pending = none → out.ret = none ∧ out.query.isSome ∧
    ∀ d, q.sat index d ↔ passes sel out.query d
  pending (b : Bound env) : q.pending = some b →
    out.ret = some b.lit.text ∧ out.rd = some b.lit.value ∧
      ∀ d, q.sat index d ↔ passes sel out.query d ∧ b.sat index d

variable {index sel}

@[simp] theorem passes_none (d : Doc) : passes sel none d ↔ True :=
  iff_true_intro nofun

@[simp] theorem passes_some (q : Q) (d : Doc) : passes sel (some q) d ↔ d ∈ sel q :=
  ⟨fun h => h q rfl, fun h _ hq => Option.some.inj hq ▸ h⟩

theorem Translated.of_query {q : Vql env chars} {query : Q} (hf : q.firstOp = none)
    (hb : q.single = none) (hp : q.pending = none) (hs : ∀ d, q.sat index d ↔ d ∈ sel query) :
    Translated index sel q ⟨none, none, none, some query, none⟩ where
  op := by rw [hf]; rfl
  lToken := by rw [hb]; rfl
  closed _ := ⟨rfl, rfl, fun d => (hs d).trans (passes_some query d).symm⟩
  pending b hb := by
    rw [hp] at hb
    cases hb

theorem Translated.bound (b : Bound env) :
    Translated index sel (Vql.bound b : Vql env chars)
      ⟨some b.lit.text, some b.property.text, some b.dir.text, none, some b.lit.value⟩ where
  op := rfl
  lToken := rfl
  closed := nofun
  pending c hc := by
    cases hc
    refine ⟨rfl, rfl, fun d => ?_⟩
    rw [passes_none, true_and]
    rfl

/-- Two bounds in opposite directions are the ends of a range. -/
theorem rangeBounds_eq (index : Index Doc V) {b c : Bound env}
    (hs : b.property.slot = c.property.slot)
    (hd : b.dir ≠ c.dir) :
    ∃ low high, rangeBounds (some b.dir.text) (some c.dir.text) (some b.lit.value)
        (some c.lit.value) = (some low, some high) ∧
      ∀ d, (∃ x, index.value c.property.slot d = some x ∧ low ≤ x ∧ x ≤ high) ↔
        b.sat index d ∧ c.sat index d := by
  have both {slot : ℤ} {d : Doc} {p p' : V → Prop} :
      (∃ x, index.value slot d = some x ∧ p x ∧ p' x) ↔
        (∃ x, index.value slot d = some x ∧ p x) ∧ ∃ x, index.value slot d = some x ∧ p' x := by
    constructor
    · intro ⟨x, hx, h, h'⟩
      exact ⟨⟨x, hx, h⟩, x, hx, h'⟩
    · intro ⟨⟨x, hx, h⟩, y, hy, h'⟩
      cases hx.symm.trans hy
      exact ⟨x, hx, h, h'⟩
  cases hb : b.dir with
  | above =>
    have hc : c.dir = .below := by
      cases h : c.dir with
      | above => exact absurd (hb.trans h.symm) hd
      | below => rfl
    refine ⟨b.lit.value, c.lit.value, by rw [hc]; rfl, fun d => ?_⟩
    simp only [Bound.sat, hb, hc, hs, both]
  | below =>
    have hc : c.dir = .above := by
      cases h : c.dir with
      | above => rfl
      | below => exact absurd (hb.trans h.symm) hd
    refine ⟨c.lit.value, b.lit.value, by rw [hc]; rfl, fun d => ?_⟩
    simp only [Bound.sat, hb, hc, hs, both]
    exact and_comm

section
variable (hx : Selects index env chars sel)
include hx

theorem addRight_some (tta : TTA) (queryL : Option Q) (queryR : Q) :
    ∃ q, addRight env tta queryL (some queryR) = .ok (some q) ∧
      ∀ d, d ∈ sel q ↔ passes sel queryL d ∧ d ∈ sel queryR := by
  cases queryL with
  | none => exact ⟨queryR, rfl, fun d => by rw [passes_none, true_and]⟩
  | some queryL =>
    obtain ⟨q, hq, hs⟩ := hx.and_ queryL queryR
    refine ⟨q, ?_, fun d => by rw [hs, passes_some]; rfl⟩
    rw [addRight, Option.bind_some, hq]
    rfl

/-- A range is made of the bound that came up on the left and of the single bound on the right. -/
theorem Translated.range {l : Vql env chars} {lo : Out V Q} {b c : Bound env} {tta : TTA}
    (hl : Translated index sel l lo) (hb : l.pending = some b)
    (hs : b.property.slot = c.property.slot) (hd : b.dir ≠ c.dir) (hf : l.firstOp = some b.dir) :
    ∃ out, conjunction env tta lo
        ⟨some c.lit.text, some c.property.text, some c.dir.text, none, some c.lit.value⟩ =
          .ok out ∧ Translated index sel (.and l (.bound c)) out := by
  obtain ⟨hret, hrd, hsat⟩ := hl.pending b hb
  have hop : lo.op = some b.dir.text := by rw [hl.op, hf]; rfl
  obtain ⟨low, high, hr, hrange⟩ := rangeBounds_eq index hs hd
  obtain ⟨queryR, hq, hqs⟩ := hx.range c.property.slot low high
  obtain ⟨query, hadd, hquery⟩ := addRight_some hx tta lo.query queryR
  rw [Property.slot] at hq
  refine ⟨⟨none, none, some b.dir.text, some query, none⟩, ?_, ?_⟩
  · simp only [conjunction, andQuery, hret, hrd, hop, hr, hq, hadd, bind, Except.bind,
      Option.some_or]
    rfl
  · refine ⟨by rw [Vql.firstOp, hf]; rfl, rfl, fun _ => ⟨rfl, rfl, fun d => ?_⟩, ?_⟩
    · rw [passes_some, hquery, hqs, Set.mem_ofPred_eq, hrange, ← and_assoc, ← hsat]
      rfl
    · intro _ h
      simp [Vql.pending, hb] at h

theorem andQuery_eq (tta : TTA) {lo ro : Out V Q} (h : lo.ret = none ∨ ro.lToken = none) :
    ∃ query, andQuery env tta lo ro = .ok query ∧
      query.isSome = (lo.query.isSome || ro.query.isSome) ∧
      ∀ d, passes sel query d ↔ passes sel lo.query d ∧ passes sel ro.query d := by
  have he : andQuery env tta lo ro =
      if ro.query.isSome then addRight env tta lo.query ro.query else .ok lo.query := by
    unfold andQuery
    split
    · rename_i hr hl
      rw [hr, hl] at h
      simp at h
    · rfl
  rw [he]
  cases hr : ro.query with
  | none =>
    refine ⟨lo.query, rfl, (Bool.or_false _).symm, fun d => ?_⟩
    rw [passes_none, and_true]
  | some queryR =>
    obtain ⟨q, hq, hs⟩ := addRight_some hx tta lo.query queryR
    refine ⟨some q, hq, (Bool.or_true _).symm, fun d => ?_⟩
    rw [passes_some, passes_some, hs]

/-- Without two bounds that meet, `&&` is that of the queries. -/
theorem Translated.and {l r : Vql env chars} {lo ro : Out V Q} {tta : TTA}
    (hl : Translated index sel l lo) (hr : Translated index sel r ro)
    (hp : l.pending = none ∨ r.pending = none) :
    ∃ out, conjunction env tta lo ro = .ok out ∧ Translated index sel (.and l r) out := by
  have hno : lo.ret = none ∨ ro.lToken = none := by
    refine hp.imp (fun h => (hl.closed h).1) fun h => ?_
    rw [hr.lToken]
    cases r with
    | bound c => cases h
    | _ => rfl
  obtain ⟨query, hq, hsome, hpass⟩ := andQuery_eq hx tta hno
  have hop : lo.op.or ro.op = (l.firstOp.or r.firstOp).map Dir.text := by
    rw [hl.op, hr.op]
    cases l.firstOp <;> rfl
  cases hpl : l.pending with
  | none =>
    obtain ⟨hretL, hsomeL, hsatL⟩ := hl.closed hpl
    cases hpr : r.pending with
    | none =>
      obtain ⟨hretR, hsomeR, hsatR⟩ := hr.closed hpr
      refine ⟨⟨none, none, lo.op.or ro.op, query, none⟩, ?_, ?_⟩
      · simp only [conjunction, hretL, hretR, hq, bind, Except.bind]
        rfl
      · refine ⟨hop, rfl, fun _ => ⟨rfl, ?_, fun d => ?_⟩, ?_⟩
        · rw [hsome, hsomeL, Bool.true_or]
        · rw [hpass, ← hsatL, ← hsatR]
          rfl
        · intro _ h
          simp [Vql.pending, hpl, hpr] at h
    | some c =>
      obtain ⟨hretR, hrdR, hsatR⟩ := hr.pending c hpr
      refine ⟨⟨some c.lit.text, none, lo.op.or ro.op, query, ro.rd⟩, ?_, ?_⟩
      · simp only [conjunction, hretL, hretR, hq, bind, Except.bind]
        rfl
      · refine ⟨hop, rfl, ?_, ?_⟩
        · intro h
          simp [Vql.pending, hpl, hpr] at h
        · intro b h
          simp only [Vql.pending, hpl, hpr, Option.some.injEq] at h
          subst h
          refine ⟨rfl, hrdR, fun d => ?_⟩
          rw [hpass, ← hsatL, and_assoc, ← hsatR]
          rfl
  | some b =>
    obtain ⟨hretL, hrdL, hsatL⟩ := hl.pending b hpl
    have hpr : r.pending = none := hp.resolve_left (by rw [hpl]; nofun)
    obtain ⟨hretR, hsomeR, hsatR⟩ := hr.closed hpr
    refine ⟨⟨some b.lit.text, none, lo.op.or ro.op, query, lo.rd⟩, ?_, ?_⟩
    · simp only [conjunction, hretL, hretR, hq, bind, Except.bind]
      rfl
    · refine ⟨hop, rfl, ?_, ?_⟩
      · intro h
        simp [Vql.pending, hpl, hpr] at h
      · intro c h
        simp only [Vql.pending, hpl, hpr, Option.some.injEq] at h
        subst h
        refine ⟨rfl, hrdL, fun d => ?_⟩
        rw [hpass, ← hsatR, and_right_comm, ← hsatL]
        rfl

theorem Translated.or {l r : Vql env chars} {lo ro : Out V Q} {tta : TTA}
    (hl : Translated index sel l lo) (hr : Translated index sel r ro)
    (hpl : l.pending = none) (hpr : r.pending = none) :
    ∃ out, disjunction env tta lo ro = .ok out ∧ Translated index sel (.or l r) out := by
  obtain ⟨-, hsomeL, hsatL⟩ := hl.closed hpl
  obtain ⟨-, hsomeR, hsatR⟩ := hr.closed hpr
  obtain ⟨queryL, hqL⟩ := Option.isSome_iff_exists.mp hsomeL
  obtain ⟨queryR, hqR⟩ := Option.isSome_iff_exists.mp hsomeR
  obtain ⟨query, hq, hsel⟩ := hx.or_ queryL queryR
  refine ⟨⟨none, none, none, some query, none⟩, ?_, .of_query rfl rfl rfl fun d => ?_⟩
  · simp only [disjunction, hqL, hqR, Option.bind_some, hq]
    rfl
  · rw [Vql.sat, hsatL, hsatR, hqL, hqR, passes_some, passes_some, hsel]
    rfl

theorem Translated.word [DecidableEq V] {p : Property env} {w : Word chars} (ne : Bool)
    (hw : w.Plain) :
    ∃ out, transform env (Vql.word ne p w).tta = .ok out ∧
      Translated index sel (.word ne p w) out := by
  cases ne with
  | false =>
    obtain ⟨q, hq, hs⟩ := hx.word 23 p.words w (by decide) hw.2
    refine ⟨_, transform_word hx.slots hw hq, .of_query rfl rfl rfl fun d => ?_⟩
    simp [Vql.sat, hs]
  | true =>
    obtain ⟨q, hq, hs⟩ := hx.notWord 55 p.words w (by decide) (by decide) hw.2
    refine ⟨_, transform_word hx.slots hw hq, .of_query rfl rfl rfl fun d => ?_⟩
    simp [Vql.sat, hs]

/-- The word that stands for a boolean. -/
def booleanWord (chars : WordChars) (b : Bool) : Word chars where
  text := booleanTerm b
  ne := by cases b <;> decide
  all := by
    cases b
    all_goals
      intro c hc
      rw [List.mem_singleton.mp hc]
      exact chars.alnum _ (by decide)

theorem Translated.bool [DecidableEq V] {p : Property env} {b : Bool} :
    ∃ out, transform env (Vql.bool false p b : Vql env chars).tta = .ok out ∧
      Translated index sel (.bool false p b : Vql env chars) out := by
  have hw : booleanTerm b ∉ queryOperators := by cases b <;> decide
  obtain ⟨q, hq, hs⟩ := hx.word 7 p.booleans (booleanWord chars b) (by decide) hw
  refine ⟨_, transform_bool hx.slots hx.nontrivial hq, .of_query rfl rfl rfl fun d => ?_⟩
  simp [Vql.sat, hs, booleanWord]

/-- The translation of a tree of which nothing is lost. -/
theorem transform_eq [DecidableEq V] (q : Vql env chars) (hf : q.Fits) :
    ∃ out, transform env q.tta = .ok out ∧ Translated index sel q out := by
  induction q with
  | bool ne p b =>
    cases hf
    exact Translated.bool hx
  | word ne p w => exact Translated.word hx ne hf
  | bound b => exact ⟨_, transform_bound hx.slots b, .bound b⟩
  | and l r ihl ihr =>
    obtain ⟨hfl, hfr, hm⟩ := hf
    obtain ⟨lo, hlo, hl⟩ := ihl hfl
    obtain ⟨ro, hro, hr⟩ := ihr hfr
    rw [transform_and hx.slots hlo hro]
    cases hpl : l.pending with
    | none => exact Translated.and hx hl hr (.inl hpl)
    | some b =>
      cases hpr : r.pending with
      | none => exact Translated.and hx hl hr (.inr hpr)
      | some c =>
        simp only [Vql.Meet, hpl, hpr] at hm
        obtain ⟨hs, hslot, hd, hop⟩ := hm
        obtain ⟨_, rfl⟩ := Vql.of_single hs
        cases hpr
        cases (transform_bound hx.slots c).symm.trans hro
        exact Translated.range hx hl hpl hslot hd hop
  | or l r ihl ihr =>
    obtain ⟨hfl, hfr, hpl, hpr⟩ := hf
    obtain ⟨lo, hlo, hl⟩ := ihl hfl
    obtain ⟨ro, hro, hr⟩ := ihr hfr
    rw [transform_or hx.slots hlo hro]
    exact Translated.or hx hl hr hpl hpr

/-- A query that is made of a tree of which nothing is lost selects the documents that satisfy the
tree. -/
theorem transform_select [DecidableEq V] (q : Vql env chars) (hf : q.Fits) (hp : q.pending = none) :
    ∃ out query, transform env q.tta = .ok out ∧ out.query = some query ∧
      ∀ d, d ∈ sel query ↔ q.sat index d := by
  obtain ⟨out, hout, ht⟩ := transform_eq hx q hf
  obtain ⟨-, hsome, hsat⟩ := ht.closed hp
  obtain ⟨query, hq⟩ := Option.isSome_iff_exists.mp hsome
  refine ⟨out, query, hout, hq, fun d => ?_⟩
  rw [hsat, hq, passes_some]

end

end

end

/-! ## An index that is listed -/

/-- A document with its terms and its values. -/
structure Listed where
  terms : List (String × String)
  values : List (ℤ × ℤ)

/-- A query as it was put together. -/
inductive Query where
  | term (pref word : String)
  | without (pref word : String)
  | range (slot low high : ℤ)
  | and (l r : Query)
  | or (l r : Query)

namespace Listed

def index : Index Listed ℤ where
  term pref word d := (pref, word) ∈ d.terms
  value slot d := d.values.lookup slot

def sel : Query → Set Listed
  | .term pref word => {d | index.term pref word d}
  | .without pref word => {d | ¬index.term pref word d}
  | .range slot low high => {d | ∃ x, index.value slot d = some x ∧ low ≤ x ∧ x ≤ high}
  | .and l r => sel l ∩ sel r
  | .or l r => sel l ∪ sel r

def chars : WordChars where
  is := Char.isAlphanum
  alnum _ h := h
  white c h := by
    simp only [isWhite, List.mem_cons, List.not_mem_nil, or_false, Bool.or_eq_true,
      Bool.and_eq_true, decide_eq_true_eq] at h
    simp only [Char.isAlphanum, Char.isAlpha, Char.isUpper, Char.isLower, Char.isDigit,
      Bool.or_eq_false_iff, Bool.and_eq_false_iff, decide_eq_false_iff_not, UInt32.le_iff_toNat_le,
      ge_iff_le]
    have hc : c.toNat = c.val.toNat := rfl
    have hA : 'A'.val.toNat = 65 := rfl
    have hZ : 'Z'.val.toNat = 90 := rfl
    have ha : 'a'.val.toNat = 97 := rfl
    have hz : 'z'.val.toNat = 122 := rfl
    have h0 : '0'.val.toNat = 48 := rfl
    have h9 : '9'.val.toNat = 57 := rfl
    omega
  punct := by
    simp only [List.forall_mem_cons]
    exact ⟨rfl, rfl, rfl, rfl, rfl, rfl, rfl, rfl, rfl, rfl, rfl, nofun⟩

/-- A text that begins with `NOT` is a negation, any other a word. -/
def parse (text pref : String) : Query :=
  match text.toList with
  | 'N' :: 'O' :: 'T' :: ' ' :: word => .without pref (String.ofList word)
  | _ => .term pref text

def env (key2slot : List (String × ℤ)) : Env ℤ Query where
  key2slot := key2slot
  subClasses _ := []
  isAlpha := Char.isAlpha
  isNumber := Char.isDigit
  parseDouble text := (toInt text.toList).map some
  fromISOExtString _ := none
  sortableSerialise value := toString (value.getD 0)
  parseQuery text _ pref := (some (parse text (pref.getD "")), 0)
  newQueryRange slot low high := low.bind fun low => high.map fun high => .range slot low high
  newQuery text := some (.term "" text)
  addRightQuery op l r := some (match op with | .and => .and l r | .or => .or l r)

theorem parse_word (w : Word chars) (pref : String) : parse w.text pref = .term pref w.text := by
  unfold parse
  split
  · rename_i word h
    have := w.all ' ' (by rw [h]; simp)
    cases this
  · rfl

theorem parse_not (text pref : String) : parse ("NOT " ++ text) pref = .without pref text := by
  rw [parse, String.toList_append]
  change Query.without pref (String.ofList text.toList) = _
  rw [String.ofList_toList]

theorem selects {key2slot : List (String × ℤ)} (h : key2slot ≠ []) :
    Selects index (env key2slot) chars sel where
  slots := h
  nontrivial := by decide
  word _ pref w _ _ := ⟨.term pref w.text, by rw [← parse_word]; rfl, rfl⟩
  notWord _ pref w _ _ _ := ⟨.without pref w.text, by rw [← parse_not]; rfl, rfl⟩
  range slot low high := ⟨.range slot low high, rfl, rfl⟩
  and_ l r := ⟨.and l r, rfl, rfl⟩
  or_ l r := ⟨.or l r, rfl, rfl⟩

/-- An index with three properties. -/
def three : Env ℤ Query := env [("kind", 1), ("from", 2), ("to", 3)]

def kind : Property three := ⟨"kind", .quoted, by decide, by decide, by decide⟩

def from_ : Property three := ⟨"from", .quoted, by decide, by decide, by decide⟩

def to_ : Property three := ⟨"to", .quoted, by decide, by decide, by decide⟩

def one : Literal three := ⟨"1", .none, 1, by decide, .inl rfl⟩

def five : Literal three := ⟨"5", .none, 5, by decide, .inl rfl⟩

def person : Word chars := ⟨"Person", by decide, List.all_eq_true.mp rfl⟩

/-- `'from' > 1 && 'to' < 5`. -/
def apart : Vql three chars := .and (.bound ⟨from_, .above, one⟩) (.bound ⟨to_, .below, five⟩)

/-- `('kind' == 'Person' && 'from' > 1) && 'from' < 5`. -/
def together : Vql three chars :=
  .and (.and (.word false kind person) (.bound ⟨from_, .above, one⟩)) (.bound ⟨from_, .below, five⟩)

end Listed

/-- The bounds of two properties become a range of the second one. -/
theorem not_transform_select_apart :
    Selects Listed.index Listed.three Listed.chars Listed.sel ∧
      ¬∃ out query, transform Listed.three Listed.apart.tta = .ok out ∧ out.query = some query ∧
        ∀ d, d ∈ Listed.sel query ↔ Listed.apart.sat Listed.index d := by
  refine ⟨Listed.selects (by decide), ?_⟩
  intro ⟨out, query, hout, hq, hsel⟩
  have ht : transform Listed.three Listed.apart.tta =
      .ok ⟨none, none, some ">", some (.range 3 1 5), none⟩ := rfl
  cases ht.symm.trans hout
  cases hq
  -- the first bound is not met
  have hd := (hsel ⟨[], [(2, 0), (3, 2)]⟩).mp ⟨2, rfl, by decide, by decide⟩
  obtain ⟨⟨x, hx, h⟩, -⟩ := hd
  cases hx
  exact absurd h (by decide)

theorem transform_select_together :
    ∃ out query, transform Listed.three Listed.together.tta = .ok out ∧ out.query = some query ∧
      ∀ d, d ∈ Listed.sel query ↔ Listed.together.sat Listed.index d :=
  transform_select (Listed.selects (by decide)) Listed.together
    ⟨⟨(by decide : Listed.person.Plain), trivial, trivial⟩, trivial, rfl, rfl, by decide, rfl⟩ rfl

end Veda.Search.Xapian
