import Mathlib.Algebra.Ring.Int.Defs
import Veda.Search.Subproperties
import Veda.Search.XapianVql

/-! # The second attempt of a query

`XapianReader.query` calls `transform_vql_to_xapian` again with the same tree when it throws a
`XapianError`. The first call may have changed the tree: brackets are replaced before anything is
translated, and `===` becomes `==` when it is come to. -/

namespace Veda.Search.Retry

open Vel Xapian Subproperties

/-! ## The translation of a tree in the heap -/

/-- The objects, and how many calls there were. What Xapian and the ontology answer may be another
thing at each call. -/
structure State where
  heap : Heap
  calls : ℕ

/-- What ends a call: an exception, or a recursion that goes deeper than it is followed. -/
inductive Failure where
  | thrown (error : Error)
  | depth

abbrev Run := EStateM Failure State

/-- A part that does not change the tree. -/
def thrown {α : Type} : Except Error α → Run α
  | .ok a => pure a
  | .error e => throw (.thrown e)

/-- `tta`. A reference that leads nowhere is dereferenced as `null` is. -/
def object (a : ℕ) : Run Obj := do
  match (← get).heap[a]? with
  | some tta => return tta
  | none => throw (.thrown .other)

/-- The tree at a reference as `tta.toString()` goes through it. -/
def treeAt : ℕ → Heap → Option ℕ → TTA
  | depth + 1, heap, some a =>
    match heap[a]? with
    | some o => .node o.op o.decor (treeAt depth heap o.L) (treeAt depth heap o.R)
    | none => .null
  | _, _, _ => .null

def tree (depth a : ℕ) : Run TTA := do return treeAt depth (← get).heap (some a)

/-- `tta.R.token_decor` -/
def decorAt (a : ℕ) : Run Decor := do return (← object a).decor

section
variable {V Q : Type} [Zero V] [One V] [DecidableEq V]

/-- What is answered at this call. -/
def answers (env : ℕ → Env V Q) : Run (Env V Q) := do
  let s ← get
  set { s with calls := s.calls + 1 }
  return env s.calls

section
variable (translate : ℕ → Run (Out V Q)) (env : Env V Q) (depth a : ℕ)

/-- `>` and `<` -/
def comparing (tta : Obj) : Run (Out V Q) := do
  match tta.L, tta.R with
  | some l, some r =>
    let lo ← translate l
    let ro ← translate r
    thrown (compare env tta.op lo ro)
  | _, _ => thrown (invalid (← tree depth a))

/-- `tta.op = "=="` for a strict equality. -/
def notStrict (tta : Obj) : Run Unit :=
  if tta.op = "===" then modify fun s => { s with heap := s.heap.set a { tta with op := "==" } }
  else pure ()

/-- The equality once `===` is `==`. -/
def equality (tta : Obj) (ne strict : Bool) : Run (Out V Q) := do
  match tta.L, tta.R with
  | some l, some r =>
    let lo ← translate l
    let ro ← translate r
    if lo.query.isNone && ro.query.isNone then
      let decor ← decorAt r
      let query ← thrown (equal env (← tree depth a) ne strict decor lo.ret ro.ret)
      return ⟨none, none, none, query, none⟩
    else return .null
  | _, _ => thrown (invalid (← tree depth a))

/-- A side of `&&` or `||` -/
def side : Option ℕ → Run (Out V Q)
  | some b => translate b
  | none => return .null

/-- `&&` or `||`, the right side first. -/
def joining (join : TTA → Out V Q → Out V Q → Except Error (Out V Q)) (tta : Obj) :
    Run (Out V Q) := do
  let ro ← side translate tta.R
  let lo ← side translate tta.L
  thrown (join (← tree depth a) lo ro)

/-- The branches of `_transform_vql_to_xapian`. -/
def translateObject (tta : Obj) : Run (Out V Q) :=
  if env.key2slot = [] then return .null
  else if tta.op = ">" ∨ tta.op = "<" then comparing translate env depth a tta
  else if tta.op = "==" ∨ tta.op = "!=" ∨ tta.op = "===" then do
    notStrict a tta
    equality translate env depth a tta (tta.op = "!=") (tta.op = "===")
  else if tta.op = "&&" then joining translate depth a (conjunction env) tta
  else if tta.op = "||" then joining translate depth a (disjunction env) tta
  else return { Out.null with ret := some tta.op }

end

/-- `_transform_vql_to_xapian` of the object at `a`. -/
def translate (env : ℕ → Env V Q) : ℕ → ℕ → Run (Out V Q)
  | 0, _ => throw .depth
  | depth + 1, a => do
    let env' ← answers env
    let tta ← object a
    translateObject (translate env depth) env' (depth + 1) a tta

/-- `prepare_subproperties`; an index that is out of range is no `XapianError`. -/
def prepare (subProperties : String → List String) (depth a : ℕ) : Run Unit := do
  let s ← get
  match prepareSubproperties subProperties depth s.heap a with
  | .ok heap => set { s with heap := heap }
  | .error .range => throw (.thrown .other)
  | .error .depth => throw .depth

/-- `transform_vql_to_xapian` -/
def transformVql (subProperties : String → List String) (env : ℕ → Env V Q) (depth a : ℕ) :
    Run (Out V Q) := do
  prepare subProperties depth a
  translate env depth a

end

/-! ## What a call does to the tree -/

/-- Nothing is changed but that a `===` may be `==`. -/
def Rewritten (heap heap' : Heap) : Prop :=
  ∀ a : ℕ, heap'[a]? = heap[a]? ∨
    ∃ o : Obj, heap[a]? = some o ∧ o.op = "===" ∧ heap'[a]? = some { o with op := "==" }

/-- The tree at a reference is no deeper than `n`. -/
inductive Within (heap : Heap) : ℕ → Option ℕ → Prop
  | null {n : ℕ} : Within heap n none
  | node {n a : ℕ} {o : Obj} (ho : heap[a]? = some o) (hl : Within heap n o.L)
    (hr : Within heap n o.R) : Within heap (n + 1) (some a)

section
variable {heap heap' heap'' : Heap} {S : Set ℕ} {p : Option ℕ} {t : TTA} {n a : ℕ} {o : Obj}

theorem Rewritten.refl (heap : Heap) : Rewritten heap heap := fun _ => .inl rfl

theorem Rewritten.trans (h : Rewritten heap heap') (h' : Rewritten heap' heap'') :
    Rewritten heap heap'' := by
  intro a
  rcases h' a with h' | ⟨o, ho, hop, h'⟩
  · rw [h']
    exact h a
  · rcases h a with h | ⟨o', -, -, h⟩
    · exact .inr ⟨o, h ▸ ho, hop, h'⟩
    · rw [h] at ho
      cases ho
      exact absurd hop (show "==" ≠ "===" by decide)

/-- The sides of an object are what they were. -/
theorem Rewritten.exists_eq (h : Rewritten heap heap') (ho : heap[a]? = some o) :
    ∃ o', heap'[a]? = some o' ∧ o'.L = o.L ∧ o'.R = o.R ∧ o'.decor = o.decor ∧
      (o'.op = o.op ∨ o'.op = "==") := by
  rcases h a with h | ⟨o', ho', -, h⟩
  · exact ⟨o, h.trans ho, rfl, rfl, rfl, .inl rfl⟩
  · cases ho.symm.trans ho'
    exact ⟨_, h, rfl, rfl, rfl, .inr rfl⟩

theorem rewritten_set (ho : heap[a]? = some o) (hop : o.op = "===") :
    Rewritten heap (heap.set a { o with op := "==" }) := by
  intro b
  rcases eq_or_ne a b with rfl | hne
  · exact .inr ⟨o, ho, hop, List.getElem?_set_self (List.getElem?_eq_some_iff.mp ho).1⟩
  · exact .inl (List.getElem?_set_ne hne)

theorem Within.rewritten (hw : Within heap n p) (h : Rewritten heap heap') : Within heap' n p := by
  induction hw with
  | null => exact .null
  | node ho _ _ ihl ihr =>
    obtain ⟨o', ho', hL, hR, -⟩ := h.exists_eq ho
    exact .node ho' (hL ▸ ihl) (hR ▸ ihr)

theorem within_of_reads (h : Reads heap S p t) (hn : height t ≤ n) : Within heap n p := by
  induction h generalizing n with
  | null => exact .null
  | node _ ho _ _ ihl ihr =>
    cases n with
    | zero => exact absurd hn (Nat.not_succ_le_zero _)
    | succ n =>
      obtain ⟨hl, hr⟩ := Nat.max_le.mp (Nat.le_of_succ_le_succ hn)
      exact .node ho (ihl hl) (ihr hr)

/-- The tree that is left is as deep, and its brackets are where they were. -/
theorem Reads.rewritten (h : Reads heap S p t) (hheap : Rewritten heap heap') :
    ∃ t', Reads heap' S p t' ∧ height t' = height t ∧ inBrackets t' = inBrackets t ∧
      (Plain t → Plain t') := by
  induction h with
  | null => exact ⟨.null, .null, rfl, rfl, id⟩
  | @node a o l r ha ho _ _ ihl ihr =>
    obtain ⟨l', hl', hlh, hlb, hlp⟩ := ihl
    obtain ⟨r', hr', hrh, -, hrp⟩ := ihr
    obtain ⟨o', ho', hL, hR, hdecor, -⟩ := hheap.exists_eq ho
    refine ⟨.node o'.op o'.decor l' r', .node ha ho' (hL ▸ hl') (hR ▸ hr'), ?_, ?_, ?_⟩
    · rw [height, height, hlh, hrh]
    · rw [hdecor]
      cases o.decor <;> rfl
    · rintro ⟨hb, hl, hr⟩
      exact ⟨hlb.trans hb, hlp hl, hrp hr⟩

end

/-! ## Texts that stand for no subclasses -/

section
variable {V Q : Type}

/-- `el` of a right side in brackets. -/
def elOf (rs : String) : String :=
  if first rs = some '\'' && 2 < rs.utf8ByteSize && rs.toList.getLast? = some '\'' then
    String.ofList rs.toList.tail.dropLast
  else rs

/-- A text that stands for itself alone, strict or not. -/
def StandsAlone (env : ℕ → Env V Q) (x : String) : Prop :=
  hasInside ':' x = true → ∀ i, (env i).subClasses x = [] ∧ (env i).subClasses (elOf x) = []

/-- No text of the tree at a reference stands for subclasses. -/
inductive Harmless (env : ℕ → Env V Q) (heap : Heap) : Option ℕ → Prop
  | null : Harmless env heap none
  | node {a : ℕ} {o : Obj} (ho : heap[a]? = some o) (hop : StandsAlone env o.op)
    (hl : Harmless env heap o.L) (hr : Harmless env heap o.R) : Harmless env heap (some a)

variable {env : ℕ → Env V Q} {heap heap' : Heap} {p : Option ℕ} {x : String}

theorem standsAlone_of_not (h : hasInside ':' x = false) : StandsAlone env x := by
  intro hx
  rw [h] at hx
  contradiction

theorem Harmless.rewritten (hp : Harmless env heap p) (h : Rewritten heap heap') :
    Harmless env heap' p := by
  induction hp with
  | null => exact .null
  | node ho hop _ _ ihl ihr =>
    obtain ⟨o', ho', hL, hR, -, hop'⟩ := h.exists_eq ho
    refine .node ho' ?_ (hL ▸ ihl) (hR ▸ ihr)
    rcases hop' with hop' | hop'
    · exact hop' ▸ hop
    · exact hop' ▸ standsAlone_of_not (by decide)

end

/-! ## How a call ends -/

/-- A run from `s` leaves the tree as it was but for some `===`, goes as deep as it has to, and what
it returns is as `Post` says. -/
def Ensures {α : Type} (s : State) (Post : α → Prop) : EStateM.Result Failure State α → Prop
  | .ok a t => Rewritten s.heap t.heap ∧ Post a
  | .error (.thrown _) t => Rewritten s.heap t.heap
  | .error .depth _ => False

section
variable {α β : Type} {s : State} {Post : α → Prop} {Post' : β → Prop} {m : Run α}
  {f : α → Run β} {x : Except Error α}

theorem Ensures.bind (h : Ensures s Post (m s))
    (hf : ∀ a t, Rewritten s.heap t.heap → Post a → Ensures t Post' (f a t)) :
    Ensures s Post' ((m >>= f) s) := by
  change Ensures s Post' (EStateM.bind m f s)
  unfold EStateM.bind
  cases hm : m s with
  | error e t =>
    rw [hm] at h
    cases e with
    | thrown e => exact h
    | depth => exact h
  | ok a t =>
    rw [hm] at h
    obtain ⟨hheap, hpost⟩ := h
    have hend := hf a t hheap hpost
    dsimp only
    cases hr : f a t with
    | ok b u =>
      rw [hr] at hend
      exact ⟨hheap.trans hend.1, hend.2⟩
    | error e u =>
      rw [hr] at hend
      cases e with
      | thrown e => exact hheap.trans hend
      | depth => exact hend

theorem ensures_pure {a : α} (h : Post a) : Ensures s Post ((pure a : Run α) s) :=
  ⟨.refl _, h⟩

theorem ensures_thrown (h : ∀ a, x = .ok a → Post a) : Ensures s Post (thrown x s) := by
  cases x with
  | ok a => exact ⟨.refl _, h a rfl⟩
  | error e => exact Rewritten.refl s.heap

theorem ensures_tree {depth a : ℕ} : Ensures s (fun _ => True) (tree depth a s) :=
  ⟨.refl _, trivial⟩

theorem object_eq (a : ℕ) : object a s = match s.heap[a]? with
    | some tta => .ok tta s
    | none => .error (.thrown .other) s := by
  change (match s.heap[a]? with
    | some tta => pure tta
    | none => throw (.thrown .other) : Run Obj) s = _
  cases s.heap[a]? <;> rfl

theorem ensures_object {a : ℕ} : Ensures s (fun o => s.heap[a]? = some o) (object a s) := by
  rw [object_eq]
  cases s.heap[a]? with
  | some o => exact ensures_pure rfl
  | none => exact Rewritten.refl s.heap

theorem ensures_decorAt {a : ℕ} : Ensures s (fun _ => True) (decorAt a s) :=
  ensures_object.bind fun _ _ _ _ => ensures_pure trivial

theorem Ensures.mono {Post Post' : α → Prop} {r : EStateM.Result Failure State α}
    (h : Ensures s Post r) (hpost : ∀ a, Post a → Post' a) : Ensures s Post' r := by
  cases r with
  | ok a t => exact ⟨h.1, hpost a h.2⟩
  | error e t => cases e <;> exact h

end

section
variable {V Q : Type} [Zero V] [One V] [DecidableEq V] {env : ℕ → Env V Q} {env' : Env V Q}
  {lo ro out : Out V Q} {x : String} {tta : TTA}

omit [DecidableEq V] in
theorem ret_compare {op : String} (h : compare env' op lo ro = .ok out) (hx : out.ret = some x) :
    ro.ret = some x := by
  unfold Xapian.compare at h
  cases htype : getTokenType env' (ro.ret.getD "") with
  | error e =>
    rw [htype] at h
    cases h
  | ok typed =>
    rw [htype] at h
    simp only [bind, Except.bind] at h
    split at h <;> cases h
    · exact hx
    · cases hx

omit [Zero V] [One V] [DecidableEq V] in
theorem ret_conjunction (h : conjunction env' tta lo ro = .ok out) (hx : out.ret = some x) :
    lo.ret = some x ∨ ro.ret = some x := by
  unfold conjunction at h
  cases hquery : andQuery env' tta lo ro with
  | error e =>
    rw [hquery] at h
    cases h
  | ok query =>
    rw [hquery] at h
    simp only [bind, Except.bind] at h
    split at h <;> cases h
    next hr => exact .inr (hr.trans hx)
    next hl _ => exact .inl (hl.trans hx)
    next => cases hx

omit [Zero V] [One V] [DecidableEq V] in
theorem ret_disjunction (h : disjunction env' tta lo ro = .ok out) : out.ret = none := by
  unfold disjunction at h
  simp only [bind, Except.bind] at h
  split at h <;> cases h
  rfl

/-- What is returned is a text of the tree. -/
def RetOf (env : ℕ → Env V Q) (heap : Heap) (p : Option ℕ) (out : Out V Q) : Prop :=
  Harmless env heap p → ∀ x, out.ret = some x → StandsAlone env x

/-- What is returned is a text of the object or of its sides. -/
def RetFrom (env : ℕ → Env V Q) (heap : Heap) (tta : Obj) (out : Out V Q) : Prop :=
  StandsAlone env tta.op → Harmless env heap tta.L → Harmless env heap tta.R →
    ∀ x, out.ret = some x → StandsAlone env x

omit [Zero V] [One V] [DecidableEq V] in
theorem retFrom_of_none {heap : Heap} {tta : Obj} (h : out.ret = none) :
    RetFrom env heap tta out := by
  intro _ _ _ x hx
  rw [h] at hx
  cases hx

omit [Zero V] [One V] [DecidableEq V] in
theorem ensures_invalid {s : State} {Post : Out V Q → Prop} {depth a : ℕ} :
    Ensures s Post ((do thrown (invalid (← tree depth a)) : Run (Out V Q)) s) :=
  ensures_tree.bind fun _ _ _ _ => ensures_thrown fun _ h => by cases h

theorem ensures_notStrict {s : State} {a : ℕ} {tta : Obj} (ho : s.heap[a]? = some tta) :
    Ensures s (fun _ => True) (notStrict a tta s) := by
  unfold notStrict
  split
  next hop => exact ⟨rewritten_set ho hop, trivial⟩
  next => exact ensures_pure trivial

section
variable {translate : ℕ → Run (Out V Q)} {s : State} {d depth a : ℕ} {tta : Obj} {p : Option ℕ}
  (htranslate : ∀ b t, Within t.heap d (some b) →
    Ensures t (RetOf env t.heap (some b)) (translate b t))

include htranslate

omit [Zero V] [One V] [DecidableEq V] in
theorem ensures_side (hw : Within s.heap d p) :
    Ensures s (RetOf env s.heap p) (side translate p s) := by
  cases p with
  | none => exact ensures_pure fun _ x hx => by cases hx
  | some b => exact htranslate b s hw

omit [DecidableEq V] in
theorem ensures_comparing (hL : Within s.heap d tta.L) (hR : Within s.heap d tta.R) :
    Ensures s (RetFrom env s.heap tta) (comparing translate env' depth a tta s) := by
  unfold comparing
  cases hl : tta.L with
  | none => exact ensures_invalid
  | some l =>
    cases hr : tta.R with
    | none => exact ensures_invalid
    | some r =>
      rw [hl] at hL
      rw [hr] at hR
      refine (htranslate l s hL).bind fun lo t ht _ => ?_
      refine (htranslate r t (hR.rewritten ht)).bind fun ro u hu hro => ?_
      refine ensures_thrown fun out hout _ _ hharmless x hx => ?_
      exact hro ((hr ▸ hharmless).rewritten ht) x (ret_compare hout hx)

theorem ensures_equality {ne strict : Bool} (hL : Within s.heap d tta.L)
    (hR : Within s.heap d tta.R) :
    Ensures s (fun out => out.ret = none)
      (equality translate env' depth a tta ne strict s) := by
  unfold equality
  cases hl : tta.L with
  | none => exact ensures_invalid
  | some l =>
    cases hr : tta.R with
    | none => exact ensures_invalid
    | some r =>
      rw [hl] at hL
      rw [hr] at hR
      refine (htranslate l s hL).bind fun lo t ht _ => ?_
      refine (htranslate r t (hR.rewritten ht)).bind fun ro u hu _ => ?_
      split
      next =>
        refine ensures_decorAt.bind fun decor v hv _ => ?_
        refine ensures_tree.bind fun tree w hw _ => ?_
        have hthrown : Ensures w (fun _ => True)
            (thrown (equal env' tree ne strict decor lo.ret ro.ret) w) :=
          ensures_thrown fun _ _ => trivial
        exact hthrown.bind fun query _ _ _ => ensures_pure rfl
      next => exact ensures_pure rfl

omit [Zero V] [One V] [DecidableEq V] in
theorem ensures_joining {join : TTA → Out V Q → Out V Q → Except Error (Out V Q)}
    (hjoin : ∀ tree lo ro out x, join tree lo ro = .ok out → out.ret = some x →
      lo.ret = some x ∨ ro.ret = some x)
    (hL : Within s.heap d tta.L) (hR : Within s.heap d tta.R) :
    Ensures s (RetFrom env s.heap tta) (joining translate depth a join tta s) := by
  refine (ensures_side htranslate hR).bind fun ro t ht hro => ?_
  refine (ensures_side htranslate (hL.rewritten ht)).bind fun lo u hu hlo => ?_
  refine ensures_tree.bind fun tree v hv _ => ?_
  refine ensures_thrown fun out hout _ hharmL hharmR x hx => ?_
  rcases hjoin _ _ _ _ _ hout hx with hret | hret
  · exact hlo (hharmL.rewritten ht) x hret
  · exact hro hharmR x hret

theorem ensures_translateObject (ho : s.heap[a]? = some tta) (hL : Within s.heap d tta.L)
    (hR : Within s.heap d tta.R) :
    Ensures s (RetFrom env s.heap tta) (translateObject translate env' depth a tta s) := by
  unfold translateObject
  split
  next => exact ensures_pure (retFrom_of_none rfl)
  next =>
    split
    next => exact ensures_comparing htranslate hL hR
    next =>
      split
      next =>
        refine (ensures_notStrict ho).bind fun _ t ht _ => ?_
        exact (ensures_equality htranslate (hL.rewritten ht) (hR.rewritten ht)).mono
          fun out hout => retFrom_of_none hout
      next =>
        split
        next => exact ensures_joining htranslate (fun _ _ _ _ _ => ret_conjunction) hL hR
        next =>
          split
          next =>
            refine ensures_joining htranslate (fun _ _ _ _ x hout hx => ?_) hL hR
            rw [ret_disjunction hout] at hx
            cases hx
          next =>
            refine ensures_pure fun hop _ _ x hx => ?_
            cases hx
            exact hop

end

theorem translate_succ {s : State} {depth a : ℕ} {o : Obj} (ho : s.heap[a]? = some o) :
    translate env (depth + 1) a s =
      translateObject (translate env depth) (env s.calls) (depth + 1) a o
        { s with calls := s.calls + 1 } := by
  have hobject : object a { s with calls := s.calls + 1 } =
      .ok o { s with calls := s.calls + 1 } := by
    rw [object_eq, ho]
  change EStateM.bind (object a) _ { s with calls := s.calls + 1 } = _
  rw [EStateM.bind, hobject]

theorem ensures_translate {s : State} {depth a : ℕ} (hw : Within s.heap depth (some a)) :
    Ensures s (RetOf env s.heap (some a)) (translate env depth a s) := by
  induction depth generalizing s a with
  | zero => cases hw
  | succ depth ih =>
    cases hw with
    | @node _ _ o ho hL hR =>
      have hend := @ensures_translateObject V Q _ _ _ env (env s.calls) (translate env depth)
        { s with calls := s.calls + 1 } depth (depth + 1) a o (fun b t hb => ih hb) ho hL hR
      rw [translate_succ ho]
      refine Ensures.mono hend fun out hout hharmless => ?_
      cases hharmless with
      | node ho' hop hl hr =>
        cases ho.symm.trans ho'
        exact hout hop hl hr

end

/-! ## What an equality depends on -/

section
variable {α β : Type} {V Q : Type} [Zero V] [One V] [DecidableEq V] {env : ℕ → Env V Q}
  {env' : Env V Q} {tta tta' : TTA} {x : String}

theorem toOption_bind (x : Except Error α) (f : α → Except Error β) :
    (x >>= f).toOption = x.toOption.bind fun a => (f a).toOption := by
  cases x <;> rfl

omit [Zero V] [One V] [DecidableEq V] in
/-- The tree stands in the message only. -/
theorem toOption_notNull (query : Option Q) :
    (notNull tta query).toOption = (notNull tta' query).toOption := by
  cases query <;> rfl

theorem toOption_equal (ne strict : Bool) (decor : Decor) (ls rs : Option String) :
    (equal env' tta ne strict decor ls rs).toOption =
      (equal env' tta' ne strict decor ls rs).toOption := by
  have hboolean (slot : ℤ) (value : Option V) : (equalBoolean env' tta slot value).toOption =
      (equalBoolean env' tta' slot value).toOption := by
    unfold equalBoolean
    rw [toOption_bind, toOption_bind, toOption_notNull]
  have hnumber (slot : ℤ) (rs : String) : (equalNumber env' tta slot rs).toOption =
      (equalNumber env' tta' slot rs).toOption := toOption_notNull _
  have hrange (slot : ℤ) (rs : String) : (equalRange env' strict tta slot rs).toOption =
      (equalRange env' strict tta' slot rs).toOption := by
    unfold equalRange
    split
    next =>
      simp only [toOption_bind]
      congr 1
      funext typed
      split
      next =>
        simp only [toOption_bind]
        congr 1
        funext typed'
        split
        · exact toOption_notNull _
        · rfl
      next => rfl
    next => rfl
    next => rfl
  unfold equal
  simp only [apply_ite Except.toOption, toOption_bind, hboolean, hnumber, hrange]

omit [DecidableEq V] in
/-- A text that stands for itself is looked for in the same way, strict or not. -/
theorem equalRange_strict {i : ℕ} {slot : ℤ} (hx : StandsAlone env x) :
    equalRange (env i) true tta slot x = equalRange (env i) false tta slot x := by
  have hclasses (b : Bool) : (if (!b && hasInside ':' x) = true then
      ((env i).subClasses (elOf x)).foldl (fun queryStr classz => queryStr ++ " OR " ++ classz)
        (elOf x)
      else elOf x) = elOf x := by
    split
    next h =>
      have hinside := (Bool.and_eq_true _ _ ▸ h).2
      rw [(hx hinside i).2, List.foldl_nil]
    next => rfl
  have htrue := hclasses true
  have hfalse := hclasses false
  unfold elOf at htrue hfalse
  unfold equalRange
  dsimp only
  rw [htrue, hfalse]

omit [Zero V] [One V] [DecidableEq V] in
theorem withSubClasses_standsAlone {i : ℕ} {strict : Bool} (hx : StandsAlone env x) :
    withSubClasses (env i) strict x = x := by
  unfold withSubClasses
  split
  next h =>
    have hinside := (Bool.and_eq_true _ _ ▸ h).2
    dsimp only
    rw [(hx hinside i).1, if_neg (not_not.mpr rfl)]
  next => rfl

theorem equal_strict {i : ℕ} {ne : Bool} {decor : Decor} {ls rs : Option String}
    (hrs : ∀ x, rs = some x → StandsAlone env x) :
    equal (env i) tta ne true decor ls rs = equal (env i) tta ne false decor ls rs := by
  have hx : StandsAlone env (rs.getD "") := by
    cases rs with
    | none => exact standsAlone_of_not (by decide)
    | some x => exact hrs x rfl
  unfold equal
  simp only [withSubClasses_standsAlone hx, equalRange_strict hx]

omit [Zero V] [One V] [DecidableEq V] in
theorem toOption_addRight (queryL queryR : Option Q) :
    (addRight env' tta queryL queryR).toOption = (addRight env' tta' queryL queryR).toOption := by
  cases queryL <;> exact toOption_notNull _

omit [Zero V] [One V] [DecidableEq V] in
theorem toOption_conjunction (lo ro : Out V Q) :
    (conjunction env' tta lo ro).toOption = (conjunction env' tta' lo ro).toOption := by
  have hquery : (andQuery env' tta lo ro).toOption = (andQuery env' tta' lo ro).toOption := by
    unfold andQuery
    split
    next => exact toOption_addRight _ _
    next =>
      split
      · exact toOption_addRight _ _
      · rfl
  unfold conjunction
  rw [toOption_bind, toOption_bind, hquery]

omit [Zero V] [One V] [DecidableEq V] in
theorem toOption_disjunction (lo ro : Out V Q) :
    (disjunction env' tta lo ro).toOption = (disjunction env' tta' lo ro).toOption := by
  unfold disjunction
  rw [toOption_bind, toOption_bind, toOption_notNull]

end

/-! ## Two trees of which one has been translated before -/

section
variable {V Q : Type} (env : ℕ → Env V Q)

/-- In `s` some equalities are no more strict, on whose right side nothing stands for subclasses.
Otherwise the two states are the same. -/
structure Behind (s s' : State) : Prop where
  calls : s.calls = s'.calls
  heap : ∀ a : ℕ, s.heap[a]? = s'.heap[a]? ∨
    ∃ o : Obj, s'.heap[a]? = some o ∧ o.op = "===" ∧ s.heap[a]? = some { o with op := "==" } ∧
      Harmless env s'.heap o.R

/-- Two runs that end in the same way. -/
def Alike {α : Type} : EStateM.Result Failure State α → EStateM.Result Failure State α → Prop
  | .ok a t, .ok b t' => a = b ∧ Behind env t t'
  | .error _ _, .error _ _ => True
  | _, _ => False

end

section
variable {V Q : Type} {env : ℕ → Env V Q} {s s' : State} {α β : Type} {a depth : ℕ} {o : Obj}

/-- The equality at `a` is no more strict in either state. -/
theorem Behind.set (h : Behind env s s') (ho' : s'.heap[a]? = some o) (hop : o.op = "===")
    {heap : Heap} (ha : heap[a]? = some { o with op := "==" })
    (hne : ∀ b, a ≠ b → heap[b]? = s.heap[b]?) :
    Behind env { s with heap := heap }
      { s' with heap := s'.heap.set a { o with op := "==" } } := by
  refine ⟨h.calls, fun b => ?_⟩
  rcases eq_or_ne a b with rfl | hb
  · have hlt := (List.getElem?_eq_some_iff.mp ho').1
    exact .inl (ha.trans (List.getElem?_set_self hlt).symm)
  · have hget : (s'.heap.set a { o with op := "==" })[b]? = s'.heap[b]? := List.getElem?_set_ne hb
    have hsame := hne b hb
    rcases h.heap b with heq | ⟨o', ho₁, hop₁, ho₂, hR⟩
    · exact .inl ((hsame.trans heq).trans hget.symm)
    · exact .inr ⟨o', hget.trans ho₁, hop₁, hsame.trans ho₂,
        hR.rewritten (rewritten_set ho' hop)⟩

theorem Behind.set_both (h : Behind env s s') (ho : s.heap[a]? = some o)
    (ho' : s'.heap[a]? = some o) (hop : o.op = "===") :
    Behind env { s with heap := s.heap.set a { o with op := "==" } }
      { s' with heap := s'.heap.set a { o with op := "==" } } :=
  h.set ho' hop (List.getElem?_set_self (List.getElem?_eq_some_iff.mp ho).1)
    fun _ hne => List.getElem?_set_ne hne

theorem Alike.bind {m m' : Run α} {f f' : α → Run β} (h : Alike env (m s) (m' s'))
    (hf : ∀ a t t', m' s' = .ok a t' → Behind env t t' → Alike env (f a t) (f' a t')) :
    Alike env ((m >>= f) s) ((m' >>= f') s') := by
  change Alike env (EStateM.bind m f s) (EStateM.bind m' f' s')
  unfold EStateM.bind
  cases hm : m s with
  | error e t =>
    cases hm' : m' s' with
    | error e' t' => trivial
    | ok b t' =>
      rw [hm, hm'] at h
      exact h.elim
  | ok a t =>
    cases hm' : m' s' with
    | error e' t' =>
      rw [hm, hm'] at h
      exact h.elim
    | ok b t' =>
      rw [hm, hm'] at h
      obtain ⟨rfl, hbehind⟩ := h
      exact hf a t t' hm' hbehind

theorem alike_pure (h : Behind env s s') (a : α) :
    Alike env ((pure a : Run α) s) ((pure a : Run α) s') :=
  ⟨rfl, h⟩

theorem alike_thrown {x x' : Except Error α} (h : Behind env s s')
    (hx : x.toOption = x'.toOption) : Alike env (thrown x s) (thrown x' s') := by
  cases x with
  | ok a =>
    cases x' with
    | ok b =>
      cases hx
      exact alike_pure h a
    | error e => cases hx
  | error e =>
    cases x' with
    | ok b => cases hx
    | error e => trivial

/-- The trees that are written to the messages may be different ones. -/
theorem alike_tree {f f' : TTA → Run β} (h : ∀ tta tta', Alike env (f tta s) (f' tta' s')) :
    Alike env ((tree depth a >>= f) s) ((tree depth a >>= f') s') :=
  h _ _

theorem alike_invalid (h : Behind env s s') :
    Alike env ((do thrown (invalid (← tree depth a)) : Run (Out V Q)) s)
      ((do thrown (invalid (← tree depth a)) : Run (Out V Q)) s') :=
  alike_tree fun _ _ => alike_thrown h rfl

theorem alike_decorAt (h : Behind env s s') : Alike env (decorAt a s) (decorAt a s') := by
  change Alike env (EStateM.bind (object a) _ s) (EStateM.bind (object a) _ s')
  unfold EStateM.bind
  rw [object_eq, object_eq]
  rcases h.heap a with heq | ⟨o, ho', -, ho, -⟩
  · rw [heq]
    cases s'.heap[a]? with
    | none => trivial
    | some o => exact ⟨rfl, h⟩
  · rw [ho, ho']
    exact ⟨rfl, h⟩

theorem alike_notStrict (h : Behind env s s') (ho : s.heap[a]? = some o)
    (ho' : s'.heap[a]? = some o) : Alike env (notStrict a o s) (notStrict a o s') := by
  unfold notStrict
  split
  next hop => exact ⟨rfl, h.set_both ho ho' hop⟩
  next => exact alike_pure h ()

end

section
variable {V Q : Type} [Zero V] [One V] [DecidableEq V] {env : ℕ → Env V Q} {env' : Env V Q}

section
variable {translate : ℕ → Run (Out V Q)} {s s' : State} {d depth a i : ℕ} {tta : Obj}
  {p : Option ℕ}
  (htranslate : ∀ b t t', Behind env t t' → Within t'.heap d (some b) →
    Alike env (translate b t) (translate b t'))
  (hensures : ∀ b t, Within t.heap d (some b) →
    Ensures t (RetOf env t.heap (some b)) (translate b t))

include htranslate

omit [Zero V] [One V] [DecidableEq V] in
theorem alike_side (h : Behind env s s') (hw : Within s'.heap d p) :
    Alike env (side translate p s) (side translate p s') := by
  cases p with
  | none => exact alike_pure h _
  | some b => exact htranslate b s s' h hw

include hensures

omit [Zero V] [One V] [DecidableEq V] in
/-- The two sides one after the other. -/
theorem alike_sides {β : Type} {f f' : Out V Q → Out V Q → Run β} {l r : ℕ}
    (h : Behind env s s') (hL : Within s'.heap d (some l)) (hR : Within s'.heap d (some r))
    (hf : ∀ lo ro t t', (Harmless env s'.heap (some r) → ∀ x, ro.ret = some x →
      StandsAlone env x) → Behind env t t' → Alike env (f lo ro t) (f' lo ro t')) :
    Alike env ((translate l >>= fun lo => translate r >>= f lo) s)
      ((translate l >>= fun lo => translate r >>= f' lo) s') := by
  refine Alike.bind (htranslate l s s' h hL) fun lo t t' ht hbehind => ?_
  have hl := hensures l s' hL
  rw [ht] at hl
  refine Alike.bind (htranslate r t t' hbehind (hR.rewritten hl.1)) fun ro u u' hu hbehind' => ?_
  have hr := hensures r t' (hR.rewritten hl.1)
  rw [hu] at hr
  exact hf lo ro u u' (fun hharmless => hr.2 (hharmless.rewritten hl.1)) hbehind'

omit [DecidableEq V] in
theorem alike_comparing (h : Behind env s s') (hL : Within s'.heap d tta.L)
    (hR : Within s'.heap d tta.R) :
    Alike env (comparing translate env' depth a tta s)
      (comparing translate env' depth a tta s') := by
  unfold comparing
  cases hl : tta.L with
  | none => exact alike_invalid h
  | some l =>
    cases hr : tta.R with
    | none => exact alike_invalid h
    | some r =>
      rw [hl] at hL
      rw [hr] at hR
      exact alike_sides htranslate hensures h hL hR fun lo ro t t' _ hbehind =>
        alike_thrown hbehind rfl

/-- Whether it is strict is not seen where nothing stands for subclasses. -/
theorem alike_equality {ne strict strict' : Bool} (h : Behind env s s')
    (hL : Within s'.heap d tta.L) (hR : Within s'.heap d tta.R)
    (hstrict : strict = strict' ∨ strict = false ∧ strict' = true ∧ Harmless env s'.heap tta.R) :
    Alike env (equality translate (env i) depth a tta ne strict s)
      (equality translate (env i) depth a tta ne strict' s') := by
  unfold equality
  cases hl : tta.L with
  | none => exact alike_invalid h
  | some l =>
    cases hr : tta.R with
    | none => exact alike_invalid h
    | some r =>
      rw [hl] at hL
      rw [hr] at hR hstrict
      refine alike_sides htranslate hensures h hL hR fun lo ro t t' hro hbehind => ?_
      split
      next =>
        refine Alike.bind (alike_decorAt hbehind) fun decor u u' _ hbehind' => ?_
        refine alike_tree fun tree tree' => ?_
        refine Alike.bind (alike_thrown hbehind' ?_) fun query _ _ _ hbehind'' =>
          alike_pure hbehind'' _
        rcases hstrict with rfl | ⟨rfl, rfl, hharmless⟩
        · exact toOption_equal _ _ _ _ _
        · rw [equal_strict (hro hharmless)]
          exact toOption_equal _ _ _ _ _
      next => exact alike_pure hbehind _

omit [Zero V] [One V] [DecidableEq V] in
theorem alike_joining {join : TTA → Out V Q → Out V Q → Except Error (Out V Q)}
    (hjoin : ∀ tree tree' lo ro, (join tree lo ro).toOption = (join tree' lo ro).toOption)
    (h : Behind env s s') (hL : Within s'.heap d tta.L) (hR : Within s'.heap d tta.R) :
    Alike env (joining translate depth a join tta s) (joining translate depth a join tta s') := by
  refine Alike.bind (alike_side htranslate h hR) fun ro t t' ht hbehind => ?_
  have hr := ensures_side hensures hR
  rw [ht] at hr
  refine Alike.bind (alike_side htranslate hbehind (hL.rewritten hr.1)) fun lo u u' _ hbehind' => ?_
  exact alike_tree fun tree tree' => alike_thrown hbehind' (hjoin _ _ _ _)

theorem alike_translateObject (h : Behind env s s') (ho : s.heap[a]? = some tta)
    (ho' : s'.heap[a]? = some tta) (hL : Within s'.heap d tta.L) (hR : Within s'.heap d tta.R) :
    Alike env (translateObject translate (env i) depth a tta s)
      (translateObject translate (env i) depth a tta s') := by
  unfold translateObject
  split
  next => exact alike_pure h _
  next =>
    split
    next => exact alike_comparing htranslate hensures h hL hR
    next =>
      split
      next =>
        refine Alike.bind (alike_notStrict h ho ho') fun _ t t' ht hbehind => ?_
        have hrewritten := ensures_notStrict ho'
        rw [ht] at hrewritten
        exact alike_equality htranslate hensures hbehind (hL.rewritten hrewritten.1)
          (hR.rewritten hrewritten.1) (.inl rfl)
      next =>
        split
        next =>
          exact alike_joining htranslate hensures (fun _ _ => toOption_conjunction) h hL hR
        next =>
          split
          next =>
            exact alike_joining htranslate hensures (fun _ _ => toOption_disjunction) h hL hR
          next => exact alike_pure h _

/-- The equality that is no more strict beside the one that still is. -/
theorem alike_translateObject_strict (h : Behind env s s')
    (ho : s.heap[a]? = some { tta with op := "==" }) (ho' : s'.heap[a]? = some tta)
    (hop : tta.op = "===") (hharmless : Harmless env s'.heap tta.R)
    (hL : Within s'.heap d tta.L) (hR : Within s'.heap d tta.R) :
    Alike env (translateObject translate (env i) depth a { tta with op := "==" } s)
      (translateObject translate (env i) depth a tta s') := by
  by_cases hslot : (env i).key2slot = []
  · rw [translateObject, translateObject, if_pos hslot, if_pos hslot]
    exact alike_pure h _
  · have hweak : translateObject translate (env i) depth a { tta with op := "==" } =
        equality translate (env i) depth a tta false false := by
      rw [translateObject, if_neg hslot]
      rfl
    have hstrong : translateObject translate (env i) depth a tta =
        (do notStrict a tta; equality translate (env i) depth a tta false true) := by
      rw [translateObject, if_neg hslot, hop]
      rfl
    have hset := rewritten_set ho' hop
    rw [hweak, hstrong, notStrict, if_pos hop]
    exact alike_equality htranslate hensures (h.set ho' hop ho fun _ _ => rfl) (hL.rewritten hset)
      (hR.rewritten hset) (.inr ⟨rfl, rfl, hharmless.rewritten hset⟩)

end

/-- A tree that has been translated before is translated as if it had not been. -/
theorem alike_translate {s s' : State} {depth a : ℕ} (h : Behind env s s')
    (hw : Within s'.heap depth (some a)) :
    Alike env (translate env depth a s) (translate env depth a s') := by
  induction depth generalizing s s' a with
  | zero => cases hw
  | succ depth ih =>
    cases hw with
    | @node _ _ o ho' hL hR =>
      have hnext : Behind env { s with calls := s'.calls + 1 } { s' with calls := s'.calls + 1 } :=
        ⟨rfl, h.heap⟩
      have hbelow (b : ℕ) (t t' : State) (hbehind : Behind env t t')
          (hb : Within t'.heap depth (some b)) := ih hbehind hb
      have hends (b : ℕ) (t : State) (hb : Within t.heap depth (some b)) :
          Ensures t (RetOf env t.heap (some b)) (translate env depth b t) := ensures_translate hb
      rcases h.heap a with heq | ⟨o', ho₁, hop, ho, hharmless⟩
      · rw [translate_succ (heq.trans ho'), translate_succ ho', h.calls]
        exact alike_translateObject hbelow hends hnext (heq.trans ho') ho' hL hR
      · cases ho'.symm.trans ho₁
        rw [translate_succ ho, translate_succ ho', h.calls]
        exact alike_translateObject_strict hbelow hends hnext ho ho' hop hharmless hL hR

end

/-! ## The second attempt -/

section
variable {V Q : Type} [Zero V] [One V] [DecidableEq V]

/-- The query that a call builds; `none` is an exception. -/
def built : EStateM.Result Failure State (Out V Q) → Option (Option Q)
  | .ok out _ => some out.query
  | .error _ _ => none

/-- The call is followed to its end. -/
def Ends (r : EStateM.Result Failure State (Out V Q)) : Prop := ∀ s, r ≠ .error .depth s

/-- The call in the state `s` that a failed one has left, beside one with the tree as it is
parsed. -/
structure SameQuery (subProperties : String → List String) (env : ℕ → Env V Q) (depth a : ℕ)
    (heap : Heap) (s : State) : Prop where
  ends : Ends (transformVql subProperties env depth a ⟨s.heap, 0⟩)
  ends_fresh : Ends (transformVql subProperties env depth a ⟨heap, 0⟩)
  built_eq : built (transformVql subProperties env depth a ⟨s.heap, 0⟩) =
    built (transformVql subProperties env depth a ⟨heap, 0⟩)

/-- A retried query is the same query: at whichever point the first call, to which `env` answers,
throws a `XapianError`, the second call, to which `env'` answers, builds what it would build for the
tree as it is parsed. `cond` is about the tree without brackets and the state that is left. -/
def SameAgain (subProperties : String → List String) (env env' : ℕ → Env V Q) (tta : TTA)
    (cond : Heap → State → Prop) : Prop :=
  ∀ a, (build tta []).1 = some a → ∃ n, ∀ depth ≥ n, ∀ heap msg s,
    prepareSubproperties subProperties depth (build tta []).2 a = .ok heap →
    transformVql subProperties env depth a ⟨(build tta []).2, 0⟩ =
      .error (.thrown (.xapian msg)) s →
    cond heap s → SameQuery subProperties env' depth a (build tta []).2 s

/-- Where an equality is no more strict, nothing on its right side stands for subclasses. -/
def Unaffected (env : ℕ → Env V Q) (heap : Heap) (s : State) : Prop :=
  ∀ (a : ℕ) (o : Obj), heap[a]? = some o → o.op = "===" → s.heap[a]? ≠ some o →
    Harmless env heap o.R

variable {subProperties : String → List String} {env env' : ℕ → Env V Q} {heap heap' : Heap}
  {depth a calls : ℕ} {s : State}

theorem transformVql_of_ok (h : prepareSubproperties subProperties depth heap a = .ok heap') :
    transformVql subProperties env depth a ⟨heap, calls⟩ =
      translate env depth a ⟨heap', calls⟩ := by
  have hprepare : prepare subProperties depth a ⟨heap, calls⟩ = .ok () ⟨heap', calls⟩ := by
    change (match prepareSubproperties subProperties depth heap a with
      | .ok heap => set ({ heap := heap, calls := calls } : State)
      | .error .range => throw (.thrown .other)
      | .error .depth => throw .depth : Run Unit) _ = _
    rw [h]
    rfl
  change EStateM.bind (prepare subProperties depth a) _ ⟨heap, calls⟩ = _
  rw [EStateM.bind, hprepare]

omit [Zero V] [One V] [DecidableEq V] in
theorem behind_of_unaffected (hheap : Rewritten heap heap')
    (h : Unaffected env heap ⟨heap', calls⟩) : Behind env ⟨heap', 0⟩ ⟨heap, 0⟩ := by
  refine ⟨rfl, fun b => ?_⟩
  rcases hheap b with heq | ⟨o, ho, hop, hweak⟩
  · exact .inl heq
  · refine .inr ⟨o, ho, hop, hweak, h b o ho hop fun heq => ?_⟩
    have hsame := congrArg Obj.op (Option.some_inj.mp (heq.symm.trans hweak))
    rw [hop] at hsame
    exact absurd hsame (show "===" ≠ "==" by decide)

omit [Zero V] [One V] [DecidableEq V] in
theorem ends_of_ensures {Post : Out V Q → Prop} {r : EStateM.Result Failure State (Out V Q)}
    (h : Ensures s Post r) : Ends r := by
  rintro t rfl
  exact h

omit [Zero V] [One V] [DecidableEq V] in
theorem built_eq_of_alike {r r' : EStateM.Result Failure State (Out V Q)} (h : Alike env r r') :
    built r = built r' := by
  cases r with
  | ok out t =>
    cases r' with
    | ok out' t' => rw [built, built, h.1]
    | error e t' => exact h.elim
  | error e t =>
    cases r' with
    | ok out' t' => exact h.elim
    | error e' t' => rfl

/-- **A retried query is the same query** where no equality that the first call has made not strict
is one with a name that stands for subclasses. -/
theorem sameAgain (subProperties : String → List String) (env env' : ℕ → Env V Q) (tta : TTA) :
    SameAgain subProperties env env' tta (Unaffected env') := by
  intro a ha
  obtain ⟨F, -, -, -, howns⟩ := owns_build tta []
  rw [ha] at howns
  generalize (build tta []).2 = heap at howns
  cases ht : prepared subProperties tta with
  | error e =>
    obtain ⟨n, hn⟩ := prepareAt_ne_ok ht
    exact ⟨n, fun depth hdepth heap' msg s hok _ _ => (hn depth hdepth _ _ _ _ howns hok).elim⟩
  | ok t =>
    refine ⟨height t, fun depth hdepth heap' msg s hok hfirst hcond => ?_⟩
    obtain ⟨heap₁, hok₁, hmakes⟩ := prepareAt_spec howns ht hdepth
    cases hok.symm.trans hok₁
    have hw := within_of_reads hmakes.reads hdepth
    -- what the first call has left
    have hends : Ensures ⟨heap', 0⟩ (RetOf env heap' (some a))
        (translate env depth a ⟨heap', 0⟩) := ensures_translate hw
    rw [← transformVql_of_ok hok, hfirst] at hends
    have hheap : Rewritten heap' s.heap := hends
    obtain ⟨t', hreads, hheight, -, hplain⟩ := Reads.rewritten hmakes.reads hheap
    have hagain : prepareSubproperties subProperties depth s.heap a = .ok s.heap :=
      prepareAt_of_plain hreads (hplain (plain_of_prepared ht)) (hheight ▸ hdepth)
    refine ⟨?_, ?_, ?_⟩
    · rw [transformVql_of_ok hagain]
      exact ends_of_ensures (ensures_translate (hw.rewritten hheap))
    · rw [transformVql_of_ok hok]
      exact ends_of_ensures (ensures_translate hw)
    · rw [transformVql_of_ok hagain, transformVql_of_ok hok]
      exact built_eq_of_alike (alike_translate (behind_of_unaffected hheap hcond) hw)

end

/-- Xapian while the database is modified. -/
def modified : Env ℤ String where
  key2slot := [("rdf:type", 1)]
  subClasses x := if x = "v-s:Document" then ["v-s:Letter"] else []
  isAlpha := Char.isAlpha
  isNumber := Char.isDigit
  parseDouble _ := none
  fromISOExtString _ := none
  sortableSerialise _ := ""
  parseQuery _ _ _ := (none, -1)
  newQueryRange _ _ _ := none
  newQuery _ := none
  addRightQuery _ _ _ := none

/-- Xapian once the database has been reopened. A query is its text. -/
def reopened : Env ℤ String :=
  { modified with parseQuery := fun queryStr _ _ => (some queryStr, 0) }

/-- `'rdf:type' === …` -/
def strictType (rs : String) : TTA :=
  .node "===" .none (.node "rdf:type" .quoted .null .null) (.node rs .quoted .null .null)

/-- A class without subclasses is looked for again. -/
theorem sameAgain_letter : ∃ n, ∀ depth ≥ n, ∃ s,
    transformVql (fun _ => []) (fun _ => modified) depth 2
        ⟨(build (strictType "v-s:Letter") []).2, 0⟩ =
      .error (.thrown (.xapian "parse_query2('x'=*) query='v_s_letter', xtr='X1X'")) s ∧
    SameQuery (fun _ => []) (fun _ => reopened) depth 2
      (build (strictType "v-s:Letter") []).2 s := by
  obtain ⟨n, hn⟩ := sameAgain (fun _ => []) (fun _ => modified) (fun _ => reopened)
    (strictType "v-s:Letter") 2 rfl
  refine ⟨n + 3, fun depth hdepth => ?_⟩
  obtain ⟨m, rfl⟩ := Nat.exists_eq_add_of_le' (Nat.le_of_add_left_le hdepth)
  refine ⟨_, rfl, hn _ (Nat.le_of_add_right_le hdepth) _ _ _ rfl rfl fun a o ho hop _ => ?_⟩
  have hletter : StandsAlone (fun _ => reopened) "v-s:Letter" := fun _ _ => ⟨rfl, rfl⟩
  cases a with
  | zero =>
    cases ho
    exact absurd hop (by decide)
  | succ a =>
    cases a with
    | zero =>
      cases ho
      exact absurd hop (by decide)
    | succ a =>
      cases a with
      | zero =>
        cases ho
        exact .node rfl hletter .null .null
      | succ a => cases ho

/-- The second call looks for the subclasses too, for which the query does not ask. -/
theorem not_sameAgain : ¬ SameAgain (fun _ => []) (fun _ => modified) (fun _ => reopened)
    (strictType "v-s:Document") fun _ _ => True := by
  intro h
  obtain ⟨n, hn⟩ := h 2 rfl
  have hsame := (hn (n + 3) (Nat.le_add_right n 3) _ _ _ rfl rfl trivial).built_eq
  have hbuilt : some (some "v_s_document or v_s_letter") = some (some "v_s_document") := hsame
  exact absurd hbuilt (by decide)

end Veda.Search.Retry
