import Mathlib.Data.Set.Insert
import Mathlib.Data.Set.Lattice
import Veda.Onto.Onto
import Veda.Search.Vel

/-! # Search in subproperties

`prepare_subproperties` of `xapian_vql.d`: a comparison of a property in brackets becomes one of the
property or of any of its subproperties. The tree is rewritten while it is gone through: the new
nodes share the right side. So a tree is a place in a heap of objects. -/

namespace Veda.Search.Subproperties

open Vel Ontology

/-! ## Objects -/

/-- `class TTA`. A reference is a place in the heap, or `none` for `null`. -/
structure Obj where
  op : String
  decor : Decor
  L : Option ℕ
  R : Option ℕ
  deriving DecidableEq

abbrev Heap := List Obj

/-- `new TTA(op, null, null)` -/
def leaf (op : String) : Obj := ⟨op, .none, none, none⟩

/-- What `prepare_subproperties` ends with but for a return: an index that is out of range, or a
recursion that goes deeper than it is followed. -/
inductive Stop where
  | range
  | depth
  deriving DecidableEq

/-! ## prepare_subproperties -/

/-- The name in the brackets, without quotes. The first character of an empty text is out of
range. -/
def bracketName (el : String) : Except Stop String :=
  match el.toList with
  | [] => .error .range
  | c :: cs =>
    if c = '\'' ∧ 1 < cs.length ∧ cs.getLast? = some '\'' then .ok (String.ofList cs.dropLast)
    else .ok el

/-- The loop over the subproperties, at the node `nextR` that is last so far. -/
def chain (op : String) (tmpR : Option ℕ) : Heap → ℕ → List String → Heap
  | heap, _, [] => heap
  | heap, nextR, [key] =>
    let curL : Obj := ⟨op, .none, some heap.length, tmpR⟩
    (heap ++ [leaf key, curL]).modify nextR fun o =>
      { o with op := curL.op, L := curL.L, R := curL.R }
  | heap, nextR, key :: key' :: keys =>
    let n := heap.length
    let heap := heap ++ [leaf key, ⟨op, .none, some n, tmpR⟩, leaf "||"]
    chain op tmpR (heap.modify nextR fun o => { o with L := some (n + 1), R := some (n + 2) })
      (n + 2) (key' :: keys)

/-- The comparison at `a` becomes a disjunction. -/
def expand (heap : Heap) (a : ℕ) (tta : Obj) (el : String) (subproperties : List String) : Heap :=
  let n := heap.length
  let heap := heap ++ [leaf el, ⟨tta.op, .none, some n, tta.R⟩, leaf "||"]
  chain tta.op tta.R
    (heap.modify a fun o => { o with op := "||", L := some (n + 1), R := some (n + 2) }) (n + 2)
    subproperties

section
variable (subProperties : String → List String)

/-- The part of `prepare_subproperties` for a left side in brackets. -/
def replaceRange (heap : Heap) (a : ℕ) (tta : Obj) : Except Stop Heap :=
  match tta.L.bind (heap[·]?) with
  | none => .ok heap
  | some l =>
    if l.decor = .range then do
      let el ← bracketName l.op
      return expand heap a tta el (subProperties el)
    else return heap

/-- A side that may be `null`. -/
def prepareAt (prepare : Heap → ℕ → Except Stop Heap) (heap : Heap) : Option ℕ → Except Stop Heap
  | some b => prepare heap b
  | none => .ok heap

/-- `prepare_subproperties` of the object at `a`. -/
def prepareSubproperties : ℕ → Heap → ℕ → Except Stop Heap
  | 0, _, _ => .error .depth
  | depth + 1, heap, a =>
    match heap[a]? with
    | none => .ok heap
    | some tta => do
      let heap ← replaceRange subProperties heap a tta
      let heap ← prepareAt (prepareSubproperties depth) heap (heap[a]?.bind Obj.L)
      prepareAt (prepareSubproperties depth) heap (heap[a]?.bind Obj.R)

end

/-- The object of a tree as it is parsed, and the heap with it. -/
def build : TTA → Heap → Option ℕ × Heap
  | .null, heap => (none, heap)
  | .node op decor l r, heap =>
    let (L, heap) := build l heap
    let (R, heap) := build r heap
    (some heap.length, heap ++ [⟨op, decor, L, R⟩])

/-! ## Trees in the heap -/

/-- The tree that is found at a reference, with its objects in `S`. They may be shared. -/
inductive Reads (heap : Heap) (S : Set ℕ) : Option ℕ → TTA → Prop
  | null : Reads heap S none .null
  | node {a : ℕ} {o : Obj} {l r : TTA} (ha : a ∈ S) (ho : heap[a]? = some o)
    (hl : Reads heap S o.L l) (hr : Reads heap S o.R r) :
    Reads heap S (some a) (.node o.op o.decor l r)

/-- The tree that is found at a reference, with the objects `F`, none of them twice. -/
inductive Owns (heap : Heap) : Set ℕ → Option ℕ → TTA → Prop
  | null : Owns heap ∅ none .null
  | node {a : ℕ} {o : Obj} {l r : TTA} {F G : Set ℕ} (ho : heap[a]? = some o)
    (hl : Owns heap F o.L l) (hr : Owns heap G o.R r) (hFG : ∀ b ∈ F, b ∉ G) (hF : a ∉ F)
    (hG : a ∉ G) : Owns heap (insert a (F ∪ G)) (some a) (.node o.op o.decor l r)

/-- The objects at `S` are the same. -/
def Agree (S : Set ℕ) (heap heap' : Heap) : Prop := ∀ a ∈ S, heap'[a]? = heap[a]?

section
variable {heap heap' heap'' : Heap} {S S' F G : Set ℕ} {p : Option ℕ} {t t' l r : TTA} {a b n : ℕ}
  {o : Obj}

theorem Agree.mono (h : Agree S heap heap') (hS : S' ⊆ S) : Agree S' heap heap' :=
  fun a ha => h a (hS ha)

theorem Agree.trans (h : Agree S heap heap') (h' : Agree S heap' heap'') : Agree S heap heap'' :=
  fun a ha => (h' a ha).trans (h a ha)

theorem Reads.mono (h : Reads heap S p t) (hS : S ⊆ S') : Reads heap S' p t := by
  induction h with
  | null => exact .null
  | node ha ho _ _ ihl ihr => exact .node (hS ha) ho ihl ihr

/-- What is changed elsewhere is not seen. -/
theorem Reads.agree (h : Reads heap S p t) (hS : Agree S heap heap') : Reads heap' S p t := by
  induction h with
  | null => exact .null
  | node ha ho _ _ ihl ihr => exact .node ha ((hS _ ha).trans ho) ihl ihr

theorem Reads.unique (h : Reads heap S p t) (h' : Reads heap S' p t') : t = t' := by
  induction h generalizing t' with
  | null =>
    cases h'
    rfl
  | node _ ho _ _ ihl ihr =>
    cases h' with
    | node _ ho' hl' hr' =>
      cases ho.symm.trans ho'
      rw [ihl hl', ihr hr']

theorem Owns.reads (h : Owns heap F p t) : Reads heap F p t := by
  induction h with
  | null => exact .null
  | node ho _ _ _ _ _ ihl ihr =>
    exact .node (Set.mem_insert _ _) ho (ihl.mono fun b hb => .inr (.inl hb))
      (ihr.mono fun b hb => .inr (.inr hb))

theorem Owns.agree (h : Owns heap F p t) (hF : Agree F heap heap') : Owns heap' F p t := by
  induction h with
  | null => exact .null
  | node ho _ _ hFG hF' hG ihl ihr =>
    exact .node ((hF _ (Set.mem_insert _ _)).trans ho) (ihl (hF.mono fun b hb => .inr (.inl hb)))
      (ihr (hF.mono fun b hb => .inr (.inr hb))) hFG hF' hG

theorem Owns.lt_length (h : Owns heap F p t) : ∀ a ∈ F, a < heap.length := by
  induction h with
  | null => exact fun a ha => ha.elim
  | node ho _ _ _ _ _ ihl ihr =>
    rintro b (rfl | hb | hb)
    · exact (List.getElem?_eq_some_iff.mp ho).1
    · exact ihl b hb
    · exact ihr b hb

theorem agree_append (hS : ∀ a ∈ S, a < heap.length) (objs : List Obj) :
    Agree S heap (heap ++ objs) :=
  fun a ha => List.getElem?_append_left (hS a ha)

/-- A tree as it is parsed has its objects for itself. -/
theorem owns_build (t : TTA) (heap : Heap) : ∃ F objs, (build t heap).2 = heap ++ objs ∧
    (∀ a ∈ F, heap.length ≤ a) ∧ Owns (build t heap).2 F (build t heap).1 t := by
  induction t generalizing heap with
  | null => exact ⟨∅, [], (List.append_nil _).symm, fun a ha => ha.elim, .null⟩
  | node op decor l r ihl ihr =>
    obtain ⟨F, objs, hheap, hF, hl⟩ := ihl heap
    obtain ⟨G, objs', hheap', hG, hr⟩ := ihr (build l heap).2
    have hFlt := hl.lt_length
    have hGlt := hr.lt_length
    have hl : Owns (build r (build l heap).2).2 F (build l heap).1 l :=
      hl.agree (hheap' ▸ agree_append hFlt objs')
    refine ⟨insert (build r (build l heap).2).2.length (F ∪ G),
      objs ++ objs' ++ [⟨op, decor, (build l heap).1, (build r (build l heap).2).1⟩], ?_, ?_, ?_⟩
    · rw [build]
      dsimp only
      rw [hheap', hheap, List.append_assoc, List.append_assoc, List.append_assoc]
    · rintro a (rfl | ha | ha)
      · rw [hheap', hheap, List.length_append, List.length_append]
        omega
      · exact hF a ha
      · have hle := hG a ha
        rw [hheap, List.length_append] at hle
        omega
    · refine .node (o := ⟨op, decor, (build l heap).1, (build r (build l heap).2).1⟩) ?_
        (hl.agree ?_) (hr.agree ?_) ?_ ?_ ?_
      · exact List.getElem?_concat_length
      · exact agree_append hl.lt_length _
      · exact agree_append hGlt _
      · intro a ha ha'
        exact absurd (hG a ha') (Nat.not_le.mpr (hFlt a ha))
      · exact fun ha => absurd (hl.lt_length _ ha) (Nat.lt_irrefl _)
      · exact fun ha => absurd (hGlt _ ha) (Nat.lt_irrefl _)

end

/-! ## The rewritten tree -/

theorem bind_eq_ok {α β : Type} {x : Except Stop α} {f : α → Except Stop β} {b : β} :
    (x >>= f) = .ok b ↔ ∃ a, x = .ok a ∧ f a = .ok b := by
  cases x with
  | error e => exact iff_of_false (fun h => by cases h) fun ⟨_, h, _⟩ => by cases h
  | ok a =>
    constructor
    · exact fun h => ⟨a, rfl, h⟩
    · rintro ⟨a, ha, h⟩
      cases ha
      exact h

def inBrackets : TTA → Bool
  | .node _ .range _ _ => true
  | _ => false

def textOf : TTA → String
  | .node op _ _ _ => op
  | .null => ""

def height : TTA → ℕ
  | .null => 0
  | .node _ _ l r => max (height l) (height r) + 1

/-- No left side is in brackets. -/
def Plain : TTA → Prop
  | .null => True
  | .node _ _ l r => inBrackets l = false ∧ Plain l ∧ Plain r

/-- `name op r` -/
def comparison (op name : String) (r : TTA) : TTA :=
  .node op .none (.node name .none .null .null) r

/-- The right side of the new disjunction. -/
def alternatives (op : String) (r : TTA) : List String → TTA
  | [] => .node "||" .none .null .null
  | [key] => comparison op key r
  | key :: key' :: keys => .node "||" .none (comparison op key r) (alternatives op r (key' :: keys))

section
variable (subProperties : String → List String)

/-- The tree that `prepare_subproperties` makes of a tree. -/
def prepared : TTA → Except Stop TTA
  | .null => .ok .null
  | .node op decor l r =>
    if inBrackets l then do
      let el ← bracketName (textOf l)
      let r ← prepared r
      return .node "||" decor (comparison op el r) (alternatives op r (subProperties el))
    else do
      let l ← prepared l
      let r ← prepared r
      return .node op decor l r

end

section
variable {subProperties : String → List String} {heap heap' : Heap} {S F : Set ℕ} {p : Option ℕ}
  {t t' : TTA} {a depth : ℕ} {o l : Obj}

theorem decor_of_reads {b : ℕ} (h : Reads heap S (some b) t) (hb : heap[b]? = some l) :
    inBrackets t = decide (l.decor = .range) := by
  cases h with
  | node _ ho _ _ =>
    cases ho.symm.trans hb
    cases l with
    | mk op decor L R => cases decor <;> rfl

theorem replaceRange_of_not (hl : Reads heap S o.L t) (h : inBrackets t = false) :
    replaceRange subProperties heap a o = .ok heap := by
  unfold replaceRange
  split
  next => rfl
  next l hl' =>
    obtain ⟨b, hb, hl'⟩ := Option.bind_eq_some_iff.mp hl'
    rw [hb] at hl
    have hdecor := decor_of_reads hl hl'
    rw [h] at hdecor
    exact if_neg (of_decide_eq_false hdecor.symm)

theorem replaceRange_of_brackets (hl : Reads heap S o.L t) (h : inBrackets t = true) :
    replaceRange subProperties heap a o = (do
      let el ← bracketName (textOf t)
      return expand heap a o el (subProperties el)) := by
  cases t with
  | null => contradiction
  | node op decor tl tr =>
    obtain ⟨b, hb⟩ : ∃ b, o.L = some b := by
      cases hL : o.L with
      | none =>
        rw [hL] at hl
        cases hl
      | some b => exact ⟨b, rfl⟩
    rw [hb] at hl
    cases hl with
    | @node _ l _ _ _ hl _ _ =>
      have hdecor : l.decor = .range := by
        cases hd : l.decor with
        | range => rfl
        | none =>
          rw [hd] at h
          contradiction
        | quoted =>
          rw [hd] at h
          contradiction
      simp only [replaceRange, hb, Option.bind_some, hl, if_pos hdecor]
      rfl

theorem prepare_succ (ho : heap[a]? = some o)
    (hrange : replaceRange subProperties heap a o = .ok heap') :
    prepareSubproperties subProperties (depth + 1) heap a =
      (prepareAt (prepareSubproperties subProperties depth) heap' (heap'[a]?.bind Obj.L)).bind
        fun heap'' => prepareAt (prepareSubproperties subProperties depth) heap''
          (heap''[a]?.bind Obj.R) := by
  rw [prepareSubproperties, ho]
  simp only [hrange]
  rfl

theorem prepare_eq_ok (ho : heap[a]? = some o)
    (h : prepareSubproperties subProperties depth heap a = .ok heap') :
    ∃ d heap₁ heap₂, depth = d + 1 ∧ replaceRange subProperties heap a o = .ok heap₁ ∧
      prepareAt (prepareSubproperties subProperties d) heap₁ (heap₁[a]?.bind Obj.L) = .ok heap₂ ∧
      prepareAt (prepareSubproperties subProperties d) heap₂ (heap₂[a]?.bind Obj.R) =
        .ok heap' := by
  cases depth with
  | zero => cases h
  | succ d =>
    rw [prepareSubproperties, ho] at h
    obtain ⟨heap₁, h₁, h⟩ := bind_eq_ok.mp h
    obtain ⟨heap₂, h₂, h⟩ := bind_eq_ok.mp h
    exact ⟨d, heap₁, heap₂, rfl, h₁, h₂, h⟩

/-- A depth that is enough stays so. -/
theorem prepareAt_mono {d : ℕ}
    (h : prepareAt (prepareSubproperties subProperties depth) heap p = .ok heap') (hd : depth ≤ d) :
    prepareAt (prepareSubproperties subProperties d) heap p = .ok heap' := by
  induction depth generalizing heap heap' p d with
  | zero =>
    cases p with
    | none => exact h
    | some a => cases h
  | succ depth ih =>
    cases p with
    | none => exact h
    | some a =>
      obtain ⟨d, rfl⟩ := Nat.exists_eq_add_of_le' (Nat.one_le_of_lt hd)
      cases ho : heap[a]? with
      | none =>
        simp only [prepareAt, prepareSubproperties, ho] at h ⊢
        exact h
      | some o =>
        obtain ⟨_, heap₁, heap₂, hdepth, hrange, hleft, hright⟩ := prepare_eq_ok ho h
        cases hdepth
        have hle := Nat.le_of_succ_le_succ hd
        rw [prepareAt, prepare_succ ho hrange, ih hleft hle]
        exact ih hright hle

/-- Where no left side is in brackets, nothing is done. -/
theorem prepareAt_of_plain (h : Reads heap S p t) (ht : Plain t) (hdepth : height t ≤ depth) :
    prepareAt (prepareSubproperties subProperties depth) heap p = .ok heap := by
  induction t generalizing p depth with
  | null =>
    cases h
    rfl
  | node op decor tl tr ihl ihr =>
    obtain ⟨hbrackets, htl, htr⟩ := ht
    cases depth with
    | zero => exact absurd hdepth (Nat.not_succ_le_zero _)
    | succ depth =>
      obtain ⟨hl', hr'⟩ := Nat.max_le.mp (Nat.le_of_succ_le_succ hdepth)
      cases h with
      | node ha ho hl hr =>
        rw [prepareAt, prepare_succ ho (replaceRange_of_not hl hbrackets), ho, Option.bind_some,
          ihl hl htl hl']
        simp only [Except.bind, ho, Option.bind_some]
        exact ihr hr htr hr'

theorem inBrackets_of_prepared (h : prepared subProperties t = .ok t') :
    inBrackets t' = inBrackets t := by
  cases t with
  | null =>
    cases h
    rfl
  | node op decor l r =>
    rw [prepared] at h
    split at h
    next =>
      obtain ⟨el, -, h⟩ := bind_eq_ok.mp h
      obtain ⟨r', -, h⟩ := bind_eq_ok.mp h
      cases h
      cases decor <;> rfl
    next =>
      obtain ⟨l', -, h⟩ := bind_eq_ok.mp h
      obtain ⟨r', -, h⟩ := bind_eq_ok.mp h
      cases h
      cases decor <;> rfl

theorem plain_comparison {op name : String} {r : TTA} (hr : Plain r) :
    Plain (comparison op name r) :=
  ⟨rfl, ⟨rfl, trivial, trivial⟩, hr⟩

theorem plain_alternatives {op : String} {r : TTA} (hr : Plain r) :
    ∀ names, Plain (alternatives op r names)
  | [] => ⟨rfl, trivial, trivial⟩
  | [_] => plain_comparison hr
  | _ :: key' :: keys => ⟨rfl, plain_comparison hr, plain_alternatives hr (key' :: keys)⟩

/-- Nothing is left to be rewritten. -/
theorem plain_of_prepared (h : prepared subProperties t = .ok t') : Plain t' := by
  induction t generalizing t' with
  | null =>
    cases h
    trivial
  | node op decor l r ihl ihr =>
    rw [prepared] at h
    split at h
    next =>
      obtain ⟨el, -, h⟩ := bind_eq_ok.mp h
      obtain ⟨r', hr, h⟩ := bind_eq_ok.mp h
      cases h
      exact ⟨rfl, plain_comparison (ihr hr), plain_alternatives (ihr hr) _⟩
    next hl =>
      obtain ⟨l', hl', h⟩ := bind_eq_ok.mp h
      obtain ⟨r', hr, h⟩ := bind_eq_ok.mp h
      cases h
      refine ⟨?_, ihl hl', ihr hr⟩
      rw [inBrackets_of_prepared hl']
      exact Bool.eq_false_of_not_eq_true hl

/-! ## The new objects -/

/-- A comparison with a name on its left side and `r` on its right side. -/
structure Compares (heap : Heap) (S : Set ℕ) (op name : String) (r : Option ℕ) (b : ℕ) : Prop where
  mem : b ∈ S
  exists_left : ∃ n ∈ S, heap[b]? = some ⟨op, .none, some n, r⟩ ∧ heap[n]? = some (leaf name)

/-- The objects of the chain from `b` on. -/
inductive Alternatives (heap : Heap) (S : Set ℕ) (op : String) (r : Option ℕ) :
    ℕ → List String → Prop
  | nil {b : ℕ} (hb : b ∈ S) (ho : heap[b]? = some (leaf "||")) : Alternatives heap S op r b []
  | single {b : ℕ} {key : String} (h : Compares heap S op key r b) :
    Alternatives heap S op r b [key]
  | cons {b c d : ℕ} {key key' : String} {keys : List String} (hb : b ∈ S)
    (ho : heap[b]? = some ⟨"||", .none, some c, some d⟩) (hc : Compares heap S op key r c)
    (hd : Alternatives heap S op r d (key' :: keys)) :
    Alternatives heap S op r b (key :: key' :: keys)

section
variable {S' : Set ℕ} {op name : String} {r : Option ℕ} {b : ℕ} {names : List String} {tr : TTA}

theorem Compares.agree (h : Compares heap S op name r b) (hS : Agree S heap heap') (hS' : S ⊆ S') :
    Compares heap' S' op name r b := by
  obtain ⟨hb, n, hn, hob, hon⟩ := h
  exact ⟨hS' hb, n, hS' hn, (hS b hb).trans hob, (hS n hn).trans hon⟩

theorem Alternatives.agree (h : Alternatives heap S op r b names) (hS : Agree S heap heap')
    (hS' : S ⊆ S') : Alternatives heap' S' op r b names := by
  induction h with
  | nil hb ho => exact .nil (hS' hb) ((hS _ hb).trans ho)
  | single h => exact .single (h.agree hS hS')
  | cons hb ho hc _ ih => exact .cons (hS' hb) ((hS _ hb).trans ho) (hc.agree hS hS') ih

theorem reads_leaf {n : ℕ} (hn : n ∈ S) (ho : heap[n]? = some (leaf name)) :
    Reads heap S (some n) (.node name .none .null .null) :=
  .node hn ho .null .null

theorem Compares.reads (h : Compares heap S op name r b) (hr : Reads heap S r tr) :
    Reads heap S (some b) (comparison op name tr) := by
  obtain ⟨hb, n, hn, hob, hon⟩ := h
  exact .node hb hob (reads_leaf hn hon) hr

theorem Alternatives.reads (h : Alternatives heap S op r b names) (hr : Reads heap S r tr) :
    Reads heap S (some b) (alternatives op tr names) := by
  induction h with
  | nil hb ho => exact reads_leaf hb ho
  | single h => exact h.reads hr
  | cons hb ho hc _ ih => exact .node hb ho (hc.reads hr) ih

end

section
variable {objs : List Obj} {f : Obj → Obj} {b x : ℕ}

theorem length_grow : ((heap ++ objs).modify b f).length = heap.length + objs.length := by
  rw [List.length_modify, List.length_append]

theorem grow_self (hb : heap[b]? = some o) : ((heap ++ objs).modify b f)[b]? = some (f o) := by
  rw [List.getElem?_modify, List.getElem?_append_left (List.getElem?_eq_some_iff.mp hb).1, hb]
  simp

theorem grow_old (hne : x ≠ b) (hx : x < heap.length) :
    ((heap ++ objs).modify b f)[x]? = heap[x]? := by
  rw [List.getElem?_modify, List.getElem?_append_left hx]
  simp [hne.symm]

theorem grow_new (hb : b < heap.length) (i : ℕ) :
    ((heap ++ objs).modify b f)[heap.length + i]? = objs[i]? := by
  have hne : b ≠ heap.length + i := by omega
  rw [List.getElem?_modify, List.getElem?_append_right (Nat.le_add_right _ _),
    Nat.add_sub_cancel_left]
  simp [hne]

end

/-- What the loop has made of the node at `b` and of new objects. -/
structure Chained (heap heap' : Heap) (op : String) (r : Option ℕ) (b : ℕ)
    (names : List String) : Prop where
  alternatives : Alternatives heap' (insert b (Set.Ico heap.length heap'.length)) op r b names
  length_le : heap.length ≤ heap'.length
  same : ∀ x, x ≠ b → x < heap.length → heap'[x]? = heap[x]?

/-- A node that gets a comparison and the rest of the chain as its sides. -/
theorem linked_spec {heap₁ : Heap} {op name : String} {r : Option ℕ} {b : ℕ} {names : List String}
    (f : Obj → Obj) (hb : heap[b]? = some o)
    (hheap : (heap ++ [leaf name, ⟨op, .none, some heap.length, r⟩, leaf "||"]).modify b f = heap₁)
    (hrest : heap₁[heap.length + 2]? = some (leaf "||") →
      Chained heap₁ heap' op r (heap.length + 2) names) :
    heap'[b]? = some (f o) ∧
      Compares heap' (Set.Ico heap.length heap'.length) op name r (heap.length + 1) ∧
      Alternatives heap' (Set.Ico heap.length heap'.length) op r (heap.length + 2) names ∧
      heap.length + 3 ≤ heap'.length ∧ ∀ x, x ≠ b → x < heap.length → heap'[x]? = heap[x]? := by
  have hlt := (List.getElem?_eq_some_iff.mp hb).1
  have hlength : heap₁.length = heap.length + 3 := hheap ▸ length_grow
  have hself : heap₁[b]? = some (f o) := hheap ▸ grow_self hb
  have hold {x : ℕ} (hne : x ≠ b) (hx : x < heap.length) : heap₁[x]? = heap[x]? :=
    hheap ▸ grow_old hne hx
  have hnew (i : ℕ) : heap₁[heap.length + i]? =
      [leaf name, ⟨op, .none, some heap.length, r⟩, leaf "||"][i]? := hheap ▸ grow_new hlt i
  obtain ⟨hchain, hle, hsame⟩ := hrest (hnew 2)
  have hkept {x : ℕ} (hx : x < heap.length + 2) : heap'[x]? = heap₁[x]? :=
    hsame x (by omega) (by omega)
  refine ⟨(hkept (by omega)).trans hself, ⟨⟨by omega, by omega⟩, heap.length, ⟨by omega, by omega⟩,
    (hkept (by omega)).trans (hnew 1), (hkept (by omega)).trans (hnew 0)⟩,
    hchain.agree (fun _ _ => rfl) ?_, by omega,
    fun x hne hx => (hkept (by omega)).trans (hold hne hx)⟩
  rintro x (rfl | ⟨hlow, hhigh⟩)
  · exact ⟨by omega, by omega⟩
  · exact ⟨by omega, hhigh⟩

theorem chain_spec {op : String} {r : Option ℕ} {b : ℕ} {names : List String}
    (hb : heap[b]? = some (leaf "||")) : Chained heap (chain op r heap b names) op r b names := by
  induction names generalizing heap b with
  | nil => exact ⟨.nil (Set.mem_insert _ _) hb, Nat.le_refl _, fun _ _ _ => rfl⟩
  | cons key keys ih =>
    have hlt := (List.getElem?_eq_some_iff.mp hb).1
    cases keys with
    | nil =>
      rw [chain]
      refine ⟨.single ⟨Set.mem_insert _ _, heap.length, .inr ⟨Nat.le_refl _, ?_⟩, ?_, ?_⟩, ?_,
        fun x hne hx => grow_old hne hx⟩
      · rw [length_grow]
        exact Nat.lt_add_of_pos_right (Nat.succ_pos _)
      · exact grow_self hb
      · exact grow_new hlt 0
      · rw [length_grow]
        exact Nat.le_add_right _ _
    | cons key' keys =>
      rw [chain]
      obtain ⟨hself, hcmp, halts, hle, hsame⟩ := linked_spec _ hb rfl ih
      refine ⟨.cons (Set.mem_insert _ _) hself (hcmp.agree (fun _ _ => rfl) ?_)
        (halts.agree (fun _ _ => rfl) ?_), Nat.le_of_add_right_le hle, hsame⟩
      · exact Set.subset_insert _ _
      · exact Set.subset_insert _ _

/-- What a comparison in brackets is made to. -/
theorem expand_spec {el : String} {names : List String} (ha : heap[a]? = some o)
    (heq : expand heap a o el names = heap') :
    heap'[a]? = some ⟨"||", o.decor, some (heap.length + 1), some (heap.length + 2)⟩ ∧
      Compares heap' (Set.Ico heap.length heap'.length) o.op el o.R (heap.length + 1) ∧
      Alternatives heap' (Set.Ico heap.length heap'.length) o.op o.R (heap.length + 2) names ∧
      heap.length + 3 ≤ heap'.length ∧ ∀ x, x ≠ a → x < heap.length → heap'[x]? = heap[x]? := by
  subst heq
  exact linked_spec (fun o => { o with
    op := "||", L := some (heap.length + 1), R := some (heap.length + 2) }) ha rfl chain_spec

/-! ## The rewritten tree in the heap -/

/-- The tree `t'` is found where `t` was, and nothing else is changed. -/
structure Makes (heap heap' : Heap) (F : Set ℕ) (p : Option ℕ) (t' : TTA) : Prop where
  reads : Reads heap' (F ∪ Set.Ico heap.length heap'.length) p t'
  length_le : heap.length ≤ heap'.length
  same : ∀ x, x ∉ F → x < heap.length → heap'[x]? = heap[x]?

section
variable {heap₁ heap₂ : Heap} {G : Set ℕ} {tl tr l' r' : TTA}

/-- A node whose sides are rewritten one after the other. -/
theorem Makes.node (ho : heap[a]? = some o) (hl : Owns heap F o.L tl) (hr : Owns heap G o.R tr)
    (hFG : ∀ b ∈ F, b ∉ G) (hF : a ∉ F) (hG : a ∉ G) (hml : Makes heap heap₁ F o.L l')
    (hmr : Makes heap₁ heap₂ G o.R r') :
    Makes heap heap₂ (insert a (F ∪ G)) (some a) (.node o.op o.decor l' r') := by
  have halt := (List.getElem?_eq_some_iff.mp ho).1
  have ha₁ : heap₁[a]? = some o := (hml.same a hF halt).trans ho
  have ha₂ : heap₂[a]? = some o :=
    (hmr.same a hG (Nat.lt_of_lt_of_le halt hml.length_le)).trans ha₁
  refine ⟨.node (.inl (Set.mem_insert _ _)) ha₂ ?_ ?_, Nat.le_trans hml.length_le hmr.length_le,
    fun x hx hlt => ?_⟩
  · refine (hml.reads.agree fun x hx => hmr.same x ?_ ?_).mono ?_
    · rcases hx with hx | hx
      · exact hFG x hx
      · exact fun hx' => absurd (hr.lt_length x hx') (Nat.not_lt.mpr hx.1)
    · rcases hx with hx | hx
      · exact Nat.lt_of_lt_of_le (hl.lt_length x hx) hml.length_le
      · exact hx.2
    · rintro x (hx | hx)
      · exact .inl (.inr (.inl hx))
      · exact .inr ⟨hx.1, Nat.lt_of_lt_of_le hx.2 hmr.length_le⟩
  · refine hmr.reads.mono ?_
    rintro x (hx | hx)
    · exact .inl (.inr (.inr hx))
    · exact .inr ⟨Nat.le_trans hml.length_le hx.1, hx.2⟩
  · have hxF : x ∉ F := fun hmem => hx (.inr (.inl hmem))
    have hxG : x ∉ G := fun hmem => hx (.inr (.inr hmem))
    exact (hmr.same x hxG (Nat.lt_of_lt_of_le hlt hml.length_le)).trans (hml.same x hxF hlt)

/-- A node that has become a disjunction, and whose right side is then rewritten. -/
theorem makes_expand {el : String} {names : List String} (ho : heap[a]? = some o)
    (hr : Owns heap G o.R tr) (hG : a ∉ G) (hheap : expand heap a o el names = heap₁)
    (hmr : Makes heap₁ heap₂ G o.R r') :
    heap₂[a]? = some ⟨"||", o.decor, some (heap.length + 1), some (heap.length + 2)⟩ ∧
      Reads heap₂ Set.univ (some (heap.length + 2)) (alternatives o.op r' names) ∧
      Makes heap heap₂ (insert a (F ∪ G)) (some a)
        (.node "||" o.decor (comparison o.op el r') (alternatives o.op r' names)) := by
  have halt := (List.getElem?_eq_some_iff.mp ho).1
  obtain ⟨ha₁, hcmp, halts, hgrown, hsame⟩ := expand_spec ho hheap
  have hle := Nat.le_of_add_right_le hgrown
  -- the objects that are new stay as they are
  have hnew : Agree (Set.Ico heap.length heap₁.length) heap₁ heap₂ := fun x hx =>
    hmr.same x (fun hx' => absurd (hr.lt_length x hx') (Nat.not_lt.mpr hx.1)) hx.2
  have hS : Set.Ico heap.length heap₁.length ⊆
      insert a (F ∪ G) ∪ Set.Ico heap.length heap₂.length :=
    fun x hx => .inr ⟨hx.1, Nat.lt_of_lt_of_le hx.2 hmr.length_le⟩
  have hreads : Reads heap₂ (insert a (F ∪ G) ∪ Set.Ico heap.length heap₂.length) o.R r' := by
    refine hmr.reads.mono ?_
    rintro x (hx | hx)
    · exact .inl (.inr (.inr hx))
    · exact .inr ⟨Nat.le_trans hle hx.1, hx.2⟩
  have halts₂ := (halts.agree hnew hS).reads hreads
  have ha₂ := (hmr.same a hG (Nat.lt_of_lt_of_le halt hle)).trans ha₁
  refine ⟨ha₂, halts₂.mono (Set.subset_univ _), .node (o := ⟨"||", o.decor, _, _⟩)
    (.inl (Set.mem_insert _ _)) ha₂ ((hcmp.agree hnew hS).reads hreads) halts₂,
    Nat.le_trans hle hmr.length_le, fun x hx hlt => ?_⟩
  have hne : x ≠ a := fun heq => hx (heq ▸ Set.mem_insert _ _)
  have hxG : x ∉ G := fun hmem => hx (.inr (.inr hmem))
  exact (hmr.same x hxG (Nat.lt_of_lt_of_le hlt hle)).trans (hsame x hne hlt)

/-- The left side of a new disjunction is gone through to the right side that it shares. -/
theorem prepare_comparison {S : Set ℕ} {op el : String} {r : Option ℕ} {b : ℕ}
    (h : Compares heap S op el r b) (hdepth : 1 ≤ depth) :
    prepareSubproperties subProperties (depth + 1) heap b =
      prepareAt (prepareSubproperties subProperties depth) heap r := by
  obtain ⟨-, n, -, hob, hon⟩ := h
  have hleaf := reads_leaf (S := Set.univ) trivial hon
  rw [prepare_succ hob (replaceRange_of_not hleaf rfl), hob, Option.bind_some,
    prepareAt_of_plain hleaf ⟨rfl, trivial, trivial⟩ hdepth]
  simp only [Except.bind, hob, Option.bind_some]

end

theorem prepareAt_spec (h : Owns heap F p t) (ht : prepared subProperties t = .ok t')
    (hdepth : height t' ≤ depth) :
    ∃ heap', prepareAt (prepareSubproperties subProperties depth) heap p = .ok heap' ∧
      Makes heap heap' F p t' := by
  induction t generalizing heap F p t' depth with
  | null =>
    cases ht
    cases h
    exact ⟨heap, rfl, .null, Nat.le_refl _, fun _ _ _ => rfl⟩
  | node op decor l r ihl ihr =>
    cases h with
    | @node a o _ _ FL FR ho hl hr hdisj haL haR =>
      have halt := (List.getElem?_eq_some_iff.mp ho).1
      rw [prepared] at ht
      split at ht
      next hbrackets =>
        obtain ⟨el, hel, ht⟩ := bind_eq_ok.mp ht
        obtain ⟨r', hr', ht⟩ := bind_eq_ok.mp ht
        cases ht
        have hrange : replaceRange subProperties heap a o =
            .ok (expand heap a o el (subProperties el)) :=
          (replaceRange_of_brackets hl.reads hbrackets).trans (bind_eq_ok.mpr ⟨el, hel, rfl⟩)
        generalize hheap : expand heap a o el (subProperties el) = heap₁ at hrange
        obtain ⟨ha₁, hcmp, -, -, hsame⟩ := expand_spec ho hheap
        obtain ⟨depth, rfl⟩ := Nat.exists_eq_add_of_le' (Nat.one_le_of_lt hdepth)
        obtain ⟨hdc, hdalts⟩ := Nat.max_le.mp (Nat.le_of_succ_le_succ hdepth)
        obtain ⟨depth, rfl⟩ := Nat.exists_eq_add_of_le' (Nat.one_le_of_lt hdc)
        obtain ⟨hdleaf, hdr⟩ := Nat.max_le.mp (Nat.le_of_succ_le_succ hdc)
        have hr₁ : Owns heap₁ FR o.R r := hr.agree fun x hx =>
          hsame x (fun heq => haR (heq ▸ hx)) (hr.lt_length x hx)
        obtain ⟨heap₂, hpr, hmr⟩ := ihr hr₁ hr' hdr
        obtain ⟨ha₂, halts, hmakes⟩ := makes_expand ho hr haR hheap hmr
        refine ⟨heap₂, ?_, hmakes⟩
        rw [prepareAt, prepare_succ ho hrange, ha₁, Option.bind_some, prepareAt,
          prepare_comparison hcmp hdleaf, hpr]
        simp only [Except.bind, ha₂, Option.bind_some]
        exact prepareAt_of_plain halts (plain_alternatives (plain_of_prepared hr') _) hdalts
      next hbrackets =>
        obtain ⟨l', hl', ht⟩ := bind_eq_ok.mp ht
        obtain ⟨r', hr', ht⟩ := bind_eq_ok.mp ht
        cases ht
        cases depth with
        | zero => exact absurd hdepth (Nat.not_succ_le_zero _)
        | succ depth =>
          obtain ⟨hdl, hdr⟩ := Nat.max_le.mp (Nat.le_of_succ_le_succ hdepth)
          obtain ⟨heap₁, hpl, hml⟩ := ihl hl hl' hdl
          have ha₁ : heap₁[a]? = some o := (hml.same a haL halt).trans ho
          have hr₁ : Owns heap₁ FR o.R r := hr.agree fun x hx =>
            hml.same x (fun hx' => hdisj x hx' hx) (hr.lt_length x hx)
          obtain ⟨heap₂, hpr, hmr⟩ := ihr hr₁ hr' hdr
          refine ⟨heap₂, ?_, .node ho hl hr hdisj haL haR hml hmr⟩
          rw [prepareAt, prepare_succ ho
            (replaceRange_of_not hl.reads (Bool.eq_false_of_not_eq_true hbrackets)), ho,
            Option.bind_some, hpl]
          simp only [Except.bind, ha₁, Option.bind_some]
          exact hpr

end

/-! ## What a search in subproperties is -/

def comparisons : List String := ["<", ">", "==", "===", "!=", "=*", "=+", ">=", "<="]

/-- A tree as a boolean formula over its comparisons. An operator that lacks a side makes none. -/
def eval (val : TTA → Bool) : TTA → Option Bool
  | .null => none
  | .node op decor l r =>
    if op = "||" then (eval val l).bind fun x => (eval val r).map fun y => x || y
    else if op = "&&" then (eval val l).bind fun x => (eval val r).map fun y => x && y
    else some (val (.node op decor l r))

/-- Every node has no side or both. -/
def Full : TTA → Prop
  | .null => True
  | .node _ _ l r => (l = .null ↔ r = .null) ∧ Full l ∧ Full r

section
variable (names : String → List String)

/-- Each comparison of a property in brackets is turned into the disjunction over the property and
its subproperties, and nothing else is changed. -/
def Turned : TTA → TTA → Prop
  | .null, t' => t' = .null
  | .node op decor l r, t' =>
    if op ∈ comparisons ∧ inBrackets l = true then
      ∃ el r', bracketName (textOf l) = .ok el ∧ Turned r r' ∧ ∀ val, eval val t' =
        some ((el :: names el).any fun name => val (comparison op name r'))
    else ∃ l' r', t' = .node op decor l' r' ∧ Turned l l' ∧ Turned r r'

/-- Brackets stand on the left side of a comparison that has a right side, around a property that
has subproperties. Elsewhere no node lacks one side. -/
def Ready : TTA → Prop
  | .null => True
  | .node op _ l r =>
    if inBrackets l then
      op ∈ comparisons ∧ (∃ el, bracketName (textOf l) = .ok el ∧ names el ≠ []) ∧ r ≠ .null ∧
        Ready r
    else (l = .null ↔ r = .null) ∧ Ready l ∧ Ready r

end

section
variable {val : TTA → Bool} {op name : String} {r : TTA}

theorem eval_comparison (hop : op ∈ comparisons) :
    eval val (comparison op name r) = some (val (comparison op name r)) := by
  have hor : op ≠ "||" := fun h => by
    subst h
    revert hop
    decide
  have hand : op ≠ "&&" := fun h => by
    subst h
    revert hop
    decide
  rw [comparison, eval, if_neg hor, if_neg hand]

theorem eval_alternatives (hop : op ∈ comparisons) (key : String) (keys : List String) :
    eval val (alternatives op r (key :: keys)) =
      some ((key :: keys).any fun name => val (comparison op name r)) := by
  induction keys generalizing key with
  | nil =>
    rw [alternatives, eval_comparison hop, List.any_cons, List.any_nil, Bool.or_false]
  | cons key' keys ih =>
    rw [alternatives, eval, if_pos rfl, eval_comparison hop, ih, Option.bind_some, Option.map_some,
      List.any_cons (l := key' :: keys)]

/-- The end of the chain stays as it is made where there are no subproperties. -/
theorem eval_alternatives_nil : eval val (alternatives op r []) = none := rfl

theorem full_comparison (hr : r ≠ .null) (h : Full r) : Full (comparison op name r) :=
  ⟨⟨fun h => TTA.noConfusion h, fun h => (hr h).elim⟩, ⟨Iff.rfl, trivial, trivial⟩, h⟩

theorem full_alternatives (hr : r ≠ .null) (h : Full r) : ∀ names, Full (alternatives op r names)
  | [] => ⟨Iff.rfl, trivial, trivial⟩
  | [_] => full_comparison hr h
  | _ :: key' :: keys => by
    refine ⟨⟨fun h => TTA.noConfusion h, fun h' => ?_⟩, full_comparison hr h,
      full_alternatives hr h (key' :: keys)⟩
    cases keys <;> cases h'

end

section
variable {subProperties : String → List String} {t t' : TTA}

theorem prepared_eq_null (h : prepared subProperties t = .ok t') : t' = .null ↔ t = .null := by
  cases t with
  | null =>
    cases h
    exact Iff.rfl
  | node op decor l r =>
    refine iff_of_false (fun hnull => ?_) fun hnull => by cases hnull
    rw [hnull, prepared] at h
    split at h
    next =>
      obtain ⟨el, -, h⟩ := bind_eq_ok.mp h
      obtain ⟨r', -, h⟩ := bind_eq_ok.mp h
      cases h
    next =>
      obtain ⟨l', -, h⟩ := bind_eq_ok.mp h
      obtain ⟨r', -, h⟩ := bind_eq_ok.mp h
      cases h

section
variable {names : String → List String} (hperm : ∀ p, (subProperties p).Perm (names p))

include hperm in
theorem eval_prepared {op el : String} {decor : Decor} {r' : TTA} {val : TTA → Bool}
    (hop : op ∈ comparisons) (hne : subProperties el ≠ []) :
    eval val (.node "||" decor (comparison op el r') (alternatives op r' (subProperties el))) =
      some ((el :: names el).any fun name => val (comparison op name r')) := by
  obtain ⟨key, keys, hkeys⟩ := List.exists_cons_of_ne_nil hne
  rw [eval, if_pos rfl, eval_comparison hop, hkeys, eval_alternatives hop, ← hkeys,
    Option.bind_some, Option.map_some, List.any_cons, (hperm el).any_eq]

include hperm in
theorem prepared_of_ready (h : Ready names t) :
    ∃ t', prepared subProperties t = .ok t' ∧ Turned names t t' ∧ Full t' := by
  induction t with
  | null => exact ⟨.null, rfl, rfl, trivial⟩
  | node op decor l r ihl ihr =>
    rw [Ready] at h
    split at h
    next hbrackets =>
      obtain ⟨hop, ⟨el, hel, hne⟩, hr, hready⟩ := h
      obtain ⟨r', hr', hturned, hfull⟩ := ihr hready
      have hnull : r' ≠ .null := mt (prepared_eq_null hr').mp hr
      have hsub : subProperties el ≠ [] := fun h => hne ((h ▸ hperm el).nil_eq).symm
      refine ⟨.node "||" decor (comparison op el r') (alternatives op r' (subProperties el)),
        ?_, ?_, ?_⟩
      · rw [prepared, if_pos hbrackets]
        exact bind_eq_ok.mpr ⟨el, hel, bind_eq_ok.mpr ⟨r', hr', rfl⟩⟩
      · rw [Turned, if_pos ⟨hop, hbrackets⟩]
        exact ⟨el, r', hel, hturned, fun val => eval_prepared hperm hop hsub⟩
      · refine ⟨iff_of_false (fun h => by cases h) fun h => ?_, full_comparison hnull hfull,
          full_alternatives hnull hfull _⟩
        obtain ⟨key, keys, hkeys⟩ := List.exists_cons_of_ne_nil hsub
        rw [hkeys] at h
        cases keys <;> cases h
    next hbrackets =>
      obtain ⟨hsides, hl, hr⟩ := h
      obtain ⟨l', hl', hlt, hlf⟩ := ihl hl
      obtain ⟨r', hr', hrt, hrf⟩ := ihr hr
      refine ⟨.node op decor l' r', ?_, ?_, ?_, hlf, hrf⟩
      · rw [prepared, if_neg hbrackets]
        exact bind_eq_ok.mpr ⟨l', hl', bind_eq_ok.mpr ⟨r', hr', rfl⟩⟩
      · rw [Turned, if_neg fun h => hbrackets h.2]
        exact ⟨l', r', rfl, hlt, hrt⟩
      · rw [prepared_eq_null hl', prepared_eq_null hr']
        exact hsides

/-- A tree in brackets is not left as it is. -/
theorem not_turned_comparison {l r : TTA} {op el : String} (hl : inBrackets l = true)
    (hop : op = "||") : ¬ Turned names l (comparison op el r) := by
  cases l with
  | null => contradiction
  | node p decor tl tr =>
    rw [Turned]
    split
    next =>
      rintro ⟨el', r', -, -, heval⟩
      -- the left side holds of the leaf alone
      let val : TTA → Bool
        | .node _ _ .null _ => true
        | _ => false
      have hany : (el' :: names el').any (fun name => val (comparison p name r')) = false :=
        List.any_eq_false.mpr fun _ _ h => by cases h
      have heval := heval val
      rw [hany, comparison, eval, if_pos hop, eval] at heval
      split at heval
      next => cases heval
      next =>
        split at heval
        next => cases heval
        next =>
          cases hr : eval val r with
          | none =>
            rw [hr] at heval
            cases heval
          | some y =>
            rw [hr] at heval
            cases heval
    next =>
      rintro ⟨l', r', h, -, -⟩
      cases h
      contradiction

include hperm in
theorem ready_of_turned (h : prepared subProperties t = .ok t') (hturned : Turned names t t')
    (hfull : Full t') : Ready names t := by
  induction t generalizing t' with
  | null => trivial
  | node op decor l r ihl ihr =>
    rw [prepared] at h
    rw [Turned] at hturned
    rw [Ready]
    split at h
    next hbrackets =>
      obtain ⟨el, hel, h⟩ := bind_eq_ok.mp h
      obtain ⟨r', hr', h⟩ := bind_eq_ok.mp h
      cases h
      obtain ⟨-, ⟨hsides, -, hr⟩, -⟩ := hfull
      have hnull : r' ≠ .null := fun h => TTA.noConfusion (hsides.mpr h)
      rw [if_pos hbrackets]
      split at hturned
      next hop =>
        obtain ⟨el', r'', hel', hturned, heval⟩ := hturned
        cases hel.symm.trans hel'
        have hsub : subProperties el ≠ [] := fun hsub => by
          have heval := heval fun _ => true
          rw [hsub, eval, if_pos rfl, eval_comparison hop.1, eval_alternatives_nil] at heval
          cases heval
        -- the disjunction tells its right side
        have heq : r'' = r' := by
          have heval := heval fun t => decide (t = comparison op el r')
          rw [eval_prepared hperm hop.1 hsub, List.any_cons, decide_eq_true rfl, Bool.true_or]
            at heval
          obtain ⟨name, -, hname⟩ := List.any_eq_true.mp (Option.some_inj.mp heval).symm
          cases of_decide_eq_true hname
          rfl
        subst heq
        refine ⟨hop.1, ⟨el, hel, fun hnames => hsub ?_⟩, mt (prepared_eq_null hr').mpr hnull,
          ihr hr' hturned hr⟩
        exact (hnames ▸ hperm el).eq_nil
      next hop =>
        obtain ⟨l', r'', heq, hl, -⟩ := hturned
        injection heq with hor _ hl' _
        exact (not_turned_comparison hbrackets hor.symm (hl' ▸ hl)).elim
    next hbrackets =>
      obtain ⟨l', hl', h⟩ := bind_eq_ok.mp h
      obtain ⟨r', hr', h⟩ := bind_eq_ok.mp h
      cases h
      rw [if_neg fun h => hbrackets h.2] at hturned
      obtain ⟨l'', r'', heq, hlt, hrt⟩ := hturned
      cases heq
      obtain ⟨hsides, hl, hr⟩ := hfull
      rw [if_neg hbrackets, ← prepared_eq_null hl', ← prepared_eq_null hr']
      exact ⟨hsides, ihl hl' hlt hl, ihr hr' hrt hr⟩

/-- Where the rewritten tree is not defined, no depth is enough. -/
theorem prepareAt_ne_ok {e : Stop} (ht : prepared subProperties t = .error e) :
    ∃ n, ∀ depth ≥ n, ∀ heap heap' F p, Owns heap F p t →
      prepareAt (prepareSubproperties subProperties depth) heap p ≠ .ok heap' := by
  induction t generalizing e with
  | null => cases ht
  | node op decor l r ihl ihr =>
    rw [prepared] at ht
    split at ht
    next hbrackets =>
      cases hel : bracketName (textOf l) with
      | error e' =>
        refine ⟨0, fun depth _ heap heap' F p h hok => ?_⟩
        cases h with
        | node ho hl hr _ _ _ =>
          obtain ⟨d, heap₁, heap₂, -, hrange, -⟩ := prepare_eq_ok ho hok
          rw [replaceRange_of_brackets hl.reads hbrackets, hel] at hrange
          cases hrange
      | ok el =>
        rw [hel] at ht
        cases hr' : prepared subProperties r with
        | ok r' =>
          rw [hr'] at ht
          cases ht
        | error e' =>
          obtain ⟨n, hn⟩ := ihr hr'
          refine ⟨n + 3, fun depth hdepth heap heap' F p h hok => ?_⟩
          cases h with
          | node ho hl hr _ _ ha =>
            obtain ⟨d, heap₁, heap₂, hd, hrange, hcmp, -⟩ := prepare_eq_ok ho hok
            rw [replaceRange_of_brackets hl.reads hbrackets, hel] at hrange
            obtain ⟨ha₁, hc, -, -, hsame⟩ := expand_spec ho (Except.ok.inj hrange)
            rw [ha₁] at hcmp
            obtain ⟨d', rfl⟩ := Nat.exists_eq_add_of_le' (show 1 ≤ d by omega)
            have hright := (prepare_comparison hc (by omega)).symm.trans hcmp
            refine hn d' (by omega) _ _ _ _ (hr.agree fun x hx => hsame x ?_ (hr.lt_length x hx))
              hright
            exact fun heq => ha (heq ▸ hx)
    next hbrackets =>
      cases hl' : prepared subProperties l with
      | error e' =>
        obtain ⟨n, hn⟩ := ihl hl'
        refine ⟨n + 1, fun depth hdepth heap heap' F p h hok => ?_⟩
        cases h with
        | node ho hl hr _ _ _ =>
          obtain ⟨d, heap₁, heap₂, hd, hrange, hleft, -⟩ := prepare_eq_ok ho hok
          rw [replaceRange_of_not hl.reads (Bool.eq_false_of_not_eq_true hbrackets)] at hrange
          cases hrange
          rw [ho] at hleft
          exact hn d (by omega) _ _ _ _ hl hleft
      | ok l' =>
        rw [hl'] at ht
        cases hr' : prepared subProperties r with
        | ok r' =>
          rw [hr'] at ht
          cases ht
        | error e' =>
          obtain ⟨n, hn⟩ := ihr hr'
          refine ⟨n + height l' + 1, fun depth hdepth heap heap' F p h hok => ?_⟩
          cases h with
          | node ho hl hr hdisj haL _ =>
            obtain ⟨d, heap₁, heap₂, hd, hrange, hleft, hright⟩ := prepare_eq_ok ho hok
            rw [replaceRange_of_not hl.reads (Bool.eq_false_of_not_eq_true hbrackets)] at hrange
            cases hrange
            obtain ⟨heap₃, hpl, hml⟩ := prepareAt_spec hl hl' (show height l' ≤ d by omega)
            rw [ho] at hleft
            cases hpl.symm.trans hleft
            rw [(hml.same _ haL (List.getElem?_eq_some_iff.mp ho).1).trans ho] at hright
            exact hn d (by omega) _ _ _ _ (hr.agree fun x hx =>
              hml.same x (fun hx' => hdisj x hx' hx) (hr.lt_length x hx)) hright

end

end

/-- `prepare_subproperties` of a tree as it is parsed. -/
def InAnyOf (order : Order) (onto : Onto) (tta : TTA) : Prop :=
  ∃ a heap' t', (build tta []).1 = some a ∧
    (∃ n, ∀ depth ≥ n, prepareSubproperties (fun p => order.keys (onto.getSubProperies p)) depth
      (build tta []).2 a = .ok heap') ∧
    Reads heap' Set.univ (some a) t' ∧ Turned onto.getSubProperies tta t' ∧ Full t'

section
variable {order : Order} {onto : Onto} {op : String} {decor : Decor} {l r : TTA}

/-- What is found in the heap is the rewritten tree. -/
theorem inAnyOf_iff_prepared : InAnyOf order onto (.node op decor l r) ↔
    ∃ t', prepared (fun p => order.keys (onto.getSubProperies p)) (.node op decor l r) = .ok t' ∧
      Turned onto.getSubProperies (.node op decor l r) t' ∧ Full t' := by
  obtain ⟨F, -, -, -, howns⟩ := owns_build (.node op decor l r) []
  constructor
  · rintro ⟨a, heap', t', ha, ⟨n, hn⟩, hreads, hturned, hfull⟩
    cases ht : prepared (fun p => order.keys (onto.getSubProperies p)) (.node op decor l r) with
    | error e =>
      obtain ⟨m, hm⟩ := prepareAt_ne_ok ht
      refine (hm (max n m) (Nat.le_max_right _ _) _ heap' _ _ howns ?_).elim
      rw [ha]
      exact hn _ (Nat.le_max_left _ _)
    | ok t'' =>
      obtain ⟨heap'', hok, hmakes⟩ := prepareAt_spec howns ht (Nat.le_max_right n (height t''))
      rw [ha] at hok hmakes
      cases (hn _ (Nat.le_max_left _ _)).symm.trans hok
      cases hreads.unique hmakes.reads
      exact ⟨t', rfl, hturned, hfull⟩
  · rintro ⟨t', ht, hturned, hfull⟩
    obtain ⟨heap', hok, hmakes⟩ := prepareAt_spec howns ht (Nat.le_refl _)
    have ha : (build (.node op decor l r) []).1 =
        some (build r (build l []).2).2.length := rfl
    refine ⟨_, heap', t', ha, ⟨height t', fun depth hdepth => ?_⟩,
      ha ▸ hmakes.reads.mono (Set.subset_univ _), hturned, hfull⟩
    exact prepareAt_mono (p := some _) hok hdepth

/-- A search in subproperties is one in any of them where every property in brackets that is
compared has subproperties, and where brackets stand on the left side of nothing else. -/
theorem inAnyOf_iff (order : Order) (onto : Onto) (op : String) (decor : Decor) (l r : TTA) :
    InAnyOf order onto (.node op decor l r) ↔
      Ready onto.getSubProperies (.node op decor l r) := by
  have hperm (p : String) :
      (order.keys (onto.getSubProperies p)).Perm (onto.getSubProperies p) := order.perm _
  constructor
  · intro h
    obtain ⟨t', ht, hturned, hfull⟩ := inAnyOf_iff_prepared.mp h
    exact ready_of_turned hperm ht hturned hfull
  · exact fun h => inAnyOf_iff_prepared.mpr (prepared_of_ready hperm h)

/-- `[p] == 'x'` for a property that has no subproperties: the second side of the disjunction stays
an operator without sides. -/
theorem not_inAnyOf : ¬ InAnyOf ⟨id, fun l => .refl l⟩ Onto.new
    (.node "==" .none (.node "p" .range .null .null) (.node "x" .quoted .null .null)) := by
  intro h
  obtain ⟨t', ht, hturned, hfull⟩ := inAnyOf_iff_prepared.mp h
  have hready := ready_of_turned (fun _ => .refl _) ht hturned hfull
  obtain ⟨-, ⟨el, -, hne⟩, -⟩ := hready
  exact hne rfl

end

end Veda.Search.Subproperties
