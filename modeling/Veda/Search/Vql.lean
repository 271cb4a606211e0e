import Mathlib.Data.List.TakeWhile
import Mathlib.Data.Set.Basic
import Veda.Search.XapianVql

/-! # Trees of comparisons

Trees of `&&` and `||` over comparisons of one property with one value, what they mean for a
document of the index, and the trees of which the translation loses nothing. -/

namespace Veda.Search.Xapian

open Vel (TTA Decor)

variable {V Q Doc : Type}

/-! ## Trees -/

/-- The texts that a node is translated by; any other text is a leaf. -/
def operators : List String := [">", "<", "==", "!=", "===", "&&", "||"]

/-- The characters that the query parser makes words of. -/
structure WordChars where
  is : Char → Bool
  alnum : ∀ c, c.isAlphanum → is c
  white : ∀ c, isWhite c → is c = false
  punct : ∀ c ∈ [':', '*', '-', '+', '&', '|', '<', '>', '=', '!', '"'], is c = false

/-- A word. -/
structure Word (chars : WordChars) where
  text : String
  ne : text ≠ ""
  all : ∀ c ∈ text.toList, chars.is c

/-- The words that the query parser reads as operators. -/
def queryOperators : List String := ["AND", "OR", "NOT", "XOR", "NEAR", "ADJ"]

/-- A word that is neither a boolean nor an operator of the query parser. -/
def Word.Plain {chars : WordChars} (w : Word chars) : Prop :=
  w.text ∉ ["true", "false"] ∧ w.text ∉ queryOperators

instance {chars : WordChars} (w : Word chars) : Decidable w.Plain := by
  unfold Word.Plain; infer_instance

section
variable {chars : WordChars} (w : Word chars)

theorem Word.toList_ne : w.text.toList ≠ [] := by
  intro h
  exact w.ne (String.toList_eq_nil_iff.mp h)

theorem Word.not_mem {c : Char} (hc : c ∈ [':', '*', '-', '+', '&', '|', '<', '>', '=', '!', '"']) :
    c ∉ w.text.toList := by
  intro h
  have := w.all c h
  rw [chars.punct c hc] at this
  cases this

theorem Word.has_eq {c : Char} (hc : c ∈ [':', '*', '-', '+', '&', '|', '<', '>', '=', '!', '"']) :
    has c w.text = false :=
  decide_eq_false (w.not_mem hc)

/-- The first character is a word character. -/
theorem Word.first_eq : ∃ c, first w.text = some c ∧ chars.is c := by
  cases h : w.text.toList with
  | nil => exact absurd h w.toList_ne
  | cons c s =>
    refine ⟨c, ?_, w.all c (h ▸ List.mem_cons_self)⟩
    rw [first, h]
    rfl

theorem dropWhile_white {s : List Char} (hs : ∀ c ∈ s, chars.is c) : s.dropWhile isWhite = s := by
  cases s with
  | nil => rfl
  | cons c s =>
    have hc : ¬isWhite c := by
      intro h
      have := hs c List.mem_cons_self
      rw [chars.white c h] at this
      cases this
    exact List.dropWhile_cons_of_neg hc

theorem Word.strip_eq : strip w.text = w.text := by
  have h : ∀ c ∈ w.text.toList.reverse, chars.is c := fun c hc => w.all c (List.mem_reverse.mp hc)
  rw [strip, dropWhile_white w.all, dropWhile_white h, List.reverse_reverse, String.ofList_toList]

theorem unitAt_mem {s : List Char} {i : ℕ} {c : Char} (h : unitAt s i = some c) : c ∈ s := by
  induction s generalizing i with
  | nil => cases h
  | cons d s ih =>
    rw [unitAt] at h
    split at h
    · cases h
      exact List.mem_cons_self
    · split at h
      · cases h
      · exact List.mem_cons_of_mem d (ih h)

theorem Word.isDate_eq : isDate w.text = false := by
  have h : ¬unitAt w.text.toList 4 = some '-' := fun h => w.not_mem (by decide) (unitAt_mem h)
  simp [isDate, h]

theorem Word.isUuid_eq : isUuid w.text = false := by
  have h : w.text.toList.dropWhile (· ≠ ':') = [] := by
    rw [List.dropWhile_eq_nil_iff]
    intro c hc
    refine decide_eq_true fun h => ?_
    exact w.not_mem (by decide) (h ▸ hc)
  rw [isUuid, h]

theorem Word.withSubClasses_eq (env : Env V Q) : withSubClasses env false w.text = w.text := by
  simp [withSubClasses, hasInside, w.has_eq (c := ':') (by decide)]

theorem Word.leaf : w.text ∉ operators := by
  obtain ⟨c, hc, hi⟩ := w.first_eq
  intro h
  have hp : c ∈ ['<', '>', '=', '!', '&', '|'] := by
    simp only [operators, List.mem_cons, List.not_mem_nil, or_false] at h
    rcases h with h | h | h | h | h | h | h
    all_goals
      rw [h] at hc
      cases hc
      decide
  have : chars.is c = false := by
    refine chars.punct c ?_
    revert hp
    simp only [List.mem_cons, List.not_mem_nil, or_false]
    tauto
  rw [this] at hi
  cases hi

end

/-- A text that parses is not tried again. -/
theorem parseQuery_eq {env : Env V Q} {text : String} {flags : Option ℕ}
    {pref : Option String} {q : Q}
    (hq : env.parseQuery text flags pref = (some q, 0)) :
    parseQuery env text flags pref = (some q, 0, text) := by
  simp only [parseQuery, hq]
  rfl

/-- A property that is indexed. -/
structure Property (env : Env V Q) where
  text : String
  decor : Decor
  leaf : text ∉ operators
  one : text ≠ "*" ∧ text ≠ "@"
  indexed : 0 < getSlot env.key2slot text

def Property.slot {env : Env V Q} (p : Property env) : ℤ := getSlot env.key2slot p.text

section
variable [Zero V] [One V]

/-- A number or a date. -/
structure Literal (env : Env V Q) where
  text : String
  decor : Decor
  value : V
  leaf : text ∉ operators
  type : getTokenType env text = .ok (.number, some value) ∨
    getTokenType env text = .ok (.date, some value)

inductive Dir where
  | above
  | below
  deriving DecidableEq

def Dir.text : Dir → String
  | .above => ">"
  | .below => "<"

/-- A comparison with `>` or `<`. -/
structure Bound (env : Env V Q) where
  property : Property env
  dir : Dir
  lit : Literal env

/-- A tree of comparisons. -/
inductive Vql (env : Env V Q) (chars : WordChars) where
  | bool (ne : Bool) (p : Property env) (b : Bool)
  | word (ne : Bool) (p : Property env) (w : Word chars)
  | bound (b : Bound env)
  | and (l r : Vql env chars)
  | or (l r : Vql env chars)

section
variable {env : Env V Q} {chars : WordChars}

def leaf (text : String) (decor : Decor) : TTA := .node text decor .null .null

/-- The text of `==` or of `!=`. -/
def equality (ne : Bool) : String := if ne then "!=" else "=="

/-- The tree as it is parsed. -/
def Vql.tta : Vql env chars → TTA
  | .bool ne p b =>
    .node (equality ne) .none (leaf p.text p.decor) (leaf (if b then "true" else "false") .none)
  | .word ne p w => .node (equality ne) .none (leaf p.text p.decor) (leaf w.text .quoted)
  | .bound b =>
    .node b.dir.text .none (leaf b.property.text b.property.decor) (leaf b.lit.text b.lit.decor)
  | .and l r => .node "&&" .none l.tta r.tta
  | .or l r => .node "||" .none l.tta r.tta

theorem Vql.tta_ne (q : Vql env chars) : q.tta ≠ .null := by
  cases q <;> nofun

/-! ## Meaning -/

/-- What is indexed of a document: the terms under each prefix, and the value in each slot. -/
structure Index (Doc V : Type) where
  term : String → String → Doc → Prop
  value : ℤ → Doc → Option V

/-- The prefix of the words of a property. -/
def Property.words (p : Property env) : String := "X" ++ toString p.slot ++ "X"

/-- The prefix of the booleans of a property. -/
def Property.booleans (p : Property env) : String := "X" ++ toString p.slot ++ "D"

def booleanTerm (b : Bool) : String := if b then "T" else "F"

section
variable [LE V] (index : Index Doc V)

def Bound.sat (b : Bound env) (d : Doc) : Prop :=
  ∃ x, index.value b.property.slot d = some x ∧
    match b.dir with
    | .above => b.lit.value ≤ x
    | .below => x ≤ b.lit.value

/-- The tree read as a formula. -/
def Vql.sat (d : Doc) : Vql env chars → Prop
  | .bool ne p b => Xor (ne = true) (index.term p.booleans (booleanTerm b) d)
  | .word ne p w => Xor (ne = true) (index.term p.words w.text d)
  | .bound b => b.sat index d
  | .and l r => l.sat d ∧ r.sat d
  | .or l r => l.sat d ∨ r.sat d

/-- The queries of Xapian select what they say: a word the documents that have its term, `NOT` the
others, a range the documents whose value is between the bounds, `AND` and `OR` the intersection and
the union. -/
structure Selects (env : Env V Q) (chars : WordChars) (sel : Q → Set Doc) : Prop where
  slots : env.key2slot ≠ []
  nontrivial : (0 : V) ≠ 1
  word (flags : ℕ) (pref : String) (w : Word chars) :
    flags ||| 55 = 55 → w.text ∉ queryOperators →
      ∃ q, env.parseQuery w.text (some flags) (some pref) = (some q, 0) ∧
        sel q = {d | index.term pref w.text d}
  notWord (flags : ℕ) (pref : String) (w : Word chars) :
    flags ||| 55 = 55 → flags &&& 33 = 33 → w.text ∉ queryOperators →
      ∃ q, env.parseQuery ("NOT " ++ w.text) (some flags) (some pref) = (some q, 0) ∧
        sel q = {d | ¬index.term pref w.text d}
  range (slot : ℤ) (low high : V) :
    ∃ q, env.newQueryRange slot (some low) (some high) = some q ∧
      sel q = {d | ∃ x, index.value slot d = some x ∧ low ≤ x ∧ x ≤ high}
  and_ (l r : Q) : ∃ q, env.addRightQuery .and l r = some q ∧ sel q = sel l ∩ sel r
  or_ (l r : Q) : ∃ q, env.addRightQuery .or l r = some q ∧ sel q = sel l ∪ sel r

end

/-! ## Bounds on their way up -/

/-- The bound that is still to be combined above a tree. -/
def Vql.pending : Vql env chars → Option (Bound env)
  | .bool .. | .word .. | .or .. => none
  | .bound b => some b
  | .and l r =>
    match l.pending, r.pending with
    | some b, none | none, some b => some b
    | _, _ => none

/-- The operator that a tree hands up: that of its leftmost bound. -/
def Vql.firstOp : Vql env chars → Option Dir
  | .bool .. | .word .. | .or .. => none
  | .bound b => some b.dir
  | .and l r => l.firstOp.or r.firstOp

/-- The bound that a tree consists of. -/
def Vql.single : Vql env chars → Option (Bound env)
  | .bound b => some b
  | _ => none

/-- Two bounds that meet make a range: the right one stands alone, both are on one property in
opposite directions, and the left one is the leftmost of its side. -/
def Vql.Meet (l r : Vql env chars) : Prop :=
  match l.pending, r.pending with
  | some b, some c =>
    r.single.isSome ∧ b.property.slot = c.property.slot ∧ b.dir ≠ c.dir ∧ l.firstOp = some b.dir
  | _, _ => True

/-- The trees of which no part loses a bound, a negation or a word. -/
def Vql.Fits : Vql env chars → Prop
  | .bool ne _ _ => ne = false
  | .word _ _ w => w.Plain
  | .bound _ => True
  | .and l r => l.Fits ∧ r.Fits ∧ Vql.Meet l r
  | .or l r => l.Fits ∧ r.Fits ∧ l.pending = none ∧ r.pending = none

end
end

end Veda.Search.Xapian
