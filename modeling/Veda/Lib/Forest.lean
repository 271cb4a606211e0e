import Mathlib.Data.List.Nodup
import Mathlib.Logic.Function.Basic
import Mathlib.Logic.Relation

/-! # Forests

A forest on the natural numbers in which a node comes after its parent, and the walk down from some
of its nodes: what it visits, and that it visits nothing twice. -/

namespace Veda.Forest

open Relation

/-- The nodes that are reached from the given ones, each with the one it was reached from, down to
some depth. -/
def visit (children : ℕ → List ℕ) : ℕ → Option ℕ → List ℕ → List (Option ℕ × ℕ)
  | 0, _, _ => []
  | depth + 1, above, nodes => nodes.flatMap fun node =>
    (above, node) :: visit children depth (some node) (children node)

/-- The children of a node are those that have it as their parent. -/
structure IsForest (children : ℕ → List ℕ) (parent : ℕ → Option ℕ) : Prop where
  lt : ∀ {node above}, parent node = some above → above < node
  mem : ∀ {node above}, node ∈ children above ↔ parent node = some above
  nodup : ∀ above, (children above).Nodup

variable {children : ℕ → List ℕ} {parent : ℕ → Option ℕ} {depth node root : ℕ} {above : Option ℕ}
  {nodes : List ℕ}

theorem mem_visit_succ {p : Option ℕ × ℕ} :
    p ∈ visit children (depth + 1) above nodes ↔ ∃ root ∈ nodes, p = (above, root) ∨
      p ∈ visit children depth (some root) (children root) := by
  simp only [visit, List.mem_flatMap, List.mem_cons]

/-- What is above a node in a forest: itself, its parent, and so on. -/
abbrev Below (parent : ℕ → Option ℕ) : ℕ → ℕ → Prop :=
  ReflTransGen fun node above => parent node = some above

namespace IsForest
variable (h : IsForest children parent)
include h

theorem le_of_below (hbelow : Below parent node root) : root ≤ node := by
  induction hbelow with
  | refl => exact Nat.le_refl _
  | tail _ hparent ih => exact Nat.le_trans (Nat.le_of_lt (h.lt hparent)) ih

/-- Of two nodes with the same parent only one is above a node. -/
theorem eq_of_below {first second : ℕ} (hfirst : Below parent node first)
    (hsecond : Below parent node second) (hparent : parent first = parent second) :
    first = second := by
  have hdown : ∀ {a b : ℕ}, parent a = parent b → Below parent a b → a = b := by
    intro a b hab hbelow
    rcases hbelow.cases_head with heq | ⟨c, hc, hcb⟩
    · exact heq
    · exact absurd (h.le_of_below hcb) (Nat.not_le.mpr (h.lt (hab ▸ hc)))
  have huniq : Relator.RightUnique fun node above => parent node = some above :=
    fun _ _ _ h1 h2 => Option.some.inj (h1.symm.trans h2)
  rcases ReflTransGen.total_of_right_unique huniq hfirst hsecond with hbelow | hbelow
  · exact hdown hparent hbelow
  · exact (hdown hparent.symm hbelow).symm

theorem below_of_mem_visit {p : Option ℕ × ℕ} (hp : p ∈ visit children depth above nodes) :
    ∃ root ∈ nodes, Below parent p.2 root := by
  induction depth generalizing above nodes with
  | zero => exact absurd hp List.not_mem_nil
  | succ depth ih =>
    obtain ⟨root, hroot, rfl | hp⟩ := mem_visit_succ.mp hp
    · exact ⟨root, hroot, .refl⟩
    · obtain ⟨child, hchild, hbelow⟩ := ih hp
      exact ⟨root, hroot, hbelow.tail (h.mem.mp hchild)⟩

/-- A node is visited with its parent. -/
theorem fst_of_mem_visit {p : Option ℕ × ℕ} (hnodes : ∀ node ∈ nodes, parent node = above)
    (hp : p ∈ visit children depth above nodes) : p.1 = parent p.2 := by
  induction depth generalizing above nodes with
  | zero => exact absurd hp List.not_mem_nil
  | succ depth ih =>
    obtain ⟨root, hroot, rfl | hp⟩ := mem_visit_succ.mp hp
    · exact (hnodes root hroot).symm
    · exact ih (fun _ hchild => h.mem.mp hchild) hp

/-- Where the walk goes deep enough, it visits every node that is below one it starts at. -/
theorem mem_visit (hbelow : Below parent node root) (hroot : root ∈ nodes)
    (hnodes : ∀ node ∈ nodes, parent node = above) (hdepth : node < root + depth) :
    (parent node, node) ∈ visit children depth above nodes := by
  induction depth generalizing root above nodes with
  | zero => exact absurd (h.le_of_below hbelow) (Nat.not_le.mpr hdepth)
  | succ depth ih =>
    refine mem_visit_succ.mpr ⟨root, hroot, ?_⟩
    rcases hbelow.cases_tail with rfl | ⟨child, hchild, hparent⟩
    · exact .inl (congrArg (·, root) (hnodes root hroot))
    · have hlt := h.lt hparent
      exact .inr (ih hchild (h.mem.mpr hparent) (fun _ hchild => h.mem.mp hchild) (by omega))

/-- No node is visited twice. -/
theorem nodup_visit (hnodup : nodes.Nodup) (hnodes : ∀ node ∈ nodes, parent node = above) :
    (visit children depth above nodes).Nodup := by
  induction depth generalizing above nodes with
  | zero => exact List.nodup_nil
  | succ depth ih =>
    have hinner : ∀ root p, p ∈ (above, root) :: visit children depth (some root) (children root) →
        Below parent p.2 root := by
      intro root p hp
      rcases List.mem_cons.mp hp with rfl | hp
      · exact .refl
      · obtain ⟨child, hchild, hbelow⟩ := h.below_of_mem_visit hp
        exact hbelow.tail (h.mem.mp hchild)
    refine List.nodup_flatMap.mpr ⟨fun root _ => List.nodup_cons.mpr ⟨fun hself => ?_, ?_⟩, ?_⟩
    · obtain ⟨child, hchild, hbelow⟩ := h.below_of_mem_visit hself
      exact absurd (h.le_of_below hbelow) (Nat.not_le.mpr (h.lt (h.mem.mp hchild)))
    · exact ih (h.nodup root) fun _ hchild => h.mem.mp hchild
    · refine hnodup.imp_of_mem fun {first second} hfirst hsecond hne p hp hp' => ?_
      exact hne (h.eq_of_below (hinner first p hp) (hinner second p hp')
        ((hnodes first hfirst).trans (hnodes second hsecond).symm))

/-- New nodes become the children of a node that had none. -/
theorem extend {leaf n count : ℕ} (hleaf : children leaf = []) (hlt : leaf < n)
    (hnone : ∀ node, n ≤ node → parent node = none) :
    IsForest (Function.update children leaf (List.range' n count))
      fun node => if n ≤ node ∧ node < n + count then some leaf else parent node where
  lt {node above} hparent := by
    split at hparent
    next hnew =>
      cases hparent
      omega
    next => exact h.lt hparent
  mem {node above} := by
    rcases eq_or_ne above leaf with rfl | hne
    · rw [Function.update_self, List.mem_range'_1]
      split
      next hnew => exact ⟨fun _ => rfl, fun _ => hnew⟩
      next hold =>
        refine ⟨fun hnew => absurd hnew hold, fun hparent => ?_⟩
        exact absurd (hleaf ▸ h.mem.mpr hparent) List.not_mem_nil
    · rw [Function.update_of_ne hne, h.mem]
      split
      next hnew =>
        rw [hnone node hnew.1]
        exact ⟨nofun, fun heq => absurd (Option.some.inj heq).symm hne⟩
      next => exact Iff.rfl
  nodup above := by
    rcases eq_or_ne above leaf with rfl | hne
    · rw [Function.update_self]
      exact List.nodup_range'
    · rw [Function.update_of_ne hne]
      exact h.nodup above

end IsForest

end Veda.Forest
