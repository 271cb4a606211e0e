import Veda.Lib.Closure

/-! # What goes when a root goes

Elements need one another, in any way, and one of them, the root, which none needs, goes. With it
goes what only elements that go have needed (`Freed`); what such an element needs and another one
needs too is held. Where all that goes is needed once (`Straight`), it goes in any order. -/

namespace Veda.Release

open Relation

variable {α : Type u}

/-- The root, and what is needed by such an element and by no other one apart from itself. -/
inductive Freed (needs : α → α → Prop) (root : α) : α → Prop
  | root : Freed needs root root
  | dep : Freed needs root a → needs a x → (∀ b, needs b x → b ≠ x → Freed needs root b) →
      Freed needs root x

/-- Another element that needs it does not go. -/
def Held (needs : α → α → Prop) (root x : α) : Prop := ∃ b, b ≠ x ∧ needs b x ∧ ¬Freed needs root b

/-- There is a way from the element to a cycle. -/
def Cyclic (needs : α → α → Prop) (x : α) : Prop :=
  ∃ c, ReflTransGen needs x c ∧ TransGen needs c c

/-- A way from the root on which each element is needed by the one before it only; the last element
comes first. -/
inductive Straight (needs : α → α → Prop) (root : α) : List α → Prop
  | root : Straight needs root [root]
  | cons : Straight needs root (a :: p) → needs a x → (∀ b, needs b x → b = a) →
      x ∉ a :: p → Straight needs root (x :: a :: p)

variable {needs : α → α → Prop} {root a b x : α} {p : List α}

/-! ## What is freed and what is held -/

section
variable (hroot : ∀ a, ¬needs a root)
include hroot

theorem Freed.above (h : Freed needs root x) (hb : needs b x) (hne : b ≠ x) :
    Freed needs root b := by
  cases h with
  | root => exact absurd hb (hroot b)
  | dep _ _ hall => exact hall b hb hne

theorem Held.not_freed (h : Held needs root x) : ¬Freed needs root x := by
  obtain ⟨b, hne, hb, hf⟩ := h
  exact fun hx => hf (hx.above hroot hb hne)

end

/-- What a freed element needs is freed or held. -/
theorem Freed.held (h : Freed needs root a) (ha : needs a x) (hx : ¬Freed needs root x) :
    Held needs root x := by
  by_contra hh
  refine hx (.dep h ha fun b hb hne => ?_)
  by_contra hf
  exact hh ⟨b, hne, hb, hf⟩

/-- What a held element needs is held. -/
theorem Held.below (hroot : ∀ a, ¬needs a root) (h : Held needs root a) (ha : needs a x) :
    Held needs root x := by
  rcases eq_or_ne a x with rfl | hne
  · exact h
  · exact ⟨a, hne, ha, h.not_freed hroot⟩

/-- What the root needs, directly or not, is freed or held. -/
theorem held_of_trans (hroot : ∀ a, ¬needs a root) (h : TransGen needs root x)
    (hx : ¬Freed needs root x) : Held needs root x := by
  induction h with
  | single h => exact Freed.root.held h hx
  | @tail y z _ hyz ih =>
    by_cases hy : Freed needs root y
    · exact hy.held hyz hx
    · exact (ih hy).below hroot hyz

theorem Cyclic.of_needs (h : needs a x) (hx : Cyclic needs x) : Cyclic needs a := by
  obtain ⟨c, hc, hcc⟩ := hx
  exact ⟨c, .head h hc, hcc⟩

/-- Elements from which there is no way to a cycle need no cycle. -/
theorem acyclic_not_cyclic : Closure.Acyclic fun a x => needs a x ∧ ¬Cyclic needs a := by
  intro x hx
  have hn : ¬Cyclic needs x := by
    cases hx using TransGen.head_induction_on with
    | single h => exact h.2
    | head h _ _ => exact h.2
  exact hn ⟨x, .refl, hx.lift id fun _ _ h => h.1⟩

/-- Freed elements that are needed once are on no cycle. -/
theorem acyclic_freed (hroot : ∀ a, ¬needs a root)
    (hsingle : ∀ a b x, Freed needs root x → needs a x → needs b x → a = b) :
    Closure.Acyclic fun a x => needs a x ∧ Freed needs root x := by
  intro x hx
  have hf : Freed needs root x := by
    cases hx with
    | single h => exact h.2
    | tail _ h => exact h.2
  induction hf with
  | root =>
    cases hx with
    | single h => exact hroot _ h.1
    | tail _ h => exact hroot _ h.1
  | @dep a x ha hax hall ih _ =>
    have hfx := Freed.dep ha hax hall
    cases hx with
    | single h =>
      obtain rfl := hsingle _ _ _ hfx hax h.1
      exact ih (.single h)
    | tail hx h =>
      obtain rfl := hsingle _ _ _ hfx hax h.1
      exact ih (.head h hx)

/-! ## Straight ways -/

namespace Straight

theorem nodup (h : Straight needs root p) : p.Nodup := by
  induction h with
  | root => exact List.nodup_singleton root
  | cons _ _ _ hx ih => exact List.nodup_cons.2 ⟨hx, ih⟩

theorem freed (h : Straight needs root p) : ∀ x ∈ p, Freed needs root x := by
  induction h with
  | root =>
    intro x hx
    rw [List.mem_singleton.1 hx]
    exact .root
  | @cons a p x _ hax hone _ ih =>
    intro y hy
    obtain rfl | hy := List.mem_cons.1 hy
    · refine .dep (ih a List.mem_cons_self) hax fun b hb _ => ?_
      rw [hone b hb]
      exact ih a List.mem_cons_self
    · exact ih y hy

/-- What needs an element of the way comes before it on the way. -/
theorem mem_tail (hroot : ∀ a, ¬needs a root) (h : Straight needs root p) :
    ∀ x ∈ p, ∀ b, needs b x → b ∈ p.tail := by
  induction h with
  | root =>
    intro x hx b hb
    rw [List.mem_singleton.1 hx] at hb
    exact absurd hb (hroot b)
  | cons _ _ hone _ ih =>
    intro y hy b hb
    obtain rfl | hy := List.mem_cons.1 hy
    · rw [hone b hb]
      exact List.mem_cons_self
    · exact List.mem_of_mem_tail (ih y hy b hb)

/-- What the last element needs is not on the way. -/
theorem not_mem (hroot : ∀ a, ¬needs a root) (h : Straight needs root (a :: p)) (hx : needs a x) :
    x ∉ a :: p :=
  fun hm => (List.nodup_cons.1 h.nodup).1 (h.mem_tail hroot x hm a hx)

/-- An element of the way is needed once. -/
theorem single (hroot : ∀ a, ¬needs a root) (h : Straight needs root (x :: p)) (ha : needs a x)
    (hb : needs b x) : a = b := by
  cases h with
  | root => exact absurd ha (hroot a)
  | cons _ _ hone _ => rw [hone a ha, hone b hb]

/-- The way to an element of the way. -/
theorem exists_suffix (h : Straight needs root p) :
    ∀ b ∈ p, ∃ q, Straight needs root (b :: q) ∧ (b :: q) <:+ p := by
  induction h with
  | root =>
    intro b hb
    rw [List.mem_singleton.1 hb]
    exact ⟨[], .root, List.suffix_rfl⟩
  | @cons a p x h hax hone hx ih =>
    intro b hb
    obtain rfl | hb := List.mem_cons.1 hb
    · exact ⟨a :: p, .cons h hax hone hx, List.suffix_rfl⟩
    · obtain ⟨q, hq, hs⟩ := ih b hb
      exact ⟨q, hq, hs.trans (List.suffix_cons x _)⟩

end Straight

/-- There is a straight way to every freed element, or there is one to an element from which on a
freed element is needed by one that is not on the way. -/
theorem Freed.straight_or (hroot : ∀ a, ¬needs a root) (h : Freed needs root x) :
    (∃ p, Straight needs root (x :: p)) ∨
      ∃ a p x b, Straight needs root (a :: p) ∧ needs a x ∧ Freed needs root x ∧ needs b x ∧
        b ∉ a :: p := by
  induction h with
  | root => exact .inl ⟨[], .root⟩
  | @dep a x ha hax hall ih _ =>
    obtain ⟨p, hp⟩ | hbad := ih
    · by_cases hone : ∀ b, needs b x → b = a
      · exact .inl ⟨a :: p, hp.cons hax hone (hp.not_mem hroot hax)⟩
      · push Not at hone
        obtain ⟨b, hb, hne⟩ := hone
        have hfx := Freed.dep ha hax hall
        by_cases hbp : b ∈ a :: p
        · have hbp := List.mem_of_ne_of_mem hne hbp
          obtain ⟨q, hq, hs⟩ := hp.exists_suffix b (List.mem_cons_of_mem a hbp)
          refine .inr ⟨b, q, x, a, hq, hb, hfx, hax, fun haq => ?_⟩
          -- The way to `a` would go on beyond `a`.
          have hs' : (b :: q) <:+ p := by
            obtain hs | hs := List.suffix_cons_iff.1 hs
            · exact absurd (List.cons.inj hs).1 hne
            · exact hs
          exact (List.nodup_cons.1 hp.nodup).1 (hs'.mem haq)
        · exact .inr ⟨a, p, x, b, hp, hax, hfx, hb, hbp⟩
    · exact .inr hbad

end Veda.Release
