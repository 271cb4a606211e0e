import Mathlib.Data.Fintype.Card
import Mathlib.Logic.Relation

/-! # Closures kept in both directions

A relation in which everything is finite and nothing is above itself, and a table of what is above
each element and what is below it. The table is brought up to date element by element: where an
element is recomputed, what is above it is replaced, and it is entered below what is above it now,
but it is taken out nowhere. -/

namespace Veda.Closure

open Relation

/-- Nothing is above itself. -/
def Acyclic (r : α → α → Prop) : Prop := ∀ x, ¬TransGen r x x

/-- A relation that goes down in height is acyclic. -/
theorem Acyclic.of_height {r : α → α → Prop} (height : α → ℕ)
    (h : ∀ x y, r x y → height y < height x) : Acyclic r := by
  have htrans : ∀ {x y}, TransGen r x y → height y < height x := by
    intro x y hxy
    induction hxy with
    | single hxy => exact h _ _ hxy
    | tail _ hyz ih => exact (h _ _ hyz).trans ih
  exact fun x hx => lt_irrefl _ (htrans hx)

/-- A cycle can be reached from `x`. -/
def LeadsToCycle (r : α → α → Prop) (x : α) : Prop := ∃ y, ReflTransGen r x y ∧ TransGen r y y

theorem LeadsToCycle.head {r : α → α → Prop} {x y : α} (hxy : r x y) (h : LeadsToCycle r y) :
    LeadsToCycle r x :=
  h.imp fun _ hz => ⟨.head hxy hz.1, hz.2⟩

/-- There is always a way on. -/
theorem LeadsToCycle.exists_next {r : α → α → Prop} {x : α} (h : LeadsToCycle r x) :
    ∃ y, r x y ∧ LeadsToCycle r y := by
  obtain ⟨z, hxz, hz⟩ := h
  have hx : TransGen r x z := TransGen.trans_right hxz hz
  obtain ⟨y, hxy, hyz⟩ := TransGen.head'_iff.mp hx
  exact ⟨y, hxy, z, hyz, hz⟩

theorem LeadsToCycle.mono {r r' : α → α → Prop} {x : α} (hr : ∀ x y, r x y → r' x y)
    (h : LeadsToCycle r x) : LeadsToCycle r' x :=
  h.imp fun _ hy => ⟨ReflTransGen.mono hr _ _ hy.1, TransGen.mono hr _ _ hy.2⟩

theorem Acyclic.not_leadsToCycle {r : α → α → Prop} (h : Acyclic r) (x : α) :
    ¬LeadsToCycle r x :=
  fun ⟨y, _, hy⟩ => h y hy

/-- In a finite relation an element from which no cycle can be reached has a height below the number
of elements that have something above them. -/
theorem exists_height (r : α → α → Prop) (s : Finset α) (hs : ∀ x y, r x y → x ∈ s) :
    ∃ height : α → ℕ, (∀ x, height x ≤ s.card) ∧
      ∀ x y, ¬LeadsToCycle r x → r x y → height y < height x := by
  classical
  refine ⟨fun x => (s.filter fun y => ReflTransGen r x y).card,
    fun x => Finset.card_le_card (Finset.filter_subset ..), fun x y hx hxy => ?_⟩
  apply Finset.card_lt_card
  rw [Finset.ssubset_iff_of_subset]
  · refine ⟨x, Finset.mem_filter.mpr ⟨hs x y hxy, .refl⟩, fun hmem => ?_⟩
    exact hx ⟨x, .refl, TransGen.head' hxy (Finset.mem_filter.mp hmem).2⟩
  · intro z hz
    obtain ⟨hzs, hyz⟩ := Finset.mem_filter.mp hz
    exact Finset.mem_filter.mpr ⟨hzs, .head hxy hyz⟩

/-- In a finite acyclic relation each element has such a height. -/
theorem Acyclic.exists_height {r : α → α → Prop} (h : Acyclic r) (s : Finset α)
    (hs : ∀ x y, r x y → x ∈ s) :
    ∃ height : α → ℕ, (∀ x, height x ≤ s.card) ∧ ∀ x y, r x y → height y < height x := by
  obtain ⟨height, hle, hlt⟩ := Closure.exists_height r s hs
  exact ⟨height, hle, fun x y => hlt x y (h.not_leadsToCycle x)⟩

/-- There is no infinite way up in a finite acyclic relation. -/
theorem Acyclic.wellFounded {r : α → α → Prop} (h : Acyclic r) (s : Finset α)
    (hs : ∀ x y, r x y → x ∈ s) : WellFounded fun y x => r x y := by
  obtain ⟨height, -, hheight⟩ := h.exists_height s hs
  exact Subrelation.wf (fun hyx => hheight _ _ hyx) (measure height).wf

/-- What is above each element and what is below it. -/
structure Table (α : Type u) where
  above : α → Set α
  below : α → Set α

namespace Table

/-- The table says of each element that `A` is above it. -/
structure Exact (A : α → Set α) (t : Table α) : Prop where
  above : ∀ x, t.above x = A x
  below : ∀ x e, x ∈ t.below e ↔ e ∈ A x

/-- In `t'` the elements of `V` are recomputed to what `A` says. -/
structure Recomputes (A : α → Set α) (V : Set α) (t t' : Table α) : Prop where
  above_of_mem : ∀ x ∈ V, t'.above x = A x
  above_of_not_mem : ∀ x ∉ V, t'.above x = t.above x
  below : ∀ x e, x ∈ t'.below e ↔ x ∈ t.below e ∨ (x ∈ V ∧ e ∈ A x)

variable {A B : α → Set α} {V W : Set α} {t t' t'' : Table α}

theorem Recomputes.refl (A : α → Set α) (t : Table α) : Recomputes A ∅ t t where
  above_of_mem _ h := h.elim
  above_of_not_mem _ _ := rfl
  below _ _ := (or_iff_left fun h => h.1).symm

theorem Recomputes.trans (h : Recomputes A V t t') (h' : Recomputes A W t' t'') :
    Recomputes A (V ∪ W) t t'' where
  above_of_mem x hx := by
    by_cases hw : x ∈ W
    · exact h'.above_of_mem x hw
    · rw [h'.above_of_not_mem x hw, h.above_of_mem x (hx.resolve_right hw)]
  above_of_not_mem x hx := by
    rw [h'.above_of_not_mem x fun hw => hx (.inr hw), h.above_of_not_mem x fun hv => hx (.inl hv)]
  below x e := by
    rw [h'.below, h.below, or_assoc, ← or_and_right]
    rfl

/-- Only what `A` says of the elements of `V` matters. -/
theorem Recomputes.congr (h : Recomputes A V t t') (hAB : ∀ x ∈ V, A x = B x) :
    Recomputes B V t t' where
  above_of_mem x hx := by rw [h.above_of_mem x hx, hAB x hx]
  above_of_not_mem := h.above_of_not_mem
  below x e := by
    rw [h.below]
    refine or_congr_right (and_congr_right fun hx => ?_)
    rw [hAB x hx]

/-- An exact table is exact after a recomputation exactly when nothing is taken away from above
any recomputed element and nothing changes above any other. -/
theorem Recomputes.exact_iff (h : Recomputes B V t t') (ht : t.Exact A) :
    t'.Exact B ↔ ∀ x, (x ∈ V → A x ⊆ B x) ∧ (x ∉ V → B x = A x) := by
  constructor
  · intro ht' x
    refine ⟨fun _ e he => ?_, fun hx => ?_⟩
    · exact (ht'.below x e).mp ((h.below x e).mpr (.inl ((ht.below x e).mpr he)))
    · rw [← ht'.above x, h.above_of_not_mem x hx, ht.above x]
  · intro hAB
    refine ⟨fun x => ?_, fun x e => ?_⟩
    · by_cases hx : x ∈ V
      · exact h.above_of_mem x hx
      · rw [h.above_of_not_mem x hx, ht.above x, (hAB x).2 hx]
    · rw [h.below, ht.below]
      by_cases hx : x ∈ V
      · exact ⟨fun he => he.elim (fun he => (hAB x).1 hx he) And.right, fun he => .inr ⟨hx, he⟩⟩
      · rw [(hAB x).2 hx]
        exact or_iff_left fun he => hx he.1

end Table

end Veda.Closure
