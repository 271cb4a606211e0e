import Mathlib.Data.Set.Insert
import Mathlib.Logic.Relation

/-! # Depth-first searches with a set of marks

A search from a node marks the nodes it meets and returns to a node only through its open calls,
so in the middle of a search a marked node is finished, or a call for it is still open.
`Explores` states this for a piece of a search, and its rules follow the shape of the loop over
the edges of a node: nothing happened (`refl`), the node marked itself (`mark_self`), a whole
call for a neighbour was made (`visit`). `Explores.reach` reads off what a finished search from
a root has found.

A `View` says where a program keeps its marks and results, and how it notes that it gave up.
`View.Explored` is `Explores` for a search that did not give up, and `View.foldl_explored` is the
rule for the loop over the edges of a node. -/

namespace Veda.Search

variable {α : Type} {E : α → α → Prop}

/-- Every edge of `x` leads to a marked node. -/
def Closed (E : α → α → Prop) (marks : Set α) (x : α) : Prop := ∀ y, E x y → y ∈ marks

theorem Closed.mono (h : Closed E M x) (hM : M ⊆ M') : Closed E M' x := fun y hy => hM (h y hy)

/-- A piece of a search that starts with the marks `M` and ends with the marks `M'` and the
results `R`. What it marked is finished and among the results, or one of the open nodes `O`. -/
structure Explores (E : α → α → Prop) (O R M M' : Set α) : Prop where
  mono : M ⊆ M'
  finished : ∀ x ∈ M', x ∈ M ∨ x ∈ O ∨ Closed E M' x ∧ x ∈ R

namespace Explores

variable {O R M M₁ M₂ : Set α}

theorem refl : Explores E O R M M := ⟨fun _ h => h, fun _ h => .inl h⟩

theorem trans {O' R' : Set α} (h₁ : Explores E O R M M₁) (h₂ : Explores E O' R' M₁ M₂)
    (hO : O' ⊆ O) (hR : R ⊆ R') : Explores E O R' M M₂ := by
  refine ⟨h₁.mono.trans h₂.mono, fun x hx => ?_⟩
  rcases h₂.finished x hx with hx | hx | hx
  · rcases h₁.finished x hx with h | h | h
    · exact .inl h
    · exact .inr (.inl h)
    · exact .inr (.inr ⟨h.1.mono h₂.mono, hR h.2⟩)
  · exact .inr (.inl (hO hx))
  · exact .inr (.inr hx)

/-- An open node is marked. -/
theorem mark_self (hO : x ∈ O) (hsub : M ⊆ M₁) (hmark : M₁ ⊆ insert x M) :
    Explores E O R M M₁ := by
  refine ⟨hsub, fun y hy => ?_⟩
  rcases hmark hy with rfl | hy
  · exact .inr (.inl hO)
  · exact .inl hy

/-- A neighbour is marked and searched by a call of its own. -/
theorem visit {R' : Set α} (h : Explores E {y} R' M₁ M₂) (hsub : M ⊆ M₁)
    (hmark : M₁ ⊆ insert y M) (hy : Closed E M₂ y) (hyR : y ∈ R) (hR : R' ⊆ R) :
    Explores E O R M M₂ := by
  refine ⟨hsub.trans h.mono, fun x hx => ?_⟩
  rcases h.finished x hx with hx | hx | hx
  · rcases hmark hx with rfl | hx
    · exact .inr (.inr ⟨hy, hyR⟩)
    · exact .inl hx
  · cases Set.mem_singleton_iff.mp hx
    exact .inr (.inr ⟨hy, hyR⟩)
  · exact .inr (.inr ⟨hx.1, hR hx.2⟩)

/-- A finished search from a root has found all that is reachable. -/
theorem reach (h : Explores E {root} R ∅ M) (hroot : Closed E M root)
    (hx : Relation.ReflTransGen E root x) : x = root ∨ x ∈ R := by
  have hclosed : ∀ y, y = root ∨ y ∈ M → Closed E M y ∧ (y = root ∨ y ∈ R) := by
    rintro y (rfl | hy)
    · exact ⟨hroot, .inl rfl⟩
    · rcases h.finished y hy with h | h | h
      · exact absurd h (Set.notMem_empty y)
      · cases Set.mem_singleton_iff.mp h
        exact ⟨hroot, .inl rfl⟩
      · exact ⟨h.1, .inr h.2⟩
  have hmark : x = root ∨ x ∈ M := by
    induction hx with
    | refl => exact .inl rfl
    | tail _ hbc ih => exact .inr ((hclosed _ ih).1 _ hbc)
  exact (hclosed x hmark).2

end Explores

/-- How to read a search off the states of a program. -/
structure View (σ α : Type) where
  marks : σ → Set α
  results : σ → Set α
  failed : σ → Bool

/-- The program has searched from `s` to `s'`, unless it gave up. -/
structure View.Explored (V : View σ α) (E : α → α → Prop) (O : Set α) (s s' : σ) : Prop where
  failed : V.failed s = true → V.failed s' = true
  explores : V.failed s' = false → Explores E O (V.results s') (V.marks s) (V.marks s')
  results : V.results s ⊆ V.results s'

namespace View

variable {σ β : Type} {V : View σ α} {O : Set α}

theorem Explored.of_eq {s s' : σ} (hfailed : V.failed s' = V.failed s)
    (hmarks : V.marks s' = V.marks s) (hresults : V.results s' = V.results s) :
    V.Explored E O s s' :=
  ⟨fun h => hfailed.trans h, fun _ => hmarks.symm ▸ .refl, hresults.symm ▸ fun _ h => h⟩

theorem Explored.trans {s s' s'' : σ} (h₁ : V.Explored E O s s') (h₂ : V.Explored E O s' s'') :
    V.Explored E O s s'' := by
  refine ⟨fun h => h₂.failed (h₁.failed h), fun h => ?_, h₁.results.trans h₂.results⟩
  have h' : V.failed s' = false := by
    cases hs : V.failed s' with
    | false => rfl
    | true => rw [h₂.failed hs] at h; cases h
  exact (h₁.explores h').trans (h₂.explores h) (fun _ h => h) h₂.results

/-- A loop over edges, where `T e y` says that the edge `e` has to be followed to `y`. -/
theorem foldl_explored {f : σ → β → σ} {T : β → α → Prop} (l : List β)
    (hstep : ∀ s, ∀ e ∈ l, V.Explored E O s (f s e) ∧
      (V.failed (f s e) = false → ∀ y, T e y → y ∈ V.marks (f s e))) (s : σ) :
    V.Explored E O s (l.foldl f s) ∧
      (V.failed (l.foldl f s) = false → ∀ e ∈ l, ∀ y, T e y → y ∈ V.marks (l.foldl f s)) := by
  induction l generalizing s with
  | nil => exact ⟨.of_eq rfl rfl rfl, by simp⟩
  | cons e l ih =>
    obtain ⟨hexp₁, hmark₁⟩ := hstep s e List.mem_cons_self
    obtain ⟨hexp₂, hmark₂⟩ := ih (fun s e he => hstep s e (List.mem_cons_of_mem _ he)) (f s e)
    refine ⟨hexp₁.trans hexp₂, fun hok e' he' y hy => ?_⟩
    rcases List.mem_cons.mp he' with rfl | he'
    · have hok₁ : V.failed (f s e') = false := by
        cases hs : V.failed (f s e') with
        | false => rfl
        | true => rw [List.foldl_cons, hexp₂.failed hs] at hok; cases hok
      exact (hexp₂.explores hok).mono (hmark₁ hok₁ y hy)
    · exact hmark₂ hok e' he' y hy

end View

end Veda.Search
