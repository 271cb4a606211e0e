import Mathlib.Logic.Basic

/-! # Loops with early exit

A loop body either goes on with a new state or leaves the enclosing function with a result.
`Step.loop` runs a body over a list in order. The rules below are the ones a proof about such
a loop needs: an invariant rule (`loop_sat`) and a rule that relates the loop to a plain fold
over an abstract state (`loop_sim`). -/

namespace Veda

/-- The outcome of one pass through a loop body. -/
inductive Step (σ ρ : Type) where
  | next (s : σ)
  | done (r : ρ) (s : σ)

namespace Step

variable {σ ρ α τ : Type}

/-- Run a loop body over a list, stopping at the first `done`. -/
def loop (f : α → σ → Step σ ρ) : List α → σ → Step σ ρ
  | [], s => .next s
  | a :: as, s =>
    match f a s with
    | .next s => loop f as s
    | .done r s => .done r s

@[simp] theorem loop_nil (f : α → σ → Step σ ρ) (s : σ) : loop f [] s = .next s := rfl

theorem loop_cons_next {f : α → σ → Step σ ρ} (h : f a s = .next s') :
    loop f (a :: as) s = loop f as s' := by simp [loop, h]

theorem loop_cons_done {f : α → σ → Step σ ρ} (h : f a s = .done r s') :
    loop f (a :: as) s = .done r s' := by simp [loop, h]

/-- The outcome satisfies `P` when the loop goes on and `Q` when it is left. -/
def Sat (P : σ → Prop) (Q : ρ → σ → Prop) : Step σ ρ → Prop
  | .next s => P s
  | .done r s => Q r s

@[simp] theorem sat_next {P : σ → Prop} {Q : ρ → σ → Prop} : (next s).Sat P Q ↔ P s := .rfl

@[simp] theorem sat_done {P : σ → Prop} {Q : ρ → σ → Prop} : (done r s).Sat P Q ↔ Q r s := .rfl

theorem Sat.mono {P P' : σ → Prop} {Q Q' : ρ → σ → Prop} {x : Step σ ρ} (h : x.Sat P Q)
    (hP : ∀ s, P s → P' s) (hQ : ∀ r s, Q r s → Q' r s) : x.Sat P' Q' := by
  cases x with
  | next s => exact hP s h
  | done r s => exact hQ r s h

/-- One turn of a loop. -/
theorem loop_cons_sat {f : α → σ → Step σ ρ} {P : σ → Prop} {Q : ρ → σ → Prop}
    (h : (f a s).Sat (fun s' => (loop f as s').Sat P Q) Q) : (loop f (a :: as) s).Sat P Q := by
  cases hf : f a s with
  | next s' =>
    rw [loop_cons_next hf]
    rw [hf] at h
    exact h
  | done r s' =>
    rw [loop_cons_done hf]
    rw [hf] at h
    exact h

/-- The invariant rule. -/
theorem loop_sat {f : α → σ → Step σ ρ} {P : σ → Prop} {Q : ρ → σ → Prop} {l : List α}
    (hstep : ∀ a ∈ l, ∀ s, P s → (f a s).Sat P Q) (h : P s) : (loop f l s).Sat P Q := by
  induction l generalizing s with
  | nil => exact h
  | cons a l ih =>
    refine loop_cons_sat ((hstep a List.mem_cons_self s h).mono (fun s' hs' => ?_) fun _ _ h => h)
    exact ih (fun b hb => hstep b (List.mem_cons_of_mem _ hb)) hs'

/-- The simulation rule: a loop against a fold over an abstract state. While the loop goes on
it stays in the relation `R`; once it is left, `Q` holds of the concrete state and of the
abstract state, and `Q` survives what the fold still does. -/
theorem loop_sim {f : α → σ → Step σ ρ} {g : τ → α → τ} {R : σ → τ → Prop}
    {Q : ρ → σ → τ → Prop} {l : List α}
    (hstep : ∀ a ∈ l, ∀ s t, R s t → (f a s).Sat (R · (g t a)) (Q · · (g t a)))
    (hrest : ∀ a ∈ l, ∀ r s t, Q r s t → Q r s (g t a)) (h : R s t) :
    (loop f l s).Sat (R · (l.foldl g t)) (Q · · (l.foldl g t)) := by
  induction l generalizing s t with
  | nil => exact h
  | cons a l ih =>
    have ha := hstep a List.mem_cons_self s t h
    have hrest' : ∀ b ∈ l, ∀ r s t, Q r s t → Q r s (g t b) :=
      fun b hb => hrest b (List.mem_cons_of_mem _ hb)
    refine loop_cons_sat (ha.mono (fun s' hs' => ?_) fun r s' hq => ?_)
    · exact ih (fun b hb => hstep b (List.mem_cons_of_mem _ hb)) hrest' hs'
    · -- the loop is left, and the fold goes on
      exact List.foldlRecOn l g hq fun t ht b hb => hrest' b hb r s' t ht

end Step

end Veda
