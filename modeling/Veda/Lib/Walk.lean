import Mathlib.Data.Nat.Init
import Mathlib.Data.Option.Basic

/-! # Walks through a graph

A walk enters a node, which changes the state, and may then visit the nodes below it one after the
other, up to one that stops it. Nothing keeps it from visiting a node again, so that it need not
come to an end: it has no result where the fuel does not suffice. Below are an invariant rule for
its results (`visit_keeps`), a rule to show that it ends (`loopEnds`), and one that relates two
walks (`visit_sim`). -/

namespace Veda

structure Walk (α : Type u) (σ : Type v) where
  enter : α → σ → σ
  /-- Whether the nodes below are visited, in the state in which the node is left. -/
  descends : α → σ → Bool
  /-- Whether the nodes that come after this one are skipped. -/
  stops : α → σ → Bool
  below : α → List α

namespace Walk

variable {α : Type u} {σ : Type v} {τ : Type v'}

/-- The nodes of a list are visited up to one that stops the loop. -/
def loop (w : Walk α σ) (f : α → σ → Option σ) : List α → σ → Option σ
  | [], s => some s
  | x :: xs, s =>
    match f x s with
    | none => none
    | some s => if w.stops x s then some s else loop w f xs s

def visit (w : Walk α σ) : ℕ → α → σ → Option σ
  | 0, _, _ => none
  | fuel + 1, x, s =>
    if w.descends x (w.enter x s) then w.loop (w.visit fuel) (w.below x) (w.enter x s)
    else some (w.enter x s)

/-- The visit comes to an end with `Q`. -/
def Ends (w : Walk α σ) (x : α) (s : σ) (Q : σ → Prop) : Prop :=
  ∃ fuel s', w.visit fuel x s = some s' ∧ Q s'

def LoopEnds (w : Walk α σ) (xs : List α) (s : σ) (Q : σ → Prop) : Prop :=
  ∃ fuel s', w.loop (w.visit fuel) xs s = some s' ∧ Q s'

variable {w : Walk α σ} {x : α} {xs : List α} {s s' : σ} {fuel fuel' : ℕ} {Q Q' : σ → Prop}
  {f g : α → σ → Option σ}

theorem loop_cons (h : f x s = some s') :
    w.loop f (x :: xs) s = if w.stops x s' then some s' else w.loop f xs s' := by
  simp only [loop, h]

/-- What the loop over a list with a first node has done. -/
theorem loop_cons_cases (h : w.loop f (x :: xs) s = some s') :
    ∃ s₁, f x s = some s₁ ∧
      (w.stops x s₁ = true ∧ s' = s₁ ∨ w.stops x s₁ = false ∧ w.loop f xs s₁ = some s') := by
  cases hx : f x s with
  | none => simp [loop, hx] at h
  | some s₁ =>
    rw [loop_cons hx] at h
    refine ⟨s₁, rfl, ?_⟩
    cases hs : w.stops x s₁ with
    | true =>
      rw [hs, if_pos rfl] at h
      exact .inl ⟨rfl, (Option.some.inj h).symm⟩
    | false =>
      rw [hs, if_neg (by simp)] at h
      exact .inr ⟨rfl, h⟩

theorem visit_of_descends (h : w.descends x (w.enter x s) = true) :
    w.visit (fuel + 1) x s = w.loop (w.visit fuel) (w.below x) (w.enter x s) := by
  simp only [visit, h, if_true]

theorem visit_of_not_descends (h : w.descends x (w.enter x s) = false) :
    w.visit (fuel + 1) x s = some (w.enter x s) := by
  simp [visit, h]

/-- What a visit has done. -/
theorem visit_cases (h : w.visit fuel x s = some s') :
    ∃ n, fuel = n + 1 ∧
      (w.descends x (w.enter x s) = true ∧
          w.loop (w.visit n) (w.below x) (w.enter x s) = some s' ∨
        w.descends x (w.enter x s) = false ∧ s' = w.enter x s) := by
  cases fuel with
  | zero => cases h
  | succ n =>
    refine ⟨n, rfl, ?_⟩
    cases hd : w.descends x (w.enter x s) with
    | true => exact .inl ⟨rfl, visit_of_descends hd ▸ h⟩
    | false => exact .inr ⟨rfl, (Option.some.inj (visit_of_not_descends hd ▸ h)).symm⟩

/-! ## Fuel -/

theorem loop_mono (hfg : ∀ x s s', f x s = some s' → g x s = some s')
    (h : w.loop f xs s = some s') : w.loop g xs s = some s' := by
  induction xs generalizing s with
  | nil => exact h
  | cons x xs ih =>
    obtain ⟨s₁, hx, ⟨hs, rfl⟩ | ⟨hs, hxs⟩⟩ := loop_cons_cases h
    · rw [loop_cons (hfg _ _ _ hx), hs, if_pos rfl]
    · rw [loop_cons (hfg _ _ _ hx), hs, if_neg (by simp)]
      exact ih hxs

/-- More fuel changes no result. -/
theorem visit_mono (hle : fuel ≤ fuel') (h : w.visit fuel x s = some s') :
    w.visit fuel' x s = some s' := by
  induction fuel generalizing fuel' x s s' with
  | zero => cases h
  | succ fuel ih =>
    obtain ⟨n, rfl⟩ := Nat.exists_eq_add_of_le' hle
    rw [← Nat.add_assoc]
    obtain ⟨_, hn, ⟨hd, hl⟩ | ⟨hd, rfl⟩⟩ := visit_cases h
    · obtain rfl := Nat.succ.inj hn
      rw [visit_of_descends hd]
      exact loop_mono (fun x s s' => ih (Nat.le_add_left _ n)) hl
    · rw [visit_of_not_descends hd]

/-- The result does not depend on the fuel. -/
theorem visit_inj {t t' : σ} (h : w.visit fuel x s = some t) (h' : w.visit fuel' x s = some t') :
    t = t' := by
  have ht := visit_mono (Nat.le_max_left fuel fuel') h
  rw [visit_mono (Nat.le_max_right fuel fuel') h'] at ht
  exact (Option.some.inj ht).symm

/-! ## What is true of every result -/

theorem loop_keeps {I : σ → Prop} (hf : ∀ x ∈ xs, ∀ s s', I s → f x s = some s' → I s') (hs : I s)
    (h : w.loop f xs s = some s') : I s' := by
  induction xs generalizing s with
  | nil =>
    cases h
    exact hs
  | cons x xs ih =>
    obtain ⟨s₁, hx, hrest⟩ := loop_cons_cases h
    have hs₁ := hf x List.mem_cons_self s s₁ hs hx
    obtain ⟨-, rfl⟩ | ⟨-, hl⟩ := hrest
    · exact hs₁
    · exact ih (fun y hy => hf y (List.mem_cons_of_mem _ hy)) hs₁ hl

/-- The invariant rule, for walks that stay in `V`. -/
theorem visit_keeps {I : σ → Prop} {V : α → Prop} (hV : ∀ x y, V x → y ∈ w.below x → V y)
    (henter : ∀ x s, V x → I s → I (w.enter x s)) (hx : V x) (hs : I s)
    (h : w.visit fuel x s = some s') : I s' := by
  induction fuel generalizing x s s' with
  | zero => cases h
  | succ fuel ih =>
    have hs₁ := henter x s hx hs
    obtain ⟨_, hn, ⟨-, hl⟩ | ⟨-, rfl⟩⟩ := visit_cases h
    · obtain rfl := Nat.succ.inj hn
      exact loop_keeps (fun y hy _ _ => ih (hV x y hx hy)) hs₁ hl
    · exact hs₁

/-! ## Coming to an end -/

theorem Ends.mono (h : w.Ends x s Q) (hQ : ∀ s, Q s → Q' s) : w.Ends x s Q' := by
  obtain ⟨fuel, s', hv, hs'⟩ := h
  exact ⟨fuel, s', hv, hQ s' hs'⟩

theorem LoopEnds.mono (h : w.LoopEnds xs s Q) (hQ : ∀ s, Q s → Q' s) : w.LoopEnds xs s Q' := by
  obtain ⟨fuel, s', hv, hs'⟩ := h
  exact ⟨fuel, s', hv, hQ s' hs'⟩

theorem LoopEnds.ends (h : w.LoopEnds (w.below x) (w.enter x s) Q)
    (hd : w.descends x (w.enter x s) = true) : w.Ends x s Q := by
  obtain ⟨fuel, s', hl, hs'⟩ := h
  exact ⟨fuel + 1, s', by rw [visit_of_descends hd, hl], hs'⟩

theorem ends_of_not_descends (hd : w.descends x (w.enter x s) = false) (hQ : Q (w.enter x s)) :
    w.Ends x s Q :=
  ⟨1, _, visit_of_not_descends hd, hQ⟩

/-- The rule of the loop: the invariant speaks of the nodes that are still to be visited. -/
theorem loopEnds {I : List α → σ → Prop} (hnil : ∀ s, I [] s → Q s)
    (hcons : ∀ x xs s, I (x :: xs) s →
      w.Ends x s fun s' => (w.stops x s' = true → Q s') ∧ (w.stops x s' = false → I xs s'))
    (h : I xs s) : w.LoopEnds xs s Q := by
  induction xs generalizing s with
  | nil => exact ⟨0, s, rfl, hnil s h⟩
  | cons x xs ih =>
    obtain ⟨n, s₁, hx, hstop, hgo⟩ := hcons x xs s h
    cases hs : w.stops x s₁ with
    | true =>
      refine ⟨n, s₁, ?_, hstop hs⟩
      rw [loop_cons hx, hs, if_pos rfl]
    | false =>
      obtain ⟨n', s', hl, hs'⟩ := ih (hgo hs)
      refine ⟨max n n', s', ?_, hs'⟩
      rw [loop_cons (visit_mono (Nat.le_max_left n n') hx), hs, if_neg (by simp)]
      exact loop_mono (fun _ _ _ => visit_mono (Nat.le_max_right n n')) hl

/-! ## Two walks -/

section Simulation

variable {w' : Walk α τ} {R : σ → τ → Prop} {t : τ} {g : α → τ → Option τ}

theorem loop_sim (hf : ∀ x ∈ xs, ∀ s t, R s t → Option.Rel R (f x s) (g x t))
    (hstops : ∀ x ∈ xs, ∀ s t, R s t → w'.stops x t = w.stops x s) (h : R s t) :
    Option.Rel R (w.loop f xs s) (w'.loop g xs t) := by
  induction xs generalizing s t with
  | nil => exact .some h
  | cons x xs ih =>
    have hx := hf x List.mem_cons_self s t h
    simp only [loop]
    generalize f x s = a, g x t = b at hx ⊢
    cases hx with
    | none => exact .none
    | @some s₁ t₁ h₁ =>
      simp only [hstops x List.mem_cons_self s₁ t₁ h₁]
      cases w.stops x s₁ with
      | true => exact .some h₁
      | false =>
        exact ih (fun y hy => hf y (List.mem_cons_of_mem _ hy))
          (fun y hy => hstops y (List.mem_cons_of_mem _ hy)) h₁

/-- A walk that does in related states what another one does, as long as it stays in `V`, after its
first node was entered. -/
theorem visit_sim {V : α → Prop} (hV : ∀ x y, V x → y ∈ w.below x → V y)
    (hbelow : ∀ x, V x → w'.below x = w.below x)
    (henter : ∀ x s t, V x → R s t → R (w.enter x s) (w'.enter x t))
    (hdescends : ∀ x s t, V x → R s t → w'.descends x t = w.descends x s)
    (hstops : ∀ x s t, V x → R s t → w'.stops x t = w.stops x s) (hx : V x)
    (h : R (w.enter x s) (w'.enter x t)) :
    Option.Rel R (w.visit fuel x s) (w'.visit fuel x t) := by
  induction fuel generalizing x s t with
  | zero => exact .none
  | succ fuel ih =>
    simp only [visit, hdescends x _ _ hx h, hbelow x hx]
    cases w.descends x (w.enter x s) with
    | true =>
      exact loop_sim (fun y hy s t hst => ih (hV x y hx hy) (henter y s t (hV x y hx hy) hst))
        (fun y hy s t => hstops y s t (hV x y hx hy)) h
    | false => exact .some h

end Simulation

end Walk

end Veda
