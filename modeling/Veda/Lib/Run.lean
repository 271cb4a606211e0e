/-! # Runs of a system

A system takes a step for every event. `Along C` says of a run that its events meet a condition in
the state in which each happens, and `Throughout P` that every state it goes through has a
property. An invariant that is kept by the steps that meet a condition gives the second from the
first (`Along.throughout`), and properties of single steps likewise (`Along.of_invariant`). -/

namespace Veda.Run

universe u v

variable {σ : Type u} {ε : Type v} (step : ε → σ → σ)

/-- The state after the events. -/
def run (s : σ) : List ε → σ
  | [] => s
  | e :: es => run (step e s) es

/-- Every event meets `C` in the state in which it happens. -/
def Along (C : ε → σ → Prop) (s : σ) : List ε → Prop
  | [] => True
  | e :: es => C e s ∧ Along C (step e s) es

/-- Every state that the run goes through has the property `P`. -/
def Throughout (P : σ → Prop) (s : σ) : List ε → Prop
  | [] => P s
  | e :: es => P s ∧ Throughout P (step e s) es

instance decidableAlong (C : ε → σ → Prop) [∀ e s, Decidable (C e s)] :
    ∀ (es : List ε) (s : σ), Decidable (Along step C s es)
  | [], _ => .isTrue trivial
  | e :: es, s =>
    have := decidableAlong C es (step e s)
    inferInstanceAs (Decidable (C e s ∧ Along step C (step e s) es))

variable {step} {s : σ} {es : List ε} {C D : ε → σ → Prop} {I P : σ → Prop}

@[simp] theorem run_nil : run step s [] = s := rfl

@[simp] theorem run_cons (e : ε) : run step s (e :: es) = run step (step e s) es := rfl

theorem run_append (es es' : List ε) : run step s (es ++ es') = run step (run step s es) es' := by
  induction es generalizing s with
  | nil => rfl
  | cons e es ih => exact ih

/-- The invariant holds in the last state. -/
theorem Along.run (h : Along step C s es) (hs : I s)
    (hstep : ∀ e s, I s → C e s → I (step e s)) : I (run step s es) := by
  induction es generalizing s with
  | nil => exact hs
  | cons e es ih => exact ih h.2 (hstep e s hs h.1)

/-- What follows from the invariant holds in every state. -/
theorem Along.throughout (h : Along step C s es) (hs : I s)
    (hstep : ∀ e s, I s → C e s → I (step e s)) (hP : ∀ s, I s → P s) :
    Throughout step P s es := by
  induction es generalizing s with
  | nil => exact hP s hs
  | cons e es ih => exact ⟨hP s hs, ih h.2 (hstep e s hs h.1)⟩

/-- What a step that meets the condition does under the invariant holds of every step. -/
theorem Along.of_invariant (h : Along step C s es) (hs : I s)
    (hstep : ∀ e s, I s → C e s → I (step e s)) (hD : ∀ e s, I s → C e s → D e s) :
    Along step D s es := by
  induction es generalizing s with
  | nil => trivial
  | cons e es ih => exact ⟨hD e s hs h.1, ih h.2 (hstep e s hs h.1)⟩

/-- Conditions that say the same of every step. -/
theorem along_congr (h : ∀ e s, C e s ↔ D e s) : Along step C s es ↔ Along step D s es := by
  induction es generalizing s with
  | nil => exact Iff.rfl
  | cons e es ih => exact and_congr (h e s) ih

/-- A condition that does not depend on the state. -/
theorem along_iff_forall {P : ε → Prop} : Along step (fun e _ => P e) s es ↔ ∀ e ∈ es, P e := by
  induction es generalizing s with
  | nil => simp [Along]
  | cons e es ih => rw [Along, ih, List.forall_mem_cons]

theorem Throughout.run (h : Throughout step P s es) : P (Run.run step s es) := by
  induction es generalizing s with
  | nil => exact h
  | cons e es ih => exact ih h.2

theorem Throughout.first (h : Throughout step P s es) : P s := by
  cases es with
  | nil => exact h
  | cons e es => exact h.1

/-- Where a step under the invariant keeps it if the condition is met, and breaks the property
otherwise, the property holds in every state of the runs that meet the condition and of no
others. -/
theorem Along.throughout_iff (h : Along step D s es) (hs : I s) (hP : ∀ s, I s → P s)
    (hstep : ∀ e s, I s → D e s → C e s → I (step e s))
    (hbreak : ∀ e s, I s → D e s → P (step e s) → C e s) :
    Throughout step P s es ↔ Along step C s es := by
  induction es generalizing s with
  | nil => exact ⟨fun _ => trivial, fun _ => hP s hs⟩
  | cons e es ih =>
    constructor
    · rintro ⟨-, hes⟩
      have he := hbreak e s hs h.1 hes.first
      exact ⟨he, (ih h.2 (hstep e s hs h.1 he)).1 hes⟩
    · rintro ⟨he, hes⟩
      exact ⟨hP s hs, (ih h.2 (hstep e s hs h.1 he)).2 hes⟩

theorem along_append {es es' : List ε} :
    Along step C s (es ++ es') ↔ Along step C s es ∧ Along step C (Run.run step s es) es' := by
  induction es generalizing s with
  | nil => simp [Along]
  | cons e es ih =>
    simp only [List.cons_append, Along, run_cons, and_assoc]
    exact and_congr_right fun _ => ih

/-- A longer run meets the condition if its last event does. -/
theorem Along.concat {e : ε} (h : Along step C s es) (he : C e (Run.run step s es)) :
    Along step C s (es ++ [e]) :=
  along_append.2 ⟨h, he, trivial⟩

end Veda.Run
