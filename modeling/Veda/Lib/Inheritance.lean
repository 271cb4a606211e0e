import Mathlib.Logic.Relation
import Mathlib.Order.WellFounded

/-! # Inheritance

Everything has a list of parents, and no chain of parents goes on for ever. What is above a thing
is gone through from the thing upwards, a parent with all that is above it before the next
parent. -/

namespace Veda.Inheritance

universe u v

variable {α : Type u} {β : Type v} {parents : α → List α}

/-- No chain of parents goes on for ever. -/
def Acyclic (parents : α → List α) : Prop := WellFounded fun a b => a ∈ parents b

/-- A thing and all that is above it, as often as there are ways up to it. -/
noncomputable def upwards (h : Acyclic parents) : α → List α :=
  h.fix fun a above => a :: (parents a).attach.flatMap fun b => above b.1 b.2

theorem upwards_eq (h : Acyclic parents) (a : α) :
    upwards h a = a :: (parents a).flatMap (upwards h) := by
  rw [upwards, h.fix_eq]
  have hparents : (parents a).attach.flatMap (fun b => upwards h b.1) =
      (parents a).flatMap (upwards h) := by
    rw [← List.flatMap_map, List.attach_map_subtype_val]
  exact congrArg (a :: ·) hparents

theorem Acyclic.notMem (h : Acyclic parents) (a : α) : a ∉ parents a :=
  fun hmem => h.irrefl.irrefl a hmem

/-- What is above a thing is what chains of parents lead to. -/
theorem mem_upwards (h : Acyclic parents) {a b : α} :
    b ∈ upwards h a ↔ Relation.ReflTransGen (fun x y => y ∈ parents x) a b := by
  induction a using h.induction with
  | _ a ih =>
    rw [upwards_eq, List.mem_cons, List.mem_flatMap]
    constructor
    · rintro (rfl | ⟨c, hc, hmem⟩)
      · exact .refl
      · exact .head hc ((ih c hc).mp hmem)
    · intro hpath
      cases hpath.cases_head with
      | inl heq => exact .inl heq.symm
      | inr hpath =>
        obtain ⟨c, hc, hpath⟩ := hpath
        exact .inr ⟨c, hc, (ih c hc).mpr hpath⟩

/-- What is found first on the way up: at the thing itself, or else by its parents in turn. -/
theorem findSome?_upwards (h : Acyclic parents) (f : α → Option β) (a : α) :
    (upwards h a).findSome? f =
      (f a).or ((parents a).findSome? fun b => (upwards h b).findSome? f) := by
  have hall (l : List α) : (l.flatMap (upwards h)).findSome? f =
      l.findSome? fun b => (upwards h b).findSome? f := by
    induction l with
    | nil => rfl
    | cons b l ih =>
      rw [List.flatMap_cons, List.findSome?_append, ih, List.findSome?_cons]
      cases (upwards h b).findSome? f with
      | none => rfl
      | some c => rfl
  rw [upwards_eq, List.findSome?_cons, hall]
  cases f a with
  | none => rfl
  | some b => rfl

theorem flatMap_upwards (h : Acyclic parents) (f : α → List β) (a : α) :
    (upwards h a).flatMap f = f a ++ (parents a).flatMap fun b => (upwards h b).flatMap f := by
  rw [upwards_eq, List.flatMap_cons, List.flatMap_assoc]

end Veda.Inheritance
