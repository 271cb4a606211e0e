import Veda.Lib.Release
import Veda.Lib.Walk

/-! # Removing what only a removed module needs

Uninstalling without the storage: modules that need one another in any way, and a walk from one that
none needs. A module is entered; the first time it is removed, unless a module that is still there
needs it, and it is left alone each time after that. From a module that was left alone the walk goes
on all the same; a module that was not removed stops the loop it is visited in. -/

namespace Veda.Input.Removal

open Veda.Release Relation

variable {α : Type u}

structure State (α : Type u) where
  gone : Set α
  /-- How the module was left, if it was visited. -/
  result : α → Option Bool

def State.init : State α where
  gone := ∅
  result _ := none

open Classical in
noncomputable def State.setResult (s : State α) (x : α) (ok : Bool) : State α :=
  { s with result := Function.update s.result x (some ok) }

open Classical in
noncomputable def enter (needs : α → α → Prop) (x : α) (s : State α) : State α :=
  if s.result x ≠ none then s.setResult x true
  else if ∃ b, needs b x ∧ b ∉ s.gone then s.setResult x false
  else { s with gone := insert x s.gone }.setResult x true

noncomputable def walk (needs : α → α → Prop) (below : α → List α) : Walk α (State α) where
  enter := enter needs
  descends x s := s.result x == some true
  stops x s := s.result x == some false
  below := below

/-- The modules that a module needs, in some order. -/
structure Lists (needs : α → α → Prop) (below : α → List α) : Prop where
  mem : ∀ {a x}, x ∈ below a ↔ needs a x
  nodup : ∀ a, (below a).Nodup

/-- The root is gone, nothing that is there needs what is gone, and what the root needed, directly
or not, is gone unless another module that is there needs it. -/
structure Clean (needs : α → α → Prop) (root : α) (s : State α) : Prop where
  removed : root ∈ s.gone
  closed : ∀ b x, needs b x → x ∈ s.gone → b ∈ s.gone
  unneeded : ∀ x, TransGen needs root x → x ∉ s.gone → ∃ b, b ≠ x ∧ needs b x ∧ b ∉ s.gone

/-- What goes is needed once. -/
def Single (needs : α → α → Prop) (root : α) : Prop :=
  ∀ a b x, Freed needs root x → needs a x → needs b x → a = b

/-- A module that goes needs only modules that go, or only modules that stay. -/
def Unmixed (needs : α → α → Prop) (root : α) : Prop :=
  ∀ a x y, Freed needs root a → needs a x → needs a y → Freed needs root x → Freed needs root y

/-- No two modules that go need the same module from which there is a way to a cycle. -/
def Once (needs : α → α → Prop) (root : α) : Prop :=
  ∀ a b x, Freed needs root a → Freed needs root b → needs a x → needs b x → Cyclic needs x → a = b

/-- Where each module of `S` needs one of `S`, as on a cycle, no more modules that go need one of
`S` than it has. -/
def Sparse (needs : α → α → Prop) (root : α) : Prop :=
  ∀ S A : Finset α, (∀ x ∈ S, ∃ y ∈ S, needs x y) →
    (∀ x ∈ A, Freed needs root x ∧ ∃ y ∈ S, needs x y) → A.card ≤ S.card

structure Orderly (needs : α → α → Prop) (root : α) : Prop where
  single : Single needs root
  unmixed : Unmixed needs root
  once : Once needs root

variable {needs : α → α → Prop} {below : α → List α} {root a b x y : α} {s s' : State α}

/-! ## Entering a module -/

@[simp] theorem walk_enter : (walk needs below).enter x s = enter needs x s := rfl

@[simp] theorem walk_descends : (walk needs below).descends x s = (s.result x == some true) := rfl

@[simp] theorem walk_stops : (walk needs below).stops x s = (s.result x == some false) := rfl

@[simp] theorem walk_below : (walk needs below).below = below := rfl

@[simp] theorem setResult_gone {ok : Bool} : (s.setResult x ok).gone = s.gone := rfl

@[simp] theorem setResult_self {ok : Bool} : (s.setResult x ok).result x = some ok := by
  simp [State.setResult]

theorem setResult_of_ne {ok : Bool} (h : y ≠ x) : (s.setResult x ok).result y = s.result y := by
  simp [State.setResult, h]

theorem enter_visited (h : s.result x ≠ none) : enter needs x s = s.setResult x true := by
  rw [enter, if_pos h]

theorem enter_kept (h : s.result x = none) (hb : needs b x) (hs : b ∉ s.gone) :
    enter needs x s = s.setResult x false := by
  rw [enter, if_neg (not_not.2 h), if_pos ⟨b, hb, hs⟩]

theorem enter_removed (h : s.result x = none) (hs : ∀ b, needs b x → b ∈ s.gone) :
    enter needs x s = { s with gone := insert x s.gone }.setResult x true := by
  rw [enter, if_neg (not_not.2 h), if_neg]
  rintro ⟨b, hb, hg⟩
  exact hg (hs b hb)

/-- A module goes when it is entered, or nothing goes. -/
theorem enter_cases (needs : α → α → Prop) (x : α) (s : State α) :
    (enter needs x s).gone = s.gone ∨
      s.result x = none ∧ (∀ b, needs b x → b ∈ s.gone) ∧
        (enter needs x s).gone = insert x s.gone := by
  by_cases h : s.result x = none
  · by_cases hb : ∃ b, needs b x ∧ b ∉ s.gone
    · obtain ⟨b, hb, hs⟩ := hb
      rw [enter_kept h hb hs]
      exact .inl rfl
    · push Not at hb
      rw [enter_removed h hb]
      exact .inr ⟨h, hb, rfl⟩
  · rw [enter_visited h]
    exact .inl rfl

theorem enter_result_ne_none : (enter needs x s).result x ≠ none := by
  unfold enter
  split_ifs <;> simp

theorem enter_result_of_ne (h : y ≠ x) : (enter needs x s).result y = s.result y := by
  unfold enter
  split_ifs <;> exact setResult_of_ne h

/-! ## What every visit keeps -/

/-- Nothing that is there needs what is gone. -/
theorem enter_closed (h : ∀ b x, needs b x → x ∈ s.gone → b ∈ s.gone) :
    ∀ b y, needs b y → y ∈ (enter needs x s).gone → b ∈ (enter needs x s).gone := by
  obtain hg | ⟨-, hall, hg⟩ := enter_cases needs x s
  · rw [hg]
    exact h
  · rw [hg]
    intro b y hb hy
    obtain rfl | hy := hy
    · exact .inr (hall b hb)
    · exact .inr (h b y hb hy)

/-- A module that was left alone once stays. -/
theorem enter_stays (h : y ∉ s.gone ∧ s.result y ≠ none) :
    y ∉ (enter needs x s).gone ∧ (enter needs x s).result y ≠ none := by
  rcases eq_or_ne y x with rfl | hne
  · refine ⟨?_, enter_result_ne_none⟩
    obtain hg | ⟨hn, -⟩ := enter_cases needs y s
    · rw [hg]
      exact h.1
    · exact absurd hn h.2
  · rw [enter_result_of_ne hne]
    refine ⟨?_, h.2⟩
    obtain hg | ⟨-, -, hg⟩ := enter_cases needs x s
    · rw [hg]
      exact h.1
    · rw [hg]
      exact fun hy => hy.elim hne h.1

/-- Only the module that is entered can go. -/
theorem enter_not_mem (hne : y ≠ x) (h : y ∉ s.gone) : y ∉ (enter needs x s).gone := by
  obtain hg | ⟨-, -, hg⟩ := enter_cases needs x s
  · rw [hg]
    exact h
  · rw [hg]
    exact fun hy => hy.elim hne h

/-! ## Modules that are held -/

/-- Nothing has gone, and only held modules from which there is no way to a cycle were visited. -/
structure Spared (needs : α → α → Prop) (root : α) (s s' : State α) : Prop where
  gone : s'.gone = s.gone
  result : ∀ x, s'.result x ≠ s.result x → Held needs root x ∧ ¬Cyclic needs x

theorem Spared.refl (s : State α) : Spared needs root s s := ⟨rfl, fun _ h => absurd rfl h⟩

theorem Spared.trans {s'' : State α} (h : Spared needs root s s') (h' : Spared needs root s' s'') :
    Spared needs root s s'' := by
  refine ⟨h'.gone.trans h.gone, fun x hx => ?_⟩
  by_cases hx' : s'.result x = s.result x
  · exact h'.result x (hx' ▸ hx)
  · exact h.result x hx'

/-- A held module stays. -/
theorem enter_held (hx : Held needs root x) (hs : ∀ y ∈ s.gone, Freed needs root y) :
    (enter needs x s).gone = s.gone := by
  obtain ⟨b, -, hb, hf⟩ := hx
  obtain hg | ⟨-, hall, -⟩ := enter_cases needs x s
  · exact hg
  · exact absurd (hs b (hall b hb)) hf

section
variable (hroot : ∀ a, ¬needs a root) (hl : Lists needs below) (fin : Finset α)
  (hfin : ∀ a x, needs a x → a ∈ fin)
include hroot hl hfin

/-- A visit to a held module ends if there is no way from it to a cycle, and leaves everything
where it is. -/
theorem ends_held (hx : Held needs root x) (hc : ¬Cyclic needs x)
    (hs : ∀ y ∈ s.gone, Freed needs root y) :
    (walk needs below).Ends x s (Spared needs root s) := by
  have hwf := acyclic_not_cyclic.wellFounded fin fun a x h => hfin a x h.1
  induction x using hwf.induction generalizing s with
  | _ x ih =>
    have hg := enter_held hx hs
    have henter : Spared needs root s (enter needs x s) := by
      refine ⟨hg, fun y hy => ?_⟩
      rcases eq_or_ne y x with rfl | hne
      · exact ⟨hx, hc⟩
      · exact absurd (enter_result_of_ne hne) hy
    cases hd : (walk needs below).descends x ((walk needs below).enter x s) with
    | false => exact Walk.ends_of_not_descends hd henter
    | true =>
      refine Walk.LoopEnds.ends ?_ hd
      refine Walk.loopEnds (I := fun ys s' => (∀ y ∈ ys, needs x y) ∧ Spared needs root s s')
        (fun s' h => h.2) ?_ ⟨fun y => hl.mem.1, henter⟩
      rintro y ys s' ⟨hys, hs'⟩
      have hy := hys y List.mem_cons_self
      have hcy : ¬Cyclic needs y := fun h => hc (.of_needs hy h)
      refine (ih y ⟨hy, hc⟩ (hx.below hroot hy) hcy (hs'.gone ▸ hs)).mono fun s'' h => ?_
      exact ⟨fun _ => hs'.trans h,
        fun _ => ⟨fun z hz => hys z (List.mem_cons_of_mem y hz), hs'.trans h⟩⟩

end

/-! ## Modules that go -/

/-- Of the modules that go, those that are gone were removed and the others not visited yet; and a
module that stays and was visited is needed by one that is gone, if there is a way from it to a
cycle. -/
structure Tidy (needs : α → α → Prop) (root : α) (s : State α) : Prop where
  freed : ∀ x ∈ s.gone, Freed needs root x
  result : ∀ x ∈ s.gone, s.result x = some true
  unseen : ∀ x, Freed needs root x → x ∉ s.gone → s.result x = none
  closed : ∀ b x, needs b x → x ∈ s.gone → b ∈ s.gone
  once : ∀ x, ¬Freed needs root x → Cyclic needs x → s.result x ≠ none → ∃ a ∈ s.gone, needs a x

theorem Tidy.init : Tidy needs root State.init where
  freed _ h := h.elim
  result _ h := h.elim
  unseen _ _ _ := rfl
  closed _ _ _ h := h.elim
  once _ _ _ h := absurd rfl h

/-- What has gone in the visit to `z`, when it still has to visit `ys`. -/
structure Freeing (needs : α → α → Prop) (root z : α) (s : State α) (ys : List α)
    (s' : State α) : Prop where
  nodup : ys.Nodup
  rest : ∀ y ∈ ys, needs z y ∧ y ∉ s'.gone
  done : ∀ y, needs z y → Freed needs root y → y ∈ ys ∨ y ∈ s'.gone
  tidy : Tidy needs root s'
  subset : ∀ x ∈ insert z s.gone, x ∈ s'.gone
  fresh : ∀ x ∈ s'.gone, x ∈ s.gone ∨
    ReflTransGen (fun a x => needs a x ∧ Freed needs root x) z x
  complete : ∀ x ∈ s'.gone, x ∉ s.gone → x ≠ z → ∀ y, needs x y → Freed needs root y → y ∈ s'.gone

theorem Freeing.result {z : α} {ys : List α} (h : Freeing needs root z s ys s') :
    s'.result z = some true :=
  h.tidy.result z (h.subset z (.inl rfl))

/-- A module that goes is removed when what needs it is gone. -/
theorem Tidy.remove {z : α} (hs : Tidy needs root s) (hz : Freed needs root z) (hg : z ∉ s.gone)
    (habove : ∀ b, needs b z → b ∈ s.gone) :
    Tidy needs root (enter needs z s) ∧ (enter needs z s).gone = insert z s.gone := by
  have hclosed := enter_closed (x := z) hs.closed
  have he := enter_removed (hs.unseen z hz hg) habove
  have hgone : (enter needs z s).gone = insert z s.gone := by rw [he]; rfl
  refine ⟨⟨fun x hx => ?_, fun x hx => ?_, fun x hf hx => ?_, hclosed, fun x hf hc hx => ?_⟩, hgone⟩
  · obtain rfl | hx := hgone ▸ hx
    · exact hz
    · exact hs.freed x hx
  · rcases eq_or_ne x z with rfl | hne
    · rw [he, setResult_self]
    · rw [enter_result_of_ne hne]
      exact hs.result x ((hgone ▸ hx).resolve_left hne)
  · rw [hgone] at hx
    rw [enter_result_of_ne fun h => hx (.inl h)]
    exact hs.unseen x hf fun h => hx (.inr h)
  · have hne : x ≠ z := fun h => hf (h ▸ hz)
    rw [enter_result_of_ne hne] at hx
    obtain ⟨a, ha, hax⟩ := hs.once x hf hc hx
    exact ⟨a, hgone ▸ .inr ha, hax⟩

/-- Before any module that `z` needs was visited. -/
theorem Freeing.start {z : α} (hl : Lists needs below) (hs : Tidy needs root s)
    (hz : Freed needs root z) (hg : z ∉ s.gone) (habove : ∀ b, needs b z → b ∈ s.gone) :
    Freeing needs root z s (below z) (enter needs z s) := by
  obtain ⟨ht, hgone⟩ := hs.remove hz hg habove
  refine ⟨hl.nodup z, fun y hy => ⟨hl.mem.1 hy, fun h => ?_⟩, fun y hy _ => .inl (hl.mem.2 hy), ht,
    hgone ▸ fun _ h => h, fun x hx => ?_, fun x hx hxs hne => ?_⟩
  · -- What needs something that is gone would be gone already.
    obtain rfl | h := hgone ▸ h
    · exact hg (habove y (hl.mem.1 hy))
    · exact hg (hs.closed z y (hl.mem.1 hy) h)
  · obtain rfl | hx := hgone ▸ hx
    · exact .inr .refl
    · exact .inl hx
  · exact ((hgone ▸ hx).elim hne hxs).elim

/-- The visit to a module that goes and needs `y`, after a visit to `y`. -/
theorem Freeing.next {z : α} {ys : List α} {s'' : State α} (hroot : ∀ a, ¬needs a root)
    (ho : Orderly needs root) (h : Freeing needs root z s (y :: ys) s') (hy : Freed needs root y)
    (h' : Freeing needs root y s' [] s'') : Freeing needs root z s ys s'' := by
  obtain ⟨hyz, -⟩ := h.rest y List.mem_cons_self
  have hsub : ∀ x ∈ s'.gone, x ∈ s''.gone := fun x hx => h'.subset x (.inr hx)
  have hyg : y ∈ s''.gone := h'.subset y (.inl rfl)
  refine ⟨h.nodup.of_cons, fun x hx => ?_, fun x hzx hx => ?_, h'.tidy,
    fun x hx => hsub x (h.subset x hx), fun x hx => ?_, fun x hx hxs hne => ?_⟩
  · obtain ⟨hzx, hxg⟩ := h.rest x (List.mem_cons_of_mem y hx)
    refine ⟨hzx, fun hx' => ?_⟩
    obtain hx' | hx' := h'.fresh x hx'
    · exact hxg hx'
    · cases hx' with
      | refl => exact (List.nodup_cons.1 h.nodup).1 hx
      | tail hc hcx =>
        -- The way from `y` to the other one would go through `z`.
        obtain rfl := ho.single _ _ _ hcx.2 hzx hcx.1
        exact acyclic_freed hroot ho.single z (.head' ⟨hyz, hy⟩ hc)
  · obtain hx | hx := h.done x hzx hx
    · obtain rfl | hx := List.mem_cons.1 hx
      · exact .inr hyg
      · exact .inl hx
    · exact .inr (hsub x hx)
  · obtain hx | hx := h'.fresh x hx
    · exact h.fresh x hx
    · exact .inr (.head ⟨hyz, hy⟩ hx)
  · intro w hxw hw
    by_cases hx' : x ∈ s'.gone
    · exact hsub w (h.complete x hx' hxs hne w hxw hw)
    · rcases eq_or_ne x y with rfl | hxy
      · exact (h'.done w hxw hw).resolve_left List.not_mem_nil
      · exact h'.complete x hx hx' hxy w hxw hw

/-- The visit to a module that goes and needs only modules that stay, after visits to these. -/
theorem Freeing.spared {z : α} {ys : List α} (h : Freeing needs root z s ys s')
    (hbelow : ∀ y, needs z y → ¬Freed needs root y) {s'' : State α} (hg : s''.gone = s'.gone)
    (hr : ∀ x, s''.result x ≠ s'.result x →
      ¬Freed needs root x ∧ (¬Cyclic needs x ∨ needs z x)) :
    Freeing needs root z s [] s'' := by
  have hresult : ∀ x, Freed needs root x → s''.result x = s'.result x :=
    fun x hx => by_contra fun hne => (hr x hne).1 hx
  have ht := h.tidy
  refine ⟨.nil, fun y hy => (List.not_mem_nil hy).elim, fun y hy hf => (hbelow y hy hf).elim, ?_,
    hg ▸ h.subset, hg ▸ h.fresh, hg ▸ h.complete⟩
  refine ⟨hg ▸ ht.freed, fun x hx => ?_, fun x hf hx => ?_, hg ▸ ht.closed, fun x hf hc hx => ?_⟩
  · rw [hg] at hx
    rw [hresult x (ht.freed x hx)]
    exact ht.result x hx
  · rw [hg] at hx
    rw [hresult x hf]
    exact ht.unseen x hf hx
  · rw [hg]
    by_cases hx' : s''.result x = s'.result x
    · exact ht.once x hf hc (hx' ▸ hx)
    · exact ⟨z, h.subset z (.inl rfl), (hr x hx').2.resolve_left (not_not.2 hc)⟩

section
variable (hroot : ∀ a, ¬needs a root) (hl : Lists needs below) (ho : Orderly needs root)
  (fin : Finset α) (hfin : ∀ a x, needs a x → a ∈ fin) {z : α}
include hroot hl ho hfin

/-- The loop of a module that goes and needs only modules that stay. -/
theorem loopEnds_spared (hs : Tidy needs root s) (hz : Freed needs root z) (hg : z ∉ s.gone)
    (h : Freeing needs root z s (below z) s') (hbelow : ∀ y, needs z y → ¬Freed needs root y)
    (hr : ∀ x, x ≠ z → s'.result x = s.result x) :
    (walk needs below).LoopEnds (below z) s' (Freeing needs root z s []) := by
  refine Walk.loopEnds (I := fun ys t => (∀ y ∈ ys, needs z y) ∧ Spared needs root s' t)
    (fun t ht => ?_) ?_ ⟨fun y => hl.mem.1, .refl s'⟩
  · exact h.spared hbelow ht.2.gone fun x hx =>
      ⟨(ht.2.result x hx).1.not_freed hroot, .inl (ht.2.result x hx).2⟩
  rintro y ys t ⟨hys, ht⟩
  have hzy := hys y List.mem_cons_self
  have hfy := hbelow y hzy
  have hheld := hz.held hzy hfy
  have htg : ∀ x ∈ t.gone, Freed needs root x := ht.gone ▸ h.tidy.freed
  have hrest : ∀ x ∈ ys, needs z x := fun x hx => hys x (List.mem_cons_of_mem y hx)
  by_cases hc : Cyclic needs y
  · -- It was not visited before, and stops the loop.
    have hun : t.result y = none := by
      have hty : t.result y = s'.result y := by_contra fun hne => (ht.result y hne).2 hc
      rw [hty, hr y fun hyz => hfy (hyz ▸ hz)]
      by_contra hne
      obtain ⟨a, ha, hay⟩ := hs.once y hfy hc hne
      obtain rfl := ho.once a z y (hs.freed a ha) hz hay hzy hc
      exact hg ha
    obtain ⟨b, -, hb, hfb⟩ := hheld
    have he := enter_kept hun hb fun hbg => hfb (htg b hbg)
    have hfail : (enter needs y t).result y = some false := by rw [he, setResult_self]
    refine Walk.ends_of_not_descends (by simp [hfail]) ⟨fun _ => ?_, fun hgo => ?_⟩
    · refine h.spared hbelow (by rw [walk_enter, he, setResult_gone, ht.gone]) fun x hx => ?_
      rcases eq_or_ne x y with rfl | hne
      · exact ⟨hfy, .inr hzy⟩
      · have hx := ht.result x (by rwa [walk_enter, enter_result_of_ne hne] at hx)
        exact ⟨hx.1.not_freed hroot, .inl hx.2⟩
    · simp [hfail] at hgo
  · refine (ends_held hroot hl fin hfin hheld hc htg).mono fun t' ht' => ?_
    have ht' := ht.trans ht'
    refine ⟨fun _ => h.spared hbelow ht'.gone fun x hx => ?_, fun _ => ⟨hrest, ht'⟩⟩
    exact ⟨(ht'.result x hx).1.not_freed hroot, .inl (ht'.result x hx).2⟩

/-- A visit to a module that goes, once what needs it is gone, ends with everything gone that goes
with it. -/
theorem ends_freed (hs : Tidy needs root s) (hz : Freed needs root z) (hg : z ∉ s.gone)
    (habove : ∀ b, needs b z → b ∈ s.gone) :
    (walk needs below).Ends z s (Freeing needs root z s []) := by
  have hwf := (acyclic_freed hroot ho.single).wellFounded fin fun a x h => hfin a x h.1
  induction z using hwf.induction generalizing s with
  | _ z ih =>
    have hstart := Freeing.start hl hs hz hg habove
    refine Walk.LoopEnds.ends ?_ (by simp [hstart.result])
    by_cases hmix : ∃ y, needs z y ∧ Freed needs root y
    · obtain ⟨y, hzy, hy⟩ := hmix
      have hall : ∀ x, needs z x → Freed needs root x := fun x hx => ho.unmixed z y x hz hzy hx hy
      refine Walk.loopEnds (fun t ht => ht) (fun y ys t ht => ?_) hstart
      obtain ⟨hzy, hyt⟩ := ht.rest y List.mem_cons_self
      have hy := hall y hzy
      have hyabove : ∀ b, needs b y → b ∈ t.gone := fun b hb =>
        ho.single z b y hy hzy hb ▸ ht.subset z (.inl rfl)
      refine (ih y ⟨hzy, hy⟩ ht.tidy hy hyt hyabove).mono fun t' ht' => ?_
      exact ⟨fun hstop => by simp [ht'.result] at hstop, fun _ => ht.next hroot ho hy ht'⟩
    · push Not at hmix
      exact loopEnds_spared hroot hl ho fin hfin hs hz hg hstart hmix
        fun x hx => enter_result_of_ne hx

/-- Where everything that goes does so in order, the walk ends clean. -/
theorem ends_clean : (walk needs below).Ends root State.init (Clean needs root) := by
  refine (ends_freed hroot hl ho fin hfin .init .root (fun h => h.elim) fun b hb =>
    absurd hb (hroot b)).mono fun s hs => ?_
  have hgone : ∀ x, Freed needs root x → x ∈ s.gone := by
    intro x hx
    induction hx with
    | root => exact hs.subset root (.inl rfl)
    | @dep a x ha hax hall ih _ =>
      have hx := Freed.dep ha hax hall
      rcases eq_or_ne a root with rfl | hne
      · exact (hs.done x hax hx).resolve_left List.not_mem_nil
      · exact hs.complete a ih (fun h => h.elim) hne x hax hx
  refine ⟨hgone root .root, hs.tidy.closed, fun x hx hxs => ?_⟩
  obtain ⟨b, hne, hb, hf⟩ := held_of_trans hroot hx fun hf => hxs (hgone x hf)
  exact ⟨b, hne, hb, fun hbs => hf (hs.tidy.freed b hbs)⟩

end

end Veda.Input.Removal
