import Veda.Input.Removal

/-! # Orders in which something stays

A walk that ends clean in every order of the modules below each module tells how these need one
another: it could go straight to a module that another one needs, which would stay, and so would
what comes after it. -/

namespace Veda.Input.Removal

open Veda.Release Relation

variable {α : Type u} {needs : α → α → Prop} {below below' : α → List α} {root a b x y : α}
  {s s' : State α} {p : List α}

theorem Lists.of_perm (h : Lists needs below) (hp : ∀ a, (below' a).Perm (below a)) :
    Lists needs below' where
  mem := (hp _).mem_iff.trans h.mem
  nodup a := (hp a).nodup_iff.2 (h.nodup a)

/-- The walk goes down the way before it does anything else; the last element comes first. -/
def Leads (below : α → List α) : List α → Prop
  | y :: c :: p => (∃ t, below c = y :: t) ∧ Leads below (c :: p)
  | _ => True

theorem Leads.congr (h : Leads below p) (heq : ∀ c ∈ p.tail, below' c = below c) :
    Leads below' p := by
  induction p with
  | nil => trivial
  | cons y p ih =>
    cases p with
    | nil => trivial
    | cons c p =>
      refine ⟨?_, ih h.2 fun d hd => heq d (List.mem_cons_of_mem c hd)⟩
      rw [heq c List.mem_cons_self]
      exact h.1

theorem Leads.cons (hl : Lists needs below) (h : Leads below (a :: p)) (ha : a ∉ p)
    (hx : needs a x) : ∃ below', Lists needs below' ∧ Leads below' (x :: a :: p) := by
  classical
  refine ⟨Function.update below a (x :: (below a).erase x), hl.of_perm fun c => ?_, ?_, ?_⟩
  · rcases eq_or_ne c a with rfl | hne
    · rw [Function.update_self]
      exact (List.perm_cons_erase (hl.mem.2 hx)).symm
    · rw [Function.update_of_ne hne]
  · exact ⟨_, Function.update_self ..⟩
  · refine h.congr fun c hc => Function.update_of_ne ?_ ..
    rintro rfl
    exact ha hc

/-- There is an order in which the walk goes down a straight way first. -/
theorem exists_leads (hl : Lists needs below) (h : Straight needs root p) :
    ∃ below', Lists needs below' ∧ Leads below' p := by
  induction h with
  | root => exact ⟨below, hl, trivial⟩
  | cons h hax _ _ ih =>
    obtain ⟨below', hl', hlead⟩ := ih
    exact hlead.cons hl' (List.nodup_cons.1 h.nodup).1 hax

/-- Nothing was visited but the modules of a way, which are gone. -/
structure Pristine (p : List α) (s : State α) : Prop where
  gone : ∀ x, x ∈ s.gone ↔ x ∈ p
  result : ∀ x, x ∉ p → s.result x = none

section
variable (hroot : ∀ a, ¬needs a root)
include hroot

theorem Pristine.enter (h : Straight needs root (a :: p)) (hs : Pristine p s) :
    Pristine (a :: p) (enter needs a s) ∧ (enter needs a s).result a = some true := by
  have ha : a ∉ p := (List.nodup_cons.1 h.nodup).1
  have he := enter_removed (hs.result a ha) fun b hb =>
    (hs.gone b).2 (h.mem_tail hroot a List.mem_cons_self b hb)
  refine ⟨⟨fun x => ?_, fun x hx => ?_⟩, by rw [he, setResult_self]⟩
  · rw [he, setResult_gone, Set.mem_insert_iff, hs.gone, List.mem_cons]
  · rw [enter_result_of_ne (List.ne_of_not_mem_cons hx)]
    exact hs.result x (List.not_mem_of_not_mem_cons hx)

/-- What a visit to the last module of a straight way leaves is what the whole walk leaves, if the
rest of the walk keeps it. -/
theorem visit_straight (hl : Lists needs below) (h : Straight needs root (a :: p))
    (hlead : Leads below (a :: p)) {P : State α → Prop} {fuel : ℕ}
    (hlast : ∀ fuel s s', Pristine p s → (walk needs below).visit fuel a s = some s' → P s')
    (hkeep : ∀ c ∈ p, ∀ y, needs c y → y ∉ a :: p → ∀ fuel s s', P s →
      (walk needs below).visit fuel y s = some s' → P s')
    (hv : (walk needs below).visit fuel root State.init = some s') : P s' := by
  generalize hq : a :: p = q at h
  induction h generalizing a p with
  | root =>
    cases hq
    exact hlast fuel _ _ ⟨fun x => by simp [State.init], fun _ _ => rfl⟩ hv
  | @cons c p x h hcx hone hx ih =>
    cases hq
    obtain ⟨⟨t, ht⟩, hlead⟩ := hlead
    have hcp : c ∉ p := (List.nodup_cons.1 h.nodup).1
    refine ih hlead (fun fuel s s' hs hv => ?_) (fun d hd y hy hyp => ?_) rfl
    · -- `c` goes, and `x` is the first module that is visited from it.
      obtain ⟨hc, hrc⟩ := hs.enter hroot h
      obtain ⟨n, -, ⟨-, hl'⟩ | ⟨hd, -⟩⟩ := Walk.visit_cases hv
      · simp only [walk_below, walk_enter, ht] at hl'
        obtain ⟨s₂, hx₂, ⟨-, rfl⟩ | ⟨-, hl'⟩⟩ := Walk.loop_cons_cases hl'
        · exact hlast n _ _ hc hx₂
        · have hnd := hl.nodup c
          rw [ht, List.nodup_cons] at hnd
          refine Walk.loop_keeps (fun y hy s s' hs hv => ?_) (hlast n _ _ hc hx₂) hl'
          have hcy : needs c y := hl.mem.1 (ht ▸ List.mem_cons_of_mem x hy)
          refine hkeep c List.mem_cons_self y hcy (fun hm => ?_) n s s' hs hv
          obtain rfl | hm := List.mem_cons.1 hm
          · exact hnd.1 hy
          · exact h.not_mem hroot hcy hm
      · simp [hrc] at hd
    · refine hkeep d (List.mem_cons_of_mem c hd) y hy fun hm => ?_
      obtain rfl | hm := List.mem_cons.1 hm
      · exact hcp (hone d hy ▸ hd)
      · exact hyp hm

end

/-- A module was left alone, and what only `a` needs is still there. -/
structure Stays (needs : α → α → Prop) (a x : α) (s : State α) : Prop where
  left : x ∉ s.gone ∧ s.result x ≠ none
  after : ∀ y, needs a y → y ≠ x → (∀ c, needs c y → c = a) → y ∉ s.gone

/-- Everything that is freed is gone when the walk ends clean. -/
theorem Clean.gone (hs : Clean needs root s) (hx : Freed needs root x) : x ∈ s.gone := by
  have hway : ∀ {x}, Freed needs root x → ReflTransGen needs root x := by
    intro x hx
    induction hx with
    | root => exact .refl
    | dep _ hax _ ih _ => exact ih.tail hax
  induction hx with
  | root => exact hs.removed
  | @dep a x ha hax hall _ ih =>
    by_contra hx
    obtain ⟨b, hne, hb, hbs⟩ := hs.unneeded x (.tail' (hway ha) hax) hx
    exact hbs (ih b hb hne)

section
variable (hroot : ∀ a, ¬needs a root)
include hroot

/-- The visit to the last module of a straight way stops where it meets a module that another one
needs. -/
theorem Stays.of_visit (h : Straight needs root (a :: p)) (hax : needs a x) (hbx : needs b x)
    (hb : b ∉ a :: p) {t : List α} (ht : below a = x :: t) {fuel : ℕ} (hs : Pristine p s)
    (hv : (walk needs below).visit fuel a s = some s') : Stays needs a x s' := by
  obtain ⟨ha, hra⟩ := hs.enter hroot h
  have hkept := enter_kept (ha.result x (h.not_mem hroot hax)) hbx fun hbs => hb ((ha.gone b).1 hbs)
  have hrx : (enter needs x (enter needs a s)).result x = some false := by
    rw [hkept, setResult_self]
  have hgone : ∀ y, needs a y → y ∉ (enter needs x (enter needs a s)).gone := by
    intro y hy hys
    rw [hkept, setResult_gone, ha.gone] at hys
    exact h.not_mem hroot hy hys
  obtain ⟨n, -, ⟨-, hl⟩ | ⟨hd, -⟩⟩ := Walk.visit_cases hv
  · simp only [walk_below, walk_enter, ht] at hl
    obtain ⟨s₂, hx₂, hrest⟩ := Walk.loop_cons_cases hl
    obtain ⟨m, -, ⟨hd, -⟩ | ⟨-, rfl⟩⟩ := Walk.visit_cases hx₂
    · simp [hrx] at hd
    obtain ⟨-, rfl⟩ | ⟨hgo, -⟩ := hrest
    · exact ⟨⟨hgone x hax, by simp [hrx]⟩, fun y hy _ _ => hgone y hy⟩
    · simp [hrx] at hgo
  · simp [hra] at hd

/-- The rest of the walk does not change this. -/
theorem Stays.keep (hl : Lists needs below) (h : Straight needs root (a :: p)) {c : α} (hc : c ∈ p)
    (hcy : needs c y) (hy : y ∉ a :: p) {fuel : ℕ} (hs : Stays needs a x s)
    (hv : (walk needs below).visit fuel y s = some s') : Stays needs a x s' := by
  constructor
  · exact Walk.visit_keeps (V := fun _ => True) (I := fun s => x ∉ s.gone ∧ s.result x ≠ none)
      (fun _ _ _ _ => trivial) (fun _ _ _ hs => enter_stays hs) trivial hs.left hv
  · intro z haz hzx hone
    have hz := h.cons haz hone (h.not_mem hroot haz)
    -- There is no way to the modules of the way to `z` from outside.
    refine Walk.visit_keeps (V := fun v => v ∉ z :: a :: p) (I := fun s => z ∉ s.gone)
      (fun v w hv hw hm => ?_) (fun v s hv hs => ?_) ?_ (hs.after z haz hzx hone) hv
    · exact hv (List.mem_of_mem_tail (hz.mem_tail hroot w hm v (hl.mem.1 hw)))
    · exact enter_not_mem (List.ne_of_not_mem_cons hv).symm hs
    · intro hm
      obtain rfl | hm := List.mem_cons.1 hm
      · exact (List.nodup_cons.1 h.nodup).1 (hone c hcy ▸ hc)
      · exact hy hm

/-- A module that is needed by one that is not on a straight way stays in some order, and so does
what only the last module of the way needs. -/
theorem exists_stays (hl : Lists needs below) (h : Straight needs root (a :: p)) (hax : needs a x)
    (hbx : needs b x) (hb : b ∉ a :: p) : ∃ below', Lists needs below' ∧
      ∀ fuel s, (walk needs below').visit fuel root State.init = some s → Stays needs a x s := by
  obtain ⟨below₁, hl₁, hlead⟩ := exists_leads hl h
  obtain ⟨below', hl', ⟨t, ht⟩, hlead⟩ := hlead.cons hl₁ (List.nodup_cons.1 h.nodup).1 hax
  refine ⟨below', hl', fun fuel s hv => ?_⟩
  exact visit_straight hroot hl' h hlead
    (fun n s s' hs hv => .of_visit hroot h hax hbx hb ht hs hv)
    (fun c hc y hcy hy n s s' hs hv => hs.keep hroot hl' h hc hcy hy hv) hv

variable (hl : Lists needs below) (hclean : ∀ below', Lists needs below' →
  (walk needs below').Ends root State.init (Clean needs root))
include hl hclean

theorem straight_of_clean (hx : Freed needs root x) : ∃ p, Straight needs root (x :: p) := by
  obtain h | ⟨a, p, x, b, hp, hax, hx, hbx, hb⟩ := hx.straight_or hroot
  · exact h
  · obtain ⟨below', hl', hstays⟩ := exists_stays hroot hl hp hax hbx hb
    obtain ⟨fuel, s, hv, hs⟩ := hclean below' hl'
    exact absurd (hs.gone hx) (hstays fuel s hv).left.1

/-- What goes in every order is needed once. -/
theorem single_of_clean : Single needs root := by
  intro a b x hx ha hb
  obtain ⟨p, hp⟩ := straight_of_clean hroot hl hclean hx
  exact hp.single hroot ha hb

/-- A module from which something goes in every order needs nothing that stays. -/
theorem unmixed_of_clean : Unmixed needs root := by
  intro a x y ha hax hay hx
  by_contra hy
  obtain ⟨p, hp⟩ := straight_of_clean hroot hl hclean ha
  obtain ⟨b, -, hb, hf⟩ := ha.held hay hy
  obtain ⟨below', hl', hstays⟩ := exists_stays hroot hl hp hay hb fun h => hf (hp.freed b h)
  obtain ⟨fuel, s, hv, hs⟩ := hclean below' hl'
  refine (hstays fuel s hv).after x hax (fun h => hy (h ▸ hx)) (fun c hc => ?_) (hs.gone hx)
  exact single_of_clean hroot hl hclean c a x hx hc hax

end

/-! ## Modules that are entered again and again -/

section
variable (S A : Finset α)

open Classical in
/-- How many of the modules were visited. -/
noncomputable def seen (s : State α) : ℕ := (S.filter fun x => s.result x ≠ none).card

open Classical in
/-- How many of the modules are gone. -/
noncomputable def goneOf (s : State α) : ℕ := (A.filter (· ∈ s.gone)).card

variable {S A}

theorem seen_le : seen S s ≤ S.card := Finset.card_filter_le ..

theorem seen_mono (h : ∀ x, s.result x ≠ none → s'.result x ≠ none) : seen S s ≤ seen S s' :=
  Finset.card_le_card fun x hx => by
    obtain ⟨hxS, hx⟩ := Finset.mem_filter.1 hx
    exact Finset.mem_filter.2 ⟨hxS, h x hx⟩

theorem seen_lt (h : ∀ x, s.result x ≠ none → s'.result x ≠ none) (hxS : x ∈ S)
    (hx : s.result x = none) (hx' : s'.result x ≠ none) : seen S s < seen S s' := by
  refine Finset.card_lt_card ((Finset.ssubset_iff_of_subset fun y hy => ?_).2 ⟨x, ?_, fun hm => ?_⟩)
  · obtain ⟨hyS, hy⟩ := Finset.mem_filter.1 hy
    exact Finset.mem_filter.2 ⟨hyS, h y hy⟩
  · exact Finset.mem_filter.2 ⟨hxS, hx'⟩
  · exact (Finset.mem_filter.1 hm).2 hx

theorem goneOf_congr (h : ∀ x ∈ A, x ∈ s'.gone ↔ x ∈ s.gone) : goneOf A s' = goneOf A s := by
  classical
  exact congrArg Finset.card (Finset.filter_congr h)

theorem goneOf_le_succ (h : s'.gone = insert x s.gone) : goneOf A s' ≤ goneOf A s + 1 := by
  classical
  refine le_trans (Finset.card_le_card fun y hy => ?_) (Finset.card_insert_le x _)
  obtain ⟨hyA, hy⟩ := Finset.mem_filter.1 hy
  obtain rfl | hy := h ▸ hy
  · exact Finset.mem_insert_self ..
  · exact Finset.mem_insert_of_mem (Finset.mem_filter.2 ⟨hyA, hy⟩)

theorem enter_result_mono (h : s.result y ≠ none) : (enter needs x s).result y ≠ none := by
  rcases eq_or_ne y x with rfl | hne
  · exact enter_result_ne_none
  · rwa [enter_result_of_ne hne]

/-- Where a visit from `A` or `S` goes to a module of `S` first, a module of `S` is visited for the
first time for each module of `A` that goes, and for each visit to a module of `S`. -/
theorem seen_of_visit (hfirst : ∀ x, x ∈ S ∨ x ∈ A → ∃ y t, y ∈ S ∧ below x = y :: t) {fuel : ℕ}
    (hv : (walk needs below).visit fuel x s = some s') :
    goneOf A s' + seen S s ≤ goneOf A s + seen S s' ∧
      (x ∈ S → goneOf A s' + seen S s < goneOf A s + seen S s') := by
  induction fuel generalizing x s s' with
  | zero => cases hv
  | succ fuel ih =>
    have hloop : ∀ xs s s', (walk needs below).loop ((walk needs below).visit fuel) xs s = some s' →
        goneOf A s' + seen S s ≤ goneOf A s + seen S s' := by
      intro xs s₀ s' hl
      refine Walk.loop_keeps (I := fun t => goneOf A t + seen S s₀ ≤ goneOf A s₀ + seen S t)
        (fun y _ t t' ht hv => ?_) le_rfl hl
      have := (ih hv).1
      omega
    have hloop' : (x ∈ S ∨ x ∈ A) → ∀ s s',
        (walk needs below).loop ((walk needs below).visit fuel) (below x) s = some s' →
        goneOf A s' + seen S s < goneOf A s + seen S s' := by
      intro hx s₀ s' hl
      obtain ⟨y, t, hy, hbelow⟩ := hfirst x hx
      rw [hbelow] at hl
      obtain ⟨s₁, hv, hrest⟩ := Walk.loop_cons_cases hl
      have hs₁ := (ih hv).2 hy
      obtain ⟨-, rfl⟩ | ⟨-, hl⟩ := hrest
      · exact hs₁
      · have := hloop _ _ _ hl
        omega
    have hmono : ∀ y, s.result y ≠ none → (enter needs x s).result y ≠ none :=
      fun y => enter_result_mono
    have hseen := seen_mono (S := S) hmono
    obtain ⟨_, hn, hv⟩ := Walk.visit_cases hv
    obtain rfl := Nat.succ.inj hn
    simp only [walk_descends, walk_enter, walk_below] at hv
    by_cases hnone : s.result x = none
    · have hlt : x ∈ S → seen S s < seen S (enter needs x s) :=
        fun hx => seen_lt hmono hx hnone enter_result_ne_none
      by_cases hb : ∃ b, needs b x ∧ b ∉ s.gone
      · obtain ⟨b, hb, hs⟩ := hb
        have he := enter_kept hnone hb hs
        have hgone : goneOf A (enter needs x s) = goneOf A s :=
          goneOf_congr fun y _ => by rw [he, setResult_gone]
        obtain ⟨hd, -⟩ | ⟨-, rfl⟩ := hv
        · simp [he] at hd
        · refine ⟨by omega, fun hx => ?_⟩
          have := hlt hx
          omega
      · push Not at hb
        have he := enter_removed hnone hb
        obtain ⟨-, hl⟩ | ⟨hd, -⟩ := hv
        · by_cases hxA : x ∈ A
          · have hgone : goneOf A (enter needs x s) ≤ goneOf A s + 1 :=
              goneOf_le_succ (x := x) (by rw [he]; rfl)
            have hle := hloop' (.inr hxA) _ _ hl
            refine ⟨by omega, fun hx => ?_⟩
            have := hlt hx
            omega
          · have hgone : goneOf A (enter needs x s) = goneOf A s := goneOf_congr fun y hy => by
              rw [he, setResult_gone]
              exact or_iff_right fun h => hxA (h ▸ hy)
            have hle := hloop _ _ _ hl
            refine ⟨by omega, fun hx => ?_⟩
            have := hlt hx
            omega
        · simp [he] at hd
    · have he : enter needs x s = _ := enter_visited hnone
      have hgone : goneOf A (enter needs x s) = goneOf A s :=
        goneOf_congr fun y _ => by rw [he, setResult_gone]
      obtain ⟨-, hl⟩ | ⟨hd, -⟩ := hv
      · have hle := hloop _ _ _ hl
        refine ⟨by omega, fun hx => ?_⟩
        have := hloop' (.inl hx) _ _ hl
        omega
      · simp [he] at hd

end

/-- Where more modules that go need one of `S` than there are, the walk does not end in some
order. -/
theorem sparse_of_clean (hl : Lists needs below) (hclean : ∀ below', Lists needs below' →
    (walk needs below').Ends root State.init (Clean needs root)) : Sparse needs root := by
  intro S A hS hA
  classical
  have hstep : ∀ x, x ∈ S ∨ x ∈ A → ∃ y ∈ S, needs x y := fun x hx => hx.elim (hS x) fun h =>
    (hA x h).2
  choose! first hfirst using hstep
  have hperm : ∀ x, (if x ∈ S ∨ x ∈ A then first x :: (below x).erase (first x) else below x).Perm
      (below x) := by
    intro x
    split_ifs with hx
    · exact (List.perm_cons_erase (hl.mem.2 (hfirst x hx).2)).symm
    · exact .refl _
  obtain ⟨fuel, s, hv, hs⟩ := hclean _ (hl.of_perm hperm)
  have hle := (seen_of_visit (S := S) (A := A)
    (fun x hx => ⟨first x, _, (hfirst x hx).1, if_pos hx⟩) hv).1
  have hgone : goneOf A s = A.card :=
    congrArg Finset.card (Finset.filter_true_of_mem fun x hx => hs.gone (hA x hx).1)
  have hinit : goneOf A (State.init : State α) = 0 :=
    Finset.card_eq_zero.2 (Finset.filter_false_of_mem fun x _ h => h.elim)
  have := seen_le (S := S) (s := s)
  have : seen S (State.init : State α) = 0 :=
    Finset.card_eq_zero.2 (Finset.filter_false_of_mem fun x _ h => h rfl)
  omega

end Veda.Input.Removal
