import Veda.Search.Retry

/-! # The translation in place

A tree that has its objects for itself, as one that is parsed has, is translated in place to what
the translation of trees gives, but for the trees that the messages of exceptions show. -/

namespace Veda.Search.Retry

open Vel Xapian Subproperties

section
variable {α β : Type}

/-- A run from `s` ends as `x` does and changes only objects in `F`, the sides of none. -/
def Gives (s : State) (F : Set ℕ) (x : Except Error α) : EStateM.Result Failure State α → Prop
  | .ok a t => x = .ok a ∧ Agree Fᶜ s.heap t.heap ∧ Rewritten s.heap t.heap
  | .error (.thrown _) _ => x.toOption = none
  | .error .depth _ => False

variable {s : State} {F G : Set ℕ} {x : Except Error α} {g : α → Except Error β} {m : Run α}
  {f : α → Run β} {a depth : ℕ} {o : Obj}

theorem Gives.bind (h : Gives s F x (m s)) (hFG : F ⊆ G)
    (hf : ∀ a t, x = .ok a → Agree Fᶜ s.heap t.heap → Rewritten s.heap t.heap →
      Gives t G (g a) (f a t)) : Gives s G (x >>= g) ((m >>= f) s) := by
  change Gives s G (x >>= g) (EStateM.bind m f s)
  unfold EStateM.bind
  cases hm : m s with
  | error e t =>
    rw [hm] at h
    cases e with
    | depth => exact h
    | thrown e =>
      change (x >>= g).toOption = none
      rw [toOption_bind, show x.toOption = none from h]
      rfl
  | ok a t =>
    rw [hm] at h
    obtain ⟨rfl, hagree, hheap⟩ := h
    have hend := hf a t rfl hagree hheap
    dsimp only
    cases hr : f a t with
    | error e u =>
      rw [hr] at hend
      cases e with
      | depth => exact hend
      | thrown e => exact hend
    | ok b u =>
      rw [hr] at hend
      obtain ⟨hg, hagree', hheap'⟩ := hend
      exact ⟨hg, fun c hc => (hagree' c hc).trans (hagree c fun hcF => hc (hFG hcF)),
        hheap.trans hheap'⟩

theorem gives_ok {a : α} : Gives s F (.ok a) ((pure a : Run α) s) :=
  ⟨rfl, fun _ _ => rfl, .refl _⟩

theorem gives_thrown {y : Except Error α} (h : x.toOption = y.toOption) :
    Gives s F y (thrown x s) := by
  cases x with
  | error e => exact h.symm
  | ok a =>
    cases y with
    | error e => cases h
    | ok b =>
      cases h
      exact gives_ok

theorem gives_tree {f : TTA → Run α} (h : ∀ tta, Gives s F x (f tta s)) :
    Gives s F x ((tree depth a >>= f) s) :=
  h _

theorem decorAt_eq (ho : s.heap[a]? = some o) : decorAt a s = .ok o.decor s := by
  change EStateM.bind (object a) _ s = _
  rw [EStateM.bind, object_eq, ho]
  rfl

theorem gives_notStrict (ho : s.heap[a]? = some o) : Gives s {a} (.ok ()) (notStrict a o s) := by
  unfold notStrict
  split
  next hop =>
    exact ⟨rfl, fun b hb => List.getElem?_set_ne fun heq => hb heq.symm, rewritten_set ho hop⟩
  next => exact gives_ok

end

section
variable {V Q : Type} [Zero V] [One V] [DecidableEq V] {env : Env V Q}
  {translate : ℕ → Run (Out V Q)} {s : State} {F G : Set ℕ} {a d depth : ℕ} {o : Obj}
  {p : Option ℕ} {t l r : TTA}

theorem owns_none_iff (h : Owns s.heap F p t) : t = .null ↔ p = none := by
  cases h with
  | null => exact iff_of_true rfl rfl
  | node => exact iff_of_false (fun h => by cases h) fun h => by cases h

/-- A side of `&&` or `||`; a missing one is not translated. -/
theorem gives_side (h : Owns s.heap F p t) (hp : ∀ b, p = some b →
    Gives s F (transform env t) (translate b s)) :
    Gives s F (if t = .null then .ok .null else transform env t) (side translate p s) := by
  cases p with
  | none =>
    rw [if_pos ((owns_none_iff h).mpr rfl)]
    exact gives_ok
  | some b =>
    rw [if_neg fun hnull => by cases (owns_none_iff h).mp hnull]
    exact hp b rfl

omit [Zero V] [One V] [DecidableEq V] in
theorem gives_invalid {tta : TTA} : Gives s F (invalid tta : Except Error (Out V Q))
    ((do thrown (invalid (← tree depth a)) : Run (Out V Q)) s) :=
  gives_tree fun _ => gives_thrown rfl

section
variable {S : Set ℕ} {tta : TTA} (hl : Owns s.heap F o.L l) (hr : Owns s.heap G o.R r)
  (hFG : ∀ b ∈ F, b ∉ G) (hFS : F ⊆ S) (hGS : G ⊆ S)
  (ihl : ∀ b u, o.L = some b → Owns u.heap F (some b) l →
    Gives u F (transform env l) (translate b u))
  (ihr : ∀ b u, o.R = some b → Owns u.heap G (some b) r →
    Gives u G (transform env r) (translate b u))

include hl hr hFG hFS hGS ihl ihr

/-- `>`, `<` and the equalities: both sides, the left one first. -/
theorem gives_sides {β : Type} {g : Out V Q → Out V Q → Except Error β}
    {f : Out V Q → Out V Q → Run β} {b c : ℕ} (hL : o.L = some b) (hR : o.R = some c)
    (hf : ∀ lo ro t, Rewritten s.heap t.heap → Gives t S (g lo ro) (f lo ro t)) :
    Gives s S (transform env l >>= fun lo => transform env r >>= g lo)
      ((translate b >>= fun lo => translate c >>= f lo) s) := by
  refine (ihl b s hL (hL ▸ hl)).bind hFS fun lo t _ hagree hheap => ?_
  have hr' : Owns t.heap G o.R r :=
    hr.agree fun x hx => hagree x fun hxF => hFG x hxF hx
  refine (ihr c t hR (hR ▸ hr')).bind hGS fun ro u _ _ hheap' => ?_
  exact hf lo ro u (hheap.trans hheap')

theorem gives_comparing :
    Gives s S (if l = .null ∨ r = .null then invalid tta
        else do
          let lo ← transform env l
          let ro ← transform env r
          compare env o.op lo ro)
      (comparing translate env depth a o s) := by
  unfold comparing
  cases hL : o.L with
  | none =>
    rw [if_pos (.inl ((owns_none_iff hl).mpr hL))]
    exact gives_invalid
  | some b =>
    cases hR : o.R with
    | none =>
      rw [if_pos (.inr ((owns_none_iff hr).mpr hR))]
      exact gives_invalid
    | some c =>
      rw [if_neg (by simp [owns_none_iff hl, owns_none_iff hr, hL, hR])]
      exact gives_sides hl hr hFG hFS hGS ihl ihr hL hR fun lo ro t _ => gives_thrown rfl

theorem gives_equality {ne strict : Bool} :
    Gives s S (if l = .null ∨ r = .null then invalid tta
        else do
          let lo ← transform env l
          let ro ← transform env r
          if lo.query.isNone && ro.query.isNone then
            let query ← equal env tta ne strict (decorOf r) lo.ret ro.ret
            return ⟨none, none, none, query, none⟩
          else return .null)
      (equality translate env depth a o ne strict s) := by
  unfold equality
  cases hL : o.L with
  | none =>
    rw [if_pos (.inl ((owns_none_iff hl).mpr hL))]
    exact gives_invalid
  | some b =>
    cases hR : o.R with
    | none =>
      rw [if_pos (.inr ((owns_none_iff hr).mpr hR))]
      exact gives_invalid
    | some c =>
      rw [if_neg (by simp [owns_none_iff hl, owns_none_iff hr, hL, hR])]
      refine gives_sides hl hr hFG hFS hGS ihl ihr hL hR fun lo ro t hheap => ?_
      split
      next =>
        obtain ⟨oc, hoc, hdecor⟩ : ∃ oc, s.heap[c]? = some oc ∧ oc.decor = decorOf r := by
          rw [hR] at hr
          cases hr with
          | node ho => exact ⟨_, ho, rfl⟩
        obtain ⟨oc', hoc', -, -, hdecor', -⟩ := hheap.exists_eq hoc
        have hread : decorAt c t = .ok (decorOf r) t := by
          rw [decorAt_eq hoc', hdecor', hdecor]
        change Gives t S _ (EStateM.bind (decorAt c) _ t)
        rw [EStateM.bind, hread]
        refine gives_tree fun tree => ?_
        have hequal : Gives t S (equal env tta ne strict (decorOf r) lo.ret ro.ret)
            (thrown (equal env tree ne strict (decorOf r) lo.ret ro.ret) t) :=
          gives_thrown (toOption_equal _ _ _ _ _)
        exact hequal.bind (Set.Subset.refl S) fun query _ _ _ _ => gives_ok
      next => exact gives_ok

/-- `&&` and `||`: the sides that are there, the right one first. -/
theorem gives_joining {join : TTA → Out V Q → Out V Q → Except Error (Out V Q)}
    (hjoin : ∀ tree lo ro, (join tree lo ro).toOption = (join tta lo ro).toOption) :
    Gives s S ((if r = .null then .ok .null else transform env r) >>= fun ro =>
        (if l = .null then .ok .null else transform env l) >>= fun lo => join tta lo ro)
      (joining translate depth a join o s) := by
  refine (gives_side hr fun b hb => ihr b s hb (hb ▸ hr)).bind hGS fun ro t _ hagree _ => ?_
  have hl' : Owns t.heap F o.L l :=
    hl.agree fun x hx => hagree x fun hxG => hFG x hx hxG
  refine (gives_side hl' fun b hb => ihl b t hb (hb ▸ hl')).bind hFS fun lo u _ _ _ => ?_
  exact gives_tree fun tree => gives_thrown (hjoin _ _ _)

end

theorem bind_sides {join : Out V Q → Out V Q → Except Error (Out V Q)} :
    ((if r = .null then .ok .null else transform env r) >>= fun ro =>
      (if l = .null then .ok .null else transform env l) >>= fun lo => join lo ro) = (do
        let ro ← if r = .null then .ok .null else transform env r
        let lo ← if l = .null then .ok .null else transform env l
        join lo ro) := by
  split <;> split <;> rfl

/-- The translation in place gives what the translation of trees gives. -/
theorem gives_translate (h : Owns s.heap F (some a) t) (hdepth : height t ≤ depth) :
    Gives s F (transform env t) (Retry.translate (fun _ => env) depth a s) := by
  induction t generalizing a F s depth with
  | null => cases h
  | node op decor l r ihl ihr =>
    cases depth with
    | zero => exact absurd hdepth (Nat.not_succ_le_zero _)
    | succ depth =>
      obtain ⟨hdl, hdr⟩ := Nat.max_le.mp (Nat.le_of_succ_le_succ hdepth)
      cases h with
      | @node a o _ _ F G ho hl hr hFG hF hG =>
        have hnext {x : Except Error (Out V Q)} {r' : EStateM.Result Failure State (Out V Q)}
            (h : Gives { s with calls := s.calls + 1 } (insert a (F ∪ G)) x r') :
            Gives s (insert a (F ∪ G)) x r' := h
        rw [translate_succ ho, transform, translateObject]
        refine hnext ?_
        have hFS : F ⊆ insert a (F ∪ G) := fun x hx => .inr (.inl hx)
        have hGS : G ⊆ insert a (F ∪ G) := fun x hx => .inr (.inr hx)
        split
        next => exact gives_ok
        split
        next =>
          exact gives_comparing hl hr hFG hFS hGS (fun b u _ h => ihl h hdl)
            (fun b u _ h => ihr h hdr)
        split
        next =>
          have haS : {a} ⊆ insert a (F ∪ G) := Set.singleton_subset_iff.mpr (Set.mem_insert _ _)
          refine Gives.bind (x := .ok ()) (g := fun _ => _) (gives_notStrict ho) haS
            fun _ t _ hagree _ => ?_
          have hl' : Owns t.heap F o.L l :=
            hl.agree fun x hx => hagree x fun heq => hF (Set.mem_singleton_iff.mp heq ▸ hx)
          have hr' : Owns t.heap G o.R r :=
            hr.agree fun x hx => hagree x fun heq => hG (Set.mem_singleton_iff.mp heq ▸ hx)
          exact gives_equality hl' hr' hFG hFS hGS (fun b u _ h => ihl h hdl)
            (fun b u _ h => ihr h hdr)
        have hjoin {join : TTA → Out V Q → Out V Q → Except Error (Out V Q)} {tta : TTA}
            (hjoin : ∀ tree lo ro, (join tree lo ro).toOption = (join tta lo ro).toOption) :
            Gives { s with calls := s.calls + 1 } (insert a (F ∪ G)) (do
                let ro ← if r = .null then .ok .null else transform env r
                let lo ← if l = .null then .ok .null else transform env l
                join tta lo ro)
              (joining (Retry.translate (fun _ => env) depth) (depth + 1) a join o
                { s with calls := s.calls + 1 }) := by
          rw [← bind_sides]
          exact gives_joining (s := { s with calls := s.calls + 1 }) hl hr hFG hFS hGS
            (fun b u _ h => ihl h hdl) (fun b u _ h => ihr h hdr) hjoin
        split
        next => exact hjoin fun _ => toOption_conjunction
        split
        next => exact hjoin fun _ => toOption_disjunction
        next => exact gives_ok

omit [Zero V] [One V] [DecidableEq V] in
theorem built_of_gives {x : Except Error (Out V Q)} {r : EStateM.Result Failure State (Out V Q)}
    (h : Gives s F x r) : built r = x.toOption.map Out.query := by
  cases r with
  | ok out t =>
    rw [h.1]
    rfl
  | error e t =>
    cases e with
    | depth => exact h.elim
    | thrown e =>
      rw [show x.toOption = none from h]
      rfl

/-- A tree without brackets on a left side, as it is parsed, is translated as a tree is. -/
theorem built_transformVql {subProperties : String → List String} (ha : (build t []).1 = some a)
    (ht : Plain t) (hdepth : height t ≤ depth) :
    built (transformVql subProperties (fun _ => env) depth a ⟨(build t []).2, 0⟩) =
      (transform env t).toOption.map Out.query := by
  obtain ⟨F, -, -, -, howns⟩ := owns_build t []
  rw [ha] at howns
  rw [transformVql_of_ok (prepareAt_of_plain (p := some a) howns.reads ht hdepth)]
  exact built_of_gives (gives_translate howns hdepth)

end

end Veda.Search.Retry
