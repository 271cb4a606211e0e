import Mathlib.Data.Set.Insert
import Mathlib.Order.BooleanAlgebra.Set
import Mathlib.Data.List.Nodup
import Veda.Numeration.Numerator

/-! # The set of committed numbers

The intervals of the scope stand for a set of numbers: `commitValue` adds a number to it, and
`revokeValue` takes one from it. -/

namespace Veda.Numeration

variable {r r' r₁ r₂ : Registry} {uri prev next : ℕ} {uris uris' kept : List ℕ}
  {interval : Interval} {scope : Scope} {value : ℤ} {v : Value} {n : ℤ}

def Interval.Contains (interval : Interval) (n : ℤ) : Prop :=
  interval.intervalBegin ≤ n ∧ n ≤ interval.intervalEnd

instance : Decidable (interval.Contains n) :=
  inferInstanceAs (Decidable (_ ∧ _))

/-- The numbers in some intervals. -/
def cover (r : Registry) (uris : List ℕ) : Set ℤ :=
  {n | ∃ uri ∈ uris, ∃ interval ∈ r.intervals uri, interval.Contains n}

/-- The names of the intervals of the scope. -/
def Registry.names (r : Registry) : List ℕ := (r.scope.bind Scope.committedIntervals).getD []

/-- The committed numbers. -/
def Registry.committed (r : Registry) : Set ℤ := cover r r.names

instance : Decidable (n ∈ r.committed) :=
  inferInstanceAs (Decidable (∃ uri ∈ r.names, ∃ interval ∈ r.intervals uri, interval.Contains n))

/-- The names are different ones that were given before, and each is that of an interval. -/
structure Named (r : Registry) (uris : List ℕ) : Prop where
  nodup : uris.Nodup
  lt : ∀ uri ∈ uris, uri < r.genUri
  proper : ∀ uri ∈ uris, ∃ interval, r.intervals uri = some interval ∧
    interval.intervalBegin ≤ interval.intervalEnd

def Registry.WF (r : Registry) : Prop := Named r r.names

theorem wf_init : Registry.init.WF := ⟨List.nodup_nil, nofun, nofun⟩

/-! ## Covers -/

theorem mem_cover :
    n ∈ cover r uris ↔ ∃ uri ∈ uris, ∃ interval ∈ r.intervals uri, interval.Contains n := Iff.rfl

theorem cover_congr (h : ∀ uri ∈ uris, r'.intervals uri = r.intervals uri) :
    cover r' uris = cover r uris := by
  ext n
  exact exists_congr fun uri => and_congr_right fun huri => by rw [h uri huri]

@[simp] theorem cover_putScope : cover (r.putScope scope) uris = cover r uris := rfl

theorem cover_append : cover r (uris ++ uris') = cover r uris ∪ cover r uris' := by
  ext n
  simp only [mem_cover, Set.mem_union, List.mem_append, or_and_right, exists_or]

theorem cover_singleton (h : r.intervals uri = some interval) :
    cover r [uri] = {n | interval.Contains n} := by
  ext n
  simp [mem_cover, h]

@[simp] theorem intervals_putInterval_self :
    (r.putInterval uri interval).intervals uri = some interval := Function.update_self ..

theorem intervals_putInterval_of_ne (h : next ≠ uri) :
    (r.putInterval uri interval).intervals next = r.intervals next := Function.update_of_ne h ..

@[simp] theorem intervals_putNew_self :
    (r.putNew interval).intervals r.genUri = some interval := Function.update_self ..

theorem intervals_putNew_of_ne (h : uri ≠ r.genUri) :
    (r.putNew interval).intervals uri = r.intervals uri := Function.update_of_ne h ..

theorem setOf_contains_single (n : ℤ) : {m | (⟨n, n⟩ : Interval).Contains m} = {n} :=
  Set.ext fun m => by
    simp only [Set.mem_ofPred_eq, Set.mem_singleton_iff, Interval.Contains]
    omega

/-- One interval is set apart from the others. -/
theorem cover_eq_union (hmem : uri ∈ uris) (h : r.intervals uri = some interval) :
    cover r uris = {n | interval.Contains n} ∪ cover r (uris.filter (· ≠ uri)) := by
  ext n
  simp only [mem_cover, Set.mem_union, Set.mem_ofPred_eq, List.mem_filter, decide_eq_true_eq]
  constructor
  · rintro ⟨uri', hmem', interval', hinterval, hn⟩
    rcases eq_or_ne uri' uri with rfl | hne
    · cases h.symm.trans hinterval
      exact .inl hn
    · exact .inr ⟨uri', ⟨hmem', hne⟩, interval', hinterval, hn⟩
  · rintro (hn | ⟨uri', ⟨hmem', -⟩, hrest⟩)
    · exact ⟨uri, hmem, interval, h, hn⟩
    · exact ⟨uri', hmem', hrest⟩

/-- An interval of the list is put. -/
theorem cover_putInterval (hmem : uri ∈ uris) : cover (r.putInterval uri interval) uris =
    {n | interval.Contains n} ∪ cover r (uris.filter (· ≠ uri)) := by
  rw [cover_eq_union hmem intervals_putInterval_self]
  congr 1
  refine cover_congr fun uri' hmem' => intervals_putInterval_of_ne ?_
  exact of_decide_eq_true (List.mem_filter.mp hmem').2

theorem Named.putInterval (h : Named r uris)
    (hinterval : interval.intervalBegin ≤ interval.intervalEnd) (uri : ℕ) :
    Named (r.putInterval uri interval) uris := by
  refine ⟨h.nodup, h.lt, fun uri' hmem => ?_⟩
  rcases eq_or_ne uri' uri with rfl | hne
  · exact ⟨interval, intervals_putInterval_self, hinterval⟩
  · rw [intervals_putInterval_of_ne hne]
    exact h.proper uri' hmem

theorem Named.putNew (h : Named r uris)
    (hinterval : interval.intervalBegin ≤ interval.intervalEnd) :
    Named (r.putNew interval) (uris ++ [r.genUri]) := by
  have hne : ∀ uri ∈ uris, uri ≠ r.genUri := fun uri hmem => Nat.ne_of_lt (h.lt uri hmem)
  refine ⟨?_, fun uri hmem => ?_, fun uri hmem => ?_⟩
  · exact h.nodup.append (List.nodup_singleton _)
      (List.disjoint_singleton.mpr fun hmem => hne _ hmem rfl)
  · rcases List.mem_append.mp hmem with hmem | hmem
    · exact Nat.lt_succ_of_lt (h.lt uri hmem)
    · rw [List.mem_singleton.mp hmem]
      exact Nat.lt_succ_self _
  · rcases List.mem_append.mp hmem with hmem | hmem
    · rw [intervals_putNew_of_ne (hne uri hmem)]
      exact h.proper uri hmem
    · rw [List.mem_singleton.mp hmem]
      exact ⟨interval, intervals_putNew_self, hinterval⟩

theorem cover_putNew (h : Named r uris) : cover (r.putNew interval) (uris ++ [r.genUri]) =
    cover r uris ∪ {n | interval.Contains n} := by
  rw [cover_append, cover_singleton intervals_putNew_self]
  congr 1
  exact cover_congr fun uri hmem => intervals_putNew_of_ne (Nat.ne_of_lt (h.lt uri hmem))

/-! ## Committing -/

theorem mem_cover_of_neighbours {p q : Option (ℕ × Interval)}
    (h : neighbours r v uris p q = none) : v.toInt ∈ cover r uris := by
  induction uris generalizing p q with
  | nil => exact absurd h nofun
  | cons uri uris ih =>
    have hcons {p q : Option (ℕ × Interval)} (h : neighbours r v uris p q = none) :
        v.toInt ∈ cover r (uri :: uris) := by
      obtain ⟨uri', hmem, hrest⟩ := ih h
      exact ⟨uri', List.mem_cons_of_mem _ hmem, hrest⟩
    simp only [neighbours] at h
    split at h
    next => exact hcons h
    next interval hinterval =>
      split at h
      next hin => exact ⟨uri, List.mem_cons_self, interval, hinterval, hin⟩
      next =>
        split at h
        next => exact hcons h
        next => split at h <;> exact hcons h

/-- An interval of the list that meets a condition. -/
def IsFrom (r : Registry) (uris : List ℕ) (C : Interval → Prop) (p : ℕ × Interval) : Prop :=
  p.1 ∈ uris ∧ r.intervals p.1 = some p.2 ∧ C p.2

theorem IsFrom.cons {C : Interval → Prop} {p : ℕ × Interval} (h : IsFrom r uris C p) (uri : ℕ) :
    IsFrom r (uri :: uris) C p := ⟨List.mem_cons_of_mem _ h.1, h.2⟩

/-- What `neighbours` finds was found before or is in the list. -/
theorem neighbours_spec {p q p' q' : Option (ℕ × Interval)}
    (h : neighbours r v uris p q = some (p', q')) :
    (∀ e ∈ p', p = some e ∨ IsFrom r uris (·.intervalEnd = v.toInt - 1) e) ∧
      ∀ e ∈ q', q = some e ∨ IsFrom r uris (·.intervalBegin = v.plusOne) e := by
  induction uris generalizing p q with
  | nil =>
    cases h
    exact ⟨fun e he => .inl he, fun e he => .inl he⟩
  | cons uri uris ih =>
    simp only [neighbours] at h
    split at h
    next =>
      obtain ⟨hp, hq⟩ := ih h
      exact ⟨fun e he => (hp e he).imp_right (·.cons uri),
        fun e he => (hq e he).imp_right (·.cons uri)⟩
    next interval hinterval =>
      split at h
      next => exact absurd h nofun
      next =>
        split at h
        next hbegin =>
          obtain ⟨hp, hq⟩ := ih h
          refine ⟨fun e he => (hp e he).imp_right (·.cons uri), fun e he => .inr ?_⟩
          rcases hq e he with heq | hfrom
          · cases heq
            exact ⟨List.mem_cons_self, hinterval, hbegin⟩
          · exact hfrom.cons uri
        next =>
          split at h
          next hend =>
            obtain ⟨hp, hq⟩ := ih h
            refine ⟨fun e he => .inr ?_, fun e he => (hq e he).imp_right (·.cons uri)⟩
            rcases hp e he with heq | hfrom
            · cases heq
              exact ⟨List.mem_cons_self, hinterval, hend⟩
            · exact hfrom.cons uri
          next =>
            obtain ⟨hp, hq⟩ := ih h
            exact ⟨fun e he => (hp e he).imp_right (·.cons uri),
              fun e he => (hq e he).imp_right (·.cons uri)⟩

theorem names_eq (hscope : r.scope = some scope) :
    r.names = scope.committedIntervals.getD [] := by rw [Registry.names, hscope]; rfl

theorem Named.putScope (h : Named r uris) : (r.putScope ⟨some uris⟩).WF :=
  ⟨h.nodup, h.lt, h.proper⟩

theorem Named.interval_le (h : Named r uris) (hmem : uri ∈ uris)
    (hinterval : r.intervals uri = some interval) :
    interval.intervalBegin ≤ interval.intervalEnd := by
  obtain ⟨interval', hinterval', hle⟩ := h.proper uri hmem
  cases hinterval.symm.trans hinterval'
  exact hle

/-- No interval begins at what a text makes of `value + 1`. -/
def Comparable (r : Registry) (v : Value) : Prop :=
  ∀ uri ∈ r.names, ∀ interval ∈ r.intervals uri, interval.intervalBegin = v.plusOne →
    v.plusOne = v.toInt + 1

theorem comparable_num (n : ℤ) : Comparable r (.num n) := fun _ _ _ _ _ => rfl

/-- `commitValue` adds the value to the committed numbers. -/
theorem commitValue_spec (hr : r.WF) (hscope : r.scope = some scope) (hv : Comparable r v) :
    (commitValue r scope v).2.WF ∧
      (commitValue r scope v).2.committed = insert v.toInt r.committed := by
  have hnames := names_eq hscope
  unfold commitValue
  cases hlist : scope.committedIntervals with
  | none =>
    rw [hlist, Option.getD_none] at hnames
    have hr : Named r [] := hnames ▸ hr
    refine ⟨(hr.putNew le_rfl).putScope, ?_⟩
    change cover (r.putNew _) ([] ++ [r.genUri]) = _
    rw [cover_putNew hr, Registry.committed, hnames, setOf_contains_single, Set.union_singleton]
  | some uris =>
    rw [hlist, Option.getD_some] at hnames
    have hr : Named r uris := hnames ▸ hr
    have hcommitted : r.committed = cover r uris := by rw [Registry.committed, hnames]
    dsimp only
    split
    next hnone =>
      have hmem := mem_cover_of_neighbours hnone
      rw [← hcommitted] at hmem
      exact ⟨‹r.WF›, (Set.insert_eq_of_mem hmem).symm⟩
    next prev prevInterval next nextInterval hsome =>
      -- the value closes the gap between two intervals
      obtain ⟨hprev, hnext⟩ := neighbours_spec hsome
      obtain ⟨hpmem, hp, hend⟩ := (hprev _ rfl).resolve_left nofun
      obtain ⟨hqmem, hq, hbegin⟩ := (hnext _ rfl).resolve_left nofun
      dsimp only at hpmem hp hend hqmem hq hbegin
      rw [hv next (hnames ▸ hqmem) nextInterval hq hbegin] at hbegin
      have hple := hr.interval_le hpmem hp
      have hqle := hr.interval_le hqmem hq
      have hne : prev ≠ next := by
        rintro rfl
        cases hp.symm.trans hq
        omega
      have hpmem' : prev ∈ uris.filter (· ≠ next) := List.mem_filter.mpr ⟨hpmem, decide_eq_true hne⟩
      have hnamed : Named r (uris.filter (· ≠ next)) := ⟨hr.nodup.filter _,
        fun uri hmem => hr.lt uri (List.mem_of_mem_filter hmem),
        fun uri hmem => hr.proper uri (List.mem_of_mem_filter hmem)⟩
      refine ⟨(hnamed.putInterval ?_ prev).putScope, ?_⟩
      · dsimp only
        omega
      · change cover (r.putInterval prev _) (uris.filter (· ≠ next)) = _
        rw [cover_putInterval hpmem', hcommitted, cover_eq_union hqmem hq, cover_eq_union hpmem' hp,
          ← Set.union_assoc, ← Set.insert_union]
        congr 1
        exact Set.ext fun n => by
          simp only [Set.mem_union, Set.mem_ofPred_eq, Set.mem_insert_iff, Interval.Contains]
          omega
    next prev prevInterval hsome =>
      obtain ⟨hprev, -⟩ := neighbours_spec hsome
      obtain ⟨hpmem, hp, hend⟩ := (hprev _ rfl).resolve_left nofun
      dsimp only at hpmem hp hend
      have hple := hr.interval_le hpmem hp
      refine ⟨?_, ?_⟩
      · change Named _ r.names
        rw [hnames]
        exact hr.putInterval (by dsimp only; omega) prev
      · change cover (r.putInterval prev _) r.names = _
        rw [hnames, cover_putInterval hpmem, hcommitted, cover_eq_union hpmem hp,
          ← Set.insert_union]
        congr 1
        exact Set.ext fun n => by
          simp only [Set.mem_ofPred_eq, Set.mem_insert_iff, Interval.Contains]
          omega
    next next nextInterval hsome =>
      obtain ⟨-, hnext⟩ := neighbours_spec hsome
      obtain ⟨hqmem, hq, hbegin⟩ := (hnext _ rfl).resolve_left nofun
      dsimp only at hqmem hq hbegin
      rw [hv next (hnames ▸ hqmem) nextInterval hq hbegin] at hbegin
      have hqle := hr.interval_le hqmem hq
      refine ⟨?_, ?_⟩
      · change Named _ r.names
        rw [hnames]
        exact hr.putInterval (by dsimp only; omega) next
      · change cover (r.putInterval next _) r.names = _
        rw [hnames, cover_putInterval hqmem, hcommitted, cover_eq_union hqmem hq,
          ← Set.insert_union]
        congr 1
        exact Set.ext fun n => by
          simp only [Set.mem_ofPred_eq, Set.mem_insert_iff, Interval.Contains]
          omega
    next =>
      refine ⟨(hr.putNew le_rfl).putScope, ?_⟩
      change cover (r.putNew _) (uris ++ [r.genUri]) = _
      rw [cover_putNew hr, hcommitted, setOf_contains_single, Set.union_singleton]

/-! ## Revoking -/

/-- A number was taken from some intervals, and the others were left as they are. -/
structure Revoked (value : ℤ) (r : Registry) (uris : List ℕ) (r' : Registry) (uris' : List ℕ) :
    Prop where
  cover : cover r' uris' = cover r uris \ {value}
  named : Named r' uris'
  frame : ∀ uri < r.genUri, uri ∉ uris → r'.intervals uri = r.intervals uri
  le : r.genUri ≤ r'.genUri
  source : ∀ uri ∈ uris', uri ∈ uris ∨ r.genUri ≤ uri

theorem revokeOne_spec (hr : Named r [uri]) (hinterval : r.intervals uri = some interval) :
    Revoked value r [uri] (revokeOne value uri interval r).1
      (revokeOne value uri interval r).2 := by
  have hle := hr.interval_le List.mem_cons_self hinterval
  have hlt := hr.lt uri List.mem_cons_self
  -- the interval is replaced by another one
  have hput (i : Interval) (hi : i.intervalBegin ≤ i.intervalEnd)
      (hcontains : ∀ n, i.Contains n ↔ interval.Contains n ∧ n ≠ value) :
      Revoked value r [uri] (r.putInterval uri i) [uri] := by
    refine ⟨?_, hr.putInterval hi uri, fun uri' _ hne => ?_, le_rfl, fun _ h => .inl h⟩
    · rw [cover_singleton intervals_putInterval_self, cover_singleton hinterval]
      exact Set.ext hcontains
    · exact intervals_putInterval_of_ne fun h => hne (List.mem_singleton.mpr h)
  -- nothing stays of the interval
  have hdrop (hall : ∀ n, interval.Contains n → n = value) : Revoked value r [uri] r [] := by
    refine ⟨?_, ⟨List.nodup_nil, nofun, nofun⟩, fun _ _ _ => rfl, le_rfl, nofun⟩
    rw [cover_singleton hinterval]
    refine Set.ext fun n => ⟨nofun, fun hn => absurd (hall n hn.1) hn.2⟩
  unfold revokeOne
  split
  next hbegin =>
    split
    next =>
      refine hput _ ?_ fun n => ?_
      · dsimp only
        omega
      · simp only [Interval.Contains]
        omega
    next =>
      refine hdrop fun n hn => ?_
      obtain ⟨h1, h2⟩ := hn
      omega
  next hbegin =>
    split
    next hend =>
      split
      next =>
        refine hput _ ?_ fun n => ?_
        · dsimp only
          omega
        · simp only [Interval.Contains]
          omega
      next =>
        refine hdrop fun n hn => ?_
        obtain ⟨h1, h2⟩ := hn
        omega
    next hend =>
      split
      next hin =>
        -- the interval is cut in two
        dsimp only
        have hnamed : Named (r.putInterval uri ⟨interval.intervalBegin, value - 1⟩) [uri] :=
          hr.putInterval (by dsimp only; omega) uri
        have hname :
          (r.putInterval uri ⟨interval.intervalBegin, value - 1⟩).genUri = r.genUri := rfl
        refine ⟨?_, hnamed.putNew ?_, fun uri' hlt' hne => ?_, Nat.le_succ _, fun uri' hmem => ?_⟩
        · change cover _ ([uri] ++ [r.genUri]) = _
          rw [← hname]
          rw [cover_putNew hnamed, cover_singleton intervals_putInterval_self,
            cover_singleton hinterval]
          exact Set.ext fun n => by
            simp only [Set.mem_union, Set.mem_ofPred_eq, Set.mem_sdiff, Set.mem_singleton_iff,
              Interval.Contains]
            omega
        · dsimp only
          omega
        · rw [intervals_putNew_of_ne (hname ▸ Nat.ne_of_lt hlt')]
          exact intervals_putInterval_of_ne fun h => hne (List.mem_singleton.mpr h)
        · rcases List.mem_cons.mp hmem with rfl | hmem
          · exact .inl List.mem_cons_self
          · exact .inr (List.mem_singleton.mp hmem).ge
      next hout =>
        refine ⟨?_, hr, fun _ _ _ => rfl, le_rfl, fun _ h => .inl h⟩
        rw [cover_singleton hinterval]
        exact Set.ext fun n => by
          simp only [Set.mem_ofPred_eq, Set.mem_sdiff, Set.mem_singleton_iff, Interval.Contains]
          omega

/-- One interval after the other. -/
theorem Revoked.cons (hr : Named r (uri :: uris)) (hone : Revoked value r [uri] r₁ kept)
    (hrest : Revoked value r₁ uris r₂ uris') :
    Revoked value r (uri :: uris) r₂ (kept ++ uris') := by
  obtain ⟨hfresh, -⟩ := List.nodup_cons.mp hr.nodup
  have hlt : ∀ uri' ∈ uris, uri' < r.genUri := fun uri' h => hr.lt uri' (List.mem_cons_of_mem _ h)
  have hne : ∀ uri' ∈ uris, uri' ∉ [uri] := fun uri' h heq =>
    hfresh (List.mem_singleton.mp heq ▸ h)
  have hkept : ∀ uri' ∈ kept, uri' ∉ uris := by
    intro uri' hmem huris
    rcases hone.source uri' hmem with hsource | hsource
    · exact hne uri' huris hsource
    · exact absurd (hlt uri' huris) (Nat.not_lt.mpr hsource)
  have hkeptIntervals : ∀ uri' ∈ kept, r₂.intervals uri' = r₁.intervals uri' := fun uri' hmem =>
    hrest.frame uri' (hone.named.lt uri' hmem) (hkept uri' hmem)
  have hrestIntervals : ∀ uri' ∈ uris, r₁.intervals uri' = r.intervals uri' := fun uri' hmem =>
    hone.frame uri' (hlt uri' hmem) (hne uri' hmem)
  refine ⟨?_, ⟨?_, fun uri' hmem => ?_, fun uri' hmem => ?_⟩, fun uri' hlt' hnot => ?_,
    hone.le.trans hrest.le, fun uri' hmem => ?_⟩
  · rw [cover_append, hrest.cover, cover_congr hkeptIntervals, cover_congr hrestIntervals,
      hone.cover, ← Set.union_sdiff_distrib, ← cover_append]
    rfl
  · refine hone.named.nodup.append hrest.named.nodup fun uri' hmem hmem' => ?_
    rcases hrest.source uri' hmem' with hsource | hsource
    · exact hkept uri' hmem hsource
    · exact absurd (hone.named.lt uri' hmem) (Nat.not_lt.mpr hsource)
  · rcases List.mem_append.mp hmem with hmem | hmem
    · exact (hone.named.lt uri' hmem).trans_le hrest.le
    · exact hrest.named.lt uri' hmem
  · rcases List.mem_append.mp hmem with hmem | hmem
    · rw [hkeptIntervals uri' hmem]
      exact hone.named.proper uri' hmem
    · exact hrest.named.proper uri' hmem
  · rw [List.mem_cons, not_or] at hnot
    rw [hrest.frame uri' (hlt'.trans_le hone.le) hnot.2]
    exact hone.frame uri' hlt' fun h => hnot.1 (List.mem_singleton.mp h)
  · rcases List.mem_append.mp hmem with hmem | hmem
    · refine (hone.source uri' hmem).imp_left fun h => ?_
      rw [List.mem_singleton.mp h]
      exact List.mem_cons_self
    · rcases hrest.source uri' hmem with hsource | hsource
      · exact .inl (List.mem_cons_of_mem _ hsource)
      · exact .inr (hone.le.trans hsource)

theorem revokeLoop_spec (hr : Named r uris) : ∃ r' uris',
    revokeLoop value uris r = (r', some uris') ∧ Revoked value r uris r' uris' := by
  induction uris generalizing r with
  | nil =>
    refine ⟨r, [], rfl, ⟨?_, hr, fun _ _ _ => rfl, le_rfl, nofun⟩⟩
    exact Set.ext fun n => ⟨nofun, fun hn => absurd hn.1 nofun⟩
  | cons uri uris ih =>
    obtain ⟨hfresh, hnodup⟩ := List.nodup_cons.mp hr.nodup
    obtain ⟨interval, hinterval, hle⟩ := hr.proper uri List.mem_cons_self
    have hsingle : Named r [uri] := ⟨List.nodup_singleton uri,
      fun uri' h => List.mem_singleton.mp h ▸ hr.lt uri List.mem_cons_self,
      fun uri' h => List.mem_singleton.mp h ▸ hr.proper uri List.mem_cons_self⟩
    have hone := @revokeOne_spec r uri interval value hsingle hinterval
    have hlt : ∀ uri' ∈ uris, uri' < r.genUri := fun uri' h => hr.lt uri' (List.mem_cons_of_mem _ h)
    have hrest : Named (revokeOne value uri interval r).1 uris := by
      refine ⟨hnodup, fun uri' h => (hlt uri' h).trans_le hone.le, fun uri' h => ?_⟩
      rw [hone.frame uri' (hlt uri' h) fun heq => hfresh (List.mem_singleton.mp heq ▸ h)]
      exact hr.proper uri' (List.mem_cons_of_mem _ h)
    obtain ⟨r', uris', hloop, hrevoked⟩ := ih hrest
    refine ⟨r', _, ?_, hone.cons hr hrevoked⟩
    simp only [revokeLoop, hinterval, hloop, Option.map_some]

/-- `revokeValue` takes the value from the committed numbers. -/
theorem revokeValue_spec (hr : r.WF) (hscope : r.scope = some scope) (value : ℤ) :
    (revokeValue r scope value).WF ∧
      (revokeValue r scope value).committed = r.committed \ {value} := by
  obtain ⟨r', uris', hloop, hrevoked⟩ := @revokeLoop_spec r r.names value hr
  rw [revokeValue, ← names_eq hscope, hloop]
  exact ⟨hrevoked.named.putScope, hrevoked.cover⟩

/-! ## The next value -/

theorem maxEnd_spec (hr : Named r uris) (m : ℤ) : ∃ m', maxEnd r uris m = some m' ∧ m ≤ m' ∧
    ∀ uri ∈ uris, ∀ interval ∈ r.intervals uri, interval.intervalEnd ≤ m' := by
  induction uris generalizing m with
  | nil => exact ⟨m, rfl, le_rfl, nofun⟩
  | cons uri uris ih =>
    obtain ⟨interval, hinterval, -⟩ := hr.proper uri List.mem_cons_self
    have hrest : Named r uris := ⟨(List.nodup_cons.mp hr.nodup).2,
      fun uri' h => hr.lt uri' (List.mem_cons_of_mem _ h),
      fun uri' h => hr.proper uri' (List.mem_cons_of_mem _ h)⟩
    obtain ⟨m', hmax, hle, hends⟩ :=
      ih hrest (if m < interval.intervalEnd then interval.intervalEnd else m)
    refine ⟨m', ?_, ?_, fun uri' hmem interval' hinterval' => ?_⟩
    · simp only [maxEnd, hinterval, hmax]
    · split at hle <;> omega
    · rcases List.mem_cons.mp hmem with rfl | hmem
      · cases hinterval.symm.trans hinterval'
        split at hle <;> omega
      · exact hends uri' hmem interval' hinterval'

/-- The next value is not committed, and the text of it is not taken for the begin of an
interval. -/
theorem getNextValueSimple_spec (hr : r.WF) (hscope : r.scope = some scope) (FIRST_VALUE : ℤ) :
    ∃ v, getNextValueSimple r scope FIRST_VALUE = some v ∧ v.toInt ∉ r.committed ∧
      Comparable r v := by
  have hnames := names_eq hscope
  unfold getNextValueSimple
  split
  next hlist =>
    rw [hlist, Option.getD_none] at hnames
    refine ⟨_, rfl, ?_, ?_⟩
    · rw [Registry.committed, hnames]
      nofun
    · rw [Comparable, hnames]
      nofun
  next hlist =>
    rw [hlist, Option.getD_some] at hnames
    refine ⟨_, rfl, ?_, ?_⟩
    · rw [Registry.committed, hnames]
      nofun
    · rw [Comparable, hnames]
      nofun
  next uris _ hlist =>
    rw [hlist, Option.getD_some] at hnames
    have hr : Named r uris := hnames ▸ hr
    obtain ⟨m, hmax, hpos, hends⟩ := maxEnd_spec hr 0
    refine ⟨.str (m + 1), by rw [hmax]; rfl, ?_, ?_⟩
    · rw [Registry.committed, hnames]
      rintro ⟨uri, hmem, interval, hinterval, -, hle⟩
      have hend := hends uri hmem interval hinterval
      simp only [Value.toInt] at hle
      omega
    · rw [Comparable, hnames]
      intro uri hmem interval hinterval hbegin
      have hend := hends uri hmem interval hinterval
      have hle := hr.interval_le hmem hinterval
      simp only [Value.plusOne] at hbegin
      split at hbegin <;> omega

end Veda.Numeration
