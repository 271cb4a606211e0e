import Mathlib.Data.List.Induction
import Veda.Numeration.Committed
import Veda.Lib.Run

/-! # The scope as a canonical set of intervals

The intervals of the scope lie apart from each other: no two of them meet or are neighbours. Every
number of the set is in one of them, so that the list is determined by the set up to its order. -/

namespace Veda.Numeration

open Veda.Run

variable {r r' : Registry} {uri uri' : ℕ} {uris uris' kept : List ℕ} {interval i j k : Interval}
  {scope : Scope} {value : ℤ} {v : Value} {n : ℤ}

/-! ## Calls -/

/-- A call on the scope as it is stored. -/
inductive Call where
  | commit (value : Value)
  | revoke (value : ℤ)

def Call.step (c : Call) (r : Registry) : Registry :=
  match r.scope, c with
  | none, _ => r
  | some scope, .commit value => (commitValue r scope value).2
  | some scope, .revoke value => revokeValue r scope value

/-- A text is committed only if `getNextValueSimple` returns it for the scope as it is. -/
def Call.Permitted (c : Call) (r : Registry) : Prop :=
  match c with
  | .commit (.str n) => ∃ scope FIRST_VALUE, r.scope = some scope ∧
    getNextValueSimple r scope FIRST_VALUE = some (.str n)
  | _ => True

/-- The value was committed and is not revoked since. -/
def CommittedSince (calls : List Call) (n : ℤ) : Prop :=
  ∃ before value after, calls = before ++ .commit value :: after ∧ value.toInt = n ∧
    ∀ c ∈ after, c ≠ .revoke n

/-! ## The property -/

/-- The intervals do not meet and are not adjacent. -/
def Interval.Apart (i j : Interval) : Prop :=
  i.intervalEnd + 1 < j.intervalBegin ∨ j.intervalEnd + 1 < i.intervalBegin

/-- Every name is that of an interval that is not empty, and the intervals are apart. -/
structure Canonical (r : Registry) : Prop where
  proper : ∀ uri ∈ r.names, ∃ interval, r.intervals uri = some interval ∧
    interval.intervalBegin ≤ interval.intervalEnd
  apart : r.names.Pairwise fun uri uri' =>
    ∀ i ∈ r.intervals uri, ∀ j ∈ r.intervals uri', i.Apart j

/-! ## Intervals that are apart -/

theorem Interval.Apart.symm (h : i.Apart j) : j.Apart i := Or.symm h

/-- `i` is a part of `k`. -/
def Interval.Within (i k : Interval) : Prop :=
  k.intervalBegin ≤ i.intervalBegin ∧ i.intervalEnd ≤ k.intervalEnd

theorem Interval.Within.rfl : i.Within i := ⟨le_rfl, le_rfl⟩

theorem Interval.Within.trans (hij : i.Within j) (hjk : j.Within k) : i.Within k :=
  ⟨hjk.1.trans hij.1, hij.2.trans hjk.2⟩

theorem Interval.Apart.within {i' j' : Interval} (h : i.Apart j) (hi : i'.Within i)
    (hj : j'.Within j) : i'.Apart j' := by
  obtain ⟨hib, hie⟩ := hi
  obtain ⟨hjb, hje⟩ := hj
  unfold Apart at h ⊢
  omega

/-- The intervals of two lists of names are apart, as far as the names are different. -/
def ApartIn (r : Registry) (uris uris' : List ℕ) : Prop :=
  ∀ uri ∈ uris, ∀ uri' ∈ uris', uri ≠ uri' →
    ∀ i ∈ r.intervals uri, ∀ j ∈ r.intervals uri', i.Apart j

theorem ApartIn.mono {us us' : List ℕ} (h : ApartIn r uris uris') (hu : us ⊆ uris)
    (hu' : us' ⊆ uris') : ApartIn r us us' :=
  fun uri hmem uri' hmem' => h uri (hu hmem) uri' (hu' hmem')

theorem ApartIn.symm (h : ApartIn r uris uris') : ApartIn r uris' uris :=
  fun uri hmem uri' hmem' hne i hi j hj => (h uri' hmem' uri hmem hne.symm j hj i hi).symm

/-- One name is put before the others. -/
theorem ApartIn.cons (h : ApartIn r uris uris) (hone : ApartIn r [uri] uris) :
    ApartIn r (uri :: uris) (uri :: uris) := by
  intro u hu u' hu' hne
  rcases List.mem_cons.mp hu with rfl | hmem
  · rcases List.mem_cons.mp hu' with rfl | hmem'
    · exact absurd rfl hne
    · exact hone u List.mem_cons_self u' hmem' hne
  · rcases List.mem_cons.mp hu' with rfl | hmem'
    · exact hone.symm u hmem u' List.mem_cons_self hne
    · exact h u hmem u' hmem' hne

/-- One interval is put, which is apart from the others. -/
theorem ApartIn.putInterval (h : ApartIn r uris uris)
    (hput : ∀ uri' ∈ uris, uri' ≠ uri → ∀ j ∈ r.intervals uri', interval.Apart j) :
    ApartIn (r.putInterval uri interval) uris uris := by
  intro u hu u' hu' hne i hi j hj
  by_cases hself : u = uri
  · subst hself
    rw [intervals_putInterval_self] at hi
    rw [intervals_putInterval_of_ne hne.symm] at hj
    cases hi
    exact hput u' hu' hne.symm j hj
  · rw [intervals_putInterval_of_ne hself] at hi
    by_cases hself' : u' = uri
    · subst hself'
      rw [intervals_putInterval_self] at hj
      cases hj
      exact (hput u hu hne i hi).symm
    · rw [intervals_putInterval_of_ne hself'] at hj
      exact h u hu u' hu' hne i hi j hj

/-- A new interval is put, which is apart from the others. -/
theorem ApartIn.putNew (hr : Named r uris) (h : ApartIn r uris uris)
    (hput : ∀ uri' ∈ uris, ∀ j ∈ r.intervals uri', interval.Apart j) :
    ApartIn (r.putNew interval) (uris ++ [r.genUri]) (uris ++ [r.genUri]) := by
  have hfresh : ∀ uri ∈ uris, uri ≠ r.genUri := fun uri hmem => Nat.ne_of_lt (hr.lt uri hmem)
  have hold : ∀ uri ∈ uris, (r.putNew interval).intervals uri = r.intervals uri :=
    fun uri hmem => intervals_putNew_of_ne (hfresh uri hmem)
  intro u hu u' hu' hne i hi j hj
  rcases List.mem_append.mp hu with hu | hu
  · rw [hold u hu] at hi
    rcases List.mem_append.mp hu' with hu' | hu'
    · rw [hold u' hu'] at hj
      exact h u hu u' hu' hne i hi j hj
    · rw [List.mem_singleton.mp hu', intervals_putNew_self] at hj
      cases hj
      exact (hput u hu i hi).symm
  · rw [List.mem_singleton.mp hu, intervals_putNew_self] at hi
    cases hi
    rcases List.mem_append.mp hu' with hu' | hu'
    · rw [hold u' hu'] at hj
      exact hput u' hu' j hj
    · exact absurd ((List.mem_singleton.mp hu).trans (List.mem_singleton.mp hu').symm) hne

/-! ## Committing -/

/-- What `neighbours` leaves out: no interval has the value, none begins behind it if no next one
was found, and none ends before it if no previous one was. -/
structure Surrounded (r : Registry) (v : Value) (uris : List ℕ) (p q : Option (ℕ × Interval)) :
    Prop where
  outside : ∀ uri ∈ uris, ∀ i ∈ r.intervals uri, ¬i.Contains v.toInt
  next : q = none → ∀ uri ∈ uris, ∀ i ∈ r.intervals uri, i.intervalBegin ≠ v.plusOne
  prev : p = none → ∀ uri ∈ uris, ∀ i ∈ r.intervals uri, i.intervalEnd = v.toInt - 1 →
    i.intervalBegin = v.plusOne

theorem Surrounded.cons {p q : Option (ℕ × Interval)} (h : Surrounded r v uris p q)
    (hout : ∀ i ∈ r.intervals uri, ¬i.Contains v.toInt)
    (hnext : q = none → ∀ i ∈ r.intervals uri, i.intervalBegin ≠ v.plusOne)
    (hprev : p = none → ∀ i ∈ r.intervals uri, i.intervalEnd = v.toInt - 1 →
      i.intervalBegin = v.plusOne) : Surrounded r v (uri :: uris) p q where
  outside := List.forall_mem_cons.mpr ⟨hout, h.outside⟩
  next hq := List.forall_mem_cons.mpr ⟨hnext hq, h.next hq⟩
  prev hp := List.forall_mem_cons.mpr ⟨hprev hp, h.prev hp⟩

theorem isSome_of_neighbours {p q p' q' : Option (ℕ × Interval)}
    (h : neighbours r v uris p q = some (p', q')) :
    (p.isSome → p'.isSome) ∧ (q.isSome → q'.isSome) := by
  induction uris generalizing p q with
  | nil =>
    cases h
    exact ⟨id, id⟩
  | cons uri uris ih =>
    simp only [neighbours] at h
    split at h
    next => exact ih h
    next =>
      split at h
      next => contradiction
      next =>
        split at h
        next => exact ⟨(ih h).1, fun _ => (ih h).2 rfl⟩
        next =>
          split at h
          next => exact ⟨fun _ => (ih h).1 rfl, (ih h).2⟩
          next => exact ih h

theorem surrounded_of_neighbours {p q p' q' : Option (ℕ × Interval)}
    (h : neighbours r v uris p q = some (p', q')) : Surrounded r v uris p' q' := by
  induction uris generalizing p q with
  | nil => constructor <;> simp
  | cons uri uris ih =>
    simp only [neighbours] at h
    split at h
    next hnone =>
      have hall {C : Interval → Prop} : ∀ i ∈ r.intervals uri, C i := by
        rw [hnone]
        intro i hi
        contradiction
      exact (ih h).cons hall (fun _ => hall) fun _ => hall
    next interval hinterval =>
      have hall {C : Interval → Prop} (hC : C interval) : ∀ i ∈ r.intervals uri, C i := by
        intro i hi
        cases hinterval.symm.trans hi
        exact hC
      split at h
      next => contradiction
      next hout =>
        split at h
        next hbegin =>
          refine (ih h).cons (hall hout) (fun hq => ?_) fun _ => hall fun _ => hbegin
          exact absurd ((isSome_of_neighbours h).2 rfl) (by simp [hq])
        next hbegin =>
          split at h
          next hend =>
            refine (ih h).cons (hall hout) (fun _ => hall hbegin) fun hp => ?_
            exact absurd ((isSome_of_neighbours h).1 rfl) (by simp [hp])
          next hend =>
            exact (ih h).cons (hall hout) (fun _ => hall hbegin) fun _ =>
              hall fun h => absurd h hend

/-- What begins at the value behind `v` is what a text makes of `value + 1`. -/
def Adjacent (r : Registry) (v : Value) : Prop :=
  ∀ uri ∈ r.names, ∀ interval ∈ r.intervals uri, interval.intervalBegin = v.toInt + 1 →
    v.plusOne = v.toInt + 1

theorem adjacent_num (n : ℤ) : Adjacent r (.num n) := fun _ _ _ _ _ => rfl

/-- The intervals stay apart when a value is committed. -/
theorem ApartIn.commitValue (hr : r.WF) (hscope : r.scope = some scope) (hv : Comparable r v)
    (hadj : Adjacent r v) (h : ApartIn r r.names r.names) :
    ApartIn (commitValue r scope v).2 (commitValue r scope v).2.names
      (commitValue r scope v).2.names := by
  have hnames := names_eq hscope
  unfold Numeration.commitValue
  cases hlist : scope.committedIntervals with
  | none =>
    rw [hlist, Option.getD_none] at hnames
    have hr : Named r [] := hnames ▸ hr
    exact ApartIn.putNew hr (fun _ => List.not_mem_nil.elim) (by simp)
  | some uris =>
    rw [hlist, Option.getD_some] at hnames
    have hr : Named r uris := hnames ▸ hr
    rw [hnames] at h
    rw [Comparable, hnames] at hv
    rw [Adjacent, hnames] at hadj
    dsimp only
    split
    next hnone =>
      dsimp only
      rwa [hnames]
    next prev prevInterval next nextInterval hsome =>
      have hout := (surrounded_of_neighbours hsome).outside
      obtain ⟨hprev, hnext⟩ := neighbours_spec hsome
      obtain ⟨hpmem, hp, hend⟩ := (hprev _ rfl).resolve_left (by simp)
      obtain ⟨hqmem, hq, hbegin⟩ := (hnext _ rfl).resolve_left (by simp)
      dsimp only at hpmem hp hend hqmem hq hbegin
      rw [hv next hqmem nextInterval hq hbegin] at hbegin
      change ApartIn (r.putInterval prev _) (uris.filter (· ≠ next)) (uris.filter (· ≠ next))
      have hsub : uris.filter (· ≠ next) ⊆ uris := fun uri => List.mem_of_mem_filter
      refine (h.mono hsub hsub).putInterval fun uri hmem hne j hj => ?_
      obtain ⟨hmem, hnot⟩ := List.mem_filter.mp hmem
      -- what lies between the two intervals would have the value
      have hpj := h prev hpmem uri hmem hne.symm _ hp j hj
      have hqj := h next hqmem uri hmem (Ne.symm (of_decide_eq_true hnot)) _ hq j hj
      have hjle := hr.interval_le hmem hj
      have hjout := hout uri hmem j hj
      simp only [Interval.Apart, Interval.Contains] at hpj hqj hjout ⊢
      omega
    next prev prevInterval hsome =>
      have hout := surrounded_of_neighbours hsome
      obtain ⟨hprev, -⟩ := neighbours_spec hsome
      obtain ⟨hpmem, hp, hend⟩ := (hprev _ rfl).resolve_left (by simp)
      dsimp only at hpmem hp hend
      change ApartIn (r.putInterval prev _) r.names r.names
      rw [hnames]
      refine h.putInterval fun uri hmem hne j hj => ?_
      have hpj := h prev hpmem uri hmem hne.symm _ hp j hj
      have hjle := hr.interval_le hmem hj
      have hjout := hout.outside uri hmem j hj
      have hjnext := hout.next rfl uri hmem j hj
      have hjadj := hadj uri hmem j hj
      simp only [Interval.Apart, Interval.Contains] at hpj hjout ⊢
      omega
    next next nextInterval hsome =>
      have hout := surrounded_of_neighbours hsome
      obtain ⟨-, hnext⟩ := neighbours_spec hsome
      obtain ⟨hqmem, hq, hbegin⟩ := (hnext _ rfl).resolve_left (by simp)
      dsimp only at hqmem hq hbegin
      rw [hv next hqmem nextInterval hq hbegin] at hbegin
      change ApartIn (r.putInterval next _) r.names r.names
      rw [hnames]
      refine h.putInterval fun uri hmem hne j hj => ?_
      have hqj := h next hqmem uri hmem hne.symm _ hq j hj
      have hjle := hr.interval_le hmem hj
      have hjout := hout.outside uri hmem j hj
      have hjprev := hout.prev rfl uri hmem j hj
      have hjv := hv uri hmem j hj
      simp only [Interval.Apart, Interval.Contains] at hqj hjout ⊢
      omega
    next hsome =>
      have hout := surrounded_of_neighbours hsome
      change ApartIn (r.putNew _) (uris ++ [r.genUri]) (uris ++ [r.genUri])
      refine h.putNew hr fun uri hmem j hj => ?_
      have hjle := hr.interval_le hmem hj
      have hjout := hout.outside uri hmem j hj
      have hjnext := hout.next rfl uri hmem j hj
      have hjprev := hout.prev rfl uri hmem j hj
      have hjv := hv uri hmem j hj
      have hjadj := hadj uri hmem j hj
      simp only [Interval.Apart, Interval.Contains] at hjout ⊢
      omega

/-! ## Revoking -/

/-- What is left of some intervals lies in them and is apart. -/
structure CutFrom (r : Registry) (uris : List ℕ) (r' : Registry) (uris' : List ℕ) : Prop where
  apart : ApartIn r' uris' uris'
  within : ∀ uri' ∈ uris', ∀ i ∈ r'.intervals uri', ∃ uri ∈ uris, ∃ k ∈ r.intervals uri,
    i.Within k

theorem revokeOne_cutFrom (hlt : uri < r.genUri) (hinterval : r.intervals uri = some interval) :
    CutFrom r [uri] (revokeOne value uri interval r).1 (revokeOne value uri interval r).2 := by
  have hself : ∀ r : Registry, ApartIn r [uri] [uri] := fun r u hu u' hu' hne =>
    absurd ((List.mem_singleton.mp hu).trans (List.mem_singleton.mp hu').symm) hne
  -- one part of the interval is left
  have hput (i : Interval) (hi : i.Within interval) :
      CutFrom r [uri] (r.putInterval uri i) [uri] := by
    refine ⟨hself _, fun u hu k hk => ⟨uri, List.mem_cons_self, interval, hinterval, ?_⟩⟩
    rw [List.mem_singleton.mp hu, intervals_putInterval_self] at hk
    cases hk
    exact hi
  have hnil : CutFrom r [uri] r [] := ⟨nofun, nofun⟩
  unfold revokeOne
  split
  next hbegin =>
    split
    next => exact hput _ ⟨by dsimp only; omega, le_rfl⟩
    next => exact hnil
  next =>
    split
    next hend =>
      split
      next => exact hput _ ⟨le_rfl, by dsimp only; omega⟩
      next => exact hnil
    next =>
      split
      next hin =>
        have hne : uri ≠ (r.putInterval uri ⟨interval.intervalBegin, value - 1⟩).genUri :=
          Nat.ne_of_lt hlt
        have hold : ((r.putInterval uri ⟨interval.intervalBegin, value - 1⟩).putNew
            ⟨value + 1, interval.intervalEnd⟩).intervals uri =
              some ⟨interval.intervalBegin, value - 1⟩ := by
          rw [intervals_putNew_of_ne hne, intervals_putInterval_self]
        have hnew : ((r.putInterval uri ⟨interval.intervalBegin, value - 1⟩).putNew
            ⟨value + 1, interval.intervalEnd⟩).intervals r.genUri =
              some ⟨value + 1, interval.intervalEnd⟩ := intervals_putNew_self
        have hapart : Interval.Apart ⟨interval.intervalBegin, value - 1⟩
            ⟨value + 1, interval.intervalEnd⟩ := .inl (by dsimp only; omega)
        refine ⟨ApartIn.cons ?_ ?_, fun u hu i hi => ⟨uri, List.mem_cons_self, interval,
          hinterval, ?_⟩⟩
        · exact fun u hu u' hu' hne =>
            absurd ((List.mem_singleton.mp hu).trans (List.mem_singleton.mp hu').symm) hne
        · intro u hu u' hu' _ i hi j hj
          rw [List.mem_singleton.mp hu, hold] at hi
          rw [List.mem_singleton.mp hu', hnew] at hj
          cases hi
          cases hj
          exact hapart
        · rcases List.mem_cons.mp hu with rfl | hu
          · rw [hold] at hi
            cases hi
            exact ⟨le_rfl, by dsimp only; omega⟩
          · rw [List.mem_singleton.mp hu, hnew] at hi
            cases hi
            exact ⟨by dsimp only; omega, le_rfl⟩
      next => exact ⟨hself _, fun u hu i hi => ⟨u, hu, i, hi, .rfl⟩⟩

/-- One interval after the other. -/
theorem CutFrom.cons {r₁ r₂ : Registry} (hr : Named r (uri :: uris))
    (h : ApartIn r (uri :: uris) (uri :: uris)) (hone : Revoked value r [uri] r₁ kept)
    (hrest : Revoked value r₁ uris r₂ uris') (hcut : CutFrom r [uri] r₁ kept)
    (hcuts : CutFrom r₁ uris r₂ uris') : CutFrom r (uri :: uris) r₂ (kept ++ uris') := by
  obtain ⟨hfresh, -⟩ := List.nodup_cons.mp hr.nodup
  have hlt : ∀ u ∈ uris, u < r.genUri := fun u hu => hr.lt u (List.mem_cons_of_mem _ hu)
  have hne : ∀ u ∈ uris, u ∉ [uri] := fun u hu heq => hfresh (List.mem_singleton.mp heq ▸ hu)
  have hkept : ∀ u ∈ kept, r₂.intervals u = r₁.intervals u := by
    refine fun u hu => hrest.frame u (hone.named.lt u hu) fun hmem => ?_
    rcases hone.source u hu with hsource | hsource
    · exact hne u hmem hsource
    · exact absurd (hlt u hmem) (Nat.not_lt.mpr hsource)
  have hwithin : ∀ u ∈ kept, ∀ i ∈ r₂.intervals u, ∃ k ∈ r.intervals uri, i.Within k := by
    intro u hu i hi
    rw [hkept u hu] at hi
    obtain ⟨u', hu', k, hk, hik⟩ := hcut.within u hu i hi
    exact ⟨k, List.mem_singleton.mp hu' ▸ hk, hik⟩
  have hwithins : ∀ u ∈ uris', ∀ i ∈ r₂.intervals u, ∃ u' ∈ uris, ∃ k ∈ r.intervals u',
      i.Within k := by
    intro u hu i hi
    obtain ⟨u', hu', k, hk, hik⟩ := hcuts.within u hu i hi
    rw [hone.frame u' (hlt u' hu') (hne u' hu')] at hk
    exact ⟨u', hu', k, hk, hik⟩
  have hcross : ApartIn r₂ kept uris' := by
    intro u hu u' hu' _ i hi j hj
    obtain ⟨k, hk, hik⟩ := hwithin u hu i hi
    obtain ⟨v, hv, l, hl, hjl⟩ := hwithins u' hu' j hj
    have hvne : uri ≠ v := fun heq => hfresh (heq ▸ hv)
    exact (h uri List.mem_cons_self v (List.mem_cons_of_mem _ hv) hvne k hk l hl).within hik hjl
  refine ⟨fun u hu u' hu' huu' i hi j hj => ?_, fun u hu i hi => ?_⟩
  · rcases List.mem_append.mp hu with hu | hu
    · rcases List.mem_append.mp hu' with hu' | hu'
      · rw [hkept u hu] at hi
        rw [hkept u' hu'] at hj
        exact hcut.apart u hu u' hu' huu' i hi j hj
      · exact hcross u hu u' hu' huu' i hi j hj
    · rcases List.mem_append.mp hu' with hu' | hu'
      · exact hcross.symm u hu u' hu' huu' i hi j hj
      · exact hcuts.apart u hu u' hu' huu' i hi j hj
  · rcases List.mem_append.mp hu with hu | hu
    · obtain ⟨k, hk, hik⟩ := hwithin u hu i hi
      exact ⟨uri, List.mem_cons_self, k, hk, hik⟩
    · obtain ⟨u', hu', k, hk, hik⟩ := hwithins u hu i hi
      exact ⟨u', List.mem_cons_of_mem _ hu', k, hk, hik⟩

theorem revokeLoop_cutFrom (hr : Named r uris) (h : ApartIn r uris uris)
    (hloop : revokeLoop value uris r = (r', some uris')) : CutFrom r uris r' uris' := by
  induction uris generalizing r r' uris' with
  | nil =>
    cases hloop
    exact ⟨nofun, nofun⟩
  | cons uri uris ih =>
    obtain ⟨hfresh, hnodup⟩ := List.nodup_cons.mp hr.nodup
    obtain ⟨interval, hinterval, -⟩ := hr.proper uri List.mem_cons_self
    have hsingle : Named r [uri] := ⟨List.nodup_singleton uri,
      fun u hu => List.mem_singleton.mp hu ▸ hr.lt uri List.mem_cons_self,
      fun u hu => List.mem_singleton.mp hu ▸ hr.proper uri List.mem_cons_self⟩
    have hone := @revokeOne_spec r uri interval value hsingle hinterval
    have hlt : ∀ u ∈ uris, u < r.genUri := fun u hu => hr.lt u (List.mem_cons_of_mem _ hu)
    have hframe : ∀ u ∈ uris, (revokeOne value uri interval r).1.intervals u = r.intervals u :=
      fun u hu => hone.frame u (hlt u hu) fun heq => hfresh (List.mem_singleton.mp heq ▸ hu)
    have hnamed : Named (revokeOne value uri interval r).1 uris := by
      refine ⟨hnodup, fun u hu => (hlt u hu).trans_le hone.le, fun u hu => ?_⟩
      rw [hframe u hu]
      exact hr.proper u (List.mem_cons_of_mem _ hu)
    have hapart : ApartIn (revokeOne value uri interval r).1 uris uris := by
      intro u hu u' hu' hne i hi j hj
      rw [hframe u hu] at hi
      rw [hframe u' hu'] at hj
      exact h u (List.mem_cons_of_mem _ hu) u' (List.mem_cons_of_mem _ hu') hne i hi j hj
    obtain ⟨r₂, kept', hrest, hrevoked⟩ := @revokeLoop_spec _ _ value hnamed
    simp only [revokeLoop, hinterval, hrest, Option.map_some, Prod.mk.injEq,
      Option.some.injEq] at hloop
    obtain ⟨rfl, rfl⟩ := hloop
    exact .cons hr h hone hrevoked (revokeOne_cutFrom (hr.lt uri List.mem_cons_self) hinterval)
      (ih hnamed hapart hrest)

/-- The intervals stay apart when a value is revoked. -/
theorem ApartIn.revokeValue (hr : r.WF) (hscope : r.scope = some scope)
    (h : ApartIn r r.names r.names) (value : ℤ) :
    ApartIn (revokeValue r scope value) (revokeValue r scope value).names
      (revokeValue r scope value).names := by
  obtain ⟨r', uris', hloop, -⟩ := @revokeLoop_spec r r.names value hr
  have hcut := revokeLoop_cutFrom hr h hloop
  rw [Numeration.revokeValue, ← names_eq hscope, hloop]
  exact hcut.apart

/-! ## The next value -/

/-- All intervals end before the text that `getNextValueSimple` returns. -/
theorem getNextValueSimple_adjacent (hr : r.WF) (hscope : r.scope = some scope) {FIRST_VALUE : ℤ}
    (h : getNextValueSimple r scope FIRST_VALUE = some v) : Adjacent r v := by
  have hnames := names_eq hscope
  unfold getNextValueSimple at h
  intro uri hmem interval hinterval hbegin
  rw [hnames] at hmem
  split at h
  next hlist =>
    rw [hlist] at hmem
    exact absurd hmem nofun
  next hlist =>
    rw [hlist] at hmem
    exact absurd hmem nofun
  next uris _ hlist =>
    rw [hlist, Option.getD_some] at hnames hmem
    have hr : Named r uris := hnames ▸ hr
    obtain ⟨m, hmax, -, hends⟩ := maxEnd_spec hr 0
    rw [hmax, Option.map_some, Option.some.injEq] at h
    subst h
    have hle := hr.interval_le hmem hinterval
    have hend := hends uri hmem interval hinterval
    simp only [Value.toInt] at hbegin
    omega

/-- What may be committed is compared with the begins of the intervals as the number it is. -/
theorem Call.Permitted.comparable (hr : r.WF)
    (h : (Call.commit v).Permitted r) : Comparable r v ∧ Adjacent r v := by
  cases v with
  | num n => exact ⟨comparable_num n, adjacent_num n⟩
  | str n =>
    obtain ⟨scope', FIRST_VALUE, hscope', hnext⟩ := h
    obtain ⟨v, hv, -, hcomparable⟩ := getNextValueSimple_spec hr hscope' FIRST_VALUE
    cases hnext.symm.trans hv
    exact ⟨hcomparable, getNextValueSimple_adjacent hr hscope' hnext⟩

/-! ## Runs -/

/-- There is a scope, its intervals are apart, and they stand for the set `s`. -/
structure Represents (s : Set ℤ) (r : Registry) : Prop where
  scope : r.scope.isSome
  wf : r.WF
  apart : ApartIn r r.names r.names
  committed : r.committed = s

/-- What a call makes of the set. -/
def Call.effect (c : Call) (s : Set ℤ) : Set ℤ :=
  match c with
  | .commit value => insert value.toInt s
  | .revoke value => s \ {value}

theorem scope_commitValue (h : r.scope = some scope) :
    (commitValue r scope v).2.scope.isSome := by
  have hsome : r.scope.isSome := by rw [h]; rfl
  unfold commitValue
  split
  next =>
    split
    next => exact hsome
    next => rfl
    next => exact hsome
    next => exact hsome
    next => rfl
  next => rfl

theorem Represents.step {s : Set ℤ} {c : Call} (h : Represents s r) (hc : c.Permitted r) :
    Represents (c.effect s) (c.step r) := by
  obtain ⟨scope, hscope⟩ := Option.isSome_iff_exists.mp h.scope
  cases c with
  | commit v =>
    obtain ⟨hv, hadj⟩ := Call.Permitted.comparable h.wf hc
    obtain ⟨hwf, hcommitted⟩ := commitValue_spec h.wf hscope hv
    have hstep : (Call.commit v).step r = (commitValue r scope v).2 := by
      simp only [Call.step, hscope]
    rw [hstep]
    exact ⟨scope_commitValue hscope, hwf, h.apart.commitValue h.wf hscope hv hadj,
      by rw [hcommitted, h.committed]; rfl⟩
  | revoke value =>
    obtain ⟨hwf, hcommitted⟩ := revokeValue_spec h.wf hscope value
    obtain ⟨r', uris', hloop, -⟩ := @revokeLoop_spec r r.names value h.wf
    have hstep : (Call.revoke value).step r = revokeValue r scope value := by
      simp only [Call.step, hscope]
    rw [hstep]
    refine ⟨?_, hwf, h.apart.revokeValue h.wf hscope value, by rw [hcommitted, h.committed]; rfl⟩
    rw [revokeValue, ← names_eq hscope, hloop]
    rfl

/-- The set after the calls. -/
theorem Represents.run {s : Set ℤ} {calls : List Call} (h : Represents s r)
    (hcalls : Along Call.step Call.Permitted r calls) :
    Represents (calls.foldl (fun s c => c.effect s) s) (run Call.step r calls) := by
  induction calls generalizing r s with
  | nil => exact h
  | cons c calls ih => exact ih (h.step hcalls.1) hcalls.2

theorem mem_effect {s : Set ℤ} {c : Call} : n ∈ c.effect s ↔
    (∃ v, c = .commit v ∧ v.toInt = n) ∨ n ∈ s ∧ c ≠ .revoke n := by
  cases c with
  | commit v =>
    simp only [Call.effect, Set.mem_insert_iff, Call.commit.injEq, exists_eq_left', ne_eq,
      reduceCtorEq, not_false_eq_true, and_true]
    exact or_congr_left eq_comm
  | revoke value =>
    simp only [Call.effect, Set.mem_sdiff, Set.mem_singleton_iff, reduceCtorEq, false_and,
      exists_false, false_or, ne_eq, Call.revoke.injEq]
    exact and_congr_right' (not_congr eq_comm)

/-- By induction on the calls from the last one back. -/
theorem mem_foldl_effect {calls : List Call} :
    n ∈ calls.foldl (fun s c => c.effect s) ∅ ↔ CommittedSince calls n := by
  induction calls using List.reverseRecOn with
  | nil =>
    refine ⟨nofun, ?_⟩
    rintro ⟨before, value, after, heq, -⟩
    exact absurd heq (by simp)
  | append_singleton calls c ih =>
    rw [List.foldl_append, List.foldl_cons, List.foldl_nil, mem_effect, ih]
    constructor
    · rintro (⟨v, rfl, hv⟩ | ⟨⟨before, value, after, rfl, hvalue, hafter⟩, hc⟩)
      · exact ⟨calls, v, [], rfl, hv, nofun⟩
      · refine ⟨before, value, after ++ [c], by simp, hvalue, fun c' hc' => ?_⟩
        rcases List.mem_append.mp hc' with hc' | hc'
        · exact hafter c' hc'
        · exact List.mem_singleton.mp hc' ▸ hc
    · rintro ⟨before, value, after, heq, hvalue, hafter⟩
      rcases List.eq_nil_or_concat after with rfl | ⟨after, c', rfl⟩
      · obtain ⟨-, hc⟩ := List.append_inj' heq rfl
        exact .inl ⟨value, List.head_eq_of_cons_eq hc, hvalue⟩
      · rw [List.concat_eq_append] at heq hafter
        rw [← List.cons_append, ← List.append_assoc] at heq
        obtain ⟨rfl, hc⟩ := List.append_inj' heq rfl
        have hc : c = c' := List.head_eq_of_cons_eq hc
        refine .inr ⟨⟨before, value, after, rfl, hvalue, fun c hmem =>
          hafter c (List.mem_append_left _ hmem)⟩, ?_⟩
        exact hc ▸ hafter c' (List.mem_append_right _ (List.mem_singleton.mpr rfl))

theorem Represents.canonical {s : Set ℤ} (h : Represents s r) : Canonical r where
  proper := h.wf.proper
  apart := (List.Nodup.pairwise_of_forall_ne h.wf.nodup) fun uri hmem uri' hmem' hne =>
    h.apart uri hmem uri' hmem' hne

/-- The scope is there and lists nothing. -/
def Registry.IsEmpty (r : Registry) : Prop := r.scope.isSome ∧ r.names = []

theorem Registry.IsEmpty.inv (h : r.IsEmpty) : Represents ∅ r where
  scope := h.1
  wf := by
    rw [Registry.WF, h.2]
    exact ⟨List.nodup_nil, by simp, by simp⟩
  apart := by
    rw [h.2]
    simp [ApartIn]
  committed := by
    rw [Registry.committed, h.2]
    exact Set.eq_empty_of_forall_notMem (by simp [cover])

end Veda.Numeration
