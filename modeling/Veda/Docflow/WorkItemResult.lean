import Mathlib.Algebra.BigOperators.Group.List.Lemmas
import Mathlib.Algebra.GroupWithZero.Nat
import Mathlib.Data.Fintype.EquivFin
import Mathlib.Data.List.Perm.Basic
import Mathlib.Data.List.Nodup

/-! # Comparing results

The model of `WorkItemResult.compare` in `docflow-util.js`. The agreeing pairs are counted in one
counter, which goes on from one entry to the next and from one executor to the next, and a result is
found when the counter is equal to the length of the value after some entry. -/

namespace Veda.Docflow.WorkItemResult

/-! ## The model -/

/-- An entry of a property. Data are JavaScript values, with `==` as it is for those of one type. -/
structure Value (δ : Type) where
  data : δ
  type : String
  deriving DecidableEq

/-- What an executor has for each variable. -/
abbrev ExecutorResult (δ : Type) := String → Option (List (Value δ))

variable {δ : Type} [DecidableEq δ]

/-- The loop over `k`. -/
def countValue (entry : Value δ) (value : List (Value δ)) (trueCount : ℕ) : ℕ :=
  value.foldl (fun trueCount v =>
    if entry.data = v.data ∧ entry.type = v.type then trueCount + 1 else trueCount) trueCount

/-- The loop over `j`: whether a result was found, and the counter. -/
def compareEntries (value : List (Value δ)) : List (Value δ) → ℕ → Bool × ℕ
  | [], trueCount => (false, trueCount)
  | entry :: wirv, trueCount =>
    let trueCount := countValue entry value trueCount
    if trueCount = value.length then (true, trueCount) else compareEntries value wirv trueCount

/-- The loop over `i`. -/
def compareResults (varName : String) (value : List (Value δ)) :
    List (ExecutorResult δ) → ℕ → Bool
  | [], _ => false
  | result :: results, trueCount =>
    match result varName with
    | none => compareResults varName value results trueCount
    | some wirv =>
      if wirv.length = value.length then
        match compareEntries value wirv trueCount with
        | (true, _) => true
        | (false, trueCount) => compareResults varName value results trueCount
      else compareResults varName value results trueCount

/-- `compare`. -/
def compare (workItemResult : List (ExecutorResult δ)) (varName : String)
    (value : List (Value δ)) : Bool :=
  if value = [] then false
  else if workItemResult = [] then false
  else compareResults varName value workItemResult 0

/-! ## The property -/

/-- Some executor has these values for the variable, in some order. -/
def IsResult (workItemResult : List (ExecutorResult δ)) (varName : String)
    (value : List (Value δ)) : Prop :=
  ∃ result ∈ workItemResult, ∃ wirv ∈ result varName, wirv.Perm value

def Decides (workItemResult : List (ExecutorResult δ)) (varName : String)
    (value : List (Value δ)) : Prop :=
  compare workItemResult varName value = true ↔ IsResult workItemResult varName value

/-- The entries of an executor, if they are as many as those of the value. -/
def entriesOf (value : List (Value δ)) : Option (List (Value δ)) → List (Value δ)
  | none => []
  | some wirv => if wirv.length = value.length then wirv else []

/-- The entries of all executors that have as many for the variable as the value. -/
def entries (workItemResult : List (ExecutorResult δ)) (varName : String)
    (value : List (Value δ)) : List (Value δ) :=
  workItemResult.flatMap fun result => entriesOf value (result varName)

/-! ## The counter -/

/-- After some entry of a list the counter, which began with `count`, is at `n`. -/
def Reaches {α : Type} (f : α → ℕ) (n count : ℕ) (l : List α) : Prop :=
  ∃ pre a post, l = pre ++ a :: post ∧ count + ((pre ++ [a]).map f).sum = n

section
variable {α : Type} {f : α → ℕ} {n count : ℕ} {a : α} {l l' : List α}

theorem reaches_nil : ¬Reaches f n count [] := by
  rintro ⟨pre, a, post, heq, -⟩
  exact absurd heq (by simp)

theorem reaches_cons :
    Reaches f n count (a :: l) ↔ count + f a = n ∨ Reaches f n (count + f a) l := by
  constructor
  · rintro ⟨pre, a', post, heq, hsum⟩
    cases pre with
    | nil =>
      cases heq
      exact .inl (by simpa using hsum)
    | cons first pre =>
      rw [List.cons_append, List.cons.injEq] at heq
      obtain ⟨rfl, heq⟩ := heq
      exact .inr ⟨pre, a', post, heq, by simpa [Nat.add_assoc] using hsum⟩
  · rintro (hsum | ⟨pre, a', post, rfl, hsum⟩)
    · exact ⟨[], a, l, rfl, by simpa using hsum⟩
    · exact ⟨a :: pre, a', post, rfl, by simpa [Nat.add_assoc] using hsum⟩

theorem reaches_append : Reaches f n count (l ++ l') ↔
    Reaches f n count l ∨ Reaches f n (count + (l.map f).sum) l' := by
  induction l generalizing count with
  | nil => simp [reaches_nil]
  | cons a l ih =>
    rw [List.cons_append, reaches_cons, reaches_cons, ih, or_assoc, List.map_cons, List.sum_cons,
      Nat.add_assoc]

/-- By steps of at most one, every number up to the last one is reached. -/
theorem reaches_of_le_one (hf : ∀ a, f a ≤ 1) (hlt : count < n) :
    Reaches f n count l ↔ n ≤ count + (l.map f).sum := by
  induction l generalizing count with
  | nil => simpa [reaches_nil] using hlt
  | cons a l ih =>
    have ha := hf a
    rw [reaches_cons, List.map_cons, List.sum_cons, ← Nat.add_assoc]
    rcases Nat.lt_or_ge (count + f a) n with hlt' | hge
    · rw [ih hlt', or_iff_right hlt'.ne]
    · exact iff_of_true (.inl (by omega)) (by omega)

/-- The sum itself is reached by a list that is not empty. -/
theorem reaches_sum (hl : l ≠ []) : Reaches f (count + (l.map f).sum) count l := by
  obtain ⟨pre, a, rfl⟩ := List.eq_nil_or_concat' l |>.resolve_left hl
  exact ⟨pre, a, [], rfl, rfl⟩

end

section
variable {workItemResult : List (ExecutorResult δ)} {varName : String} {value wirv : List (Value δ)}
  {entry : Value δ} {trueCount : ℕ}

theorem countValue_eq : countValue entry value trueCount = trueCount + value.count entry := by
  induction value generalizing trueCount with
  | nil => rfl
  | cons v value ih =>
    have hiff : entry.data = v.data ∧ entry.type = v.type ↔ v = entry := by
      obtain ⟨data, type⟩ := entry
      obtain ⟨data', type'⟩ := v
      rw [Value.mk.injEq]
      exact ⟨fun h => ⟨h.1.symm, h.2.symm⟩, fun h => ⟨h.1.symm, h.2.symm⟩⟩
    have hstep : countValue entry (v :: value) trueCount =
        countValue entry value (if v = entry then trueCount + 1 else trueCount) := by
      simp only [countValue, List.foldl_cons, hiff]
    rw [hstep, ih, List.count_cons]
    simp only [beq_iff_eq]
    split <;> omega

theorem compareEntries_iff : (compareEntries value wirv trueCount).1 = true ↔
    Reaches (value.count ·) value.length trueCount wirv := by
  induction wirv generalizing trueCount with
  | nil => exact iff_of_false nofun reaches_nil
  | cons entry wirv ih =>
    simp only [compareEntries, countValue_eq, reaches_cons]
    split
    next h => exact iff_of_true rfl (.inl h)
    next h => rw [ih, or_iff_right h]

theorem snd_compareEntries (h : (compareEntries value wirv trueCount).1 = false) :
    (compareEntries value wirv trueCount).2 =
      trueCount + (wirv.map fun entry => value.count entry).sum := by
  induction wirv generalizing trueCount with
  | nil => rfl
  | cons entry wirv ih =>
    simp only [compareEntries, countValue_eq] at h ⊢
    split at h
    next => exact absurd h nofun
    next hne => rw [if_neg hne, ih h, List.map_cons, List.sum_cons, Nat.add_assoc]

omit [DecidableEq δ] in
theorem entriesOf_some (h : wirv.length = value.length) : entriesOf value (some wirv) = wirv :=
  if_pos h

omit [DecidableEq δ] in
theorem entriesOf_some_ne (h : wirv.length ≠ value.length) : entriesOf value (some wirv) = [] :=
  if_neg h

omit [DecidableEq δ] in
theorem entries_cons (result : ExecutorResult δ) (results : List (ExecutorResult δ)) :
    entries (result :: results) varName value =
      entriesOf value (result varName) ++ entries results varName value := rfl

theorem compareResults_iff : compareResults varName value workItemResult trueCount = true ↔
    Reaches (value.count ·) value.length trueCount (entries workItemResult varName value) := by
  induction workItemResult generalizing trueCount with
  | nil => exact iff_of_false nofun reaches_nil
  | cons result results ih =>
    simp only [compareResults, entries_cons]
    split
    next hnone =>
      rw [ih, hnone]
      rfl
    next wirv hsome =>
      rw [hsome]
      split
      next hlength =>
        rw [entriesOf_some hlength, reaches_append, ← compareEntries_iff]
        split
        next h => exact iff_of_true rfl (.inl (congrArg Prod.fst h))
        next count h =>
          have hfst := congrArg Prod.fst h
          have hsnd := (snd_compareEntries hfst).symm.trans (congrArg Prod.snd h)
          rw [ih, hsnd, or_iff_right (by rw [hfst]; nofun)]
      next hlength =>
        rw [ih, entriesOf_some_ne hlength]
        rfl

/-- A result is found when, after some entry, as many pairs agree as the value is long. -/
theorem compare_iff_reaches (hvalue : value ≠ []) : compare workItemResult varName value = true ↔
    Reaches (value.count ·) value.length 0 (entries workItemResult varName value) := by
  rw [compare, if_neg hvalue]
  split
  next h =>
    subst h
    exact iff_of_false nofun reaches_nil
  next => exact compareResults_iff

/-! ## Values without repetitions -/

/-- How many of the entries are in the value. -/
theorem sum_count_of_nodup (hvalue : value.Nodup) :
    (wirv.map fun entry => value.count entry).sum = wirv.countP (· ∈ value) := by
  induction wirv with
  | nil => rfl
  | cons entry wirv ih =>
    rw [List.map_cons, List.sum_cons, ih, List.countP_cons, Nat.add_comm]
    simp only [decide_eq_true_eq, hvalue.count]

omit [DecidableEq δ] in
theorem sublist_entries {wirv : List (Value δ)} {result : ExecutorResult δ}
    (hresult : result ∈ workItemResult) (hwirv : result varName = some wirv)
    (hlength : wirv.length = value.length) :
    wirv.Sublist (entries workItemResult varName value) := by
  obtain ⟨before, after, rfl⟩ := List.append_of_mem hresult
  rw [entries, List.flatMap_append, List.flatMap_cons, hwirv, entriesOf_some hlength]
  exact (List.sublist_append_left ..).trans (List.sublist_append_right ..)

/-- A real result has as many entries in the value as the value is long. -/
theorem IsResult.length_le (h : IsResult workItemResult varName value) :
    value.length ≤ (entries workItemResult varName value).countP (· ∈ value) := by
  obtain ⟨result, hresult, wirv, hwirv, hperm⟩ := h
  have hall : wirv.countP (· ∈ value) = wirv.length :=
    List.countP_eq_length.mpr fun entry hmem => decide_eq_true (hperm.subset hmem)
  rw [← hperm.length_eq, ← hall]
  exact (sublist_entries hresult hwirv hperm.length_eq).countP_le

theorem decides_of_nodup (hne : value ≠ []) (hvalue : value.Nodup) :
    Decides workItemResult varName value ↔ IsResult workItemResult varName value ∨
      (entries workItemResult varName value).countP (· ∈ value) < value.length := by
  have hone : ∀ entry, value.count entry ≤ 1 := List.nodup_iff_count_le_one.mp hvalue
  rw [Decides, compare_iff_reaches hne,
    reaches_of_le_one hone (List.length_pos_iff.mpr hne), Nat.zero_add, sum_count_of_nodup hvalue]
  by_cases hresult : IsResult workItemResult varName value
  · exact iff_of_true (iff_of_true hresult.length_le hresult) (.inl hresult)
  · rw [iff_false_right hresult, or_iff_right hresult, Nat.not_le]

/-! ## Longer values -/

/-- The executors have the entries of the value one each, and something else. -/
def partly (other : Value δ) (value : List (Value δ)) : List (ExecutorResult δ) :=
  value.dedup.map fun entry _ => some (entry :: List.replicate (value.length - 1) other)

theorem entries_partly {other : Value δ} (hvalue : value ≠ []) :
    entries (partly other value) varName value =
      value.dedup.flatMap fun entry => entry :: List.replicate (value.length - 1) other := by
  have hlength : ∀ entry : Value δ,
      (entry :: List.replicate (value.length - 1) other).length = value.length := by
    intro entry
    have hpos := List.length_pos_iff.mpr hvalue
    rw [List.length_cons, List.length_replicate]
    omega
  rw [entries, partly, List.flatMap_map]
  congr 1
  funext entry
  exact entriesOf_some (hlength entry)

theorem compare_partly {other : Value δ} (hvalue : value ≠ []) (hother : other ∉ value) :
    compare (partly other value) varName value = true := by
  have hzero : value.count other = 0 := List.count_eq_zero.mpr hother
  have hsum : ∀ l : List (Value δ), ((l.flatMap fun entry =>
      entry :: List.replicate (value.length - 1) other).map (value.count ·)).sum =
        (l.map (value.count ·)).sum := by
    intro l
    induction l with
    | nil => rfl
    | cons entry l ih =>
      simp [ih, hzero]
  rw [compare_iff_reaches hvalue, entries_partly hvalue]
  have hnil : (value.dedup.flatMap fun entry =>
      entry :: List.replicate (value.length - 1) other) ≠ [] := by
    intro h
    have hmem := List.mem_dedup.mpr (List.head_mem hvalue)
    exact absurd (List.flatMap_eq_nil_iff.mp h _ hmem) nofun
  have hreaches := @reaches_sum _ (value.count ·) 0 _ hnil
  rwa [Nat.zero_add, hsum, List.sum_map_count_dedup_eq_length] at hreaches

theorem not_isResult_partly {other : Value δ} (hlength : 2 ≤ value.length)
    (hother : other ∉ value) : ¬IsResult (partly other value) varName value := by
  rintro ⟨result, hresult, wirv, hwirv, hperm⟩
  obtain ⟨entry, -, rfl⟩ := List.mem_map.mp hresult
  cases hwirv
  refine hother (hperm.subset (List.mem_cons_of_mem _ (List.mem_replicate.mpr ⟨?_, rfl⟩)))
  omega

omit [DecidableEq δ] in
/-- There is always something else: an entry of a type that the value does not have. -/
theorem exists_notMem (hvalue : value ≠ []) : ∃ other : Value δ, other ∉ value := by
  obtain ⟨type, htype⟩ := Infinite.exists_notMem_finset (value.map (·.type)).toFinset
  refine ⟨⟨(value.head hvalue).data, type⟩, fun hmem => htype ?_⟩
  exact List.mem_toFinset.mpr (List.mem_map.mpr ⟨_, hmem, rfl⟩)

end

/-- **A predicate fires on a real result only**, whatever the results are, exactly for a value with
one entry. For a longer value without repetitions, it does so for those results where one executor
has the value, or fewer entries are in it than it has; for one with repetitions, where the counter
comes to its length exactly if one executor has it. -/
theorem decides_iff (value : List (Value δ)) (hvalue : value ≠ []) :
    ((∀ workItemResult varName, Decides workItemResult varName value) ↔ value.length = 1) ∧
      ∀ workItemResult varName, Decides workItemResult varName value ↔
        if value.Nodup then IsResult workItemResult varName value ∨
          (entries workItemResult varName value).countP (· ∈ value) < value.length
        else Reaches (value.count ·) value.length 0 (entries workItemResult varName value) ↔
          IsResult workItemResult varName value := by
  refine ⟨⟨fun h => ?_, fun hlength workItemResult varName => ?_⟩, fun _ _ => ?_⟩
  · by_contra hne
    have hlength : 2 ≤ value.length := by
      have hpos := List.length_pos_iff.mpr hvalue
      omega
    obtain ⟨other, hother⟩ := exists_notMem hvalue
    exact not_isResult_partly hlength hother
      ((h (partly other value) "result").mp (compare_partly hvalue hother))
  · obtain ⟨v, rfl⟩ := List.length_eq_one_iff.mp hlength
    rw [decides_of_nodup hvalue (List.nodup_singleton v)]
    -- an entry of a list with one entry is all of it
    by_contra hnot
    obtain ⟨hresult, hhit⟩ := not_or.mp hnot
    rw [Nat.not_lt] at hhit
    obtain ⟨entry, hentry, hmem⟩ := List.countP_pos_iff.mp hhit
    cases List.mem_singleton.mp (of_decide_eq_true hmem)
    obtain ⟨result, hin, hentry⟩ := List.mem_flatMap.mp hentry
    cases hsome : result varName with
    | none =>
      rw [hsome] at hentry
      exact absurd hentry List.not_mem_nil
    | some wirv =>
      rw [hsome] at hentry
      by_cases hone : wirv.length = [v].length
      · rw [entriesOf_some hone] at hentry
        obtain ⟨w, rfl⟩ := List.length_eq_one_iff.mp hone
        cases List.mem_singleton.mp hentry
        exact hresult ⟨result, hin, _, hsome, .refl _⟩
      · rw [entriesOf_some_ne hone] at hentry
        exact absurd hentry List.not_mem_nil
  · split
    next hnodup => exact decides_of_nodup hvalue hnodup
    next => rw [Decides, compare_iff_reaches hvalue]

def approved : Value String := ⟨"v-wf:Approved", "Uri"⟩

def declined : Value String := ⟨"v-wf:Declined", "Uri"⟩

/-- Two entries. -/
theorem decides_iff_two :
    ((∀ workItemResult varName, Decides workItemResult varName [approved, declined]) ↔
        [approved, declined].length = 1) ∧
      ∀ workItemResult varName, Decides workItemResult varName [approved, declined] ↔
        if [approved, declined].Nodup then IsResult workItemResult varName [approved, declined] ∨
          (entries workItemResult varName [approved, declined]).countP
            (· ∈ [approved, declined]) < [approved, declined].length
        else Reaches ([approved, declined].count ·) [approved, declined].length 0
            (entries workItemResult varName [approved, declined]) ↔
          IsResult workItemResult varName [approved, declined] :=
  decides_iff [approved, declined] (by decide)

/-- An executor has one of two entries twice. -/
theorem not_decides : ¬ ∀ (workItemResult : List (ExecutorResult String)) (varName : String)
    (value : List (Value String)), value ≠ [] → Decides workItemResult varName value := by
  intro h
  obtain ⟨result, hresult, wirv, hwirv, hperm⟩ :=
    (h [fun _ => some [approved, approved]] "result" [approved, declined] (by decide)).mp
      (by decide)
  cases List.mem_singleton.mp hresult
  cases hwirv
  exact absurd hperm (by decide)

end Veda.Docflow.WorkItemResult
