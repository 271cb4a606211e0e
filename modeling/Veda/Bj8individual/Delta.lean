import Veda.Bj8individual.Individual
import Veda.Mstorage.StorageManager

/-! # Changing an individual by a delta

The model of `indv_apply_cmd` in `utils.d` with the functions of `individual.d` that it calls, where
a text has a language. -/

namespace Veda.Bj8individual

open Mstorage (IndvOp)

namespace Resource

/-- `opEquals(Resource)`. It does not look at the language of a text, and a binary value equals
nothing, not even itself. -/
def opEquals : Resource → Resource → Bool
  | .uri s, .uri t => s = t
  | .str s _, .str t _ => s = t
  | .integer m, .integer n => m = n
  | .datetime m, .datetime n => m = n
  | .decimal m e, .decimal m' e' => m = m' ∧ e = e'
  | .boolean b, .boolean c => b = c
  | _, _ => false

def isBinary : Resource → Bool
  | .binary _ => true
  | _ => false

end Resource

/-- The values that `addUniqueResources` makes of those of a predicate. -/
def addUnique (rss inRss : Resources) : Resources :=
  rss ++ inRss.filter fun inRs => !rss.any inRs.opEquals

/-- The values that `removeResources` leaves of those of a predicate. -/
def remaining (rss inRss : Resources) : Resources :=
  rss.filter fun rs => !inRss.any (·.opEquals rs)

namespace Individual

def addUniqueResources (indv : Individual) (predicate : Text) (inRss : Resources) : Individual :=
  indv.set predicate (addUnique (indv.get predicate) inRss)

def removeResources (indv : Individual) (predicate : Text) (inRss : Resources) : Individual :=
  let newRss := remaining (indv.get predicate) inRss
  if newRss.length = 0 then { indv with resources := indv.resources.erase predicate }
  else indv.set predicate newRss

end Individual

/-- `indv_apply_cmd` for one predicate. -/
def applyPredicate (cmd : IndvOp) (indv prevIndv : Individual) (predicate : Text) : Individual :=
  match cmd with
  | .addIn => prevIndv.addUniqueResources predicate (indv.get predicate)
  | .setIn => prevIndv.set predicate (indv.get predicate)
  | .removeFrom => prevIndv.removeResources predicate (indv.get predicate)
  | _ => prevIndv

/-- `indv_apply_cmd`. -/
def indvApplyCmd (cmd : IndvOp) (prevIndv indv : Individual) : Individual :=
  indv.resources.keys.foldl (applyPredicate cmd indv) prevIndv

/-! ## The laws -/

/-- The same uri and the same values of the same predicates. -/
structure Individual.Same (indv indv' : Individual) : Prop where
  uri : indv.uri = indv'.uri
  lookup : ∀ p, indv.resources.lookup p = indv'.resources.lookup p

/-- The stored values and then, in order and each of them once, the others of a delta. -/
def IsUnion (stored delta result : Resources) : Prop :=
  ∃ new, result = stored ++ new ∧ new.Sublist delta ∧ new.Nodup ∧
    ∀ r, r ∈ new ↔ r ∈ delta ∧ r ∉ stored

/-- No value of the delta is stored. -/
def AllNew (prev delta : Individual) : Prop := ∀ p, ∀ r ∈ delta.get p, r ∉ prev.get p

/-- The commands are operations on sets of values. -/
structure SetOperations (prev delta : Individual) : Prop where
  add : ∀ p ∈ delta.resources.keys,
    IsUnion (prev.get p) (delta.get p) ((indvApplyCmd .addIn prev delta).get p)
  addTwice : (indvApplyCmd .addIn (indvApplyCmd .addIn prev delta) delta).Same
    (indvApplyCmd .addIn prev delta)
  remove : ∀ p ∈ delta.resources.keys,
    (indvApplyCmd .removeFrom prev delta).get p = (prev.get p).filter (· ∉ delta.get p)
  restore : AllNew prev delta →
    (indvApplyCmd .removeFrom (indvApplyCmd .addIn prev delta) delta).Same prev

/-- What the laws need of a delta. -/
structure Separates (prev delta : Individual) : Prop where
  notBinary : ∀ p, ∀ r ∈ delta.get p, r.isBinary = false
  /-- Texts that differ in their language only are in both. -/
  language : ∀ p, ∀ r ∈ delta.get p, ∀ rs ∈ prev.get p, r.opEquals rs = true →
    r ∈ prev.get p ∧ rs ∈ delta.get p
  nodup : ∀ p, ((delta.get p).filter (· ∉ prev.get p)).Nodup
  /-- A predicate without values is not left. -/
  emptied : AllNew prev delta → ∀ p ∈ delta.resources.keys, prev.resources.lookup p ≠ some []

/-! ## The values of a predicate -/

section
variable {r rs : Resource} {stored delta : Resources}

theorem Resource.opEquals_self : r.opEquals r = !r.isBinary := by
  cases r <;> simp [opEquals, isBinary]

theorem Resource.opEquals_self_of_not_binary (h : r.isBinary = false) : r.opEquals r = true := by
  rw [opEquals_self, h]
  rfl

theorem mem_new : r ∈ delta.filter (fun inRs => !stored.any inRs.opEquals) ↔
    r ∈ delta ∧ ∀ rs ∈ stored, r.opEquals rs = false := by
  rw [List.mem_filter]
  simp

theorem mem_remaining : rs ∈ remaining stored delta ↔
    rs ∈ stored ∧ ∀ r ∈ delta, r.opEquals rs = false := by
  rw [remaining, List.mem_filter]
  simp

theorem isUnion_addUnique_iff (hbinary : ∀ r ∈ delta, r.isBinary = false) :
    IsUnion stored delta (addUnique stored delta) ↔
      (∀ r ∈ delta, ∀ rs ∈ stored, r.opEquals rs = true → r ∈ stored) ∧
        (delta.filter (· ∉ stored)).Nodup := by
  have hnew : (∀ r ∈ delta, ∀ rs ∈ stored, r.opEquals rs = true → r ∈ stored) →
      delta.filter (fun inRs => !stored.any inRs.opEquals) = delta.filter (· ∉ stored) := by
    intro h
    refine List.filter_congr fun r hr => ?_
    by_cases hmem : r ∈ stored
    · have hself := Resource.opEquals_self_of_not_binary (hbinary r hr)
      simp [hmem, List.any_eq_true.mpr ⟨r, hmem, hself⟩]
    · have hnone : stored.any r.opEquals = false := by
        refine List.any_eq_false.mpr fun rs hrs => ?_
        exact fun heq => hmem (h r hr rs hrs heq)
      simp [hmem, hnone]
  constructor
  · rintro ⟨new, heq, -, hnodup, hmem⟩
    have hall : ∀ r ∈ delta, ∀ rs ∈ stored, r.opEquals rs = true → r ∈ stored := by
      intro r hr rs hrs hequal
      by_contra hnot
      have hr := (hmem r).mpr ⟨hr, hnot⟩
      rw [← List.append_cancel_left heq, mem_new] at hr
      rw [hr.2 rs hrs] at hequal
      cases hequal
    refine ⟨hall, ?_⟩
    rw [← hnew hall, List.append_cancel_left heq]
    exact hnodup
  · rintro ⟨hall, hnodup⟩
    refine ⟨_, rfl, List.filter_sublist, ?_, fun r => ?_⟩
    · rw [hnew hall]
      exact hnodup
    · rw [hnew hall, List.mem_filter, decide_eq_true_eq]

theorem Resource.opEquals_binary (hr : r.isBinary = true) : r.opEquals rs = false := by
  cases r with
  | binary s => cases rs <;> rfl
  | _ => cases hr

theorem addUnique_twice_iff : addUnique (addUnique stored delta) delta = addUnique stored delta ↔
    ∀ r ∈ delta, r.isBinary = false := by
  rw [addUnique, List.append_right_eq_self, List.filter_eq_nil_iff]
  refine forall₂_congr fun r hr => ?_
  rw [Bool.not_eq_true', Bool.not_eq_false, List.any_eq_true]
  constructor
  · rintro ⟨rs, -, hequal⟩
    by_contra hbinary
    rw [Resource.opEquals_binary (by simpa using hbinary)] at hequal
    cases hequal
  · intro hbinary
    by_cases hstored : ∃ rs ∈ stored, r.opEquals rs = true
    · obtain ⟨rs, hrs, hequal⟩ := hstored
      exact ⟨rs, List.mem_append_left _ hrs, hequal⟩
    · -- it was added the first time
      refine ⟨r, List.mem_append_right _ (mem_new.mpr ⟨hr, ?_⟩), ?_⟩
      · intro rs hrs
        by_contra hequal
        exact hstored ⟨rs, hrs, by simpa using hequal⟩
      · exact Resource.opEquals_self_of_not_binary hbinary

theorem remaining_eq_iff (hbinary : ∀ r ∈ delta, r.isBinary = false) :
    remaining stored delta = stored.filter (· ∉ delta) ↔
      ∀ r ∈ delta, ∀ rs ∈ stored, r.opEquals rs = true → rs ∈ delta := by
  constructor
  · intro h r hr rs hrs hequal
    by_contra hnot
    have hmem : rs ∈ remaining stored delta := by
      rw [h, List.mem_filter, decide_eq_true_eq]
      exact ⟨hrs, hnot⟩
    rw [(mem_remaining.mp hmem).2 r hr] at hequal
    cases hequal
  · intro h
    refine List.filter_congr fun rs hrs => ?_
    by_cases hmem : rs ∈ delta
    · have hself := Resource.opEquals_self_of_not_binary (hbinary rs hmem)
      have hany : delta.any (·.opEquals rs) = true := List.any_eq_true.mpr ⟨rs, hmem, hself⟩
      rw [hany]
      simp [hmem]
    · have hnone : delta.any (·.opEquals rs) = false :=
        List.any_eq_false.mpr fun r hr hequal => hmem (h r hr rs hrs hequal)
      simp [hmem, hnone]

/-- Values that equal no stored one are added and removed. -/
theorem remaining_addUnique (hbinary : ∀ r ∈ delta, r.isBinary = false)
    (h : ∀ r ∈ delta, ∀ rs ∈ stored, r.opEquals rs = false) :
    remaining (addUnique stored delta) delta = stored := by
  have hstored : remaining stored delta = stored := by
    refine List.filter_eq_self.mpr fun rs hrs => ?_
    rw [Bool.not_eq_true', List.any_eq_false]
    intro r hr hequal
    rw [h r hr rs hrs] at hequal
    cases hequal
  have hadded : remaining (delta.filter fun inRs => !stored.any inRs.opEquals) delta = [] := by
    refine List.filter_eq_nil_iff.mpr fun r hr => ?_
    have hr := (mem_new.mp hr).1
    rw [Bool.not_eq_true', Bool.not_eq_false, List.any_eq_true]
    exact ⟨r, hr, by rw [Resource.opEquals_self, hbinary r hr]; rfl⟩
  rw [remaining, addUnique, List.filter_append]
  exact (congrArg₂ _ hstored hadded).trans (List.append_nil _)

end

/-! ## The values after a command -/

section
variable {prev delta : Individual} {p : Text}

/-- A pass over distinct predicates, each turn of which changes one of them. -/
theorem lookup_foldl {f : Individual → Text → Individual}
    {g : Text → Option Resources → Option Resources}
    (hf : ∀ i p q, (f i p).resources.lookup q =
      if q = p then g p (i.resources.lookup p) else i.resources.lookup q)
    {predicates : List Text} (hnodup : predicates.Nodup) (i : Individual) (q : Text) :
    (predicates.foldl f i).resources.lookup q =
      if q ∈ predicates then g q (i.resources.lookup q) else i.resources.lookup q := by
  induction predicates generalizing i with
  | nil => rfl
  | cons p predicates ih =>
    rw [List.foldl_cons, ih hnodup.of_cons, hf]
    by_cases hq : q = p
    · subst hq
      rw [if_neg (List.nodup_cons.mp hnodup).1, if_pos rfl, if_pos List.mem_cons_self]
    · simp only [List.mem_cons, hq, false_or, if_false]

theorem lookup_addIn (prev delta : Individual) (p : Text) :
    (indvApplyCmd .addIn prev delta).resources.lookup p =
      if p ∈ delta.resources.keys then some (addUnique (prev.get p) (delta.get p))
      else prev.resources.lookup p := by
  have hf : ∀ (i : Individual) p q, (applyPredicate .addIn delta i p).resources.lookup q =
      if q = p then some (addUnique ((i.resources.lookup p).getD []) (delta.get p))
      else i.resources.lookup q := by
    intro i p q
    by_cases hq : q = p
    · rw [if_pos hq, hq]
      exact AList.lookup_insert _
    · rw [if_neg hq]
      exact AList.lookup_insert_ne hq
  exact lookup_foldl (g := fun p rss => some (addUnique (rss.getD []) (delta.get p))) hf
    delta.resources.keys_nodup prev p

theorem lookup_removeFrom (prev delta : Individual) (p : Text) :
    (indvApplyCmd .removeFrom prev delta).resources.lookup p =
      if p ∈ delta.resources.keys then
        (some (remaining (prev.get p) (delta.get p))).filter (· ≠ [])
      else prev.resources.lookup p := by
  have hf : ∀ (i : Individual) p q, (applyPredicate .removeFrom delta i p).resources.lookup q =
      if q = p then
        (some (remaining ((i.resources.lookup p).getD []) (delta.get p))).filter (· ≠ [])
      else i.resources.lookup q := by
    intro i p q
    rw [applyPredicate, Individual.removeResources, Individual.get]
    generalize remaining ((i.resources.lookup p).getD []) (delta.get p) = newRss
    by_cases hq : q = p
    · rw [if_pos hq, hq]
      split
      · rename_i hlength
        rw [List.length_eq_zero_iff.mp hlength]
        exact AList.lookup_erase _ _
      · rename_i hlength
        have hne : newRss ≠ [] := fun hnil => hlength (List.length_eq_zero_iff.mpr hnil)
        rw [Option.filter_some, if_pos (decide_eq_true hne)]
        exact AList.lookup_insert _
    · rw [if_neg hq]
      split
      · exact AList.lookup_erase_ne hq
      · exact AList.lookup_insert_ne hq
  exact lookup_foldl
    (g := fun p rss => (some (remaining (rss.getD []) (delta.get p))).filter (· ≠ [])) hf
    delta.resources.keys_nodup prev p

theorem uri_indvApplyCmd (cmd : IndvOp) (prev delta : Individual) :
    (indvApplyCmd cmd prev delta).uri = prev.uri := by
  refine List.foldlRecOn (motive := fun i : Individual => i.uri = prev.uri) _ _ rfl
    fun i h p _ => ?_
  cases cmd with
  | put | addIn | setIn | remove => exact h
  | removeFrom =>
    rw [applyPredicate, Individual.removeResources]
    split <;> exact h

theorem get_of_not_mem (h : p ∉ delta.resources.keys) : delta.get p = [] := by
  rw [Individual.get, AList.lookup_eq_none.mpr fun hmem => h (AList.mem_keys.mp hmem)]
  rfl

theorem get_addIn (h : p ∈ delta.resources.keys) :
    (indvApplyCmd .addIn prev delta).get p = addUnique (prev.get p) (delta.get p) := by
  rw [Individual.get, lookup_addIn, if_pos h]
  rfl

theorem get_removeFrom (h : p ∈ delta.resources.keys) :
    (indvApplyCmd .removeFrom prev delta).get p = remaining (prev.get p) (delta.get p) := by
  rw [Individual.get, lookup_removeFrom, if_pos h, Option.filter_some]
  split
  · rfl
  · rename_i hnil
    simpa using hnil

/-- A property of the values of every predicate in the delta is one of every predicate. -/
theorem forall_keys_iff {P : Text → Prop} (h : ∀ p, delta.get p = [] → P p) :
    (∀ p ∈ delta.resources.keys, P p) ↔ ∀ p, P p := by
  refine ⟨fun hkeys p => ?_, fun hall p _ => hall p⟩
  by_cases hp : p ∈ delta.resources.keys
  · exact hkeys p hp
  · exact h p (get_of_not_mem hp)

theorem addTwice_iff : (indvApplyCmd .addIn (indvApplyCmd .addIn prev delta) delta).Same
      (indvApplyCmd .addIn prev delta) ↔
    ∀ p, ∀ r ∈ delta.get p, r.isBinary = false := by
  have hkeys : (∀ p ∈ delta.resources.keys, ∀ r ∈ delta.get p, r.isBinary = false) ↔
      ∀ p, ∀ r ∈ delta.get p, r.isBinary = false :=
    forall_keys_iff fun p hnil => by simp [hnil]
  rw [← hkeys]
  constructor
  · intro h p hp
    have hlookup := h.lookup p
    rw [lookup_addIn, if_pos hp, get_addIn hp, lookup_addIn, if_pos hp] at hlookup
    exact addUnique_twice_iff.mp (Option.some.inj hlookup)
  · intro h
    refine ⟨uri_indvApplyCmd .addIn _ delta, fun p => ?_⟩
    rw [lookup_addIn]
    split
    · rename_i hp
      rw [get_addIn hp, addUnique_twice_iff.mpr (h p hp), lookup_addIn, if_pos hp]
    · rfl

theorem add_iff (hbinary : ∀ p, ∀ r ∈ delta.get p, r.isBinary = false) :
    (∀ p ∈ delta.resources.keys,
        IsUnion (prev.get p) (delta.get p) ((indvApplyCmd .addIn prev delta).get p)) ↔
      (∀ p, ∀ r ∈ delta.get p, ∀ rs ∈ prev.get p, r.opEquals rs = true → r ∈ prev.get p) ∧
        ∀ p, ((delta.get p).filter (· ∉ prev.get p)).Nodup := by
  rw [← forall_and]
  refine (forall₂_congr fun p hp => ?_).trans (forall_keys_iff fun p hnil => ?_)
  · rw [get_addIn hp]
    exact isUnion_addUnique_iff (hbinary p)
  · simp [hnil]

theorem remove_iff (hbinary : ∀ p, ∀ r ∈ delta.get p, r.isBinary = false) :
    (∀ p ∈ delta.resources.keys, (indvApplyCmd .removeFrom prev delta).get p =
        (prev.get p).filter (· ∉ delta.get p)) ↔
      ∀ p, ∀ r ∈ delta.get p, ∀ rs ∈ prev.get p, r.opEquals rs = true → rs ∈ delta.get p := by
  refine (forall₂_congr fun p hp => ?_).trans (forall_keys_iff fun p hnil => ?_)
  · rw [get_removeFrom hp]
    exact remaining_eq_iff (hbinary p)
  · simp [hnil]

/-- Where nothing of the delta equals a stored value, the removal takes out what was added. -/
theorem restore_iff (hbinary : ∀ p, ∀ r ∈ delta.get p, r.isBinary = false)
    (h : ∀ p, ∀ r ∈ delta.get p, ∀ rs ∈ prev.get p, r.opEquals rs = false) :
    (indvApplyCmd .removeFrom (indvApplyCmd .addIn prev delta) delta).Same prev ↔
      ∀ p ∈ delta.resources.keys, prev.resources.lookup p ≠ some [] := by
  have hlookup : ∀ p, p ∈ delta.resources.keys →
      (indvApplyCmd .removeFrom (indvApplyCmd .addIn prev delta) delta).resources.lookup p =
        (some (prev.get p)).filter (· ≠ []) := by
    intro p hp
    rw [lookup_removeFrom, if_pos hp, get_addIn hp, remaining_addUnique (hbinary p) (h p)]
  have hkept : ∀ p, (some (prev.get p)).filter (· ≠ []) = prev.resources.lookup p ↔
      prev.resources.lookup p ≠ some [] := by
    intro p
    rw [Individual.get]
    cases prev.resources.lookup p with
    | none => simp
    | some rss => cases rss <;> simp
  constructor
  · intro hsame p hp
    rw [← hkept, ← hlookup p hp]
    exact hsame.lookup p
  · intro hnot
    refine ⟨(uri_indvApplyCmd .removeFrom _ delta).trans (uri_indvApplyCmd .addIn prev delta),
      fun p => ?_⟩
    by_cases hp : p ∈ delta.resources.keys
    · rw [hlookup p hp]
      exact (hkept p).mpr (hnot p hp)
    · rw [lookup_removeFrom, if_neg hp, lookup_addIn, if_neg hp]

end

/-- The commands are operations on sets of values just if the delta has no binary values, no texts
that differ from stored ones in their language only, no new value twice, and, where all of it is
new, no predicate that is stored without values. -/
theorem setOperations_iff (prev delta : Individual) :
    SetOperations prev delta ↔ Separates prev delta := by
  constructor
  · intro h
    have hbinary := addTwice_iff.mp h.addTwice
    obtain ⟨hstored, hnodup⟩ := (add_iff hbinary).mp h.add
    have hdelta := (remove_iff hbinary).mp h.remove
    refine ⟨hbinary, fun p r hr rs hrs hequal =>
      ⟨hstored p r hr rs hrs hequal, hdelta p r hr rs hrs hequal⟩, hnodup, fun hnew => ?_⟩
    refine (restore_iff hbinary fun p r hr rs hrs => ?_).mp (h.restore hnew)
    by_contra hequal
    exact hnew p r hr (hstored p r hr rs hrs (by simpa using hequal))
  · intro h
    refine ⟨(add_iff h.notBinary).mpr ⟨?_, h.nodup⟩, addTwice_iff.mpr h.notBinary,
      (remove_iff h.notBinary).mpr ?_, fun hnew => ?_⟩
    · exact fun p r hr rs hrs hequal => (h.language p r hr rs hrs hequal).1
    · exact fun p r hr rs hrs hequal => (h.language p r hr rs hrs hequal).2
    · refine (restore_iff h.notBinary fun p r hr rs hrs => ?_).mpr (h.emptied hnew)
      by_contra hequal
      exact hnew p r hr (h.language p r hr rs hrs (by simpa using hequal)).1

/-- A label in Russian. -/
def labelRu : Individual := ⟨[], AList.insert [1] [.str [2] .ru] ∅⟩

/-- The same text in English. -/
def labelEn : Individual := ⟨[], AList.insert [1] [.str [2] .en] ∅⟩

/-- A text in another language is not added. -/
theorem not_setOperations : ¬∀ prev delta : Individual, SetOperations prev delta := by
  intro h
  obtain ⟨new, heq, -, -, hmem⟩ := (h labelRu labelEn).add [1] (by decide)
  have hget : (indvApplyCmd .addIn labelRu labelEn).get [1] = [.str [2] .ru] := by decide
  have hstored : labelRu.get [1] = [.str [2] .ru] := by decide
  rw [hget, hstored] at heq
  have hnil : new = [] := by simpa using heq
  have hnew := (hmem (.str [2] .en)).mpr (by decide)
  rw [hnil] at hnew
  exact List.not_mem_nil hnew

end Veda.Bj8individual
