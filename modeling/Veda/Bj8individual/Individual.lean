import Mathlib.Data.List.AList
import Veda.Lib.LittleEndian

/-! # Individuals as they are stored

The model of `resource.d` and `individual.d` for the converters of `bj8individual`: a text is the
list of its bytes, a `long` a word of 64 bits, and a text has a language. -/

namespace Veda.Bj8individual

export LittleEndian (Byte)

/-- `string`. -/
abbrev Text := List Byte

/-- The bytes of a text in ASCII. -/
def ascii (s : String) : Text := s.toList.map fun c => BitVec.ofNat 8 c.toNat

/-- `enum LANG`. -/
inductive Lang where
  | none
  | ru
  | en
  deriving DecidableEq

/-- `struct Resource`, by its data type. -/
inductive Resource where
  | uri (s : Text)
  | str (s : Text) (lang : Lang)
  | integer (n : BitVec 64)
  | datetime (n : BitVec 64)
  | decimal (mantissa : BitVec 64) (exponent : BitVec 8)
  | boolean (b : Bool)
  | binary (s : Text)
  deriving DecidableEq

abbrev Resources := List Resource

/-- `struct Individual`. The order of the entries is the order in which the associative array is
gone through. -/
structure Individual where
  uri : Text
  resources : AList (fun _ : Text => Resources)
  deriving DecidableEq

namespace Individual

/-- `Individual.init`. -/
def init : Individual := ⟨[], ∅⟩

/-- `resources.get(predicate, Resources.init)`. -/
def get (indv : Individual) (predicate : Text) : Resources :=
  (indv.resources.lookup predicate).getD []

/-- `resources ~= …; individual.resources[predicate] = resources`. -/
def add (indv : Individual) (predicate : Text) (rs : Resources) : Individual :=
  { indv with resources := indv.resources.insert predicate (indv.get predicate ++ rs) }

/-- `individual.resources[predicate] = resources`. -/
def set (indv : Individual) (predicate : Text) (rs : Resources) : Individual :=
  { indv with resources := indv.resources.insert predicate rs }

/-- The same uri, the same values of every predicate that has one, and no other predicate. -/
def Carries (indv result : Individual) : Prop :=
  result.uri = indv.uri ∧
    ∀ predicate, result.resources.lookup predicate =
      (indv.resources.lookup predicate).filter (· ≠ [])

/-- The predicates with at least one value, in order. -/
def valued (indv : Individual) : List (Text × Resources) :=
  (indv.resources.entries.map fun entry => (entry.1, entry.2)).filter fun entry => entry.2 ≠ []

/-- The individual with the values of a list of predicates added. -/
def addAll (indv : Individual) (entries : List (Text × Resources)) : Individual :=
  entries.foldl (fun indv entry => indv.add entry.1 entry.2) indv

/-- The individual with the values of a list of predicates put in. -/
def setAll (indv : Individual) (entries : List (Text × Resources)) : Individual :=
  entries.foldl (fun indv entry => indv.set entry.1 entry.2) indv

@[simp] theorem addAll_nil (indv : Individual) : indv.addAll [] = indv := rfl

@[simp] theorem addAll_cons (indv : Individual) (entry : Text × Resources)
    (entries : List (Text × Resources)) :
    indv.addAll (entry :: entries) = (indv.add entry.1 entry.2).addAll entries := rfl

@[simp] theorem setAll_cons (indv : Individual) (entry : Text × Resources)
    (entries : List (Text × Resources)) :
    indv.setAll (entry :: entries) = (indv.set entry.1 entry.2).setAll entries := rfl

@[simp] theorem add_uri (indv : Individual) (predicate : Text) (rs : Resources) :
    (indv.add predicate rs).uri = indv.uri := rfl

theorem lookup_add_self (indv : Individual) (predicate : Text) (rs : Resources) :
    (indv.add predicate rs).resources.lookup predicate = some (indv.get predicate ++ rs) :=
  AList.lookup_insert _

theorem lookup_add_ne {p predicate : Text} (indv : Individual) (rs : Resources) (h : p ≠ predicate) :
    (indv.add predicate rs).resources.lookup p = indv.resources.lookup p :=
  AList.lookup_insert_ne h

theorem get_add_self (indv : Individual) (predicate : Text) (rs : Resources) :
    (indv.add predicate rs).get predicate = indv.get predicate ++ rs := by
  rw [get, lookup_add_self]
  rfl

theorem add_add (indv : Individual) (predicate : Text) (rs rs' : Resources) :
    (indv.add predicate rs).add predicate rs' = indv.add predicate (rs ++ rs') := by
  rw [add, get_add_self]
  simp only [add, AList.insert_insert, List.append_assoc]

/-- Values added one after the other. -/
theorem foldl_add (indv : Individual) (predicate : Text) {rs : Resources} (h : rs ≠ []) :
    rs.foldl (fun indv r => indv.add predicate [r]) indv = indv.add predicate rs := by
  have more (rs rs' : Resources) :
      rs'.foldl (fun indv r => indv.add predicate [r]) (indv.add predicate rs) =
        indv.add predicate (rs ++ rs') := by
    induction rs' generalizing rs with
    | nil => rw [List.append_nil, List.foldl_nil]
    | cons r rs' ih =>
      rw [List.foldl_cons, add_add, ih, List.append_assoc]
      rfl
  cases rs with
  | nil => exact absurd rfl h
  | cons r rs => exact more [r] rs

theorem addAll_uri (indv : Individual) (entries : List (Text × Resources)) :
    (indv.addAll entries).uri = indv.uri := by
  induction entries generalizing indv with
  | nil => rfl
  | cons entry entries ih => rw [addAll_cons, ih, add_uri]

theorem lookup_addAll_of_notMem (indv : Individual) {entries : List (Text × Resources)} {p : Text}
    (h : p ∉ entries.map Prod.fst) :
    (indv.addAll entries).resources.lookup p = indv.resources.lookup p := by
  induction entries generalizing indv with
  | nil => rfl
  | cons entry entries ih =>
    rw [List.map_cons, List.mem_cons, not_or] at h
    rw [addAll_cons, ih _ h.2, lookup_add_ne _ _ h.1]

/-- What is found under a predicate after the values of different predicates were added. -/
theorem lookup_addAll {indv : Individual} {entries : List (Text × Resources)}
    (hn : (entries.map Prod.fst).Nodup) (hi : ∀ p ∈ entries.map Prod.fst, indv.get p = [])
    {p : Text} {rs : Resources} (h : (p, rs) ∈ entries) :
    (indv.addAll entries).resources.lookup p = some rs := by
  induction entries generalizing indv with
  | nil => cases h
  | cons entry entries ih =>
    rw [List.map_cons, List.nodup_cons] at hn
    have hne : ∀ q ∈ entries.map Prod.fst, q ≠ entry.1 := fun q hq he => hn.1 (he ▸ hq)
    rw [addAll_cons]
    cases h with
    | head =>
      rw [lookup_addAll_of_notMem _ hn.1, lookup_add_self, hi p List.mem_cons_self,
        List.nil_append]
    | tail _ h =>
      refine ih hn.2 (fun q hq => ?_) h
      rw [get, lookup_add_ne _ _ (hne q hq)]
      exact hi q (List.mem_cons_of_mem _ hq)

/-- Values are put in where there were none. -/
theorem addAll_eq_setAll {indv : Individual} {entries : List (Text × Resources)}
    (hn : (entries.map Prod.fst).Nodup) (hi : ∀ p ∈ entries.map Prod.fst, indv.get p = []) :
    indv.addAll entries = indv.setAll entries := by
  induction entries generalizing indv with
  | nil => rfl
  | cons entry entries ih =>
    rw [List.map_cons, List.nodup_cons] at hn
    have hset : indv.add entry.1 entry.2 = indv.set entry.1 entry.2 := by
      rw [add, hi entry.1 List.mem_cons_self, List.nil_append, set]
    have hrest : ∀ p ∈ entries.map Prod.fst, (indv.add entry.1 entry.2).get p = [] := by
      intro p hp
      have hne : p ≠ entry.1 := fun he => hn.1 (he ▸ hp)
      rw [get, lookup_add_ne _ _ hne]
      exact hi p (List.mem_cons_of_mem _ hp)
    rw [addAll_cons, ih hn.2 hrest, hset, setAll_cons]

theorem lookup_setAll_of_notMem (indv : Individual) {entries : List (Text × Resources)} {p : Text}
    (h : p ∉ entries.map Prod.fst) :
    (indv.setAll entries).resources.lookup p = indv.resources.lookup p := by
  induction entries generalizing indv with
  | nil => rfl
  | cons entry entries ih =>
    rw [List.map_cons, List.mem_cons, not_or] at h
    rw [setAll_cons, ih _ h.2]
    exact AList.lookup_insert_ne h.1

theorem mem_valued {indv : Individual} {p : Text} {rs : Resources} :
    (p, rs) ∈ indv.valued ↔ indv.resources.lookup p = some rs ∧ rs ≠ [] := by
  rw [valued, List.mem_filter, List.mem_map, ← Option.mem_def, AList.mem_lookup_iff]
  constructor
  · intro ⟨⟨entry, he, heq⟩, hr⟩
    cases heq
    exact ⟨he, of_decide_eq_true hr⟩
  · intro ⟨he, hr⟩
    exact ⟨⟨⟨p, rs⟩, he, rfl⟩, decide_eq_true hr⟩

theorem nodup_valued (indv : Individual) : (indv.valued.map Prod.fst).Nodup := by
  have hk : (indv.resources.entries.map fun entry => (entry.1, entry.2)).map Prod.fst =
      indv.resources.keys := by
    rw [List.map_map]
    rfl
  have := indv.resources.keys_nodup
  rw [← hk] at this
  exact this.sublist (List.filter_sublist.map _)

/-- An individual is carried over when the values of its predicates are added to nothing, in any
order. -/
theorem carries_of_perm {indv : Individual} {entries : List (Text × Resources)}
    (h : entries.Perm indv.valued) : indv.Carries (addAll ⟨indv.uri, ∅⟩ entries) := by
  refine ⟨addAll_uri _ _, fun p => ?_⟩
  cases hp : (indv.resources.lookup p).filter (· ≠ []) with
  | none =>
    rw [lookup_addAll_of_notMem]
    · exact AList.lookup_empty p
    · intro hmem
      obtain ⟨⟨q, rs⟩, hm, rfl⟩ := List.mem_map.mp hmem
      obtain ⟨hl, hr⟩ := mem_valued.mp (h.mem_iff.mp hm)
      rw [hl, Option.filter_some, if_pos (decide_eq_true hr)] at hp
      cases hp
  | some rs =>
    obtain ⟨hl, hr⟩ := Option.filter_eq_some_iff.mp hp
    have hn : (entries.map Prod.fst).Nodup := (h.map _).nodup_iff.mpr indv.nodup_valued
    exact lookup_addAll hn (fun _ _ => rfl)
      (h.mem_iff.mpr (mem_valued.mpr ⟨hl, of_decide_eq_true hr⟩))

theorem carries_addAll (indv : Individual) :
    indv.Carries (addAll ⟨indv.uri, ∅⟩ indv.valued) :=
  carries_of_perm (.refl _)

end Individual

end Veda.Bj8individual
