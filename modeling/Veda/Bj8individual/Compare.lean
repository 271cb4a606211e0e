import Mathlib.Data.List.Perm.Subperm
import Veda.Bj8individual.Individual

/-! # Comparing individuals

The model of `Individual.compare` in `individual.d` and of `Resource.toString` in `resource.d`. How a
time is written is left open. -/

namespace Veda.Bj8individual

/-- `text` of a `long` and of a `byte`. -/
def textOfInt (n : Int) : Text := ascii (toString n)

/-- `unixTimeToStdTime`. -/
def unixTimeToStdTime (n : BitVec 64) : BitVec 64 := 621355968000000000 + n * 10000000

section
variable (toISOExtString : BitVec 64 → Text)

/-- `Resource.toString`. For a binary value there is no branch, and the language of a text is not
written. -/
def Resource.text : Resource → Text
  | .uri s => ascii "(Uri)" ++ s
  | .str s _ => ascii "(String)" ++ s
  | .boolean b => ascii "(Boolean)" ++ ascii (if b then "true" else "false")
  | .datetime n => ascii "(Datetime)" ++ toISOExtString (unixTimeToStdTime n)
  | .decimal m e =>
    ascii "(Decimal)decimal(" ++ textOfInt m.toInt ++ ascii ", " ++ textOfInt e.toInt ++ ascii ")"
  | .integer n => ascii "(Integer)" ++ textOfInt n.toInt
  | .binary _ => []

namespace Individual

/-- `A.compare(B)`. -/
def compare (a b : Individual) : Bool :=
  if b.resources.keys.length ≠ a.resources.keys.length then false
  else
    a.resources.entries.all fun entry =>
      let aRss := entry.2
      let bRss := b.get entry.1
      let bRssH := bRss.map (Resource.text toISOExtString)
      if aRss.length ≠ bRss.length then false
      else aRss.all fun aRs => bRssH.contains (aRs.text toISOExtString)

/-! ## The property -/

/-- The same predicates, and for each of them the same values as often. -/
structure SameContent (a b : Individual) : Prop where
  predicates : ∀ p, p ∈ a.resources.keys ↔ p ∈ b.resources.keys
  values : ∀ p, (a.get p).Perm (b.get p)

/-- What two individuals look like: equally many predicates and, for each predicate of the first
one, equally many values, of which those of the first one have texts that are there in the other. -/
structure LooksLike (a b : Individual) : Prop where
  predicates : b.resources.keys.length = a.resources.keys.length
  counts : ∀ p ∈ a.resources.keys, (a.get p).length = (b.get p).length
  texts : ∀ p ∈ a.resources.keys, ∀ r ∈ a.get p, ∃ r' ∈ b.get p,
    r'.text toISOExtString = r.text toISOExtString

/-- A difference that individuals may have that look alike. -/
inductive Hidden (a b : Individual) : Prop
  /-- A predicate without values is missing. -/
  | missing (ha : p ∈ a.resources.keys) (hb : p ∉ b.resources.keys)
  /-- A text occurs more often in one of them. -/
  | repeated (h : ¬((a.get p).map (Resource.text toISOExtString)).Perm
      ((b.get p).map (Resource.text toISOExtString)))
  /-- The texts are the same, and not the values. -/
  | alike (h : ((a.get p).map (Resource.text toISOExtString)).Perm
      ((b.get p).map (Resource.text toISOExtString))) (hne : ¬(a.get p).Perm (b.get p))

end Individual

end

/-! ## What is compared -/

section
variable {toISOExtString : BitVec 64 → Text} {a b : Individual}

namespace Individual

theorem get_of_mem_entries {entry : Sigma fun _ : Text => Resources}
    (h : entry ∈ a.resources.entries) : a.get entry.1 = entry.2 := by
  rw [get, AList.mem_lookup_iff.mpr h]
  rfl

theorem mem_keys_of_mem_entries {entry : Sigma fun _ : Text => Resources}
    (h : entry ∈ a.resources.entries) : entry.1 ∈ a.resources.keys :=
  List.mem_map_of_mem h

/-- Two individuals compare as equal just if they look alike. -/
theorem compare_eq_true_iff : a.compare toISOExtString b = true ↔ a.LooksLike toISOExtString b := by
  have hentry : ∀ entry ∈ a.resources.entries,
      ((let aRss := entry.2
        let bRss := b.get entry.1
        let bRssH := bRss.map (Resource.text toISOExtString)
        if aRss.length ≠ bRss.length then false
        else aRss.all fun aRs => bRssH.contains (aRs.text toISOExtString)) = true ↔
      (a.get entry.1).length = (b.get entry.1).length ∧ ∀ r ∈ a.get entry.1,
        ∃ r' ∈ b.get entry.1, r'.text toISOExtString = r.text toISOExtString) := by
    intro entry hentry
    rw [get_of_mem_entries hentry]
    dsimp only
    split
    · rename_i hne
      exact iff_of_false Bool.false_ne_true fun h => hne h.1
    · rename_i heq
      rw [and_iff_right (not_not.mp heq), List.all_eq_true]
      simp only [List.contains_iff_mem, List.mem_map]
  rw [compare]
  split
  · rename_i hne
    exact iff_of_false Bool.false_ne_true fun h => hne h.predicates
  · rename_i heq
    rw [List.all_eq_true]
    constructor
    · intro h
      refine ⟨not_not.mp heq, fun p hp => ?_, fun p hp => ?_⟩
      all_goals
        obtain ⟨entry, hmem, rfl⟩ := List.mem_map.mp hp
        have hboth := (hentry entry hmem).mp (h entry hmem)
      · exact hboth.1
      · exact hboth.2
    · intro h entry hmem
      have hp := mem_keys_of_mem_entries hmem
      exact (hentry entry hmem).mpr ⟨h.counts _ hp, h.texts _ hp⟩

theorem SameContent.looksLike (h : a.SameContent b) : a.LooksLike toISOExtString b where
  predicates := by
    have hperm := (List.perm_ext_iff_of_nodup a.resources.keys_nodup b.resources.keys_nodup).mpr
      h.predicates
    exact hperm.length_eq.symm
  counts p _ := (h.values p).length_eq
  texts p _ r hr := ⟨r, (h.values p).mem_iff.mp hr, rfl⟩

/-- Where no predicate is missing and there are equally many, they are the same. -/
theorem LooksLike.mem_keys_iff (h : a.LooksLike toISOExtString b)
    (hsub : a.resources.keys ⊆ b.resources.keys) (p : Text) :
    p ∈ a.resources.keys ↔ p ∈ b.resources.keys :=
  ((List.subperm_of_subset a.resources.keys_nodup hsub).perm_of_length_le
    (Nat.le_of_eq h.predicates)).mem_iff

theorem sameContent_iff : a.SameContent b ↔
    a.LooksLike toISOExtString b ∧ ¬a.Hidden toISOExtString b := by
  constructor
  · intro h
    refine ⟨h.looksLike, ?_⟩
    rintro (⟨ha, hb⟩ | hrepeated | ⟨-, hne⟩)
    · exact hb ((h.predicates _).mp ha)
    · exact hrepeated ((h.values _).map _)
    · exact hne (h.values _)
  · rintro ⟨hlooks, hhidden⟩
    refine ⟨hlooks.mem_keys_iff fun p hp => ?_, fun p => ?_⟩
    · by_contra hb
      exact hhidden (.missing hp hb)
    · by_contra hne
      by_cases htexts : ((a.get p).map (Resource.text toISOExtString)).Perm
          ((b.get p).map (Resource.text toISOExtString))
      · exact hhidden (.alike htexts hne)
      · exact hhidden (.repeated htexts)

end Individual

end

/-- The same value once and twice, and another one. -/
def oneTwice : Individual := ⟨[], AList.insert [1] [.uri [2], .uri [2], .uri [3]] ∅⟩

def otherTwice : Individual := ⟨[], AList.insert [1] [.uri [2], .uri [3], .uri [3]] ∅⟩

end Veda.Bj8individual
