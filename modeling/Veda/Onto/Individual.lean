import Mathlib.Data.List.AList
import Mathlib.Data.List.Basic

/-! # Individuals

The model of `resource.d` and `individual.d`: an individual is a uri and a map from predicates to
lists of values. -/

namespace Veda.Onto

/-- `struct Resource`, by its data type. The language of a text takes no part in what is modelled
here. -/
inductive Resource where
  | uri (s : String)
  | str (s : String)
  | integer (n : Int)
  | datetime (n : Int)
  | decimal (mantissa exponent : Int)
  | boolean (b : Bool)
  | binary (s : String)
  deriving DecidableEq, Repr

abbrev Resources := List Resource

namespace Resource

/-- `Resource.init`. A uri read from an empty text is the same value. -/
def init : Resource := .uri ""

/-- `opEquals(Resource)`. A binary value equals nothing, not even itself. -/
def beq : Resource → Resource → Bool
  | .uri s, .uri t => s = t
  | .str s, .str t => s = t
  | .integer m, .integer n => m = n
  | .datetime m, .datetime n => m = n
  | .decimal m e, .decimal m' e' => m = m' ∧ e = e'
  | .boolean b, .boolean c => b = c
  | _, _ => false

/-- `opEquals(bool)`. -/
def beqBool : Resource → Bool → Bool
  | .boolean b, v => b = v
  | _, _ => false

/-- `get!string`, where the value is a text. -/
def getString : Resource → String
  | .uri s | .str s | .binary s => s
  | _ => ""

/-- `Resource.uri`. -/
def uriOf : Resource → String
  | .uri s => s
  | _ => ""

theorem eq_of_beq {r r' : Resource} (h : r.beq r' = true) : r = r' := by
  cases r <;> cases r' <;> simp_all [beq]

theorem getString_of_beq {r r' : Resource} (h : r.beq r' = true) : r.getString = r'.getString := by
  rw [eq_of_beq h]

end Resource

/-- `get_disappeared`. -/
def getDisappeared (a b : Resources) : Resources := a.filter fun rA => !b.any rA.beq

/-- `struct Individual`. -/
structure Individual where
  uri : String
  resources : AList (fun _ : String => Resources)
  deriving DecidableEq

namespace Individual

/-- `Individual.init`. -/
def init : Individual := ⟨"", ∅⟩

def getResources (indv : Individual) (predicate : String) : Resources :=
  (indv.resources.lookup predicate).getD []

def getFirstResource (indv : Individual) (predicate : String) : Resource :=
  ((indv.getResources predicate).head?).getD .init

def getFirstInteger (indv : Individual) (predicate : String) (default : Int) : Int :=
  match indv.getResources predicate with
  | .integer n :: _ => n
  | _ => default

def getFirstBoolean (indv : Individual) (predicate : String) (default : Bool) : Bool :=
  match indv.getResources predicate with
  | .boolean b :: _ => b
  | _ => default

/-- `isExists` for a boolean. -/
def isExists (indv : Individual) (predicate : String) (object : Bool) : Bool :=
  (indv.getResources predicate).any (·.beqBool object)

def setResources (indv : Individual) (predicate : String) (inRss : Resources) : Individual :=
  { indv with resources := indv.resources.insert predicate inRss }

def addUniqueResources (indv : Individual) (predicate : String) (inRss : Resources) :
    Individual :=
  let rss := indv.getResources predicate
  indv.setResources predicate (rss ++ inRss.filter fun inRs => !rss.any inRs.beq)

def removeResources (indv : Individual) (predicate : String) (inRss : Resources) : Individual :=
  let newRss := (indv.getResources predicate).filter fun rs => !inRss.any (·.beq rs)
  if newRss.length = 0 then { indv with resources := indv.resources.erase predicate }
  else indv.setResources predicate newRss

/-- The texts of a predicate's values. -/
def texts (indv : Individual) (predicate : String) : List String :=
  (indv.getResources predicate).map Resource.getString

/-- The classes of an individual. -/
def types (indv : Individual) : List String := indv.texts "rdf:type"

variable {indv : Individual}

@[simp] theorem getResources_setResources_self :
    (indv.setResources p rss).getResources p = rss := by
  simp [getResources, setResources]

theorem getResources_setResources_ne (h : p ≠ q) :
    (indv.setResources p rss).getResources q = indv.getResources q := by
  simp [getResources, setResources, AList.lookup_insert_ne h.symm]

theorem getResources_addUniqueResources_self :
    (indv.addUniqueResources p rss).getResources p =
      indv.getResources p ++ rss.filter fun r => !(indv.getResources p).any r.beq :=
  getResources_setResources_self

theorem getResources_addUniqueResources_ne (h : p ≠ q) :
    (indv.addUniqueResources p rss).getResources q = indv.getResources q :=
  getResources_setResources_ne h

theorem getResources_removeResources_self :
    (indv.removeResources p rss).getResources p =
      (indv.getResources p).filter fun r => !rss.any (·.beq r) := by
  unfold removeResources
  dsimp only
  split
  · next h =>
    rw [List.length_eq_zero_iff.mp h]
    simp [getResources]
  · exact getResources_setResources_self

theorem getResources_removeResources_ne (h : p ≠ q) :
    (indv.removeResources p rss).getResources q = indv.getResources q := by
  unfold removeResources
  dsimp only
  split
  · simp [getResources, AList.lookup_erase_ne h.symm]
  · exact getResources_setResources_ne h

/-- A pass over distinct predicates changes the values of one of them at most once. -/
theorem getResources_foldl {f : Individual → String → Individual} {g : Resources → Resources}
    (hself : ∀ i, (f i p).getResources p = g (i.getResources p))
    (hother : ∀ i q, q ≠ p → (f i q).getResources p = i.getResources p) (predicates : List String)
    (hnodup : predicates.Nodup) (indv : Individual) :
    (predicates.foldl f indv).getResources p =
      if p ∈ predicates then g (indv.getResources p) else indv.getResources p := by
  induction predicates generalizing indv with
  | nil => rfl
  | cons q predicates ih =>
    rw [List.foldl_cons, ih hnodup.of_cons]
    by_cases hq : q = p
    · subst hq
      rw [if_neg (List.nodup_cons.mp hnodup).1, if_pos List.mem_cons_self, hself]
    · rw [hother indv q hq]
      simp only [List.mem_cons, Ne.symm hq, false_or]

theorem getResources_of_notMem_keys (h : p ∉ indv.resources.keys) : indv.getResources p = [] := by
  rw [getResources, AList.lookup_eq_none.mpr fun hmem => h (AList.mem_keys.mp hmem)]
  rfl

end Individual

end Veda.Onto
