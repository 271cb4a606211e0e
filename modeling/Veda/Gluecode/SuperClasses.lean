import Veda.Onto.Runs

/-! # The superclasses of an event

The model of `set_g_super_classes` in `v8d_bind.d`. An associative array is a reference: the local
variable `super_classes` is the array of a class in the ontology itself. -/

namespace Veda.Gluecode.Events

open Onto Ontology

/-- The class whose array a variable is, if it is not null. -/
abbrev ClassRef := Option String

/-- The names in the array. -/
def names (onto : Onto) : ClassRef → Names
  | none => []
  | some classUri => onto.getSuperClasses classUri

/-- `super_classes[ i_super_class ] = true`. -/
def insertSuperClass (classUri : String) (onto : Onto) (iSuperClass : String) : Onto :=
  let elh := onto.bdathe .cls
  let superClasses := (elh.superEls classUri).insert iSuperClass
  let elh := { elh with superEls := Function.update elh.superEls classUri superClasses }
  { onto with bdathe := Function.update onto.bdathe .cls elh }

/-- One pass of the loop over the superclasses of a type. -/
def addSuperClass (classUri : String) (onto : Onto) (iSuperClass : String) : Onto :=
  if iSuperClass ∈ onto.getSuperClasses classUri then onto
  else insertSuperClass classUri onto iSuperClass

/-- The ontology, and `super_classes`. -/
structure Collecting where
  onto : Onto
  superClasses : ClassRef

variable (order : Order)

/-- One pass of the loop over the types. An array without names is equal to `Names.init`. -/
def collect (s : Collecting) (indvType : String) : Collecting :=
  match s.superClasses with
  | none => { s with superClasses := some indvType }
  | some classUri =>
    if s.onto.getSuperClasses classUri = [] then { s with superClasses := some indvType }
    else
      let iSuperClasses := order.keys (s.onto.getSuperClasses indvType)
      { s with onto := iSuperClasses.foldl (addSuperClass classUri) s.onto }

/-- `set_g_super_classes`, with the names that the text of `g_super_classes` is made of. -/
def setGSuperClasses (onto : Onto) (indvTypes : List String) : Onto × Names :=
  let s := indvTypes.foldl (collect order) ⟨onto, none⟩
  (s.onto, order.keys (names s.onto s.superClasses))

/-- Calls one after the other. -/
def calls (onto : Onto) (events : List (List String)) : Onto :=
  events.foldl (fun onto indvTypes => (setGSuperClasses order onto indvTypes).1) onto

/-! ## The property -/

/-- The superclasses of some types. -/
def IsUnion (onto : Onto) (indvTypes : List String) (superClasses : Names) : Prop :=
  ∀ x, x ∈ superClasses ↔ ∃ t ∈ indvTypes, x ∈ onto.getSuperClasses t

/-- The calls leave the ontology as it is, and each of them gives the superclasses of its types. -/
structure Pure (onto : Onto) (events : List (List String)) : Prop where
  superClasses : ∀ pre, pre <+: events → ∀ classUri,
    (calls order onto pre).getSuperClasses classUri = onto.getSuperClasses classUri
  subClasses : ∀ pre, pre <+: events → ∀ classUri,
    (calls order onto pre).getSubClasses classUri = onto.getSubClasses classUri
  gives : ∀ pre indvTypes, pre ++ [indvTypes] <+: events →
    IsUnion onto indvTypes (setGSuperClasses order (calls order onto pre) indvTypes).2

/-- The first type with superclasses. -/
def firstType (onto : Onto) (indvTypes : List String) : Option String :=
  indvTypes.find? fun t => onto.getSuperClasses t ≠ []

/-- The first type with superclasses has those of all the others. -/
def Absorbs (onto : Onto) (indvTypes : List String) : Prop :=
  ∀ c, firstType onto indvTypes = some c →
    ∀ t ∈ indvTypes, onto.getSuperClasses t ⊆ onto.getSuperClasses c

/-! ## A call -/

section
variable {onto onto' : Onto} {c t x : String}

/-- Names were added to the superclasses of a class, and nothing else was done. -/
structure Grown (onto onto' : Onto) (c : String) (Added : String → Prop) : Prop where
  mem : ∀ x, x ∈ onto'.getSuperClasses c ↔ x ∈ onto.getSuperClasses c ∨ Added x
  other : ∀ t, t ≠ c → onto'.getSuperClasses t = onto.getSuperClasses t
  subClasses : ∀ t, onto'.getSubClasses t = onto.getSubClasses t
  same : (∀ x, Added x → x ∈ onto.getSuperClasses c) → onto' = onto

namespace Grown

variable {Added Added' : String → Prop}

theorem refl (h : ∀ x, Added x → x ∈ onto.getSuperClasses c) : Grown onto onto c Added where
  mem x := (or_iff_left_of_imp (h x)).symm
  other _ _ := rfl
  subClasses _ := rfl
  same _ := rfl

/-- What is added later is looked up in the ontology that has grown already. -/
theorem trans {onto'' : Onto} (h : Grown onto onto' c Added) (h' : Grown onto' onto'' c Added') :
    Grown onto onto'' c fun x => Added x ∨ Added' x where
  mem x := by rw [h'.mem, h.mem, or_assoc]
  other t ht := (h'.other t ht).trans (h.other t ht)
  subClasses t := (h'.subClasses t).trans (h.subClasses t)
  same hadded := by
    have honto := h.same fun x hx => hadded x (.inl hx)
    rw [← honto]
    exact h'.same fun x hx => honto ▸ hadded x (.inr hx)

theorem congr (h : Grown onto onto' c Added)
    (hadded : ∀ x, x ∈ onto.getSuperClasses c ∨ Added x ↔ x ∈ onto.getSuperClasses c ∨ Added' x) :
    Grown onto onto' c Added' where
  mem x := (h.mem x).trans (hadded x)
  other := h.other
  subClasses := h.subClasses
  same hall := h.same fun x hx =>
    ((hadded x).1 (.inr hx)).elim id (hall x)

/-- The superclasses of a type, after some were added to another. -/
theorem mem_type (h : Grown onto onto' c Added) (t x : String) :
    x ∈ onto'.getSuperClasses t ↔ x ∈ onto.getSuperClasses t ∨ t = c ∧ Added x := by
  by_cases ht : t = c
  · rw [ht, h.mem]
    simp
  · rw [h.other t ht]
    simp [ht]

end Grown

theorem getSuperClasses_insertSuperClass (c : String) (onto : Onto) (i : String) :
    (insertSuperClass c onto i).getSuperClasses =
      Function.update onto.getSuperClasses c ((onto.getSuperClasses c).insert i) := by
  funext t
  rw [Onto.getSuperClasses, insertSuperClass]
  dsimp only
  rw [Function.update_self]
  rfl

theorem getSubClasses_insertSuperClass (c : String) (onto : Onto) (i t : String) :
    (insertSuperClass c onto i).getSubClasses t = onto.getSubClasses t := by
  rw [Onto.getSubClasses, insertSuperClass]
  dsimp only
  rw [Function.update_self]
  rfl

theorem addSuperClass_grown (c : String) (onto : Onto) (i : String) :
    Grown onto (addSuperClass c onto i) c (· = i) := by
  rw [addSuperClass]
  split
  · rename_i hi
    exact .refl fun x hx => hx ▸ hi
  · rename_i hi
    refine ⟨fun x => ?_, fun t ht => ?_, getSubClasses_insertSuperClass c onto i,
      fun h => absurd (h i rfl) hi⟩
    · rw [getSuperClasses_insertSuperClass, Function.update_self, List.mem_insert_iff, or_comm]
    · rw [getSuperClasses_insertSuperClass, Function.update_of_ne ht]

theorem foldl_grown (c : String) (onto : Onto) (is : List String) :
    Grown onto (is.foldl (addSuperClass c) onto) c (· ∈ is) := by
  induction is generalizing onto with
  | nil => exact .refl nofun
  | cons i is ih =>
    refine ((addSuperClass_grown c onto i).trans (ih _)).congr fun x => ?_
    rw [List.mem_cons]

/-- The types after the first one with superclasses. -/
theorem collect_grown (order : Order) (h : onto.getSuperClasses c ≠ []) (indvTypes : List String) :
    ∃ onto', indvTypes.foldl (collect order) ⟨onto, some c⟩ = ⟨onto', some c⟩ ∧
      Grown onto onto' c fun x => ∃ t ∈ indvTypes, x ∈ onto.getSuperClasses t := by
  induction indvTypes generalizing onto with
  | nil => exact ⟨onto, rfl, .refl nofun⟩
  | cons t indvTypes ih =>
    have hgrown := foldl_grown c onto (order.keys (onto.getSuperClasses t))
    simp only [Order.mem_keys] at hgrown
    have hstep : collect order ⟨onto, some c⟩ t =
        ⟨(order.keys (onto.getSuperClasses t)).foldl (addSuperClass c) onto, some c⟩ := by
      simp only [collect, if_neg h]
    have hne : ((order.keys (onto.getSuperClasses t)).foldl (addSuperClass c)
        onto).getSuperClasses c ≠ [] := by
      obtain ⟨x, hx⟩ := List.exists_mem_of_ne_nil _ h
      exact List.ne_nil_of_mem ((hgrown.mem x).2 (.inl hx))
    obtain ⟨onto', hfold, hrest⟩ := ih hne
    rw [List.foldl_cons, hstep]
    refine ⟨onto', hfold, (hgrown.trans hrest).congr fun x => ?_⟩
    simp only [hgrown.mem_type, List.mem_cons, exists_eq_or_imp]
    constructor
    · rintro (hx | hx | ⟨t', ht', hx | ⟨-, hx⟩⟩)
      · exact .inl hx
      · exact .inr (.inl hx)
      · exact .inr (.inr ⟨t', ht', hx⟩)
      · exact .inr (.inl hx)
    · rintro (hx | hx | ⟨t', ht', hx⟩)
      · exact .inl hx
      · exact .inr (.inl hx)
      · exact .inr (.inr ⟨t', ht', .inl hx⟩)

/-- The types, where none of those before has a superclass. -/
theorem collect_first (order : Order) {ref : ClassRef} (href : names onto ref = [])
    (indvTypes : List String) :
    (firstType onto indvTypes = none ∧
      ∃ ref', indvTypes.foldl (collect order) ⟨onto, ref⟩ = ⟨onto, ref'⟩ ∧
        names onto ref' = []) ∨
    ∃ c, firstType onto indvTypes = some c ∧
      ∃ onto', indvTypes.foldl (collect order) ⟨onto, ref⟩ = ⟨onto', some c⟩ ∧
        Grown onto onto' c fun x => ∃ t ∈ indvTypes, x ∈ onto.getSuperClasses t := by
  induction indvTypes generalizing ref with
  | nil => exact .inl ⟨rfl, ref, rfl, href⟩
  | cons t indvTypes ih =>
    have hstep : collect order ⟨onto, ref⟩ t = ⟨onto, some t⟩ := by
      cases ref with
      | none => rfl
      | some c => exact if_pos href
    rw [List.foldl_cons, hstep]
    by_cases ht : onto.getSuperClasses t = []
    · have hfirst : firstType onto (t :: indvTypes) = firstType onto indvTypes :=
        List.find?_cons_of_neg (by simp [ht])
      rw [hfirst]
      have href : names onto (some t) = [] := ht
      refine (ih href).imp_right ?_
      rintro ⟨c, hc, onto', hfold, hgrown⟩
      refine ⟨c, hc, onto', hfold, hgrown.congr fun x => ?_⟩
      simp [ht]
    · obtain ⟨onto', hfold, hgrown⟩ := collect_grown order ht indvTypes
      refine .inr ⟨t, List.find?_cons_of_pos (by simp [ht]), onto', hfold, ?_⟩
      refine hgrown.congr fun x => ?_
      simp

/-- A call gives the superclasses of its types in the ontology that it finds. -/
theorem isUnion_setGSuperClasses (order : Order) (onto : Onto) (indvTypes : List String) :
    IsUnion onto indvTypes (setGSuperClasses order onto indvTypes).2 := by
  intro x
  rw [setGSuperClasses, Order.mem_keys]
  rcases collect_first order (rfl : names onto none = []) indvTypes with
    ⟨hnone, ref, hfold, href⟩ | ⟨c, hc, onto', hfold, hgrown⟩
  · rw [hfold, href]
    refine iff_of_false List.not_mem_nil ?_
    rintro ⟨t, ht, hx⟩
    have hnil := List.find?_eq_none.1 hnone t ht
    exact hnil (by simpa using List.ne_nil_of_mem hx)
  · rw [hfold]
    refine (hgrown.mem x).trans (or_iff_right_of_imp fun hx => ?_)
    exact ⟨c, List.mem_of_find?_eq_some hc, hx⟩

theorem setGSuperClasses_of_absorbs (order : Order) (h : Absorbs onto indvTypes) :
    (setGSuperClasses order onto indvTypes).1 = onto := by
  rw [setGSuperClasses]
  rcases collect_first order (rfl : names onto none = []) indvTypes with
    ⟨-, ref, hfold, -⟩ | ⟨c, hc, onto', hfold, hgrown⟩
  · rw [hfold]
  · rw [hfold]
    exact hgrown.same fun x ⟨t, ht, hx⟩ => h c hc t ht hx

/-- A superclass of another type is added to the first one with superclasses. -/
theorem exists_added_of_not_absorbs (order : Order) (h : ¬Absorbs onto indvTypes) :
    ∃ c x, x ∈ (setGSuperClasses order onto indvTypes).1.getSuperClasses c ∧
      x ∉ onto.getSuperClasses c := by
  rw [Absorbs] at h
  push Not at h
  obtain ⟨c, hc, t, ht, hnot⟩ := h
  rw [List.subset_def] at hnot
  push Not at hnot
  obtain ⟨x, hx, hxc⟩ := hnot
  rw [setGSuperClasses]
  rcases collect_first order (rfl : names onto none = []) indvTypes with
    ⟨hnone, -⟩ | ⟨c', hc', onto', hfold, hgrown⟩
  · rw [hnone] at hc
    cases hc
  · rw [hc] at hc'
    cases hc'
    rw [hfold]
    exact ⟨c, x, (hgrown.mem x).2 (.inr ⟨t, ht, hx⟩), hxc⟩

end

/-! ## Calls one after the other -/

theorem absorbs_congr {onto onto' : Onto} {indvTypes : List String}
    (h : ∀ c, onto'.getSuperClasses c = onto.getSuperClasses c) :
    Absorbs onto' indvTypes ↔ Absorbs onto indvTypes := by
  simp only [Absorbs, firstType, h]

theorem calls_of_absorbs {onto : Onto} {events : List (List String)}
    (h : ∀ indvTypes ∈ events, Absorbs onto indvTypes) : calls order onto events = onto := by
  rw [calls]
  induction events with
  | nil => rfl
  | cons indvTypes events ih =>
    rw [List.foldl_cons, setGSuperClasses_of_absorbs order (h _ List.mem_cons_self)]
    exact ih fun types ht => h types (List.mem_cons_of_mem _ ht)

/-- The calls leave the ontology as it is, and give the superclasses of their types, just if in
each of them the first type with superclasses has those of the others. -/
theorem superClasses_pure_iff (order : Order) (onto : Onto) (events : List (List String)) :
    Pure order onto events ↔ ∀ indvTypes ∈ events, Absorbs onto indvTypes := by
  constructor
  · intro h indvTypes hmem
    obtain ⟨pre, post, hevents⟩ := List.append_of_mem hmem
    have hprefix : pre ++ [indvTypes] <+: events :=
      ⟨post, by rw [hevents, List.append_assoc]; rfl⟩
    have hpre := h.superClasses pre ((List.prefix_append _ _).trans hprefix)
    have hafter := h.superClasses _ hprefix
    rw [← absorbs_congr hpre]
    by_contra hnot
    obtain ⟨c, x, hx, hxc⟩ := exists_added_of_not_absorbs order hnot
    have hcalls : calls order onto (pre ++ [indvTypes]) =
        (setGSuperClasses order (calls order onto pre) indvTypes).1 := by
      rw [calls, List.foldl_append]
      rfl
    rw [← hcalls, hafter c, ← hpre c] at hx
    exact hxc hx
  · intro h
    have hcalls : ∀ pre, pre <+: events → calls order onto pre = onto := fun pre hpre =>
      calls_of_absorbs order fun types ht => h types (hpre.subset ht)
    refine ⟨fun pre hpre c => ?_, fun pre hpre c => ?_, fun pre indvTypes hpre => ?_⟩
    · rw [hcalls pre hpre]
    · rw [hcalls pre hpre]
    · rw [hcalls pre ((List.prefix_append _ _).trans hpre)]
      exact isUnion_setGSuperClasses order onto indvTypes

/-- Two classes, each with a superclass of its own. -/
def twoClasses : List Individual :=
  [classOf "d:x" [], classOf "d:y" [], classOf "d:a" ["d:x"], classOf "d:b" ["d:y"]]

/-- After an event with both types, `d:a` has the superclass of `d:b`. -/
theorem not_superClasses_pure : ¬∀ (order : Order) (onto : Onto) (events : List (List String)),
    Pure order onto events := by
  intro h
  have hkept : ∀ onto, run .added [.load twoClasses] = some onto →
      (calls .added onto [["d:a", "d:b"]]).getSuperClasses "d:a" = onto.getSuperClasses "d:a" :=
    fun onto _ => (h .added onto [["d:a", "d:b"]]).superClasses _ List.prefix_rfl "d:a"
  have hbefore : (run .added [.load twoClasses]).map (·.getSuperClasses "d:a") =
      some ["d:x"] := by decide
  have hafter : (run .added [.load twoClasses]).map (fun onto =>
      (calls .added onto [["d:a", "d:b"]]).getSuperClasses "d:a") = some ["d:y", "d:x"] := by
    decide +kernel
  obtain ⟨onto, hrun, hnames⟩ := Option.map_eq_some_iff.1 hbefore
  rw [hrun, Option.map_some, hkept onto hrun, hnames] at hafter
  exact absurd hafter (by decide)

end Veda.Gluecode.Events
