import Veda.Onto.Calls

/-! # Runs of the cache

When the hierarchies in the cache are the closures of what the latest individuals state, whatever
was given before. -/

namespace Veda.Ontology

open Veda.Onto Veda.Closure Relation

/-! ## Runs -/

/-- The latest individuals after the calls. -/
def latestOf (calls : List Call) : Known := calls.foldl latest fun _ => none

/-- The calls give properties and classes, the links are acyclic after each call, and each call fits
the cache that it comes to. -/
structure Sound (order : Order) (calls : List Call) : Prop where
  wellTyped : ∀ c ∈ calls, WellTyped c
  acyclic : ∀ pre, pre <+: calls → ∀ kind, Acyclic (Link (latestOf pre) kind)
  fits : ∀ pre c, pre ++ [c] <+: calls → ∀ onto, run order pre = some onto → Fits onto c

/-- What is recorded above and below each class and each property is the closure of what the
individuals state. -/
def Answers (onto : Onto) (known : Known) : Prop :=
  ∀ x e,
    (e ∈ onto.getSuperClasses x ↔ e ∈ stated known .cls x) ∧
    (x ∈ onto.getSubClasses e ↔ e ∈ stated known .cls x) ∧
    (e ∈ (onto.bdathe .property).superEls x ↔ e ∈ stated known .property x) ∧
    (x ∈ onto.getSubProperies e ↔ e ∈ stated known .property x)

/-- The same is recorded. -/
def SameAnswers (onto onto' : Onto) : Prop :=
  ∀ x e,
    (e ∈ onto.getSuperClasses x ↔ e ∈ onto'.getSuperClasses x) ∧
    (x ∈ onto.getSubClasses e ↔ x ∈ onto'.getSubClasses e) ∧
    (e ∈ (onto.bdathe .property).superEls x ↔ e ∈ (onto'.bdathe .property).superEls x) ∧
    (x ∈ onto.getSubProperies e ↔ x ∈ onto'.getSubProperies e)

section
variable {order order' : Order} {calls calls' : List Call} {onto onto' : Onto} {known : Known}

theorem Closed.answers (h : Closed onto) : Answers onto (stored onto.individuals) := by
  have hmem : ∀ kind x e, (e ∈ (onto.bdathe kind).superEls x ↔
        e ∈ stated (stored onto.individuals) kind x) ∧
      (x ∈ (onto.bdathe kind).subEls e ↔ e ∈ stated (stored onto.individuals) kind x) := by
    intro kind x e
    refine ⟨?_, (h.exact kind).below x e⟩
    rw [← (h.exact kind).above]
    exact Iff.rfl
  intro x e
  exact ⟨(hmem .cls x e).1, (hmem .cls x e).2, (hmem .property x e).1, (hmem .property x e).2⟩

theorem Answers.same (h : Answers onto known) (h' : Answers onto' known) :
    SameAnswers onto onto' := by
  intro x e
  obtain ⟨h₁, h₂, h₃, h₄⟩ := h x e
  obtain ⟨h₁', h₂', h₃', h₄'⟩ := h' x e
  exact ⟨h₁.trans h₁'.symm, h₂.trans h₂'.symm, h₃.trans h₃'.symm, h₄.trans h₄'.symm⟩

theorem Sound.of_prefix (h : Sound order calls) {pre : List Call} (hp : pre <+: calls) :
    Sound order pre where
  wellTyped c hc := h.wellTyped c (hp.subset hc)
  acyclic pre' hp' := h.acyclic pre' (hp'.trans hp)
  fits pre' c hp' := h.fits pre' c (hp'.trans hp)

/-- The invariant of a run. The induction is on the calls, from the end. -/
theorem Sound.closed (h : Sound order calls) :
    ∃ onto, run order calls = some onto ∧ Closed onto ∧
      stored onto.individuals = latestOf calls := by
  induction calls using List.reverseRecOn with
  | nil => exact ⟨.new, rfl, .new, rfl⟩
  | append_singleton pre c ih =>
    obtain ⟨onto, hrun, hclosed, hstored⟩ := ih (h.of_prefix (List.prefix_append ..))
    have hlatest : latest (stored onto.individuals) c = latestOf (pre ++ [c]) := by
      rw [hstored, latestOf, latestOf, List.foldl_append]
      rfl
    obtain ⟨onto', hcall, hclosed', hstored'⟩ := hclosed.call order
      (h.wellTyped c (List.mem_append_right _ List.mem_cons_self))
      (h.fits pre c List.prefix_rfl onto hrun)
      (fun kind => hlatest ▸ h.acyclic _ List.prefix_rfl kind)
    refine ⟨onto', ?_, hclosed', hstored'.trans hlatest⟩
    rw [run, List.foldlM_append, ← run, hrun]
    show (List.foldlM (Onto.call order) onto [c]) = _
    rw [List.foldlM_cons, hcall]
    rfl

/-- In a run whose calls all fit, the cache is the closure of the latest individuals after every
call, and it is the same for every run that leads to the same individuals. -/
theorem answers_of_sound (h : Sound order calls) :
    (∀ pre, pre <+: calls → ∃ onto, run order pre = some onto ∧ Answers onto (latestOf pre)) ∧
    ∀ order' calls', Sound order' calls' → latestOf calls' = latestOf calls →
      ∃ onto onto', run order calls = some onto ∧ run order' calls' = some onto' ∧
        SameAnswers onto onto' := by
  have hpre : ∀ {order calls}, Sound order calls →
      ∃ onto, run order calls = some onto ∧ Answers onto (latestOf calls) := by
    intro order calls h
    obtain ⟨onto, hrun, hclosed, hstored⟩ := h.closed
    exact ⟨onto, hrun, hstored ▸ hclosed.answers⟩
  refine ⟨fun pre hp => hpre (h.of_prefix hp), fun order' calls' h' heq => ?_⟩
  obtain ⟨onto, hrun, hanswers⟩ := hpre h
  obtain ⟨onto', hrun', hanswers'⟩ := hpre h'
  exact ⟨onto, onto', hrun, hrun', hanswers.same (heq ▸ hanswers')⟩

/-! ### Two runs -/

/-- The individuals that a call gives. -/
def Call.individuals : Call → List Individual
  | .load individuals => individuals
  | .update indv _ => [indv]

theorem take_eq_some {indv d : Individual} {x : String} (h : known.take indv x = some d) :
    d = indv ∨ known x = some d := by
  by_cases hx : x = indv.uri
  · subst hx
    rw [Known.take, Function.update_self] at h
    split at h
    · cases h
    · exact .inl (Option.some.inj h).symm
  · rw [Known.take, Function.update_of_ne hx] at h
    exact .inr h

theorem latest_eq_some {c : Call} {d : Individual} {x : String}
    (h : latest known c x = some d) : d ∈ c.individuals ∨ known x = some d := by
  cases c with
  | update indv replace =>
    rcases take_eq_some h with rfl | h
    · exact .inl List.mem_cons_self
    · exact .inr h
  | load l =>
    rw [latest] at h
    induction l generalizing known with
    | nil => exact .inr h
    | cons indv l ih =>
      rcases ih h with h | h
      · exact .inl (List.mem_cons_of_mem _ h)
      · rcases take_eq_some h with rfl | h
        · exact .inl List.mem_cons_self
        · exact .inr h

/-- The latest individuals are among those that were given. -/
theorem latestOf_eq_some {d : Individual} {x : String} (h : latestOf calls x = some d) :
    ∃ c ∈ calls, d ∈ c.individuals := by
  induction calls using List.reverseRecOn with
  | nil => cases h
  | append_singleton pre c ih =>
    rw [latestOf, List.foldl_append] at h
    rcases latest_eq_some h with h | h
    · exact ⟨c, List.mem_append_right _ List.mem_cons_self, h⟩
    · obtain ⟨c', hc', hd⟩ := ih h
      exact ⟨c', List.mem_append_left _ hc', hd⟩

theorem Clean.latestOf (calls : List Call) : Clean (latestOf calls) := by
  induction calls using List.reverseRecOn with
  | nil => exact ⟨fun _ _ h => (Option.some_ne_none _ h.symm).elim,
      fun _ _ h => (Option.some_ne_none _ h.symm).elim⟩
  | append_singleton pre c ih =>
    rw [Ontology.latestOf, List.foldl_append]
    exact ih.latest c

/-- Where every individual is higher than the parents it states, the links are acyclic. -/
theorem acyclic_latestOf (height : String → ℕ)
    (h : ∀ c ∈ calls, ∀ d ∈ c.individuals, ∀ kind : Kind,
      ∀ rs ∈ d.getResources kind.parentPredicate, height rs.uriOf < height d.uri) (kind : Kind) :
    Acyclic (Link (latestOf calls) kind) := by
  refine Acyclic.of_height height fun x e hlink => ?_
  cases hx : latestOf calls x with
  | none =>
    rw [Link, links, hx] at hlink
    exact absurd hlink List.not_mem_nil
  | some d =>
    obtain ⟨c, hc, hd⟩ := latestOf_eq_some hx
    rw [Link, links, hx] at hlink
    obtain ⟨rs, hrs, rfl⟩ := List.mem_map.mp hlink
    rw [← (Clean.latestOf calls).uri x d hx]
    exact h c hc d hd kind rs hrs

end

/-- A class with its superclasses. -/
def classOf (uri : String) (parents : List String) : Individual where
  uri := uri
  resources := (AList.insert "rdf:type" [.uri "owl:Class"] ∅).insert "rdfs:subClassOf"
    (parents.map .uri)

/-- The order in which names were added. -/
def Order.added : Order := ⟨id, fun _ => .refl _⟩

/-- A new cache takes any load of individuals of which none is deleted and none comes in two
versions. -/
theorem Fits.load_new {l : List Individual} (hd : ∀ indv ∈ l, isDeleted indv = false)
    (hl : ∀ indv ∈ l, get (storeAll .new l) indv.uri = indv) : Fits .new (.load l) where
  covered kind x := by
    have hnone : ∀ e, e ∉ stated (stored Onto.new.individuals) kind x := by
      rintro e ⟨⟨_, h, _⟩, _⟩
      cases h
    refine ⟨fun _ e he => (hnone e he).elim, fun hx => ?_⟩
    refine Set.ext fun e => iff_of_false ?_ (hnone e)
    rintro ⟨⟨d, hdx, hk⟩, -⟩
    rcases latest_eq_some hdx with hmem | h
    · have huri := (Closed.new.clean.latest (.load l)).uri x d hdx
      exact hx ⟨d, hmem, hd d hmem, hk, .inl ⟨huri.symm,
        Set.ext fun e => iff_of_false (hnone e) id⟩⟩
    · cases h
  update _ h := Call.noConfusion h
  load l' h indv hi := by
    obtain rfl := Call.load.inj h
    rw [LoadsWell, hd indv hi]
    rintro kind hk
    rw [hl indv hi]
    exact .inl hk

/-- `b` and then `a` below it, in one load. -/
def loaded : List Individual := [classOf "b" [], classOf "a" ["b"]]

theorem sound_loaded : Sound .added [.load loaded] where
  wellTyped c hc := by
    obtain rfl := List.mem_singleton.mp hc
    show ∀ indv ∈ loaded, isDeleted indv = false → kind? indv ≠ none
    decide
  acyclic pre hp := by
    refine acyclic_latestOf (fun x => if x = "a" then 1 else 0) fun c hc d hd kind => ?_
    obtain rfl := List.mem_singleton.mp (hp.subset hc)
    cases kind <;> revert d <;> decide
  fits pre c hp onto hrun := by
    have hnil : pre = [] := by simpa using hp.length_le
    subst hnil
    obtain rfl := List.mem_singleton.mp (hp.subset List.mem_cons_self)
    obtain rfl := Option.some.inj hrun
    refine .load_new (by decide) ?_
    exact List.forall_mem_cons.mpr ⟨rfl, List.forall_mem_cons.mpr ⟨rfl, fun _ h => by cases h⟩⟩

theorem answers_of_sound_loaded :
    ∃ onto, run .added [.load loaded] = some onto ∧ Answers onto (latestOf [.load loaded]) :=
  (answers_of_sound sound_loaded).1 _ List.prefix_rfl

/-- `b`, `a` below it, and `a` again, no longer below it. -/
def moved : List Call :=
  [.update (classOf "b" []) true, .update (classOf "a" ["b"]) true, .update (classOf "a" []) true]

/-- After `moved`, `a` is still recorded below `b`. -/
theorem not_answers_moved :
    ¬∀ (order : Order) (calls : List Call), (∀ c ∈ calls, WellTyped c) →
      (∀ pre, pre <+: calls → ∀ kind, Acyclic (Link (latestOf pre) kind)) →
      ∃ onto, run order calls = some onto ∧ Answers onto (latestOf calls) := by
  intro h
  have htyped : ∀ c ∈ moved, ∀ d ∈ c.individuals, kind? d ≠ none := by decide
  have hheight : ∀ kind : Kind, ∀ c ∈ moved, ∀ d ∈ c.individuals,
      ∀ rs ∈ d.getResources kind.parentPredicate,
        (if rs.uriOf = "a" then 1 else 0) < if d.uri = "a" then 1 else 0 := by
    rintro (_ | _) <;> decide
  obtain ⟨onto, hrun, hanswers⟩ := h .added moved
    (fun c hc => by
      cases c with
      | load l => exact fun d hd _ => htyped _ hc d hd
      | update d replace => exact fun _ => htyped _ hc d List.mem_cons_self)
    (fun pre hp => acyclic_latestOf (fun x => if x = "a" then 1 else 0)
      fun c hc d hd kind => hheight kind c (hp.subset hc) d hd)
  have hbelow : (run .added moved).map (·.getSubClasses "b") = some ["a"] := by decide
  rw [hrun] at hbelow
  have hmem : "a" ∈ onto.getSubClasses "b" := by
    rw [show onto.getSubClasses "b" = ["a"] from Option.some.inj hbelow]
    exact List.mem_cons_self
  have habove := ((hanswers "a" "b").2.1.mp hmem).2
  obtain ⟨y, hy, -⟩ := mem_ancestors.mp habove
  have hnone : links (latestOf moved) .cls "a" = [] := by decide
  rw [Link, hnone] at hy
  exact List.not_mem_nil hy

end Veda.Ontology
