import Veda.Gluecode.ReadOwnWrites
import Veda.Lib.Run

/-! # Two scripts that add to one individual

Two script processes add values to the same individual and commit. An addition is merged in the
process with what it has read, and is sent as a whole: what the other one has committed in the
meantime is lost, unless it was there before or is added by both (`contains_both_iff`). -/

namespace Veda.Gluecode

open Onto Veda.Core
open Mstorage hiding TransactionItem

/-! ## Schedules -/

/-- `zs` is made of the elements of `xs` and `ys`, each in their order. -/
inductive Interleaving {α : Type} : List α → List α → List α → Prop where
  | nil : Interleaving [] [] []
  | left : Interleaving xs ys zs → Interleaving (x :: xs) ys (x :: zs)
  | right : Interleaving xs ys zs → Interleaving xs (y :: ys) (y :: zs)

theorem Interleaving.nil_left {α : Type} {ys zs : List α} (h : Interleaving [] ys zs) :
    zs = ys := by
  generalize hxs : ([] : List α) = xs at h
  induction h with
  | nil => rfl
  | left _ _ => exact absurd hxs.symm (List.cons_ne_nil _ _)
  | right _ ih => rw [ih hxs]

theorem Interleaving.nil_right {α : Type} {xs zs : List α} (h : Interleaving xs [] zs) :
    zs = xs := by
  generalize hys : ([] : List α) = ys at h
  induction h with
  | nil => rfl
  | left _ ih => rw [ih hys]
  | right _ _ => exact absurd hys.symm (List.cons_ne_nil _ _)

inductive Process where
  | one
  | two
  deriving DecidableEq

/-- What a process does next: it calls `add_to_individual`, or it commits. -/
inductive Event where
  | add (process : Process)
  | commit (process : Process)
  deriving DecidableEq

/-- What a process does. -/
def program (process : Process) : List Event := [.add process, .commit process]

/-- Process `b` has read before `a` commits, and commits after it. -/
def Overtakes (schedule : List Event) (a b : Process) : Prop :=
  [.add b, .commit a, .commit b].Sublist schedule

/-- One process commits first. The other adds its values before or after that. -/
theorem interleaving_cases (h : Interleaving (program .one) (program .two) schedule) :
    ∃ a b, a ≠ b ∧ (schedule = [.add a, .commit a, .add b, .commit b] ∨
      schedule = [.add a, .add b, .commit a, .commit b] ∨
      schedule = [.add b, .add a, .commit a, .commit b]) := by
  cases h with
  | left h =>
    cases h with
    | left h =>
      rw [h.nil_left]
      exact ⟨.one, .two, by simp, .inl rfl⟩
    | right h =>
      cases h with
      | left h =>
        rw [h.nil_left]
        exact ⟨.one, .two, by simp, .inr (.inl rfl)⟩
      | right h =>
        rw [h.nil_right]
        exact ⟨.two, .one, by simp, .inr (.inr rfl)⟩
  | right h =>
    cases h with
    | right h =>
      rw [h.nil_right]
      exact ⟨.two, .one, by simp, .inl rfl⟩
    | left h =>
      cases h with
      | right h =>
        rw [h.nil_right]
        exact ⟨.two, .one, by simp, .inr (.inl rfl)⟩
      | left h =>
        rw [h.nil_left]
        exact ⟨.one, .two, by simp, .inr (.inr rfl)⟩

/-! ## The two processes -/

/-- What a process adds under a uri. -/
structure Addition (uri : String) where
  caller : Caller
  delta : Individual
  onUri : delta.uri = uri
  readable : (BinObj.individual delta).deserialize = some delta

/-- The storage server and the two processes. -/
structure World where
  manager : Manager
  tnx : Process → Transaction
  /-- What the commit of a process has reported. -/
  result : Process → Option ResultCode

section
variable (env : Env) (userOf : String → Option String) {uri : String}
  (addition : Process → Addition uri)

/-- The call of `add_to_individual`. -/
def Addition.call {uri : String} (x : Addition uri) : Call :=
  .addToIndividual x.caller (.individual x.delta)

def step : Event → World → World
  | .add process, w =>
    { w with
      tnx := Function.update w.tnx process
        (call w.manager.storage (w.tnx process) (addition process).call).2 }
  | .commit process, w =>
    let (rc, m) := commit (mstorage env userOf) (w.tnx process).queue w.manager
    { w with manager := m, result := Function.update w.result process (some rc) }

/-- Before the two scripts. -/
def start (m : Manager) : World := ⟨m, fun _ => [], fun _ => none⟩

/-- After the two scripts. -/
def finish (m : Manager) (schedule : List Event) : World :=
  Run.run (step env userOf addition) (start m) schedule

end

/-- The values that a text shows. -/
def valuesOf (obj : Option BinObj) : String → Resources :=
  ((obj.bind BinObj.deserialize).getD .init).getResources

/-- The values of `delta` are there. The counter is the storage's own. -/
def Contains (obj : Option BinObj) (delta : Individual) : Prop :=
  ∀ p, p ≠ updateCounter → ∀ r ∈ delta.getResources p, r ∈ valuesOf obj p

/-- Nothing is lost when `kept` is sent merged with `obj` over `lost`: either nothing is sent, or
the values are in what is sent. -/
def Spared (obj : Option BinObj) (lost kept : Individual) : Prop :=
  (∀ p, valuesOf obj p = [] ∧ kept.getResources p = []) ∨
    ∀ p, p ≠ updateCounter → ∀ r ∈ lost.getResources p,
      r ∈ valuesOf obj p ∨ r ∈ kept.getResources p

/-! ## One process -/

theorem mem_applyResources_addIn (rss inRss : Resources) (r : Resource) :
    r ∈ applyResources .addIn rss inRss ↔ r ∈ rss ∨ r ∈ inRss := by
  rw [applyResources, List.mem_append, List.mem_filter]
  constructor
  · exact fun h => h.imp id And.left
  · rintro (hold | hnew)
    · exact .inl hold
    -- a value that is not added is there already
    by_cases hany : rss.any r.beq = true
    · obtain ⟨old, hold, hbeq⟩ := List.any_eq_true.mp hany
      rw [Resource.eq_of_beq hbeq]
      exact .inl hold
    · exact .inr ⟨hnew, by simpa using hany⟩

theorem mem_indvApplyCmd_addIn (prevIndv delta : Individual) (p : String) (r : Resource) :
    r ∈ (indvApplyCmd .addIn prevIndv delta).getResources p ↔
      r ∈ prevIndv.getResources p ∨ r ∈ delta.getResources p := by
  rw [getResources_indvApplyCmd]
  split
  · exact mem_applyResources_addIn _ _ r
  · next hkey =>
    rw [Individual.getResources_of_notMem_keys hkey]
    exact (or_iff_left List.not_mem_nil).symm

section
variable {env : Env} {userOf : String → Option String} {uri : String} {storage : Storage}
  {m m' : Manager}

/-- An addition is merged into what is read. -/
theorem mem_merged (storage : Storage) (delta : Individual) (p : String) (r : Resource) :
    r ∈ (merged .addIn (getPrev storage [] uri) delta).getResources p ↔
      r ∈ valuesOf (storage uri) p ∨ r ∈ delta.getResources p := by
  have hprev : getPrev storage [] uri = getIndividual storage [] uri := rfl
  have hnothing : ∀ q, Individual.init.getResources q = [] := fun _ => rfl
  rw [hprev, merged, getIndividual, valuesOf, bind_deserialize]
  cases hread : readPrev storage uri with
  | none => simp [hnothing]
  | some prev =>
    cases prev with
    | none => simp [hnothing]
    | some prev =>
      rw [if_pos ⟨fun h => IndvOp.noConfusion h, rfl⟩]
      exact mem_indvApplyCmd_addIn prev delta p r

/-- The item of an addition. -/
theorem call_addition (x : Addition uri) (hkeyed : Keyed storage) :
    ∃ e : Entry, (call storage [] x.call).2 = [e] ∧ Scripted e.item ∧ e.item.cmd = .put ∧
      e.item.newIndv.uri = uri ∧
      e.item.newIndv = merged .addIn (getPrev storage [] uri) x.delta := by
  have hadds : x.call.adds = some uri := by
    rw [Addition.call, Call.adds, x.readable]
    exact congrArg some x.onUri
  have hpasses : x.call.passes = some (.addIn, x.delta) := by
    rw [Addition.call, Call.passes, x.readable]
    rfl
  have hvalid : Transaction.Valid [] :=
    ⟨fun e he => absurd he List.not_mem_nil, fun e he => absurd he List.not_mem_nil,
      fun e he => absurd he List.not_mem_nil⟩
  obtain ⟨hnone, _⟩ | ⟨cell, resources, e, _, hadded, heq⟩ := call_cases hkeyed hvalid x.call
  · exact absurd (hnone.symm.trans hadds).symm (Option.some_ne_none _)
  obtain ⟨hcmd, _, hnew⟩ := hadded.puts _ _ hpasses
  rw [x.onUri] at hnew
  exact ⟨e, heq, hadded.scripted, hcmd, Option.some.inj (hadded.adds.symm.trans hadds), hnew⟩

/-- A commit replaces what is stored by what was read, merged with the addition. -/
structure Replaced (storage : Storage) (delta : Individual) (uri : String) (m m' : Manager) :
    Prop where
  idle : m'.Idle
  keyed : Keyed m'.storage
  nothing : (∀ p, valuesOf (storage uri) p = [] ∧ delta.getResources p = []) →
    m'.storage uri = m.storage uri
  values : ¬(∀ p, valuesOf (storage uri) p = [] ∧ delta.getResources p = []) →
    ∀ p, p ≠ updateCounter → ∀ r, r ∈ valuesOf (m'.storage uri) p ↔
      r ∈ valuesOf (storage uri) p ∨ r ∈ delta.getResources p

theorem commit_addition (x : Addition uri) (hread : Keyed storage) (hm : m.Idle)
    (hkeyed : Keyed m.storage)
    (hcommit : commit (mstorage env userOf) (Transaction.queue (call storage [] x.call).2) m =
      (.ok, m')) : Replaced storage x.delta uri m m' := by
  obtain ⟨e, heq, hs, hcmd, huri, hnew⟩ := call_addition x hread
  rw [heq] at hcommit
  have hseen : uri ≠ "" → (false = true ↔ uri ∈ []) := fun _ => by simp
  have hscripted : ∀ item ∈ [e.item], Scripted item := by
    intro item hitem
    rw [List.mem_singleton.mp hitem]
    exact hs
  obtain ⟨hidle, hkeyed', hleft⟩ := commitQueue_leaves hscripted hm hkeyed hcommit hseen
  have hremove : e.item.cmd ≠ .remove := by
    rw [hcmd]
    exact fun h => IndvOp.noConfusion h
  rw [List.foldl_cons, List.foldl_nil, leave_eq huri, if_neg hremove] at hleft
  have hsent : (sent e.item false).resources.keys = [] ↔
      ∀ p, valuesOf (storage uri) p = [] ∧ x.delta.getResources p = [] := by
    rw [sent_keys_eq_nil, hnew, and_iff_right rfl]
    refine forall_congr' fun p => ?_
    rw [List.eq_nil_iff_forall_not_mem, List.eq_nil_iff_forall_not_mem,
      List.eq_nil_iff_forall_not_mem, ← forall_and]
    refine forall_congr' fun r => ?_
    rw [mem_merged, not_or]
  refine ⟨hidle, hkeyed', ?_, ?_⟩
  · intro hnothing
    rw [hleft, if_pos (hsent.mpr hnothing)]
  · intro hsome p hp r
    rw [if_neg fun h => hsome (hsent.mp h)] at hleft
    have hstored : valuesOf (m'.storage uri) p = e.item.newIndv.getResources p := by
      rw [hleft, valuesOf, Option.bind_some, sent, deserialize_stored, Option.getD_some,
        Individual.getResources_setResources_ne (Ne.symm hp), ← sent, getResources_sent hp]
    rw [hstored, hnew, mem_merged]

/-- What has been replaced contains the addition. -/
theorem Replaced.contains {delta : Individual} (h : Replaced storage delta uri m m') :
    Contains (m'.storage uri) delta := by
  intro p hp r hr
  by_cases hnothing : ∀ p, valuesOf (storage uri) p = [] ∧ delta.getResources p = []
  · rw [(hnothing p).2] at hr
    exact absurd hr List.not_mem_nil
  · exact (h.values hnothing p hp r).mpr (.inr hr)

/-- What was there when the addition was called is kept. -/
theorem Replaced.kept {delta other : Individual} (h : Replaced m.storage delta uri m m')
    (hother : Contains (m.storage uri) other) : Contains (m'.storage uri) other := by
  intro p hp r hr
  by_cases hnothing : ∀ p, valuesOf (m.storage uri) p = [] ∧ delta.getResources p = []
  · rw [h.nothing hnothing]
    exact hother p hp r hr
  · exact (h.values hnothing p hp r).mpr (.inl (hother p hp r hr))

/-- What has been stored since then is kept where it is spared. -/
theorem Replaced.contains_iff {delta other : Individual} (h : Replaced storage delta uri m m')
    (hother : Contains (m.storage uri) other) :
    Contains (m'.storage uri) other ↔ Spared (storage uri) other delta := by
  by_cases hnothing : ∀ p, valuesOf (storage uri) p = [] ∧ delta.getResources p = []
  · rw [h.nothing hnothing]
    exact iff_of_true hother (.inl hnothing)
  · rw [Spared, or_iff_right hnothing]
    refine forall_congr' fun p => forall_congr' fun hp => forall_congr' fun r =>
      forall_congr' fun _ => ?_
    exact h.values hnothing p hp r

end

/-! ## The schedules -/

section
variable {env : Env} {userOf : String → Option String} {uri : String}
  {addition : Process → Addition uri} {m : Manager} {a b : Process}

/-- The transaction of an addition, and its commit. -/
def tnxOf {uri : String} (x : Addition uri) (storage : Storage) : Transaction :=
  (call storage [] x.call).2

/-- The second process adds after the first commit. -/
theorem finish_sequential (hab : a ≠ b) (hok : ∀ process, (finish env userOf addition m
      [.add a, .commit a, .add b, .commit b]).result process = some .ok) :
    ∃ m₁, commit (mstorage env userOf) (tnxOf (addition a) m.storage).queue m = (.ok, m₁) ∧
      commit (mstorage env userOf) (tnxOf (addition b) m₁.storage).queue m₁ =
        (.ok, (finish env userOf addition m
          [.add a, .commit a, .add b, .commit b]).manager) := by
  have ha := hok a
  have hb := hok b
  simp only [finish, Run.run, step, start, Function.update_self, Function.update_of_ne hab,
    Function.update_of_ne hab.symm] at ha hb ⊢
  exact ⟨_, Prod.ext (Option.some.inj ha) rfl, Prod.ext (Option.some.inj hb) rfl⟩

/-- Both processes add before the first commit. -/
theorem finish_overlapping (hab : a ≠ b)
    (hschedule : schedule = [.add a, .add b, .commit a, .commit b] ∨
      schedule = [.add b, .add a, .commit a, .commit b])
    (hok : ∀ process, (finish env userOf addition m schedule).result process = some .ok) :
    ∃ m₁, commit (mstorage env userOf) (tnxOf (addition a) m.storage).queue m = (.ok, m₁) ∧
      commit (mstorage env userOf) (tnxOf (addition b) m.storage).queue m₁ =
        (.ok, (finish env userOf addition m schedule).manager) := by
  have ha := hok a
  have hb := hok b
  obtain rfl | rfl := hschedule
  · simp only [finish, Run.run, step, start, Function.update_self, Function.update_of_ne hab,
      Function.update_of_ne hab.symm] at ha hb ⊢
    exact ⟨_, Prod.ext (Option.some.inj ha) rfl, Prod.ext (Option.some.inj hb) rfl⟩
  · simp only [finish, Run.run, step, start, Function.update_self, Function.update_of_ne hab,
      Function.update_of_ne hab.symm] at ha hb ⊢
    exact ⟨_, Prod.ext (Option.some.inj ha) rfl, Prod.ext (Option.some.inj hb) rfl⟩

theorem eq_or_eq (hab : a ≠ b) (process : Process) : process = a ∨ process = b := by
  cases a <;> cases b <;> cases process <;> simp_all

theorem not_overtakes_sequential (hab : a ≠ b) (c d : Process) :
    ¬Overtakes [.add a, .commit a, .add b, .commit b] c d := by
  unfold Overtakes
  cases a <;> cases b <;> cases c <;> cases d <;> first | exact absurd rfl hab | decide

theorem overtakes_overlapping (hab : a ≠ b)
    (hschedule : schedule = [.add a, .add b, .commit a, .commit b] ∨
      schedule = [.add b, .add a, .commit a, .commit b]) (c d : Process) :
    Overtakes schedule c d ↔ c = a ∧ d = b := by
  unfold Overtakes
  obtain rfl | rfl := hschedule
  all_goals
    cases a <;> cases b <;> cases c <;> cases d <;> first | exact absurd rfl hab | decide

/-- Two additions are kept exactly where what a process overtakes is spared. -/
theorem contains_both_iff (env : Env) (userOf : String → Option String)
    (addition : Process → Addition uri) (m : Manager) (hm : m.Idle) (hkeyed : Keyed m.storage)
    (schedule : List Event) (hschedule : Interleaving (program .one) (program .two) schedule)
    (hok : ∀ process, (finish env userOf addition m schedule).result process = some .ok) :
    (∀ process, Contains ((finish env userOf addition m schedule).manager.storage uri)
        (addition process).delta) ↔
      ∀ a b, Overtakes schedule a b →
        Spared (m.storage uri) (addition a).delta (addition b).delta := by
  obtain ⟨a, b, hab, rfl | hoverlap⟩ := interleaving_cases hschedule
  · obtain ⟨m₁, hfirst, hsecond⟩ := finish_sequential hab hok
    have ha := commit_addition (addition a) hkeyed hm hkeyed hfirst
    have hb := commit_addition (addition b) ha.keyed ha.idle ha.keyed hsecond
    refine iff_of_true ?_ fun c d h => absurd h (not_overtakes_sequential hab c d)
    intro process
    obtain rfl | rfl := eq_or_eq hab process
    · exact hb.kept ha.contains
    · exact hb.contains
  · obtain ⟨m₁, hfirst, hsecond⟩ := finish_overlapping hab hoverlap hok
    have ha := commit_addition (addition a) hkeyed hm hkeyed hfirst
    have hb := commit_addition (addition b) hkeyed ha.idle ha.keyed hsecond
    have hlost := hb.contains_iff ha.contains
    constructor
    · intro h c d hcd
      obtain ⟨rfl, rfl⟩ := (overtakes_overlapping hab hoverlap c d).mp hcd
      exact hlost.mp (h c)
    · intro h process
      obtain rfl | rfl := eq_or_eq hab process
      · exact hlost.mpr (h _ _ ((overtakes_overlapping hab hoverlap _ _).mpr ⟨rfl, rfl⟩))
      · exact hb.contains

end

/-! ## Additions at the storage -/

/-- An addition that reaches the storage as `ADD_IN`. -/
theorem mem_newIndividual_addIn (prevIndv delta : Individual) (hp : p ≠ updateCounter)
    (r : Resource) : r ∈ (newIndividual .addIn prevIndv delta).getResources p ↔
      r ∈ prevIndv.getResources p ∨ r ∈ delta.getResources p := by
  have hvalues : (newIndividual .addIn prevIndv delta).getResources p =
      (indvApplyCmd .addIn prevIndv delta).getResources p :=
    Individual.getResources_setResources_ne (Ne.symm hp)
  rw [hvalues, mem_indvApplyCmd_addIn]

/-- Where both additions reach the storage as `ADD_IN`, both are kept. -/
theorem mem_addIn_addIn (prevIndv : Individual) (delta : Process → Individual)
    (a b process : Process) (hab : a ≠ b) (hp : p ≠ updateCounter)
    (hr : r ∈ (delta process).getResources p) :
    r ∈ (newIndividual .addIn (newIndividual .addIn prevIndv (delta a)) (delta b)).getResources
      p := by
  rw [mem_newIndividual_addIn _ _ hp, mem_newIndividual_addIn _ _ hp]
  obtain rfl | rfl := eq_or_eq hab process
  · exact .inl (.inr hr)
  · exact .inr hr

/-! ## Two additions at one individual -/

/-- Two processes that add one value each. -/
def addValue : Process → Addition "d:a"
  | .one => ⟨⟨"", ""⟩, valued "v-s:value" 1, rfl, rfl⟩
  | .two => ⟨⟨"", ""⟩, valued "v-s:value" 2, rfl, rfl⟩

/-- The two processes at an individual that is stored already. -/
def finishValues (schedule : List Event) : World :=
  finish (healthyEnv (onlyGrants fun _ => true) "") (fun _ => some "") addValue
    (idleManager (oneStored (individualOf "d:a" "v-s:Task"))) schedule

theorem keyed_oneStored (indv : Individual) : Keyed (oneStored indv) := by
  intro uri i h
  rw [oneStored] at h
  split at h
  · next huri => rw [huri, BinObj.individual.inj (Option.some.inj h)]
  · exact absurd h.symm (Option.some_ne_none _)

theorem contains_sequential :
    (∀ process, Contains ((finishValues [.add .one, .commit .one, .add .two,
        .commit .two]).manager.storage "d:a") (addValue process).delta) ↔
      ∀ a b, Overtakes [.add .one, .commit .one, .add .two, .commit .two] a b →
        Spared (oneStored (individualOf "d:a" "v-s:Task") "d:a") (addValue a).delta
          (addValue b).delta :=
  contains_both_iff (healthyEnv (onlyGrants fun _ => true) "") (fun _ => some "") addValue
    (idleManager (oneStored (individualOf "d:a" "v-s:Task"))) (idleManager_idle _)
    (keyed_oneStored _) _ (.left (.left (.right (.right .nil))))
    fun process => by cases process <;> rfl

/-- Both additions are called before the first commit, and the first one is lost. -/
theorem not_contains_overlapping :
    (∀ process, (finishValues [.add .one, .add .two, .commit .one, .commit .two]).result process =
        some .ok) ∧
      ¬∀ process, Contains ((finishValues [.add .one, .add .two, .commit .one,
        .commit .two]).manager.storage "d:a") (addValue process).delta := by
  refine ⟨fun process => by cases process <;> rfl, ?_⟩
  intro h
  have hvalues : valuesOf ((finishValues [.add .one, .add .two, .commit .one,
      .commit .two]).manager.storage "d:a") "v-s:value" = [.integer 2] := rfl
  have hmem := h .one "v-s:value" (by decide) (.integer 1) List.mem_cons_self
  rw [hvalues] at hmem
  exact absurd hmem (by decide)

end Veda.Gluecode
