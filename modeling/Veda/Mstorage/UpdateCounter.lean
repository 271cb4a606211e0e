import Mathlib.Algebra.Order.Group.Int
import Veda.Lib.Run
import Veda.Mstorage.AddToTransaction

/-! # The update counter

What a sequence of calls of `add_to_transaction` puts into `individuals-flow` as `u_count`, beside
the counters in the states that it stores. The counter of a state that is stored is one more than
the counter of the state before, so that the next record goes on from it. A state that is not stored
is not gone on from, and the state that is stored before a removal keeps its old counter. -/

namespace Veda.Mstorage

open Onto Run

/-! ## The property -/

/-- The first `v-s:updateCounter` in a state. -/
def firstCounter : BinObj → Option Int
  | .individual indv =>
    match indv.getResources "v-s:updateCounter" with
    | .integer n :: _ => some n
    | _ => none
  | .invalid => none

/-- The last record of a uri, in a queue with the latest record first. -/
def lastRecord (flow : List (TransactionItem × Nat)) (uri : String) : Option TransactionItem :=
  (flow.find? (·.1.uri = uri)).map Prod.fst

/-- The counter that a record is to go on from: it starts again after a removal. -/
def counterBefore (flow : List (TransactionItem × Nat)) (uri : String) : Option Int :=
  (lastRecord flow uri).map fun ti => if ti.newBinobj.isSome then ti.updateCounter else 0

/-- Every record with a state has the counter of the state as `u_count`, which is one more than
that of the record of the same uri before it. The latest record comes first. -/
def Faithful : List (TransactionItem × Nat) → Prop
  | [] => True
  | (ti, _) :: flow =>
    Faithful flow ∧ ∀ obj, ti.newBinobj = some obj →
      firstCounter obj = some ti.updateCounter ∧
        ∀ counter, counterBefore flow ti.uri = some counter → ti.updateCounter = counter + 1

/-- A call, in the surroundings that it is made in. -/
abbrev AddCall := Env × Request

/-- A call with autocommit. -/
def call (c : AddCall) (m : Manager) : Manager := (addToTransaction c.1 c.2 m).manager

def Successful (c : AddCall) (m : Manager) : Prop := (addToTransaction c.1 c.2 m).result = .ok

/-- The uri that is stored: what is made from nothing by a command other than `PUT` has none. -/
def storedUri (r : Request) (storage : Storage) : String :=
  if r.cmd = .put ∨ (storage r.indv.uri).isSome then r.indv.uri else ""

/-- `REMOVE` finds no state, and the other commands find the state of the last record of the uri:
it was assigned to the storage, and its counter is not the greatest one. -/
def Continues (c : AddCall) (m : Manager) : Prop :=
  if c.2.cmd = .remove then m.storage c.2.indv.uri = none
  else ∀ ti, lastRecord m.flow (storedUri c.2 m.storage) = some ti → ti.newBinobj.isSome = true →
    assignedTo ti.assignedSubsystems subsystemStorage = true ∧ ti.updateCounter ≠ 2 ^ 63 - 1

/-- A state is stored under its own uri. -/
structure Keyed (storage : Storage) : Prop where
  uri : ∀ uri indv, storage uri = some (.individual indv) → indv.uri = uri
  empty : storage "" = none

/-- A manager that has pushed nothing, of a client that has read all the replies. -/
structure Fresh (m : Manager) : Prop where
  flow : m.flow = []
  replies : m.replies = []
  keyed : Keyed m.storage

/-! ## What is pushed -/

section
variable {m m' : Manager} {ti : TransactionItem} {fails : Bool} {f : OptFreeze}

/-- An item was carried out. -/
structure CarriedOut (m : Manager) (ti : TransactionItem) (m' : Manager) : Prop where
  flow : ∃ opId, m'.flow = (ti, opId) :: m.flow
  replies : m'.replies = []
  storage : m'.storage = stored ti.assignedSubsystems m.storage ti.uri
    (if ti.cmd = .remove then none else ti.newBinobj)
  uri : assignedTo ti.assignedSubsystems subsystemStorage = true → ti.uri ≠ ""

theorem Manager.apply_uri (h : (m.apply ti fails).1 = .ok) : ti.uri ≠ "" := by
  intro huri
  have hne : (m.apply ti fails).1 = .noContent := by
    unfold Manager.apply
    split
    · rw [if_pos huri]
    · rw [if_pos huri]
    · rfl
  rw [hne] at h
  cases h

theorem Manager.execute_flow (h : m.reply ti fails = .ok) :
    (m.execute ti fails).flow = (ti, m.opId + 1) :: m.flow := by
  rw [Manager.reply_eq_ok] at h
  by_cases hass : assignedTo ti.assignedSubsystems subsystemStorage = true
  · simp [Manager.execute, hass, h hass]
  · simp [Manager.execute, hass]

/-- The first reply to an item is `Ok` only if it was carried out. -/
theorem Manager.save_ok (hreplies : m.replies = []) (hok : (m.save ti f fails).1 = .ok) :
    CarriedOut m ti (m.save ti f fails).2 := by
  by_cases hfrozen : f = .none ∧ m.isFreeze ∧ ti.cmd = .put
  · -- the reply to a frozen manager comes first
    have hrep := (Manager.execute_replies (m.answerFrozen ti f) ti fails).1
    have hanswer : (m.answerFrozen ti f).replies = [.notReady] := by
      rw [Manager.answerFrozen, if_pos hfrozen, hreplies]
      rfl
    rw [hanswer, List.singleton_append] at hrep
    rw [Manager.save_of_replies hrep] at hok
    cases hok
  · have hanswer : m.answerFrozen ti f = m := if_neg hfrozen
    have hrep := (Manager.execute_replies m ti fails).1
    rw [hreplies, List.nil_append] at hrep
    have hreplies' : (m.handleSave ti f fails).replies = [m.reply ti fails] := by
      rw [Manager.handleSave, hanswer, hrep]
    have hsave := Manager.save_of_replies hreplies'
    rw [hsave] at hok
    have hstorage := Manager.save_storage m ti f fails
    rw [hsave, Manager.handleSave, hanswer] at hstorage ⊢
    have happly := Manager.reply_eq_ok.1 hok
    refine ⟨⟨_, Manager.execute_flow hok⟩, rfl, ?_, fun hass => Manager.apply_uri (happly hass)⟩
    rw [hstorage, Manager.changed, stored]
    split
    next hass => exact Manager.apply_of_ok (happly hass)
    next => rfl

end

/-! ## The counters -/

/-- The counter that is stored under a uri, as a call reads it. -/
def storedCounter (storage : Storage) (uri : String) : Int :=
  match storage uri with
  | some (.individual indv) => indv.getFirstInteger "v-s:updateCounter" 0
  | _ => 0

theorem nextCounter_ne (n : Int) : nextCounter n ≠ n := by
  rw [nextCounter, Int.bmod_def]
  split <;> omega

theorem nextCounter_range (n : Int) : -(2 ^ 63) ≤ nextCounter n ∧ nextCounter n < 2 ^ 63 := by
  rw [nextCounter, Int.bmod_def]
  split <;> omega

/-- A counter other than the greatest one grows by one. -/
theorem nextCounter_eq {n : Int} (hlow : -(2 ^ 63) ≤ n) (hhigh : n < 2 ^ 63) :
    nextCounter n = n + 1 ↔ n ≠ 2 ^ 63 - 1 := by
  rw [nextCounter, Int.bmod_def]
  split <;> omega

theorem firstCounter_of_getResources {indv : Individual}
    (h : indv.getResources "v-s:updateCounter" = [.integer n]) :
    firstCounter (.individual indv) = some n := by
  rw [firstCounter, h]

theorem getFirstInteger_of_firstCounter {indv : Individual}
    (h : firstCounter (.individual indv) = some n) :
    indv.getFirstInteger "v-s:updateCounter" 0 = n := by
  rw [firstCounter] at h
  rw [Individual.getFirstInteger]
  generalize indv.getResources "v-s:updateCounter" = resources at h ⊢
  split at h
  next => exact Option.some.inj h
  next => cases h

theorem storedCounter_eq {storage : Storage} (h : storage uri = some (.individual indv)) :
    storedCounter storage uri = indv.getFirstInteger "v-s:updateCounter" 0 := by
  rw [storedCounter, h]

theorem lastRecord_cons (ti : TransactionItem) (opId : Nat) (flow : List (TransactionItem × Nat))
    (uri : String) :
    lastRecord ((ti, opId) :: flow) uri = if ti.uri = uri then some ti else lastRecord flow uri := by
  rw [lastRecord, List.find?_cons]
  by_cases h : ti.uri = uri
  · simp [h]
  · simp [h, lastRecord]

/-! ## Calls that succeed -/

section
variable {env : Env} {r : Request} {m : Manager} {userUri : String} {rdfType : MapResource}

/-- What a command other than `REMOVE` pushes. -/
structure Pushes (r : Request) (m : Manager) (ti : TransactionItem) : Prop where
  cmd : ti.cmd = .put
  uri : ti.uri = storedUri r m.storage
  newBinobj : ∃ indv, ti.newBinobj = some (.individual indv) ∧ indv.uri = ti.uri ∧
    indv.getResources "v-s:updateCounter" = [.integer ti.updateCounter]
  updateCounter : ti.updateCounter =
    nextCounter (storedCounter m.storage (storedUri r m.storage))

/-- The previous state under the uri that is stored. -/
theorem storedCounter_storedUri (hkeyed : Keyed m.storage)
    (hprev : readPrev m.storage r.indv.uri = some prev) :
    storedCounter m.storage (storedUri r m.storage) =
      (prev.getD .init).getFirstInteger "v-s:updateCounter" 0 := by
  cases prev with
  | none =>
    have hnone := readPrev_eq_some_none hprev
    have hcounter : storedCounter m.storage (storedUri r m.storage) = 0 := by
      rw [storedUri]
      split
      · rw [storedCounter, hnone]
      · rw [storedCounter, hkeyed.empty]
    rw [hcounter]
    rfl
  | some p =>
    have hsome := readPrev_eq_some_some hprev
    rw [storedUri, if_pos (.inr (by rw [hsome]; rfl)), storedCounter_eq hsome]
    rfl

theorem newIndividual_storedUri (hkeyed : Keyed m.storage)
    (hprev : readPrev m.storage r.indv.uri = some prev) :
    (newIndividual r.cmd (prev.getD .init) r.indv).uri = storedUri r m.storage := by
  rw [newIndividual_uri, storedUri]
  cases prev with
  | none =>
    rw [readPrev_eq_some_none hprev]
    by_cases hput : r.cmd = .put <;> simp [hput, Individual.init]
  | some p =>
    have hsome := readPrev_eq_some_some hprev
    rw [hsome, Option.getD_some, hkeyed.uri _ _ hsome]
    simp

theorem putIndividual_ok (hreplies : m.replies = []) (hkeyed : Keyed m.storage)
    (hprev : readPrev m.storage r.indv.uri = some prev)
    (hok : (putIndividual env r userUri rdfType prev m).result = .ok) :
    ∃ ti, CarriedOut m ti (putIndividual env r userUri rdfType prev m).manager ∧
      Pushes r m ti := by
  unfold putIndividual at hok ⊢
  dsimp only at hok ⊢
  split at hok
  · cases hok
  next hfits =>
    rw [if_neg hfits]
    refine ⟨_, Manager.save_ok hreplies hok, rfl, newIndividual_storedUri hkeyed hprev,
      ⟨_, rfl, rfl, ?_⟩, ?_⟩
    · exact Individual.getResources_setResources_self
    · exact congrArg nextCounter (storedCounter_storedUri hkeyed hprev).symm

/-- What `REMOVE` pushes for an individual that is not there. -/
theorem removeIndividual_none (hreplies : m.replies = [])
    (hok : (removeIndividual env r userUri rdfType none m).result = .ok) :
    ∃ ti, CarriedOut m ti (removeIndividual env r userUri rdfType none m).manager ∧
      ti.cmd = .remove ∧ ti.newBinobj = none ∧ ti.uri = r.indv.uri :=
  ⟨_, Manager.save_ok hreplies hok, rfl, rfl, rfl⟩

/-- The state before a removal is pushed with a counter that is not its own. -/
theorem removeIndividual_some {p : Individual} (hreplies : m.replies = [])
    (hok : (removeIndividual env r userUri rdfType (some p) m).result = .ok) :
    ¬ Faithful (removeIndividual env r userUri rdfType (some p) m).manager.flow := by
  unfold removeIndividual at hok ⊢
  dsimp only at hok ⊢
  split at hok
  · cases hok
  next hfits =>
    rw [if_neg hfits]
    split at hok
    next hput =>
      rw [if_pos hput]
      obtain ⟨⟨opId, hflow⟩, hreplies', -, -⟩ := Manager.save_ok hreplies hput
      obtain ⟨⟨opId', hflow'⟩, -, -, -⟩ := Manager.save_ok hreplies' hok
      dsimp only [finishCall]
      rw [hflow', hflow]
      rintro ⟨⟨-, hput⟩, -⟩
      have hfirst := (hput _ rfl).1
      have hdeleted : firstCounter (.individual (deletedIndividual p)) =
          firstCounter (.individual p) := by
        rw [firstCounter, firstCounter, deletedIndividual,
          Individual.getResources_setResources_ne (by decide)]
      have hcounter := getFirstInteger_of_firstCounter (hdeleted.symm.trans hfirst)
      exact nextCounter_ne _ hcounter.symm
    next hput =>
      exact absurd hok hput

end

/-! ## The invariant -/

/-- What is known of the last record of a uri: its state is stored and has its counter, or the
state that it was made of is. -/
def Agrees (storage : Storage) (uri : String) (ti : TransactionItem) : Prop :=
  if ti.newBinobj.isSome = true then
    (if assignedTo ti.assignedSubsystems subsystemStorage = true then
      storedCounter storage uri = ti.updateCounter
    else nextCounter (storedCounter storage uri) = ti.updateCounter) ∧
      -(2 ^ 63) ≤ ti.updateCounter ∧ ti.updateCounter < 2 ^ 63
  else storedCounter storage uri = 0

/-- The records are faithful, and the next ones go on from what is stored. -/
structure Kept (m : Manager) : Prop where
  replies : m.replies = []
  keyed : Keyed m.storage
  faithful : Faithful m.flow
  last : ∀ uri ti, lastRecord m.flow uri = some ti → Agrees m.storage uri ti

theorem Fresh.kept {m : Manager} (h : Fresh m) : Kept m where
  replies := h.replies
  keyed := h.keyed
  faithful := by
    rw [h.flow]
    trivial
  last uri ti hlast := by
    rw [h.flow] at hlast
    cases hlast

section
variable {r : Request} {m m' : Manager} {ti : TransactionItem}

theorem storedCounter_stored_ne (assigned : BitVec 64) (storage : Storage) (obj : Option BinObj)
    (h : uri ≠ key) :
    storedCounter (stored assigned storage key obj) uri = storedCounter storage uri := by
  have hstored : stored assigned storage key obj uri = storage uri := by
    rw [stored]
    split
    · exact Function.update_of_ne h _ _
    · rfl
  rw [storedCounter, storedCounter, hstored]

theorem Keyed.stored {storage : Storage} (h : Keyed storage) (assigned : BitVec 64)
    (hobj : ∀ indv, obj = some (.individual indv) → indv.uri = key)
    (hkey : assignedTo assigned subsystemStorage = true → key ≠ "") :
    Keyed (Mstorage.stored assigned storage key obj) := by
  rw [Mstorage.stored]
  split
  next hass =>
    constructor
    · intro uri indv hindv
      by_cases huri : uri = key
      · subst huri
        rw [Function.update_self] at hindv
        exact hobj indv hindv
      · rw [Function.update_of_ne huri] at hindv
        exact h.uri uri indv hindv
    · rw [Function.update_of_ne fun huri => hkey hass huri.symm]
      exact h.empty
  next => exact h

/-- A record that is faithful and agrees with the storage is added. -/
theorem Kept.carriedOut (h : Kept m) (hcarried : CarriedOut m ti m')
    (hobj : ∀ indv, ti.newBinobj = some (.individual indv) → indv.uri = ti.uri)
    (hcmd : ti.cmd = .remove → ti.newBinobj = none)
    (hfaithful : ∀ obj, ti.newBinobj = some obj → firstCounter obj = some ti.updateCounter ∧
      ∀ counter, counterBefore m.flow ti.uri = some counter → ti.updateCounter = counter + 1)
    (hagrees : Agrees m'.storage ti.uri ti) : Kept m' := by
  obtain ⟨⟨opId, hflow⟩, hreplies, hstorage, huri⟩ := hcarried
  have hnew : (if ti.cmd = .remove then none else ti.newBinobj) = ti.newBinobj := by
    split
    next hremove => exact (hcmd hremove).symm
    next => rfl
  rw [hnew] at hstorage
  refine ⟨hreplies, ?_, ?_, fun uri ti' hlast => ?_⟩
  · rw [hstorage]
    exact h.keyed.stored _ hobj huri
  · rw [hflow]
    exact ⟨h.faithful, hfaithful⟩
  · rw [hflow, lastRecord_cons] at hlast
    split at hlast
    next heq =>
      cases hlast
      exact heq ▸ hagrees
    next hne =>
      have hagrees' := h.last uri ti' hlast
      rw [Agrees] at hagrees' ⊢
      rwa [hstorage, storedCounter_stored_ne _ _ _ fun heq => hne heq.symm]

/-- The counter that a faithful record has to go on from. -/
theorem Kept.continues_iff (h : Kept m) (hpushes : Pushes r m ti) :
    (∀ counter, counterBefore m.flow ti.uri = some counter → ti.updateCounter = counter + 1) ↔
      ∀ last, lastRecord m.flow (storedUri r m.storage) = some last →
        last.newBinobj.isSome = true →
        assignedTo last.assignedSubsystems subsystemStorage = true ∧
          last.updateCounter ≠ 2 ^ 63 - 1 := by
  rw [hpushes.uri, hpushes.updateCounter, counterBefore]
  cases hlast : lastRecord m.flow (storedUri r m.storage) with
  | none => simp
  | some last =>
    have hagrees := h.last _ _ hlast
    rw [Agrees] at hagrees
    simp only [Option.map_some, Option.some.injEq, forall_eq']
    split at hagrees
    next hsome =>
      obtain ⟨hagrees, hlow, hhigh⟩ := hagrees
      rw [if_pos hsome]
      simp only [hsome, forall_const]
      split at hagrees
      next hass =>
        rw [hagrees, nextCounter_eq hlow hhigh]
        simp [hass]
      next hass =>
        rw [hagrees]
        simp only [hass, Bool.false_eq_true, false_and, iff_false]
        omega
    next hnone =>
      rw [if_neg hnone, hagrees]
      simp only [hnone, Bool.false_eq_true, false_implies, iff_true]
      rfl

end

/-! ## Runs -/

/-- A call that succeeds runs one of the two branches. -/
theorem Successful.cases {c : AddCall} {m : Manager} (hok : Successful c m) :
    ∃ userUri rdfType prev, readPrev m.storage c.2.indv.uri = some prev ∧
      (c.2.cmd = .remove ∧ addToTransaction c.1 c.2 m =
          removeIndividual c.1 c.2 userUri rdfType prev m ∨
        c.2.cmd ≠ .remove ∧ addToTransaction c.1 c.2 m =
          putIndividual c.1 c.2 userUri rdfType prev m) := by
  obtain ⟨env, r⟩ := c
  dsimp only [Successful] at hok ⊢
  cases hticket : r.ticket with
  | none =>
    rw [addToTransaction, hticket] at hok
    cases hok
  | some userUri =>
    obtain hrefused | ⟨-, prev, hprev, hbranch⟩ := addToTransaction_cases env r m hticket
    · exact absurd hok hrefused.1
    · obtain ⟨hcmd, heq⟩ | ⟨hcmd, -, -, rdfType, -, heq⟩ := hbranch
      · exact ⟨userUri, _, prev, hprev, .inl ⟨hcmd, heq⟩⟩
      · exact ⟨userUri, rdfType, prev, hprev, .inr ⟨hcmd, heq⟩⟩

/-- What is pushed agrees with the storage after it. -/
theorem Pushes.agrees {r : Request} {m m' : Manager} {ti : TransactionItem} (h : Pushes r m ti)
    (hcarried : CarriedOut m ti m') : Agrees m'.storage ti.uri ti := by
  obtain ⟨indv, hobj, -, hcounter⟩ := h.newBinobj
  have hrange := nextCounter_range (storedCounter m.storage (storedUri r m.storage))
  rw [← h.updateCounter] at hrange
  have hstorage := hcarried.storage
  rw [h.cmd, if_neg (by decide), hobj] at hstorage
  rw [Agrees, hobj, Option.isSome_some, if_pos rfl, hstorage, stored]
  refine ⟨?_, hrange⟩
  split
  next hass =>
    rw [storedCounter_eq (Function.update_self _ _ _)]
    exact getFirstInteger_of_firstCounter (firstCounter_of_getResources hcounter)
  next => rw [h.uri, h.updateCounter]

/-- A call that goes on from the last record is faithful. -/
theorem Kept.call {c : AddCall} {m : Manager} (h : Kept m) (hok : Successful c m)
    (hcontinues : Continues c m) : Kept (Mstorage.call c m) := by
  obtain ⟨userUri, rdfType, prev, hprev, ⟨hcmd, heq⟩ | ⟨hcmd, heq⟩⟩ := hok.cases
  · rw [Continues, if_pos hcmd] at hcontinues
    rw [readPrev_none hcontinues] at hprev
    cases hprev
    rw [Successful, heq] at hok
    obtain ⟨ti, hcarried, hremove, hobj, huri⟩ := removeIndividual_none h.replies hok
    rw [Mstorage.call, heq]
    refine h.carriedOut hcarried (by simp [hobj]) (fun _ => hobj) (by simp [hobj]) ?_
    rw [Agrees, hobj, if_neg (by simp), hcarried.storage, stored, if_pos hremove, huri]
    split
    · rw [storedCounter, Function.update_self]
    · rw [storedCounter, hcontinues]
  · rw [Continues, if_neg hcmd] at hcontinues
    rw [Successful, heq] at hok
    obtain ⟨ti, hcarried, hpushes⟩ := putIndividual_ok h.replies h.keyed hprev hok
    obtain ⟨indv, hobj, huri, hcounter⟩ := hpushes.newBinobj
    rw [Mstorage.call, heq]
    refine h.carriedOut hcarried ?_ ?_ ?_ (hpushes.agrees hcarried)
    · intro indv' hindv'
      rw [hobj] at hindv'
      cases hindv'
      exact huri
    · intro hremove
      rw [hpushes.cmd] at hremove
      cases hremove
    · intro obj hobj'
      rw [hobj] at hobj'
      cases hobj'
      exact ⟨firstCounter_of_getResources hcounter, (h.continues_iff hpushes).2 hcontinues⟩

/-- A faithful call goes on from the last record. -/
theorem Kept.continues {c : AddCall} {m : Manager} (h : Kept m) (hok : Successful c m)
    (hfaithful : Faithful (Mstorage.call c m).flow) : Continues c m := by
  obtain ⟨userUri, rdfType, prev, hprev, ⟨hcmd, heq⟩ | ⟨hcmd, heq⟩⟩ := hok.cases
  · rw [Successful, heq] at hok
    rw [Mstorage.call, heq] at hfaithful
    rw [Continues, if_pos hcmd]
    cases prev with
    | none => exact readPrev_eq_some_none hprev
    | some p => exact absurd hfaithful (removeIndividual_some h.replies hok)
  · rw [Successful, heq] at hok
    rw [Mstorage.call, heq] at hfaithful
    rw [Continues, if_neg hcmd]
    obtain ⟨ti, hcarried, hpushes⟩ := putIndividual_ok h.replies h.keyed hprev hok
    obtain ⟨indv, hobj, -, -⟩ := hpushes.newBinobj
    obtain ⟨opId, hflow⟩ := hcarried.flow
    rw [hflow] at hfaithful
    exact (h.continues_iff hpushes).1 (hfaithful.2 _ hobj).2

/-- **The counters are faithful** in exactly the runs in which nothing that is stored is removed,
and every other call finds the state of the last record of its uri. -/
theorem faithful_iff_continues {m : Manager} (hm : Fresh m) (calls : List AddCall)
    (hok : Along call Successful m calls) :
    Throughout call (fun m => Faithful m.flow) m calls ↔ Along call Continues m calls :=
  Along.throughout_iff (I := Kept) hok hm.kept (fun _ h => h.faithful)
    (fun _ _ h hok hcontinues => h.call hok hcontinues)
    (fun _ _ h hok hfaithful => h.continues hok hfaithful)

/-- A call by the user `d:user`, from a module that stores. -/
def ownCall (cmd : IndvOp) : AddCall :=
  (healthyEnv (fun _ _ request => request) "cfg:VedaSystem",
    ⟨some "d:user", cmd, individualOf "d:a" "v-s:Document", 0, "", .none, true⟩)

theorem faithful_iff_continues_two_changes :
    Throughout call (fun m => Faithful m.flow) (idleManager fun _ => none)
        [ownCall .put, ownCall .addIn] ↔
      Along call Continues (idleManager fun _ => none) [ownCall .put, ownCall .addIn] :=
  faithful_iff_continues ⟨rfl, rfl, fun _ _ h => absurd h (by simp), rfl⟩ _ ⟨rfl, rfl, trivial⟩

theorem Faithful.firstCounter {flow : List (TransactionItem × Nat)} (h : Faithful flow)
    {record : TransactionItem × Nat} (hrecord : record ∈ flow)
    (hobj : record.1.newBinobj = some obj) :
    firstCounter obj = some record.1.updateCounter := by
  induction flow with
  | nil => cases hrecord
  | cons last flow ih =>
    obtain rfl | hrecord := List.mem_cons.1 hrecord
    · exact (h.2 obj hobj).1
    · exact ih h.1 hrecord

/-- Before an individual is removed its state is pushed with a counter that is not in it. -/
theorem not_faithful_remove :
    ¬ Throughout call (fun m => Faithful m.flow) (idleManager fun _ => none)
      [ownCall .put, ownCall .remove] := by
  intro h
  have hrecord : ∃ record ∈ (run call (idleManager fun _ => none)
      [ownCall .put, ownCall .remove]).flow, ∃ obj, record.1.newBinobj = some obj ∧
        Mstorage.firstCounter obj = some 1 ∧ record.1.updateCounter = 2 :=
    ⟨_, List.mem_cons_of_mem _ List.mem_cons_self, _, rfl, rfl, rfl⟩
  obtain ⟨record, hmem, obj, hobj, hfirst, hcounter⟩ := hrecord
  have hfaithful := h.run.firstCounter hmem hobj
  rw [hfirst, hcounter] at hfaithful
  exact absurd hfaithful (by decide)

end Veda.Mstorage
