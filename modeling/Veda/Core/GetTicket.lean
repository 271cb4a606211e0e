import Mathlib.Logic.Function.Basic
import Mathlib.Data.Nat.Notation
import Mathlib.Data.Int.Notation
import Veda.Lib.Run

/-! # The tickets of the core

`get_ticket` of `thread_context.d` with its cache, and `subject2Ticket` of `utils.d`. The storage of
the tickets and the reader of dates are parameters; a call carries the time at which it happens. -/

namespace Veda.Core.GetTicket

open Veda.Run

/-- `ResultCode`, as far as it is used here. -/
inductive ResultCode where
  | zero | ok | ticketNotFound | unprocessableEntity | ticketExpired | failStore
deriving DecidableEq, Repr

/-- The first literal of a predicate, null where there is none. -/
abbrev Individual := String → Option String

/-- What the storage answers to the key of a ticket. -/
inductive Stored where
  | ok (ticket : Individual)
  | notFound
  | invalid

/-- `Ticket`. -/
structure Ticket where
  id : Option String := none
  userUri : Option String := none
  userLogin : Option String := none
  result : ResultCode := .zero
  startTime : ℤ := 0
  endTime : ℤ := 0
deriving DecidableEq, Repr

/-- A number of 64 bits. -/
def long (n : ℤ) : ℤ := Int.bmod n 18446744073709551616

/-- `parse!uint`: the digits at the beginning, an exception without one or beyond 32 bits. -/
def parseUint (s : String) : Option ℕ :=
  let digits := s.toList.takeWhile Char.isDigit
  if digits = [] then none
  else if Nat.ofDigitChars 10 digits 0 ≤ 4294967295 then some (Nat.ofDigitChars 10 digits 0)
  else none

/-- The duration of a ticket: 0 after an exception. -/
def duration (ticket : Individual) : ℕ :=
  (parseUint ((ticket "ticket:duration").getD "")).getD 0

section
variable (fromISOExtString : String → Option ℤ)

/-- `stringToTime`. The zone at the end of a text of 28 characters is cut off. -/
def stringToTime (str : String) : ℤ :=
  let str := if str.utf8ByteSize = 28 then String.ofList (str.toList.take 23) else str
  (fromISOExtString str).getD 0

/-- The user of a stored ticket: none for a ticket without a date or with a short duration. -/
def userUri (ticket : Individual) : Option String :=
  let userUri := ticket "ticket:accessor"
  if userUri ≠ none ∧ (ticket "ticket:when" = none ∨ duration ticket < 10) then none else userUri

/-- `subject2Ticket` on a new ticket. -/
def subject2Ticket (uri : String) (ticket : Individual) : Ticket :=
  let tt : Ticket :=
    { id := some uri, userLogin := ticket "ticket:login", userUri := userUri ticket }
  match ticket "ticket:when" with
  | none => tt
  | some date =>
    let startTime := stringToTime fromISOExtString date
    { tt with startTime, endTime := long (startTime + duration ticket * 10000000) }

/-- A call of `get_ticket`. `opId` is the `op_id` that the ticket manager tells. -/
structure Call where
  ticketId : Option String
  isSysticket : Bool
  now : ℤ
  opId : ℤ
deriving DecidableEq, Repr

/-- `user_of_ticket` and `last_ticket_manager_op_id`. -/
structure State where
  userOfTicket : String → Option Ticket
  lastTicketManagerOpId : ℤ

/-- A context that has just been made. -/
def State.init : State := ⟨fun _ => none, 0⟩

/-- The id that a call asks for. -/
def ticketIdOf (ticketId : Option String) : String :=
  match ticketId with
  | none => "guest"
  | some id => if id = "" ∨ id = "systicket" then "guest" else id

/-- `create_new_ticket`, which stores nothing. -/
def createNewTicket : Ticket := { result := .failStore }

variable (storage : String → Stored)

/-- The branch for a ticket that is not in the cache. -/
def loadTicket (ticketId : String) (call : Call) (s : State) : Ticket × State :=
  let s := { s with lastTicketManagerOpId := max s.lastTicketManagerOpId call.opId }
  match storage ticketId with
  | .ok ticket =>
    let tt := { subject2Ticket fromISOExtString ticketId ticket with result := .ok }
    (tt, { s with userOfTicket := Function.update s.userOfTicket ticketId (some tt) })
  | .notFound => ({ result := .ticketNotFound }, s)
  | .invalid => ({ result := .unprocessableEntity }, s)

/-- The branch for a ticket in the cache. -/
def cachedTicket (ticketId : String) (tt : Ticket) (call : Call) (s : State) : Ticket × State :=
  if tt.endTime ≤ call.now ∧ call.isSysticket = false then
    if ticketId = "guest" then (createNewTicket, s)
    else ({ id := some "?", result := .ticketExpired }, s)
  else
    let tt := { tt with result := .ok }
    (tt, { s with userOfTicket := Function.update s.userOfTicket ticketId (some tt) })

/-- `get_ticket`: the ticket and the cache after it. -/
def getTicket (call : Call) (s : State) : Ticket × State :=
  let ticketId := ticketIdOf call.ticketId
  match s.userOfTicket ticketId with
  | none => loadTicket fromISOExtString storage ticketId call s
  | some tt => cachedTicket ticketId tt call s

def step (call : Call) (s : State) : State := (getTicket fromISOExtString storage call s).2

/-! ## What an accepted ticket must be -/

/-- The id of a ticket of a user. -/
def Ordinary (id : String) : Prop := id ≠ "" ∧ id ≠ "systicket" ∧ id ≠ "guest"

instance (id : String) : Decidable (Ordinary id) := inferInstanceAs (Decidable (_ ∧ _))

/-- A call that accepts a ticket comes before its end and gets its user. -/
def Sound (call : Call) (s : State) : Prop :=
  ∀ id, call.ticketId = some id → Ordinary id →
    (getTicket fromISOExtString storage call s).1.result = .ok →
      (∃ ticket, storage id = .ok ticket ∧
        call.now < (subject2Ticket fromISOExtString id ticket).endTime) ∧
      (getTicket fromISOExtString storage call s).1.userUri ≠ none

/-- A stored ticket has a user, a date and a duration of ten seconds. -/
def Complete (ticket : Individual) : Prop :=
  ticket "ticket:accessor" ≠ none ∧ ticket "ticket:when" ≠ none ∧ 10 ≤ duration ticket

instance (ticket : Individual) : Decidable (Complete ticket) :=
  inferInstanceAs (Decidable (_ ∧ _))

/-- A ticket that is not in the cache is stored complete and has not ended, or is not stored. -/
def LoadsValid (call : Call) (s : State) : Prop :=
  ∀ id ticket, call.ticketId = some id → Ordinary id → s.userOfTicket id = none →
    storage id = .ok ticket →
      Complete ticket ∧ call.now < (subject2Ticket fromISOExtString id ticket).endTime

end

section
variable {fromISOExtString : String → Option ℤ} {storage : String → Stored} {call : Call}
  {s : State} {id : String} {ticket : Individual}

theorem userUri_ne_none_iff : userUri ticket ≠ none ↔ Complete ticket := by
  unfold userUri Complete
  dsimp only
  split
  · rename_i h
    refine ⟨fun hne => absurd rfl hne, fun hcomplete => ?_⟩
    obtain hwhen | hduration := h.2
    · exact absurd hwhen hcomplete.2.1
    · omega
  · rename_i h
    refine ⟨fun huser => ⟨huser, fun hwhen => h ⟨huser, .inl hwhen⟩, ?_⟩, And.left⟩
    by_contra hduration
    exact h ⟨huser, .inr (by omega)⟩

@[simp] theorem subject2Ticket_userUri :
    (subject2Ticket fromISOExtString id ticket).userUri = userUri ticket := by
  unfold subject2Ticket
  split <;> rfl

theorem ticketIdOf_ordinary (h : Ordinary id) : ticketIdOf (some id) = id := by
  simp [ticketIdOf, h.1, h.2.1]

/-- Only a call with the id itself comes to the ticket of a user. -/
theorem ticketId_of_ordinary (hid : Ordinary id) {ticketId : Option String}
    (h : ticketIdOf ticketId = id) : ticketId = some id := by
  cases ticketId with
  | none => exact absurd h.symm hid.2.2
  | some id' =>
    simp only [ticketIdOf] at h
    split at h
    · exact absurd h.symm hid.2.2
    · rw [h]

theorem getTicket_miss (hid : Ordinary id) (hcall : call.ticketId = some id)
    (hmiss : s.userOfTicket id = none) :
    getTicket fromISOExtString storage call s = loadTicket fromISOExtString storage id call s := by
  simp only [getTicket, hcall, ticketIdOf_ordinary hid, hmiss]

theorem getTicket_hit (hid : Ordinary id) (hcall : call.ticketId = some id) {tt : Ticket}
    (hhit : s.userOfTicket id = some tt) :
    getTicket fromISOExtString storage call s = cachedTicket id tt call s := by
  simp only [getTicket, hcall, ticketIdOf_ordinary hid, hhit]

/-- A call leaves the other entries of the cache. -/
theorem step_userOfTicket_of_ne (h : ticketIdOf call.ticketId ≠ id) :
    (step fromISOExtString storage call s).userOfTicket id = s.userOfTicket id := by
  unfold step getTicket
  dsimp only
  split
  · unfold loadTicket
    dsimp only
    split
    · exact Function.update_of_ne h.symm ..
    · rfl
    · rfl
  · unfold cachedTicket
    split
    · split <;> rfl
    · exact Function.update_of_ne h.symm ..

/-! ## Runs -/

/-- A ticket in the cache is the stored one, which is complete. -/
def Good (fromISOExtString : String → Option ℤ) (storage : String → Stored) (s : State) : Prop :=
  ∀ id tt, Ordinary id → s.userOfTicket id = some tt →
    ∃ ticket, storage id = .ok ticket ∧ Complete ticket ∧ tt.userUri = userUri ticket ∧
      tt.endTime = (subject2Ticket fromISOExtString id ticket).endTime

theorem Good.init : Good fromISOExtString storage .init := by
  intro id tt hid htt
  cases htt

theorem Good.step (h : Good fromISOExtString storage s)
    (hload : LoadsValid fromISOExtString storage call s) :
    Good fromISOExtString storage (step fromISOExtString storage call s) := by
  intro id tt hid htt
  by_cases hne : ticketIdOf call.ticketId = id
  · have hcall := ticketId_of_ordinary hid hne
    unfold GetTicket.step at htt
    cases hcache : s.userOfTicket id with
    | none =>
      rw [getTicket_miss hid hcall hcache, loadTicket] at htt
      cases hstored : storage id with
      | ok ticket =>
        simp only [hstored, Function.update_self, Option.some.injEq] at htt
        cases htt
        exact ⟨ticket, rfl, (hload id ticket hcall hid hcache hstored).1,
          subject2Ticket_userUri, rfl⟩
      | notFound => simp [hstored, hcache] at htt
      | invalid => simp [hstored, hcache] at htt
    | some old =>
      have hold := h id old hid hcache
      rw [getTicket_hit hid hcall hcache, cachedTicket, if_neg hid.2.2] at htt
      split at htt
      · exact h id tt hid htt
      · simp only [Function.update_self, Option.some.injEq] at htt
        cases htt
        exact hold
  · rw [step_userOfTicket_of_ne hne] at htt
    exact h id tt hid htt

/-- A call on good entries is sound when it loads a valid ticket or none. -/
theorem Good.sound_iff (h : Good fromISOExtString storage s) (hsys : call.isSysticket = false) :
    Sound fromISOExtString storage call s ↔ LoadsValid fromISOExtString storage call s := by
  constructor
  · intro hsound id ticket hcall hid hcache hstored
    have hanswer : (getTicket fromISOExtString storage call s).1 =
        { subject2Ticket fromISOExtString id ticket with result := .ok } := by
      rw [getTicket_miss hid hcall hcache, loadTicket]
      simp only [hstored]
    obtain ⟨⟨stored, hstored', hend⟩, huser⟩ := hsound id hcall hid (by rw [hanswer])
    cases hstored.symm.trans hstored'
    rw [hanswer] at huser
    exact ⟨userUri_ne_none_iff.1 (by simpa using huser), hend⟩
  · intro hload id hcall hid hok
    cases hcache : s.userOfTicket id with
    | none =>
      rw [getTicket_miss hid hcall hcache, loadTicket] at hok ⊢
      cases hstored : storage id with
      | ok ticket =>
        obtain ⟨hcomplete, hend⟩ := hload id ticket hcall hid hcache hstored
        refine ⟨⟨ticket, rfl, hend⟩, ?_⟩
        simpa only [subject2Ticket_userUri] using userUri_ne_none_iff.2 hcomplete
      | notFound => simp [hstored] at hok
      | invalid => simp [hstored] at hok
    | some tt =>
      obtain ⟨ticket, hstored, hcomplete, huser, hend⟩ := h id tt hid hcache
      rw [getTicket_hit hid hcall hcache, cachedTicket, if_neg hid.2.2] at hok ⊢
      split at hok
      · cases hok
      · rename_i hnow
        have hnow : call.now < tt.endTime := by
          by_contra hlate
          exact hnow ⟨by omega, hsys⟩
        rw [if_neg (by omega)]
        exact ⟨⟨ticket, hstored, hend ▸ hnow⟩, huser ▸ userUri_ne_none_iff.2 hcomplete⟩

/-- **No call accepts an expired ticket** exactly if every ticket that is loaded is complete and has
not ended then. -/
theorem accepted_not_expired_iff (fromISOExtString : String → Option ℤ) (storage : String → Stored)
    (calls : List Call) (hsys : ∀ call ∈ calls, call.isSysticket = false) :
    Along (step fromISOExtString storage) (Sound fromISOExtString storage) .init calls ↔
      Along (step fromISOExtString storage) (LoadsValid fromISOExtString storage) .init calls := by
  have hgood : Good fromISOExtString storage .init := Good.init
  generalize State.init = s at hgood ⊢
  induction calls generalizing s with
  | nil => exact Iff.rfl
  | cons call calls ih =>
    rw [Along, Along, hgood.sound_iff (hsys call (by simp))]
    exact and_congr_right fun hload => ih (fun c hc => hsys c (by simp [hc])) _ (hgood.step hload)

end

/-- A ticket of the first day of 2020 for a bit more than eleven hours. -/
def someTicket : Individual := fun predicate =>
  if predicate = "ticket:login" then some "ann"
  else if predicate = "ticket:accessor" then some "d:ann"
  else if predicate = "ticket:when" then some "2020-01-01T00:00:00.0000000Z"
  else if predicate = "ticket:duration" then some "40000"
  else none

/-- The ticket is the only one. -/
def someStorage (id : String) : Stored := if id = "t1" then .ok someTicket else .notFound

/-- The reader of dates, as far as it is used for the ticket. -/
def someDate (date : String) : Option ℤ :=
  if date = "2020-01-01T00:00:00.000" then some 637134336000000000 else none

theorem accepted_not_expired_loaded :
    Along (step someDate someStorage) (Sound someDate someStorage) .init
      [⟨some "t1", false, 637134336000000001, 1⟩] :=
  (accepted_not_expired_iff someDate someStorage _ (by decide)).2 (by
    refine ⟨?_, trivial⟩
    intro id ticket hcall hid hcache hstored
    cases hcall
    cases hstored
    exact ⟨by decide +kernel, by decide +kernel⟩)

/-- A ticket that has ended is accepted when it is loaded. -/
theorem accepted_expired :
    ¬ Along (step someDate someStorage) (Sound someDate someStorage) .init
      [⟨some "t1", false, 700000000000000000, 1⟩] := by
  intro h
  obtain ⟨⟨ticket, hstored, hend⟩, -⟩ := h.1 "t1" rfl (by decide) (by decide +kernel)
  cases hstored
  exact absurd hend (by decide +kernel)

end Veda.Core.GetTicket
