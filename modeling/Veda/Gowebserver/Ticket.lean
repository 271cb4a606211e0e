import Mathlib.Logic.Function.Basic
import Mathlib.Data.Nat.Notation
import Mathlib.Data.Int.Notation
import Veda.Lib.Run

/-! # The tickets of the web server

`getTicket` of `veda-gowebserver/ticket.go` with the cache that it keeps between calls. The storage
is a parameter; a call carries the time at which it happens and says which of the two requests to
the storage fail. A panic ends the process, and the next one begins with an empty cache. -/

namespace Veda.Gowebserver

open Veda.Run

/-- `ResultCode`, as far as it is used here. `unset` is the zero value. -/
inductive ResultCode where
  | unset | ok | notFound | ticketNotFound | ticketExpired | notAuthorized | internalServerError
deriving DecidableEq, Repr

/-- What stands under `data` in a resource: a string or something else. -/
inductive Data where
  | text (s : String)
  | other
deriving DecidableEq, Repr

/-- `Individual`: the resources of a predicate, if it is there. -/
abbrev Individual := String → Option (List Data)

/-- `getFirstString`. It panics for a predicate with no resource. -/
def getFirstString (indv : Individual) (predicate : String) : Option (Option String) :=
  match indv predicate with
  | none => some none
  | some [] => none
  | some (.text s :: _) => some (some s)
  | some (.other :: _) => some none

/-! ## The storage -/

/-- What is stored. `tarantool` says which of the two storages `conn` talks to; an individual is
what `GetIndv` makes of the stored record. -/
structure Conn where
  tarantool : Bool
  tickets : String → Option Individual
  individuals : String → Option Individual

/-- A call of `getTicket`. -/
structure Call where
  key : String
  now : ℤ
  ticketFails : Bool
  userFails : Bool
deriving DecidableEq, Repr

structure RequestResponse where
  commonRC : ResultCode
  opRC : List ResultCode
  indv : Individual

/-- `conn.GetTicket`. LMDB's answer to an unknown ticket leaves the common code unset. -/
def Conn.getTicket (conn : Conn) (call : Call) : RequestResponse :=
  if call.ticketFails then ⟨.internalServerError, [], fun _ => none⟩
  else match conn.tickets call.key with
    | some indv => ⟨.ok, [.ok], indv⟩
    | none =>
      if conn.tarantool then ⟨.ticketNotFound, [], fun _ => none⟩
      else ⟨.unset, [.notFound], fun _ => none⟩

/-- `conn.Get` of one individual and `GetIndv(0)`: without a record the individual is `nil`. -/
def Conn.get (conn : Conn) (call : Call) (uri : String) : Individual :=
  if call.userFails then fun _ => none else (conn.individuals uri).getD fun _ => none

/-! ## Tickets -/

structure Ticket where
  id : String := ""
  userURI : String := ""
  userLogin : String := ""
  result : ResultCode := .unset
  startTime : ℤ := 0
  endTime : ℤ := 0
deriving DecidableEq, Repr

/-- The ticket of a guest. -/
def guestTicket : Ticket :=
  { id := "guest", userLogin := "guest", userURI := "cfg:Guest", result := .ok }

/-- The keys that stand for a guest. -/
def IsGuest (key : String) : Prop := key = "" ∨ key = "systicket"

instance : Decidable (IsGuest key) := inferInstanceAs (Decidable (_ ∨ _))

/-- A number of 64 bits. -/
def int64 (n : ℤ) : ℤ := Int.bmod n 18446744073709551616

/-- The loop of `strconv.ParseUint`: 0 at the first character that is no digit, the largest number
as soon as the digits are out of range. -/
def parseUint (n : ℕ) : List Char → ℕ
  | [] => n
  | c :: cs =>
    if !c.isDigit then 0
    else if 10 * n + (c.toNat - 48) > 18446744073709551615 then 18446744073709551615
    else parseUint (10 * n + (c.toNat - 48)) cs

/-- `strconv.ParseInt(s, 10, 64)` with the error left out. -/
def parseInt (s : String) : ℤ :=
  match s.toList with
  | '-' :: digits => max (-(parseUint 0 digits : ℤ)) (-9223372036854775808)
  | '+' :: digits => min (parseUint 0 digits : ℤ) 9223372036854775807
  | digits => min (parseUint 0 digits : ℤ) 9223372036854775807

def mask : String := "2006-01-02T15:04:05.00000000"

variable (parse : String → String → ℤ)

/-- The start time: `time.Parse` of `ticket:when`, in seconds, for a layout that is as long as the
text. The slice of the layout panics for a longer text. -/
def startTime (indv : Individual) : Option ℤ := do
  let tt := (← getFirstString indv "ticket:when").getD ""
  if tt.utf8ByteSize ≤ mask.utf8ByteSize then
    some (parse (String.ofList (mask.toList.take tt.utf8ByteSize)) tt)
  else none

def duration (indv : Individual) : Option ℤ := do
  let dd := (← getFirstString indv "ticket:duration").getD ""
  some (parseInt dd)

/-- The ticket that a stored individual gives. -/
def ofIndividual (key : String) (indv : Individual) : Option Ticket := do
  let userURI := (← getFirstString indv "ticket:accessor").getD ""
  let userLogin := (← getFirstString indv "ticket:login").getD ""
  let start ← startTime parse indv
  let duration ← duration indv
  some { id := key, userURI, userLogin, startTime := start, endTime := int64 (start + duration) }

/-- The check of the user: a ticket of a user who is not external gets another id and another
result. -/
def checkExternal (conn : Conn) (call : Call) (ticket : Ticket) : Option Ticket := do
  let origin ← getFirstString (conn.get call ticket.userURI) "v-s:origin"
  if origin = some "ExternalUser" then some ticket
  else some { ticket with id := "?", result := .notAuthorized }

/-- `ticketCache`. -/
abbrev Cache := String → Option Ticket

def noTickets : Cache := fun _ => none

variable (conn : Conn) (areExternalUsers : Bool)

/-- The ticket that goes into the cache. -/
def loadTicket (call : Call) (indv : Individual) : Option Ticket := do
  let ticket ← ofIndividual parse call.key indv
  if areExternalUsers then checkExternal conn call ticket else some ticket

/-- `getTicket`: the answer and the cache after it, or a panic. -/
def getTicket (call : Call) (ticketCache : Cache) : Option ((ResultCode × Ticket) × Cache) :=
  if IsGuest call.key then some ((.ok, guestTicket), ticketCache)
  else
    let tk := (ticketCache call.key).getD {}
    if tk.id ≠ "" then
      if call.now > tk.endTime then
        some ((.ticketExpired, tk), Function.update ticketCache call.key none)
      else some ((.ok, tk), ticketCache)
    else
      let rr := conn.getTicket call
      if rr.commonRC ≠ .ok then some ((rr.commonRC, {}), ticketCache)
      else do
        let rc ← rr.opRC.head?
        if rc ≠ .ok then some ((rc, {}), ticketCache)
        else
          let ticket ← loadTicket parse conn areExternalUsers call rr.indv
          some ((.ok, ticket), Function.update ticketCache call.key (some ticket))

/-- `isTicketValid`: what is written and the status. -/
def isTicketValid (call : Call) (ticketCache : Cache) :
    Option ((String ⊕ ResultCode) × ResultCode) :=
  (getTicket parse conn areExternalUsers call ticketCache).map fun ((rc, _), _) =>
    if rc ≠ .ok ∧ rc ≠ .ticketExpired then (.inr rc, rc)
    else if rc = .ticketExpired then (.inl "false", rc)
    else (.inl "true", .ok)

/-- The code that a call answers. -/
def answer (call : Call) (ticketCache : Cache) : Option ResultCode :=
  (getTicket parse conn areExternalUsers call ticketCache).map fun x => x.1.1

/-- The cache after a call. -/
def step (call : Call) (ticketCache : Cache) : Cache :=
  ((getTicket parse conn areExternalUsers call ticketCache).map fun x => x.2).getD noTickets

/-- The calls with their answers. -/
def answers (ticketCache : Cache) : List Call → List (Call × Option ResultCode)
  | [] => []
  | call :: calls =>
    (call, answer parse conn areExternalUsers call ticketCache) ::
      answers (step parse conn areExternalUsers call ticketCache) calls

/-! ## What an accepted ticket must be -/

/-- The storage knows the user as an external one. -/
def External (userURI : String) : Prop :=
  ∃ user values, conn.individuals userURI = some user ∧ user "v-s:origin" = some values ∧
    .text "ExternalUser" ∈ values

/-- A stored ticket is valid at a time: it has not ended, and where external users are on, its user
is one. -/
def Valid (indv : Individual) (now : ℤ) : Prop :=
  ∃ start length, startTime parse indv = some start ∧ duration indv = some length ∧
    now ≤ start + length ∧
    (areExternalUsers = true → ∃ accessor, getFirstString indv "ticket:accessor" = some accessor ∧
      External conn (accessor.getD ""))

/-- An answer accepts no ticket that is not valid. -/
def Sound (call : Call) (code : Option ResultCode) : Prop :=
  code = some .ok → IsGuest call.key ∨
    ∃ indv, conn.tickets call.key = some indv ∧ Valid parse conn areExternalUsers indv call.now

/-- No answer accepts a ticket that is not valid, and a key once answered as expired is never
accepted later. -/
def Safe (answers : List (Call × Option ResultCode)) : Prop :=
  (∀ x ∈ answers, Sound parse conn areExternalUsers x.1 x.2) ∧
    answers.Pairwise fun x y =>
      x.1.key = y.1.key → x.2 = some .ticketExpired → y.2 ≠ some .ok

/-- The sum of start time and duration is a number of 64 bits. -/
def EndFits (indv : Individual) : Prop :=
  ∀ start length, startTime parse indv = some start → duration indv = some length →
    int64 (start + length) = start + length

/-- A call does not load a ticket that is not valid: its key stands for a guest or is in the cache,
or the storage gives no ticket, or making the ticket panics, or the ticket is valid and its end
fits. -/
def LoadsValid (call : Call) (ticketCache : Cache) : Prop :=
  IsGuest call.key ∨ ticketCache call.key ≠ none ∨ call.ticketFails = true ∨
    ∀ indv ticket, conn.tickets call.key = some indv →
      loadTicket parse conn areExternalUsers call indv = some ticket →
      Valid parse conn areExternalUsers indv call.now ∧ EndFits parse indv

/-! ## What a call does -/

section

variable {parse conn areExternalUsers} {call : Call} {ticketCache : Cache}

theorem getTicket_guest (h : IsGuest call.key) :
    getTicket parse conn areExternalUsers call ticketCache =
      some ((.ok, guestTicket), ticketCache) := if_pos h

theorem getTicket_hit (hk : ¬IsGuest call.key) (h : ticketCache call.key = some t)
    (ht : t.id ≠ "") :
    getTicket parse conn areExternalUsers call ticketCache =
      if call.now > t.endTime then
        some ((.ticketExpired, t), Function.update ticketCache call.key none)
      else some ((.ok, t), ticketCache) := by
  simp only [getTicket, if_neg hk, h, Option.getD_some, if_pos ht]

/-- The storage refuses or gives the stored ticket. -/
theorem Conn.getTicket_cases :
    ((conn.getTicket call).commonRC ≠ .ok ∧ (conn.getTicket call).commonRC ≠ .ticketExpired ∧
      (call.ticketFails = true ∨ conn.tickets call.key = none)) ∨
    ∃ indv, call.ticketFails = false ∧ conn.tickets call.key = some indv ∧
      conn.getTicket call = ⟨.ok, [.ok], indv⟩ := by
  unfold Conn.getTicket
  split
  next hf => exact .inl ⟨nofun, nofun, .inl hf⟩
  next hf =>
    cases hs : conn.tickets call.key with
    | none => cases conn.tarantool <;> exact .inl ⟨nofun, nofun, .inr rfl⟩
    | some indv => exact .inr ⟨indv, Bool.eq_false_iff.mpr hf, rfl, rfl⟩

theorem getTicket_miss (hk : ¬IsGuest call.key) (h : ticketCache call.key = none) :
    (∃ rc, rc ≠ .ok ∧ rc ≠ .ticketExpired ∧
      getTicket parse conn areExternalUsers call ticketCache = some ((rc, {}), ticketCache) ∧
      (call.ticketFails = true ∨ conn.tickets call.key = none)) ∨
    ∃ indv, call.ticketFails = false ∧ conn.tickets call.key = some indv ∧
      getTicket parse conn areExternalUsers call ticketCache =
        (loadTicket parse conn areExternalUsers call indv).map fun ticket =>
          ((.ok, ticket), Function.update ticketCache call.key (some ticket)) := by
  have hid : ¬((ticketCache call.key).getD {}).id ≠ "" := by simp [h]
  unfold getTicket
  rw [if_neg hk, if_neg hid]
  obtain ⟨hok, hexp, hs⟩ | ⟨indv, hf, hs, hr⟩ := @Conn.getTicket_cases conn call
  · exact .inl ⟨_, hok, hexp, if_pos hok, hs⟩
  · refine .inr ⟨indv, hf, hs, ?_⟩
    cases hl : loadTicket parse conn areExternalUsers call indv <;> simp [hr, hl]

theorem checkExternal_spec (h : checkExternal conn call ticket = some ticket') :
    (ticket'.id = ticket.id ∨ ticket'.id = "?") ∧ ticket'.endTime = ticket.endTime := by
  unfold checkExternal at h
  obtain ⟨origin, -, h⟩ := Option.bind_eq_some_iff.mp h
  split at h
  all_goals
    cases h
    simp

theorem loadTicket_spec (h : loadTicket parse conn areExternalUsers call indv = some ticket)
    (hk : ¬IsGuest call.key) :
    ticket.id ≠ "" ∧ ∃ start length, startTime parse indv = some start ∧
      duration indv = some length ∧ ticket.endTime = int64 (start + length) := by
  obtain ⟨t, ht, h⟩ := Option.bind_eq_some_iff.mp h
  have hload : (ticket.id = t.id ∨ ticket.id = "?") ∧ ticket.endTime = t.endTime := by
    split at h
    · exact checkExternal_spec h
    · cases h
      exact ⟨.inl rfl, rfl⟩
  obtain ⟨accessor, -, ht⟩ := Option.bind_eq_some_iff.mp ht
  obtain ⟨login, -, ht⟩ := Option.bind_eq_some_iff.mp ht
  obtain ⟨start, hstart, ht⟩ := Option.bind_eq_some_iff.mp ht
  obtain ⟨length, hlength, ht⟩ := Option.bind_eq_some_iff.mp ht
  cases ht
  refine ⟨?_, start, length, hstart, hlength, hload.2⟩
  obtain hid | hid := hload.1
  · rw [hid]
    exact fun hnil => hk (.inl hnil)
  · rw [hid]
    decide

/-! ## Runs -/

/-- An entry of the cache comes from a stored ticket whose user was checked, and ends when it
does. -/
def Entry.Good (parse : String → String → ℤ) (conn : Conn) (areExternalUsers : Bool) (key : String)
    (t : Ticket) : Prop :=
  t.id ≠ "" ∧ ∃ indv, conn.tickets key = some indv ∧
    ∀ now, now ≤ t.endTime ↔ Valid parse conn areExternalUsers indv now

/-- All entries are good. -/
def Good (parse : String → String → ℤ) (conn : Conn) (areExternalUsers : Bool)
    (ticketCache : Cache) : Prop :=
  ∀ key t, ticketCache key = some t → Entry.Good parse conn areExternalUsers key t

theorem Good.noTickets : Good parse conn areExternalUsers noTickets := nofun

theorem Good.remove (h : Good parse conn areExternalUsers ticketCache) (key : String) :
    Good parse conn areExternalUsers (Function.update ticketCache key none) := by
  intro key' t ht
  obtain rfl | hne := eq_or_ne key' key
  · simp at ht
  · exact h key' t (by rwa [Function.update_of_ne hne] at ht)

theorem Good.add (h : Good parse conn areExternalUsers ticketCache)
    (ht : Entry.Good parse conn areExternalUsers key t) :
    Good parse conn areExternalUsers (Function.update ticketCache key (some t)) := by
  intro key' t' ht'
  obtain rfl | hne := eq_or_ne key' key
  · simp only [Function.update_self, Option.some.injEq] at ht'
    exact ht' ▸ ht
  · exact h key' t' (by rwa [Function.update_of_ne hne] at ht')

/-- A valid ticket whose end fits makes a good entry. -/
theorem loadTicket_good (h : loadTicket parse conn areExternalUsers call indv = some ticket)
    (hk : ¬IsGuest call.key) (hs : conn.tickets call.key = some indv)
    (hv : Valid parse conn areExternalUsers indv call.now) (hf : EndFits parse indv) :
    Entry.Good parse conn areExternalUsers call.key ticket := by
  obtain ⟨hid, start, length, hstart, hlength, hend⟩ := loadTicket_spec h hk
  rw [hf start length hstart hlength] at hend
  refine ⟨hid, indv, hs, fun now => ⟨fun hnow => ?_, fun hnow => ?_⟩⟩
  · obtain ⟨_, _, _, _, _, hext⟩ := hv
    exact ⟨start, length, hstart, hlength, hend ▸ hnow, hext⟩
  · obtain ⟨start', length', hstart', hlength', hle, -⟩ := hnow
    cases hstart.symm.trans hstart'
    cases hlength.symm.trans hlength'
    exact hend ▸ hle

/-- What a call does in a cache of good entries when it loads nothing that is not valid. -/
theorem step_good (h : Good parse conn areExternalUsers ticketCache)
    (hload : LoadsValid parse conn areExternalUsers call ticketCache) :
    Good parse conn areExternalUsers (step parse conn areExternalUsers call ticketCache) ∧
      Sound parse conn areExternalUsers call
        (answer parse conn areExternalUsers call ticketCache) ∧
      (answer parse conn areExternalUsers call ticketCache = some .ticketExpired →
        ¬IsGuest call.key ∧ ∃ indv, conn.tickets call.key = some indv ∧
          ¬Valid parse conn areExternalUsers indv call.now) := by
  unfold step answer
  rcases em (IsGuest call.key) with hk | hk
  · rw [getTicket_guest hk]
    exact ⟨h, fun _ => .inl hk, nofun⟩
  cases hc : ticketCache call.key with
  | some t =>
    obtain ⟨hid, indv, hs, hend⟩ := h call.key t hc
    rw [getTicket_hit hk hc hid]
    split
    next hlt =>
      exact ⟨h.remove call.key, nofun, fun _ => ⟨hk, indv, hs, fun hv => by
        have := (hend call.now).mpr hv
        omega⟩⟩
    next hle =>
      exact ⟨h, fun _ => .inr ⟨indv, hs, (hend call.now).mp (Int.not_lt.mp hle)⟩, nofun⟩
  | none =>
    obtain ⟨rc, hok, hexp, hr, -⟩ | ⟨indv, hf, hs, hr⟩ :=
      @getTicket_miss parse conn areExternalUsers call ticketCache hk hc
    · rw [hr]
      exact ⟨h, fun hrc => absurd (Option.some.inj hrc) hok,
        fun hrc => absurd (Option.some.inj hrc) hexp⟩
    · rw [hr]
      cases hl : loadTicket parse conn areExternalUsers call indv with
      | none => exact ⟨Good.noTickets, nofun, nofun⟩
      | some ticket =>
        obtain hg | hne | hfails | hv := hload
        · exact absurd hg hk
        · exact absurd hc hne
        · exact absurd hfails (by simp [hf])
        · obtain ⟨hvalid, hfits⟩ := hv indv ticket hs hl
          exact ⟨h.add (loadTicket_good hl hk hs hvalid hfits), fun _ => .inr ⟨indv, hs, hvalid⟩,
            nofun⟩

theorem map_fst_answers (calls : List Call) (ticketCache : Cache) :
    (answers parse conn areExternalUsers ticketCache calls).map Prod.fst = calls := by
  induction calls generalizing ticketCache with
  | nil => rfl
  | cons call calls ih => exact congrArg (call :: ·) (ih _)

/-- In a run that loads nothing that is not valid, every answer is sound, and an answer that a
ticket is expired is right. -/
theorem answers_sound (hgood : Good parse conn areExternalUsers ticketCache)
    (hload : Along (step parse conn areExternalUsers) (LoadsValid parse conn areExternalUsers)
      ticketCache calls) :
    ∀ x ∈ answers parse conn areExternalUsers ticketCache calls,
      Sound parse conn areExternalUsers x.1 x.2 ∧
      (x.2 = some .ticketExpired → ¬IsGuest x.1.key ∧ ∃ indv, conn.tickets x.1.key = some indv ∧
        ¬Valid parse conn areExternalUsers indv x.1.now) := by
  induction calls generalizing ticketCache with
  | nil => exact nofun
  | cons call calls ih =>
    obtain ⟨hgood', hsound⟩ := step_good hgood hload.1
    exact List.forall_mem_cons.mpr ⟨hsound, ih hgood' hload.2⟩

theorem Valid.mono (h : Valid parse conn areExternalUsers indv now) (hle : now' ≤ now) :
    Valid parse conn areExternalUsers indv now' := by
  obtain ⟨start, length, hstart, hlength, hend, hext⟩ := h
  exact ⟨start, length, hstart, hlength, Int.le_trans hle hend, hext⟩

theorem safe_of_loadsValid (htime : calls.Pairwise fun c d => c.now ≤ d.now)
    (hload : Along (step parse conn areExternalUsers) (LoadsValid parse conn areExternalUsers)
      noTickets calls) :
    Safe parse conn areExternalUsers (answers parse conn areExternalUsers noTickets calls) := by
  have hsound := answers_sound Good.noTickets hload
  refine ⟨fun x hx => (hsound x hx).1, ?_⟩
  rw [← @map_fst_answers parse conn areExternalUsers calls noTickets, List.pairwise_map] at htime
  refine htime.imp_of_mem fun {x y} hx hy hle hkey hexp hok => ?_
  obtain ⟨hk, indv, hs, hnot⟩ := (hsound x hx).2 hexp
  obtain hguest | ⟨indv', hs', hvalid⟩ := (hsound y hy).1 hok
  · exact hk (hkey ▸ hguest)
  · cases (hkey ▸ hs).symm.trans hs'
    exact hnot (hvalid.mono hle)

/-- A call that accepts nothing that is not valid loads nothing that is not. -/
theorem loadsValid_of_sound (hfits : ∀ key indv, conn.tickets key = some indv → EndFits parse indv)
    (h : Sound parse conn areExternalUsers call
      (answer parse conn areExternalUsers call ticketCache)) :
    LoadsValid parse conn areExternalUsers call ticketCache := by
  rcases em (IsGuest call.key) with hk | hk
  · exact .inl hk
  cases hc : ticketCache call.key with
  | some t => exact .inr (.inl (hc ▸ nofun))
  | none =>
    refine .inr (.inr ?_)
    obtain ⟨-, -, -, -, hf | hn⟩ | ⟨indv, -, hs, hr⟩ :=
      @getTicket_miss parse conn areExternalUsers call ticketCache hk hc
    · exact .inl hf
    · exact .inr fun indv _ hs => absurd (hn.symm.trans hs) nofun
    · refine .inr fun indv' ticket hs' hl => ?_
      cases hs.symm.trans hs'
      obtain hguest | ⟨indv', hs', hvalid⟩ := h (by simp only [answer, hr, hl, Option.map_some])
      · exact absurd hguest hk
      · cases hs.symm.trans hs'
        exact ⟨hvalid, hfits call.key indv hs⟩

theorem loadsValid_of_answers
    (hfits : ∀ key indv, conn.tickets key = some indv → EndFits parse indv)
    (h : ∀ x ∈ answers parse conn areExternalUsers ticketCache calls,
      Sound parse conn areExternalUsers x.1 x.2) :
    Along (step parse conn areExternalUsers) (LoadsValid parse conn areExternalUsers)
      ticketCache calls := by
  induction calls generalizing ticketCache with
  | nil => trivial
  | cons call calls ih =>
    obtain ⟨hcall, hcalls⟩ := List.forall_mem_cons.mp h
    exact ⟨loadsValid_of_sound hfits hcall, ih hcalls⟩

/-- The client is told "true" exactly when the ticket is accepted. -/
theorem isTicketValid_iff :
    isTicketValid parse conn areExternalUsers call ticketCache = some (.inl "true", .ok) ↔
      answer parse conn areExternalUsers call ticketCache = some .ok := by
  unfold isTicketValid answer
  cases getTicket parse conn areExternalUsers call ticketCache with
  | none => simp
  | some x =>
    obtain ⟨⟨rc, t⟩, cache⟩ := x
    cases rc <;> simp

end

/-- Calls at times that do not go back never accept a ticket that is not valid, and never one that
was answered as expired, when they load none that is not valid. Where every end fits, this is
necessary too. -/
theorem getTicket_safe (calls : List Call) (htime : calls.Pairwise fun c d => c.now ≤ d.now) :
    (Along (step parse conn areExternalUsers) (LoadsValid parse conn areExternalUsers)
        noTickets calls →
      Safe parse conn areExternalUsers
        (answers parse conn areExternalUsers noTickets calls)) ∧
    ((∀ key indv, conn.tickets key = some indv → EndFits parse indv) →
      Safe parse conn areExternalUsers
        (answers parse conn areExternalUsers noTickets calls) →
      Along (step parse conn areExternalUsers) (LoadsValid parse conn areExternalUsers)
        noTickets calls) :=
  ⟨safe_of_loadsValid htime, fun hfits h => loadsValid_of_answers hfits h.1⟩

/-! ## A ticket of one hour -/

/-- `time.Parse` as far as the ticket needs it. -/
def newYear (_ value : String) : ℤ := if value = "2018-01-01T00:00:00" then 1514764800 else 0

def hourTicket : Individual := fun predicate =>
  if predicate = "ticket:accessor" then some [.text "d:user"]
  else if predicate = "ticket:login" then some [.text "user"]
  else if predicate = "ticket:when" then some [.text "2018-01-01T00:00:00"]
  else if predicate = "ticket:duration" then some [.text "3600"]
  else none

def hourConn : Conn where
  tarantool := true
  tickets key := if key = "ticket" then some hourTicket else none
  individuals _ := none

def hourCall (now : ℤ) : Call := ⟨"ticket", now, false, false⟩

theorem startTime_hourTicket : startTime newYear hourTicket = some 1514764800 := by decide

theorem duration_hourTicket : duration hourTicket = some 3600 := by decide

theorem valid_hourTicket (h : now ≤ 1514768400) : Valid newYear hourConn false hourTicket now :=
  ⟨1514764800, 3600, startTime_hourTicket, duration_hourTicket, h, nofun⟩

theorem endFits_hourTicket : EndFits newYear hourTicket := by
  intro start length hstart hlength
  cases startTime_hourTicket.symm.trans hstart
  cases duration_hourTicket.symm.trans hlength
  decide

/-- Two calls within the hour. -/
theorem getTicket_safe_hour :
    Safe newYear hourConn false
      (answers newYear hourConn false noTickets [hourCall 1514764800, hourCall 1514768000]) := by
  refine (getTicket_safe newYear hourConn false
    [hourCall 1514764800, hourCall 1514768000] (by decide)).1
    ⟨.inr (.inr (.inr fun indv _ hs _ => ?_)), .inr (.inl (by decide)), trivial⟩
  cases hs
  exact ⟨valid_hourTicket (by decide), endFits_hourTicket⟩

/-- After the hour the ticket is accepted, then expired, then accepted again. -/
theorem not_safe_hour :
    ¬Safe newYear hourConn false
      (answers newYear hourConn false noTickets
        [hourCall 1514768401, hourCall 1514768402, hourCall 1514768403]) := by
  intro h
  obtain hguest | ⟨indv, hs, start, length, hstart, hlength, hle, -⟩ :=
    h.1 (hourCall 1514768401, some .ok) (by decide) rfl
  · exact absurd hguest (by decide)
  · cases hs
    cases startTime_hourTicket.symm.trans hstart
    cases duration_hourTicket.symm.trans hlength
    exact absurd hle (by decide)

end Veda.Gowebserver
