import Mathlib.Data.Nat.Notation
import Mathlib.Logic.Function.Basic
import Veda.Lib.Run

/-! # Subscriptions to changes

The model of `subscribe_manager` in `veda-ccus/src/main.rs`: the counters that it keeps for each uri
and for each client, the messages of the clients, and the records that it takes from the queue. The
two kinds of steps come in any order. -/

namespace Veda.Ccus

open Veda.Run

/-! ## Messages -/

/-- What one part of a message asks for. -/
inductive Item where
  | handshake
  | subscribe (uri : String) (counter : ℕ)
  | new
  | changes
  | unsubscribeAll
  | unsubscribe (uri : String)
  | nothing
  deriving DecidableEq

/-- The digits of `parse` for a `u64`. -/
def parseDigits (n : ℕ) : List Char → Option ℕ
  | [] => some n
  | c :: cs =>
    if c.isDigit ∧ 10 * n + (c.toNat - 48) < 2 ^ 64 then parseDigits (10 * n + (c.toNat - 48)) cs
    else none

/-- `parse` for a `u64`. -/
def parseU64 : List Char → Option ℕ
  | [] => none
  | ['+'] => none
  | '+' :: digits => parseDigits 0 digits
  | digits => parseDigits 0 digits

/-- `get(1..)`. -/
def getFrom1 : List Char → Option (List Char)
  | [] => none
  | c :: cs => if c.utf8Size = 1 then some cs else none

/-- One part of a message. -/
def parseItem (item : List Char) : Item :=
  match item.splitOn '=' with
  | [name, value] =>
    if name = "ccus".toList then .handshake
    else
      match getFrom1 name with
      | some uri => .subscribe (String.ofList uri) ((parseU64 value).getD 0)
      | none => .nothing
  | [name] =>
    if name = ['N'] then .new
    else if name = ['?'] then .changes
    else
      match getFrom1 name with
      | some uri => if uri = ['*'] then .unsubscribeAll else .unsubscribe (String.ofList uri)
      | none => .nothing
  | _ => .nothing

/-- The parts of a message that are carried out: a handshake ends it. -/
def parseMessage (data : List Char) : List Item :=
  ((data.splitOn ',').map parseItem).takeWhile (· ≠ .handshake)

/-! ## The manager -/

/-- `ws_id_gen`, `idws2uris`, and `uri2counter` with the number of subscribers. -/
structure Manager where
  wsIdGen : ℕ
  idws2uris : ℕ → String → Option ℕ
  uri2counter : String → Option (ℕ × ℕ)

def Manager.init : Manager := ⟨0, fun _ _ => none, fun _ => none⟩

/-- `counters.1 = counters.1 - 1`, if it is there and not zero. -/
def dropSubscriber (counters : ℕ × ℕ) : ℕ × ℕ := (counters.1, counters.2 - 1)

/-- What is sent for a uri: the shared counter, where it is not the client's. -/
def change (m : Manager) (id : ℕ) (uri : String) : Option ℕ :=
  match m.idws2uris id uri, m.uri2counter uri with
  | some wsCounter, some (counter, _) => if counter ≠ wsCounter then some counter else none
  | _, _ => none

/-- One part of a message of a client, apart from what is answered. -/
def Manager.item (id : ℕ) (item : Item) (m : Manager) : Manager :=
  let uris := m.idws2uris id
  match item with
  | .handshake | .nothing => m
  | .subscribe uri counter =>
    { m with
      idws2uris := Function.update m.idws2uris id
        (if uris uri = none then Function.update uris uri (some counter) else uris)
      uri2counter := Function.update m.uri2counter uri
        (match m.uri2counter uri with
        | some (value, subscribers) => some (value, subscribers + 1)
        | none => some (counter, 0)) }
  | .new => { m with wsIdGen := m.wsIdGen + 1 }
  | .changes =>
    { m with
      idws2uris := Function.update m.idws2uris id fun uri =>
        match change m id uri with
        | some counter => some counter
        | none => uris uri }
  | .unsubscribeAll =>
    { m with
      idws2uris := Function.update m.idws2uris id fun _ => none
      uri2counter := fun uri =>
        if uris uri = none then m.uri2counter uri else (m.uri2counter uri).map dropSubscriber }
  | .unsubscribe uri =>
    { m with
      idws2uris := Function.update m.idws2uris id (Function.update uris uri none)
      uri2counter := Function.update m.uri2counter uri ((m.uri2counter uri).map dropSubscriber) }

/-- The answer to a message: what the last `?` in it has found. -/
abbrev Answer := String → Option ℕ

/-- The answer after one more part. -/
def Manager.answer (id : ℕ) (item : Item) (m : Manager) (out : Answer) : Answer :=
  match item with
  | .changes => change m id
  | _ => out

/-- The parts of a message one after the other. -/
def Manager.items (id : ℕ) : List Item → Answer → Manager → Answer × Manager
  | [], out, m => (out, m)
  | item :: items, out, m => Manager.items id items (m.answer id item out) (m.item id item)

/-- A message of a client. -/
def Manager.message (id : ℕ) (data : List Char) (m : Manager) : Answer × Manager :=
  m.items id (parseMessage data) fun _ => none

/-- A record of the queue: its `uri`, where it can be read, and its `u_count`. -/
structure Record where
  uri : Option String
  uCount : BitVec 64
  deriving DecidableEq

/-- A record is taken from the queue. -/
def Manager.record (r : Record) (m : Manager) : Manager :=
  match r.uri with
  | none => m
  | some uri =>
    { m with
      uri2counter := Function.update m.uri2counter uri
        ((m.uri2counter uri).map fun counters => (r.uCount.toNat, counters.2)) }

/-! ## Runs -/

/-- The manager, the records that it has taken, and those that are left. -/
structure System where
  manager : Manager
  consumed : List Record
  pending : List Record

def System.init (queue : List Record) : System := ⟨.init, [], queue⟩

inductive Event where
  | message (id : ℕ) (data : List Char)
  | consume

def System.step (e : Event) (st : System) : System :=
  match e with
  | .message id data => { st with manager := (st.manager.message id data).2 }
  | .consume =>
    match st.pending with
    | [] => st
    | r :: pending => ⟨st.manager.record r, st.consumed ++ [r], pending⟩

/-- The `u_count` of the last of some records of a uri. -/
def lastCount (records : List Record) (uri : String) : Option ℕ :=
  (records.reverse.find? (·.uri = some uri)).map (·.uCount.toNat)

/-- After a `?` of a client, its counter of each uri it is subscribed to is the one of the last
record of that uri. -/
def UpToDate (st : System) : Prop :=
  ∀ id uri wsCounter count,
    (st.manager.message id ['?']).2.idws2uris id uri = some wsCounter →
    lastCount st.consumed uri = some count → wsCounter = count

/-- What is sent for a uri is the `u_count` of a record of that uri in the queue. -/
def Truthful (e : Event) (st : System) : Prop :=
  match e with
  | .message id data => ∀ uri counter, (st.manager.message id data).1 uri = some counter →
    ∃ r ∈ st.consumed ++ st.pending, r.uri = some uri ∧ r.uCount.toNat = counter
  | .consume => True

/-- A part of a message in which a client tells the counter that a uri has: where a record of the
uri has been taken, the first one to subscribe to it tells the counter of the last record; where
none has, the others tell the counter that the first one told. -/
def Honest (consumed : List Record) (id : ℕ) (item : Item) (m : Manager) : Prop :=
  match item with
  | .subscribe uri counter =>
    match lastCount consumed uri with
    | some count => m.uri2counter uri = none → counter = count
    | none => m.idws2uris id uri = none →
      ∀ value subscribers, m.uri2counter uri = some (value, subscribers) → counter = value
  | _ => True

/-- All the parts of a message are honest. -/
def HonestMessage (e : Event) (st : System) : Prop :=
  match e with
  | .message id data => Along (fun item m => m.item id item) (Honest st.consumed id) st.manager
    (parseMessage data)
  | .consume => True

/-! ## The invariant -/

theorem lastCount_append (records : List Record) (r : Record) (uri : String) :
    lastCount (records ++ [r]) uri =
      if r.uri = some uri then some r.uCount.toNat else lastCount records uri := by
  by_cases h : r.uri = some uri <;> simp [lastCount, h]

theorem mem_of_lastCount (h : lastCount records uri = some count) :
    ∃ r ∈ records, r.uri = some uri ∧ r.uCount.toNat = count := by
  obtain ⟨r, hr, hcount⟩ := Option.map_eq_some_iff.mp h
  have huri := List.find?_some hr
  exact ⟨r, List.mem_reverse.mp (List.mem_of_find?_eq_some hr), by simpa using huri, hcount⟩

/-- A uri that a client is subscribed to has a shared counter. It is the one of the last record of
the uri; where there is none, it is the counter of every client that is subscribed. -/
structure Inv (consumed : List Record) (m : Manager) : Prop where
  shared : ∀ id uri wsCounter, m.idws2uris id uri = some wsCounter → m.uri2counter uri ≠ none
  last : ∀ uri counters count, m.uri2counter uri = some counters →
    lastCount consumed uri = some count → counters.1 = count
  first : ∀ uri counters, m.uri2counter uri = some counters → lastCount consumed uri = none →
    ∀ id wsCounter, m.idws2uris id uri = some wsCounter → wsCounter = counters.1

theorem Inv.init : Inv [] .init := ⟨nofun, nofun, nofun⟩

section
variable {consumed : List Record} {m m' : Manager} {id : ℕ}

theorem change_eq_some (h : change m id uri = some counter) :
    ∃ wsCounter counters, m.idws2uris id uri = some wsCounter ∧ m.uri2counter uri = some counters ∧
      counters.1 = counter ∧ counter ≠ wsCounter := by
  unfold change at h
  split at h
  next wsCounter value subscribers hws hcounters =>
    split at h
    next hne =>
      cases h
      exact ⟨wsCounter, (counter, subscribers), hws, hcounters, rfl, hne⟩
    next => exact absurd h nofun
  next => exact absurd h nofun

/-- What is sent is the counter of the last record. -/
theorem Inv.change (h : Inv consumed m) (hc : change m id uri = some counter) :
    lastCount consumed uri = some counter := by
  obtain ⟨wsCounter, counters, hws, hcounters, hvalue, hne⟩ := change_eq_some hc
  cases hlast : lastCount consumed uri with
  | none =>
    have hws := h.first uri counters hcounters hlast id wsCounter hws
    exact absurd (hws.trans hvalue).symm hne
  | some count => rw [← h.last uri counters count hcounters hlast, hvalue]

/-- Subscriptions may go, and numbers of subscribers may change. -/
theorem Inv.shrink (h : Inv consumed m)
    (huris : ∀ id uri wsCounter, m'.idws2uris id uri = some wsCounter →
      m.idws2uris id uri = some wsCounter)
    (hcounters : ∀ uri, (m'.uri2counter uri).map Prod.fst = (m.uri2counter uri).map Prod.fst) :
    Inv consumed m' := by
  have hold : ∀ uri counters, m'.uri2counter uri = some counters →
      ∃ counters', m.uri2counter uri = some counters' ∧ counters'.1 = counters.1 := by
    intro uri counters hc
    have hmap := hcounters uri
    rw [hc, Option.map_some, eq_comm, Option.map_eq_some_iff] at hmap
    exact hmap
  refine ⟨fun id uri wsCounter hws hnone => ?_, fun uri counters count hc hlast => ?_,
    fun uri counters hc hlast id wsCounter hws => ?_⟩
  · have hmap := hcounters uri
    rw [hnone, Option.map_none, eq_comm, Option.map_eq_none_iff] at hmap
    exact h.shared id uri wsCounter (huris id uri wsCounter hws) hmap
  · obtain ⟨counters', hc', hvalue⟩ := hold uri counters hc
    rw [← hvalue]
    exact h.last uri counters' count hc' hlast
  · obtain ⟨counters', hc', hvalue⟩ := hold uri counters hc
    rw [← hvalue]
    exact h.first uri counters' hc' hlast id wsCounter (huris id uri wsCounter hws)

theorem map_fst_dropSubscriber (counters : Option (ℕ × ℕ)) :
    (counters.map dropSubscriber).map Prod.fst = counters.map Prod.fst := by
  cases counters <;> rfl

/-- A subscription of a client is an old one or the one that is made. -/
theorem idws2uris_subscribe
    (h : (m.item id (.subscribe uri counter)).idws2uris id' uri' = some wsCounter) :
    m.idws2uris id' uri' = some wsCounter ∨
      id' = id ∧ uri' = uri ∧ m.idws2uris id uri = none ∧ wsCounter = counter := by
  dsimp only [Manager.item] at h
  rcases eq_or_ne id' id with rfl | hne
  · rw [Function.update_self] at h
    split at h
    next hnone =>
      rcases eq_or_ne uri' uri with rfl | hne'
      · rw [Function.update_self] at h
        cases h
        exact .inr ⟨rfl, rfl, hnone, rfl⟩
      · rw [Function.update_of_ne hne'] at h
        exact .inl h
    next => exact .inl h
  · rw [Function.update_of_ne hne] at h
    exact .inl h

/-- A shared counter is an old one or what the first client has told. -/
theorem uri2counter_subscribe
    (h : (m.item id (.subscribe uri counter)).uri2counter uri' = some counters) :
    (∃ counters', m.uri2counter uri' = some counters' ∧ counters'.1 = counters.1) ∨
      uri' = uri ∧ m.uri2counter uri = none ∧ counters.1 = counter := by
  dsimp only [Manager.item] at h
  rcases eq_or_ne uri' uri with rfl | hne
  · rw [Function.update_self] at h
    split at h
    next value subscribers hold =>
      cases h
      exact .inl ⟨(value, subscribers), hold, rfl⟩
    next hnone =>
      cases h
      exact .inr ⟨rfl, hnone, rfl⟩
  · rw [Function.update_of_ne hne] at h
    exact .inl ⟨counters, h, rfl⟩

theorem uri2counter_subscribe_ne_none (h : uri' = uri ∨ m.uri2counter uri' ≠ none) :
    (m.item id (.subscribe uri counter)).uri2counter uri' ≠ none := by
  dsimp only [Manager.item]
  rcases eq_or_ne uri' uri with rfl | hne
  · rw [Function.update_self]
    split <;> exact Option.some_ne_none _
  · rw [Function.update_of_ne hne]
    exact h.resolve_left hne

theorem Inv.subscribe (h : Inv consumed m)
    (hhonest : Honest consumed id (.subscribe uri counter) m) :
    Inv consumed (m.item id (.subscribe uri counter)) := by
  refine ⟨fun id' uri' wsCounter hws => ?_, fun uri' counters count hc hlast => ?_,
    fun uri' counters hc hlast id' wsCounter hws => ?_⟩
  · obtain hws | ⟨-, rfl, -, -⟩ := idws2uris_subscribe hws
    · exact uri2counter_subscribe_ne_none (.inr (h.shared id' uri' wsCounter hws))
    · exact uri2counter_subscribe_ne_none (.inl rfl)
  · obtain ⟨counters', hc', hvalue⟩ | ⟨rfl, hnone, hvalue⟩ := uri2counter_subscribe hc
    · rw [← hvalue]
      exact h.last uri' counters' count hc' hlast
    · simp only [Honest, hlast] at hhonest
      rw [hvalue]
      exact hhonest hnone
  · obtain ⟨counters', hc', hvalue⟩ | ⟨rfl, hnone, hvalue⟩ := uri2counter_subscribe hc
    · rw [← hvalue]
      obtain hws | ⟨rfl, rfl, hnone, rfl⟩ := idws2uris_subscribe hws
      · exact h.first uri' counters' hc' hlast id' wsCounter hws
      · simp only [Honest, hlast] at hhonest
        exact hhonest hnone counters'.1 counters'.2 hc'
    · obtain hws | ⟨-, -, -, rfl⟩ := idws2uris_subscribe hws
      · exact absurd hnone (h.shared id' uri' wsCounter hws)
      · exact hvalue.symm

/-- After a `?` the counter of a client is the old one, where nothing is sent, or what is sent. -/
theorem idws2uris_changes :
    (m.item id .changes).idws2uris id' uri =
      if id' = id then (change m id uri).or (m.idws2uris id uri) else m.idws2uris id' uri := by
  dsimp only [Manager.item]
  rcases eq_or_ne id' id with rfl | hne
  · rw [Function.update_self, if_pos rfl]
    cases change m id' uri <;> rfl
  · rw [Function.update_of_ne hne, if_neg hne]

theorem Inv.changes (h : Inv consumed m) : Inv consumed (m.item id .changes) := by
  have hold : ∀ id' uri wsCounter, (m.item id .changes).idws2uris id' uri = some wsCounter →
      m.idws2uris id' uri = some wsCounter ∨ Ccus.change m id uri = some wsCounter := by
    intro id' uri wsCounter hws
    rw [idws2uris_changes] at hws
    split at hws
    next heq =>
      subst heq
      cases hchange : Ccus.change m id' uri with
      | none =>
        rw [hchange, Option.none_or] at hws
        exact .inl hws
      | some counter =>
        rw [hchange, Option.some_or] at hws
        exact .inr hws
    next => exact .inl hws
  refine ⟨fun id' uri wsCounter hws => ?_, h.last,
    fun uri counters hc hlast id' wsCounter hws => ?_⟩
  · obtain hws | hchange := hold id' uri wsCounter hws
    · exact h.shared id' uri wsCounter hws
    · obtain ⟨_, counters, -, hcounters, -⟩ := change_eq_some hchange
      exact fun hnone => absurd (hcounters.symm.trans hnone) nofun
  · obtain hws | hchange := hold id' uri wsCounter hws
    · exact h.first uri counters hc hlast id' wsCounter hws
    · exact absurd (hlast.symm.trans (h.change hchange)) nofun

theorem Inv.item {part : Item} (h : Inv consumed m) (hhonest : Honest consumed id part m) :
    Inv consumed (m.item id part) := by
  cases part with
  | handshake | nothing | new => exact ⟨h.shared, h.last, h.first⟩
  | subscribe uri counter => exact h.subscribe hhonest
  | changes => exact h.changes
  | unsubscribeAll =>
    refine h.shrink (fun id' uri wsCounter hws => ?_) fun uri => ?_
    · dsimp only [Manager.item] at hws
      rcases eq_or_ne id' id with rfl | hne
      · rw [Function.update_self] at hws
        exact absurd hws nofun
      · rwa [Function.update_of_ne hne] at hws
    · dsimp only [Manager.item]
      split
      · rfl
      · exact map_fst_dropSubscriber _
  | unsubscribe uri =>
    refine h.shrink (fun id' uri' wsCounter hws => ?_) fun uri' => ?_
    · dsimp only [Manager.item] at hws
      rcases eq_or_ne id' id with rfl | hne
      · rw [Function.update_self] at hws
        rcases eq_or_ne uri' uri with rfl | hne'
        · rw [Function.update_self] at hws
          exact absurd hws nofun
        · rwa [Function.update_of_ne hne'] at hws
      · rwa [Function.update_of_ne hne] at hws
    · dsimp only [Manager.item]
      rcases eq_or_ne uri' uri with rfl | hne'
      · rw [Function.update_self]
        exact map_fst_dropSubscriber _
      · rw [Function.update_of_ne hne']

/-- A record becomes the last one of its uri. -/
theorem Inv.record (h : Inv consumed m) (r : Record) : Inv (consumed ++ [r]) (m.record r) := by
  cases hr : r.uri with
  | none =>
    have hlast (uri : String) : lastCount (consumed ++ [r]) uri = lastCount consumed uri := by
      rw [lastCount_append, hr, if_neg nofun]
    have hsame : m.record r = m := by
      unfold Manager.record
      rw [hr]
    rw [hsame]
    exact ⟨h.shared, fun uri counters count hc hcount =>
      h.last uri counters count hc (hlast uri ▸ hcount),
      fun uri counters hc hcount => h.first uri counters hc (hlast uri ▸ hcount)⟩
  | some uri =>
    have hrecord : m.record r = { m with
        uri2counter := Function.update m.uri2counter uri
          ((m.uri2counter uri).map fun counters => (r.uCount.toNat, counters.2)) } := by
      unfold Manager.record
      rw [hr]
    have hlast (uri' : String) : lastCount (consumed ++ [r]) uri' =
        if uri' = uri then some r.uCount.toNat else lastCount consumed uri' := by
      rw [lastCount_append, hr]
      simp [eq_comm]
    rw [hrecord]
    refine ⟨fun id' uri' wsCounter hws => ?_, fun uri' counters count hc hcount => ?_,
      fun uri' counters hc hcount => ?_⟩
    all_goals
      rcases eq_or_ne uri' uri with rfl | hne
    · dsimp only
      rw [Function.update_self, Ne, Option.map_eq_none_iff]
      exact h.shared id' uri' wsCounter hws
    · dsimp only
      rw [Function.update_of_ne hne]
      exact h.shared id' uri' wsCounter hws
    · rw [hlast, if_pos rfl] at hcount
      dsimp only at hc
      rw [Function.update_self, Option.map_eq_some_iff] at hc
      obtain ⟨_, -, rfl⟩ := hc
      exact Option.some.inj hcount
    · rw [hlast, if_neg hne] at hcount
      dsimp only at hc
      rw [Function.update_of_ne hne] at hc
      exact h.last uri' counters count hc hcount
    · rw [hlast, if_pos rfl] at hcount
      exact absurd hcount nofun
    · rw [hlast, if_neg hne] at hcount
      dsimp only at hc
      rw [Function.update_of_ne hne] at hc
      exact h.first uri' counters hc hcount

/-! ## Messages that are honest -/

/-- The parts of an honest message keep the invariant, and what it answers is the counter of the
last record. -/
theorem Inv.items {parts : List Item} {out : Answer} (h : Inv consumed m)
    (hhonest : Along (fun item m => m.item id item) (Honest consumed id) m parts)
    (hout : ∀ uri counter, out uri = some counter → lastCount consumed uri = some counter) :
    Inv consumed (m.items id parts out).2 ∧
      ∀ uri counter, (m.items id parts out).1 uri = some counter →
        lastCount consumed uri = some counter := by
  induction parts generalizing m out with
  | nil => exact ⟨h, hout⟩
  | cons part parts ih =>
    refine ih (h.item hhonest.1) hhonest.2 fun uri counter hc => ?_
    cases part with
    | changes => exact h.change hc
    | _ => exact hout uri counter hc

theorem Inv.message {data : List Char} (h : Inv consumed m)
    (hhonest : Along (fun item m => m.item id item) (Honest consumed id) m (parseMessage data)) :
    Inv consumed (m.message id data).2 ∧
      ∀ uri counter, (m.message id data).1 uri = some counter →
        lastCount consumed uri = some counter :=
  h.items hhonest nofun

theorem message_changes : m.message id ['?'] = (change m id, m.item id .changes) := by
  have hparse : parseMessage ['?'] = [.changes] := by decide
  unfold Manager.message
  rw [hparse]
  rfl

/-- After a `?` a client has the counters of the last records. -/
theorem Inv.upToDate {st : System} (h : Inv st.consumed st.manager) : UpToDate st := by
  intro id uri wsCounter count hws hlast
  rw [message_changes] at hws
  dsimp only at hws
  rw [idws2uris_changes, if_pos rfl] at hws
  cases hchange : Ccus.change st.manager id uri with
  | some counter =>
    rw [hchange, Option.some_or] at hws
    cases hws
    exact Option.some.inj ((h.change hchange).symm.trans hlast)
  | none =>
    rw [hchange, Option.none_or] at hws
    obtain ⟨counters, hcounters⟩ :=
      Option.ne_none_iff_exists'.mp (h.shared id uri wsCounter hws)
    have heq : counters.1 = wsCounter := by
      simpa [Ccus.change, hws, hcounters] using hchange
    rw [← heq]
    exact h.last uri counters count hcounters hlast

/-! ## Runs -/

theorem Inv.step {st : System} (h : Inv st.consumed st.manager) (hhonest : HonestMessage e st) :
    Inv (System.step e st).consumed (System.step e st).manager := by
  cases e with
  | message id data => exact (h.message hhonest).1
  | consume =>
    unfold System.step
    cases hp : st.pending with
    | nil => exact h
    | cons r pending => exact h.record r

theorem Inv.truthful {st : System} (h : Inv st.consumed st.manager)
    (hhonest : HonestMessage e st) : Truthful e st := by
  cases e with
  | message id data =>
    intro uri counter hc
    obtain ⟨r, hr, huri, hcount⟩ := mem_of_lastCount ((h.message hhonest).2 uri counter hc)
    exact ⟨r, List.mem_append_left _ hr, huri, hcount⟩
  | consume => trivial

end

/-- In every order of messages and records in which the messages are honest, a `?` brings the
counters of a client up to date, and nothing is sent that is not the counter of a record. -/
theorem subscribe_manager_up_to_date (queue : List Record) (events : List Event)
    (h : Along System.step HonestMessage (.init queue) events) :
    Throughout System.step UpToDate (.init queue) events ∧
      Along System.step Truthful (.init queue) events :=
  ⟨@Along.throughout _ _ _ _ _ _ (fun st => Inv st.consumed st.manager) _ h Inv.init
      (fun _ _ hinv hhonest => hinv.step hhonest) fun _ hinv => hinv.upToDate,
    @Along.of_invariant _ _ _ _ _ _ _ (fun st => Inv st.consumed st.manager) h Inv.init
      (fun _ _ hinv hhonest => hinv.step hhonest) fun _ _ hinv hhonest => hinv.truthful hhonest⟩

/-! ## One record -/

/-- The client subscribes before the record is taken. -/
theorem subscribe_manager_up_to_date_sample :
    Throughout System.step UpToDate (.init [⟨some "d:a", 5⟩])
        [.message 1 "+d:a=3".toList, .consume, .message 1 ['?']] ∧
      Along System.step Truthful (.init [⟨some "d:a", 5⟩])
        [.message 1 "+d:a=3".toList, .consume, .message 1 ['?']] := by
  have hsubscribe : parseMessage "+d:a=3".toList = [.subscribe "d:a" 3] := by decide
  have hchanges : parseMessage ['?'] = [.changes] := by decide
  refine subscribe_manager_up_to_date _ _ ⟨?_, trivial, ?_, trivial⟩
  · unfold HonestMessage
    dsimp only
    rw [hsubscribe]
    exact ⟨fun _ _ _ hc => absurd hc nofun, trivial⟩
  · unfold HonestMessage
    dsimp only
    rw [hchanges]
    exact ⟨trivial, trivial⟩

/-- A client that subscribes with an old counter after the record has been taken is not told. -/
theorem not_up_to_date_after_record :
    ¬UpToDate (run System.step (.init [⟨some "d:a", 5⟩])
      [.consume, .message 1 "+d:a=3".toList]) := by
  intro h
  have hold := h 1 "d:a" 3 5 (by decide) (by decide)
  exact absurd hold (by decide)

end Veda.Ccus
