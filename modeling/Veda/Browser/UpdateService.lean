import Mathlib.Data.List.AList
import Mathlib.Data.List.TakeWhile
import Mathlib.Order.BooleanAlgebra.Set
import Veda.Ccus.SubscribeManager

/-! # The update service of a browser

The model of `update_service.js` and of its connections to `subscribe_manager`. Messages are
buffered for a second, a connection may be lost at any time, and other clients send messages and
records are taken in between. -/

namespace Veda.Browser

open Ccus Run

/-! ## Messages of the service -/

/-- `"+" + uri + "=" + updateCounter`. -/
def subscription (uri : String) (updateCounter : ℕ) : List Char :=
  '+' :: (uri.toList ++ '=' :: Nat.toDigits 10 updateCounter)

/-- `"-" + uri`. -/
def unsubscription (uri : String) : List Char := '-' :: uri.toList

/-- `"-*"`. -/
def allMsg : List Char := ['-', '*']

/-- `"ccus="`, before the ticket. -/
def handshakeMsg : List Char := ['c', 'c', 'u', 's', '=']

/-! ## The service -/

/-- `readyState` of a socket. -/
inductive ReadyState where
  | connecting
  | open
  | closed
  deriving DecidableEq

/-- An entry of `list`. -/
structure Entry where
  subscribeCounter : ℕ
  updateCounter : ℕ
  deriving DecidableEq

/-- The variables of the service, and what is at the other end of its socket. Sockets are numbered
as they are made, and `socketTimeout` has the one of the function that waits. -/
structure State where
  list : AList (fun _ : String => Entry)
  buffer : List (List Char)
  socketTimeout : Option ℕ
  socket : ℕ
  readyState : ReadyState
  /-- What was sent on the socket and is not handled. -/
  wire : List (List Char)
  /-- The number of the connection. -/
  id : ℕ
  manager : Manager

def State.init : State := ⟨∅, [], none, 0, .connecting, [], 0, .init⟩

namespace State

/-- `sendMessage`. -/
def sendMessage (msg : List Char) (st : State) : State :=
  if msg = ['='] ∨ msg = allMsg ∨ ['c', 'c', 'u', 's'] <+: msg then
    if st.readyState = .open then { st with wire := st.wire ++ [msg] } else st
  else
    { st with
      buffer := st.buffer ++ [msg]
      socketTimeout := some (st.socketTimeout.getD st.socket) }

/-- `subscribe`, with the `v-s:updateCounter` of the individual. -/
def subscribe (uri : String) (updateCounter : ℕ) (st : State) : State :=
  match st.list.lookup uri with
  | some e =>
    { st with list := st.list.insert uri { e with subscribeCounter := e.subscribeCounter + 1 } }
  | none =>
    { st with list := st.list.insert uri ⟨1, updateCounter⟩ }.sendMessage
      (subscription uri updateCounter)

/-- `unsubscribe`; without a uri it is `unsubscribe` of all. -/
def unsubscribe (uri : String) (st : State) : State :=
  if uri = "" then { st with list := ∅ }.sendMessage allMsg
  else
    match st.list.lookup uri with
    | some e =>
      if e.subscribeCounter > 1 then
        { st with list := st.list.insert uri { e with subscribeCounter := e.subscribeCounter - 1 } }
      else { st with list := st.list.erase uri }.sendMessage (unsubscription uri)
    | none => st.sendMessage (unsubscription uri)

/-- `restore`. -/
def restore (st : State) : State :=
  st.list.entries.foldl (fun st e => st.sendMessage (subscription e.1 e.2.updateCounter))
    (st.sendMessage allMsg)

/-- The function that `setTimeout` was given. -/
def fire (st : State) : State :=
  let message := List.intercalate [','] st.buffer
  { st with
    wire := if st.socketTimeout = some st.socket ∧ st.readyState = .open then st.wire ++ [message]
      else st.wire
    buffer := []
    socketTimeout := none }

/-- A connection is made: the manager numbers it, and `openedHandler` is called. -/
def opened (ticket : List Char) (st : State) : State :=
  let manager := (st.manager.message 0 ['N']).2
  ({ st with readyState := .open, wire := [], id := manager.wsIdGen, manager := manager }.sendMessage
    (handshakeMsg ++ ticket)).restore

/-- `receiveMessage` for one uri with a new counter. -/
def receive (uri : String) (updateCounter : ℕ) (st : State) : State :=
  match st.list.lookup uri with
  | some e => { st with list := st.list.insert uri { e with updateCounter := updateCounter } }
  | none => st

end State

/-! ## Steps -/

inductive Event where
  | subscribe (uri : String) (updateCounter : ℕ)
  | unsubscribe (uri : String)
  | fire
  | opened (ticket : List Char)
  | closed
  | reconnect
  | handle
  | receive (uri : String) (updateCounter : ℕ)
  | other (id : ℕ) (data : List Char)
  | record (r : Record)

/-- A step; an event for which the socket is not in the right state does nothing. -/
def State.step (e : Event) (st : State) : State :=
  match e with
  | .subscribe uri updateCounter => st.subscribe uri updateCounter
  | .unsubscribe uri => st.unsubscribe uri
  | .fire => if st.socketTimeout = none then st else st.fire
  | .opened ticket => if st.readyState = .connecting then st.opened ticket else st
  | .closed => { st with readyState := .closed, wire := [] }
  | .reconnect =>
    if st.readyState = .closed then
      { st with socket := st.socket + 1, readyState := .connecting, wire := [] }
    else st
  | .handle =>
    match st.wire with
    | [] => st
    | data :: wire => { st with wire := wire, manager := (st.manager.message st.id data).2 }
  | .receive uri updateCounter => st.receive uri updateCounter
  | .other id data => { st with manager := (st.manager.message id data).2 }
  | .record r => { st with manager := st.manager.record r }

/-! ## What the manager makes of the messages -/

/-- The subscriptions of a client after a part of a message. -/
def effect (item : Item) (uris : Set String) : Set String :=
  match item with
  | .subscribe uri _ => insert uri uris
  | .unsubscribe uri => uris \ {uri}
  | .unsubscribeAll => ∅
  | _ => uris

/-- The subscriptions after parts of messages. -/
def effects (items : List Item) (uris : Set String) : Set String :=
  items.foldl (fun uris item => effect item uris) uris

/-- The subscriptions of a client. -/
def subscribed (m : Manager) (id : ℕ) : Set String := {uri | m.idws2uris id uri ≠ none}

theorem effects_append (items items' : List Item) (uris : Set String) :
    effects (items ++ items') uris = effects items' (effects items uris) := List.foldl_append

section
variable {m : Manager} {id id' : ℕ}

theorem mem_subscribed {uri : String} :
    uri ∈ subscribed m id ↔ (m.idws2uris id uri).isSome = true := Option.ne_none_iff_isSome

theorem subscribed_item (item : Item) :
    subscribed (m.item id item) id = effect item (subscribed m id) := by
  cases item with
  | handshake | new | nothing => rfl
  | subscribe uri counter =>
    ext uri'
    simp only [effect, Set.mem_insert_iff, mem_subscribed, Manager.item, Function.update_self]
    split
    · next hnone =>
      rcases eq_or_ne uri' uri with rfl | hne
      · simp only [Function.update_self, Option.isSome_some, true_or]
      · simp only [Function.update_of_ne hne, hne, false_or]
    · next hsome =>
      refine ⟨.inr, fun h => h.elim (fun heq => ?_) fun h => h⟩
      rw [heq]
      exact Option.ne_none_iff_isSome.mp hsome
  | changes =>
    ext uri
    simp only [effect, mem_subscribed, Manager.item, Function.update_self]
    unfold change
    cases m.idws2uris id uri with
    | none => rfl
    | some wsCounter =>
      cases m.uri2counter uri with
      | none => rfl
      | some counters =>
        dsimp only
        split_ifs <;> rfl
  | unsubscribeAll =>
    ext uri
    simp only [effect, mem_subscribed, Manager.item, Function.update_self, Set.mem_empty_iff_false,
      Option.isSome_none, Bool.false_eq_true]
  | unsubscribe uri =>
    ext uri'
    simp only [effect, Set.mem_sdiff, Set.mem_singleton_iff, mem_subscribed, Manager.item,
      Function.update_self]
    rcases eq_or_ne uri' uri with rfl | hne
    · simp only [Function.update_self, Option.isSome_none, Bool.false_eq_true, not_true_eq_false,
        and_false]
    · simp only [Function.update_of_ne hne, hne, not_false_iff, and_true]

/-- A message of another client changes nothing. -/
theorem idws2uris_item_ne (item : Item) (h : id ≠ id') :
    (m.item id' item).idws2uris id = m.idws2uris id := by
  cases item with
  | handshake | new | nothing => rfl
  | _ => exact Function.update_of_ne h _ _

theorem subscribed_items (items : List Item) (out : Answer) :
    subscribed (m.items id items out).2 id = effects items (subscribed m id) := by
  induction items generalizing m out with
  | nil => rfl
  | cons item items ih =>
    rw [Manager.items, ih, subscribed_item]
    rfl

theorem idws2uris_items_ne (items : List Item) (out : Answer) (h : id ≠ id') :
    (m.items id' items out).2.idws2uris id = m.idws2uris id := by
  induction items generalizing m out with
  | nil => rfl
  | cons item items ih => rw [Manager.items, ih, idws2uris_item_ne item h]

end

/-! ## What the service sends -/

/-- Names that every object has. -/
def inherited : List String :=
  ["constructor", "hasOwnProperty", "isPrototypeOf", "propertyIsEnumerable", "toLocaleString",
    "toString", "valueOf", "__proto__", "__defineGetter__", "__defineSetter__", "__lookupGetter__",
    "__lookupSetter__"]

/-- A uri that can be a key of `list` and a part of a message. -/
structure Ordinary (uri : String) : Prop where
  ne_empty : uri ≠ ""
  ne_star : uri ≠ "*"
  comma : ',' ∉ uri.toList
  equals : '=' ∉ uri.toList
  key : uri ∉ inherited

/-- A message in the buffer, and what the manager makes of it. -/
inductive Written : List Char → Item → Prop where
  | plus (h : Ordinary uri) (c : ℕ) :
    Written (subscription uri c) (.subscribe uri ((parseU64 (Nat.toDigits 10 c)).getD 0))
  | minus (h : Ordinary uri) : Written (unsubscription uri) (.unsubscribe uri)

theorem notMem_toDigits {c : Char} (h : c.isDigit = false) (n : ℕ) : c ∉ Nat.toDigits 10 n := by
  intro hmem
  have hdigit := Nat.isDigit_of_mem_toDigits (by decide) (by decide) hmem
  rw [h] at hdigit
  cases hdigit

section
variable {msg : List Char} {item : Item}

theorem Written.comma (h : Written msg item) : ',' ∉ msg := by
  cases h with
  | plus h c =>
    have hdigits : ',' ∉ Nat.toDigits 10 c := notMem_toDigits rfl c
    simp only [subscription, List.mem_cons, List.mem_append, not_or]
    exact ⟨by decide, h.comma, by decide, hdigits⟩
  | minus h =>
    simp only [unsubscription, List.mem_cons, not_or]
    exact ⟨by decide, h.comma⟩

theorem Written.parseItem (h : Written msg item) : parseItem msg = item := by
  cases h with
  | @plus uri h c =>
    have hname : '=' ∉ '+' :: uri.toList := by
      rw [List.mem_cons, not_or]
      exact ⟨by decide, h.equals⟩
    have hsplit : (subscription uri c).splitOn '=' = ['+' :: uri.toList, Nat.toDigits 10 c] := by
      have heq : subscription uri c = ('+' :: uri.toList) ++ '=' :: Nat.toDigits 10 c := rfl
      rw [heq, List.splitOn_append_cons_self_of_not_mem hname,
        List.splitOn_eq_singleton (notMem_toDigits rfl c)]
    have hccus : '+' :: uri.toList ≠ "ccus".toList := by
      intro heq
      cases heq
    have hget : getFrom1 ('+' :: uri.toList) = some uri.toList := rfl
    simp only [Ccus.parseItem, hsplit, if_neg hccus, hget, String.ofList_toList]
  | @minus uri h =>
    have hname : '=' ∉ unsubscription uri := by
      rw [unsubscription, List.mem_cons, not_or]
      exact ⟨by decide, h.equals⟩
    have hsplit : (unsubscription uri).splitOn '=' = [unsubscription uri] :=
      List.splitOn_eq_singleton hname
    have hstar : uri.toList ≠ ['*'] := fun heq => h.ne_star (String.toList_inj.mp heq)
    have hnew : unsubscription uri ≠ ['N'] := by
      intro heq
      cases heq
    have hchanges : unsubscription uri ≠ ['?'] := by
      intro heq
      cases heq
    have hget : getFrom1 (unsubscription uri) = some uri.toList := rfl
    simp only [Ccus.parseItem, hsplit, if_neg hnew, if_neg hchanges, hget, if_neg hstar,
      String.ofList_toList]

/-- It waits in the buffer. -/
theorem Written.waits (h : Written msg item) :
    ¬(msg = ['='] ∨ msg = allMsg ∨ ['c', 'c', 'u', 's'] <+: msg) := by
  cases h with
  | plus h c =>
    rintro (heq | heq | ⟨post, heq⟩)
    · cases heq
    · cases heq
    · cases heq
  | @minus uri h =>
    rintro (heq | heq | ⟨post, heq⟩)
    · cases heq
    · exact h.ne_star (String.toList_inj.mp (List.cons.inj heq).2)
    · cases heq

theorem Written.ne_handshake (h : Written msg item) : item ≠ .handshake := by
  cases h with
  | plus => nofun
  | minus => nofun

end

/-- The messages of the buffer are parsed as they were put in. -/
theorem parseMessage_intercalate {buffer : List (List Char)} (hne : buffer ≠ [])
    (h : ∀ msg ∈ buffer, Written msg (parseItem msg)) :
    parseMessage (List.intercalate [','] buffer) = buffer.map parseItem := by
  rw [parseMessage, List.splitOn_intercalate ',' (fun msg hmsg => (h msg hmsg).comma) hne]
  refine List.takeWhile_eq_self_iff.mpr fun item hitem => decide_eq_true ?_
  obtain ⟨msg, hmsg, rfl⟩ := List.mem_map.mp hitem
  exact (h msg hmsg).ne_handshake

theorem parseMessage_allMsg : parseMessage allMsg = [.unsubscribeAll] := by decide

theorem parseMessage_handshake {ticket : List Char} (h : ',' ∉ ticket ∧ '=' ∉ ticket) :
    parseMessage (handshakeMsg ++ ticket) = [] := by
  have hcomma : ',' ∉ handshakeMsg ++ ticket := by
    rw [List.mem_append, not_or]
    exact ⟨by decide, h.1⟩
  have hsplit : (handshakeMsg ++ ticket).splitOn '=' = ["ccus".toList, ticket] := by
    have hname : '=' ∉ "ccus".toList := by decide
    have heq : handshakeMsg ++ ticket = "ccus".toList ++ '=' :: ticket := rfl
    rw [heq, List.splitOn_append_cons_self_of_not_mem hname, List.splitOn_eq_singleton h.2]
  have hitem : parseItem (handshakeMsg ++ ticket) = .handshake := by
    simp only [parseItem, hsplit, if_pos]
  rw [parseMessage, List.splitOn_eq_singleton hcomma, List.map_singleton, hitem]
  rfl

/-! ## Agreement -/

namespace State

/-- What the messages that wait in the buffer ask for, by themselves. -/
def asked (st : State) : Set String := effects (st.buffer.map parseItem) ∅

/-- The uris in the list. -/
def listed (st : State) : Set String := {uri | uri ∈ st.list}

/-- The subscriptions that the manager keeps for the connection are those in the list, once all
messages are handled. -/
def Agrees (st : State) : Prop :=
  st.readyState = .open → st.buffer = [] → st.wire = [] → subscribed st.manager st.id = st.listed

/-- What does no harm: no subscription waits in the buffer when all are cancelled, and no function
of an older socket waits when a connection is made. -/
def Sound (e : Event) (st : State) : Prop :=
  match e with
  | .subscribe uri _ => Ordinary uri
  | .unsubscribe uri => if uri = "" then st.asked = ∅ else Ordinary uri
  | .opened ticket => (',' ∉ ticket ∧ '=' ∉ ticket) ∧
    (st.socketTimeout = none ∨ st.socketTimeout = some st.socket)
  | .other id _ => st.readyState = .open → st.id ≠ id
  | _ => True

/-- On an open socket the messages that are on the way and those in the buffer make the list of the
subscriptions. -/
structure Inv (st : State) : Prop where
  written : ∀ msg ∈ st.buffer, Written msg (parseItem msg)
  ordinary : ∀ uri ∈ st.list, Ordinary uri
  asked : st.asked ⊆ st.listed
  socketTimeout : st.readyState = .open →
    st.socketTimeout = none ∨ st.socketTimeout = some st.socket
  made : st.readyState = .open →
    effects (st.wire.flatMap parseMessage ++ st.buffer.map parseItem)
      (subscribed st.manager st.id) = st.listed

theorem Inv.init : Inv .init :=
  ⟨nofun, fun _ h => absurd h (AList.notMem_empty _), Set.empty_subset _, nofun, nofun⟩

theorem Inv.agrees {st : State} (h : st.Inv) : st.Agrees := by
  intro hopen hbuffer hwire
  have hmade := h.made hopen
  rwa [hbuffer, hwire] at hmade

section
variable {st : State} {uri : String} {msg : List Char} {item : Item}

theorem sendMessage_written (h : Written msg item) :
    st.sendMessage msg =
      { st with
        buffer := st.buffer ++ [msg]
        socketTimeout := some (st.socketTimeout.getD st.socket) } :=
  if_neg h.waits

theorem sendMessage_now (hmsg : msg = ['='] ∨ msg = allMsg ∨ ['c', 'c', 'u', 's'] <+: msg)
    (h : st.readyState = .open) : st.sendMessage msg = { st with wire := st.wire ++ [msg] } := by
  rw [sendMessage, if_pos hmsg, if_pos h]

theorem listed_insert (e : Entry) :
    {st with list := st.list.insert uri e}.listed = insert uri st.listed := by
  ext uri'
  exact AList.mem_insert _

theorem listed_insert_mem (e : Entry) (h : uri ∈ st.list) :
    {st with list := st.list.insert uri e}.listed = st.listed := by
  have hlisted : uri ∈ st.listed := h
  rw [listed_insert, Set.insert_eq_of_mem hlisted]

theorem listed_erase : {st with list := st.list.erase uri}.listed = st.listed \ {uri} := by
  ext uri'
  exact AList.mem_erase.trans and_comm

theorem ordinary_insert (e : Entry) (h : ∀ uri ∈ st.list, Ordinary uri) (huri : Ordinary uri) :
    ∀ uri' ∈ st.list.insert uri e, Ordinary uri' := by
  intro uri' hmem
  rcases (AList.mem_insert _).mp hmem with rfl | hmem
  · exact huri
  · exact h uri' hmem

theorem effect_mono {uris uris' : Set String} (h : uris ⊆ uris') :
    effect item uris ⊆ effect item uris' := by
  cases item with
  | handshake | new | changes | nothing => exact h
  | subscribe uri counter => exact Set.insert_subset_insert h
  | unsubscribeAll => exact subset_rfl
  | unsubscribe uri => exact Set.sdiff_subset_sdiff_left h

theorem Inv.getD_socketTimeout (h : st.Inv) (hopen : st.readyState = .open) :
    st.socketTimeout.getD st.socket = st.socket := by
  rcases h.socketTimeout hopen with h | h
  · rw [h, Option.getD_none]
  · rw [h, Option.getD_some]

/-- A message goes into the buffer, and the list changes as the message says. -/
theorem Inv.sendMessage {list : AList fun _ : String => Entry} (h : st.Inv) (hmsg : Written msg item)
    (hordinary : ∀ uri ∈ list, Ordinary uri)
    (hlisted : {uri | uri ∈ list} = effect item st.listed) :
    ({ st with list := list }.sendMessage msg).Inv := by
  rw [sendMessage_written hmsg]
  refine ⟨fun msg' hmem => ?_, hordinary, ?_, fun hopen => ?_, fun hopen => ?_⟩
  · rcases List.mem_append.mp hmem with hmem | hmem
    · exact h.written msg' hmem
    · rw [List.mem_singleton.mp hmem, hmsg.parseItem]
      exact hmsg
  · have hmono : effect item st.asked ⊆ effect item st.listed := effect_mono h.asked
    rw [← hlisted] at hmono
    rw [State.asked, List.map_append, effects_append, List.map_singleton, hmsg.parseItem]
    exact hmono
  · exact .inr (congrArg some (h.getD_socketTimeout hopen))
  · have hmade := h.made hopen
    rw [List.map_append, ← List.append_assoc, effects_append, hmade, List.map_singleton,
      hmsg.parseItem]
    exact hlisted.symm

/-- The list keeps its uris. -/
theorem Inv.of_listed {list : AList fun _ : String => Entry} (h : st.Inv)
    (hlisted : {uri | uri ∈ list} = st.listed) : Inv { st with list := list } := by
  refine ⟨h.written, fun uri hmem => ?_, ?_, h.socketTimeout, fun hopen => ?_⟩
  · have hmem' : uri ∈ st.listed := hlisted ▸ hmem
    exact h.ordinary uri hmem'
  · have hasked := h.asked
    rwa [← hlisted] at hasked
  · exact (h.made hopen).trans hlisted.symm

theorem Inv.subscribe (h : st.Inv) (huri : Ordinary uri) (updateCounter : ℕ) :
    (st.subscribe uri updateCounter).Inv := by
  rw [State.subscribe]
  split
  · next e hlookup =>
    have hmem : uri ∈ st.list := AList.lookup_isSome.mp (by rw [hlookup]; rfl)
    exact h.of_listed (listed_insert_mem _ hmem)
  · exact h.sendMessage (.plus huri updateCounter) (ordinary_insert _ h.ordinary huri)
      (listed_insert _)

theorem Inv.unsubscribe (h : st.Inv) (huri : Ordinary uri) : (st.unsubscribe uri).Inv := by
  rw [State.unsubscribe, if_neg huri.ne_empty]
  split
  · next e hlookup =>
    have hmem : uri ∈ st.list := AList.lookup_isSome.mp (by rw [hlookup]; rfl)
    split_ifs
    · exact h.of_listed (listed_insert_mem _ hmem)
    · refine h.sendMessage (.minus huri) (fun uri' hmem' => ?_) listed_erase
      exact h.ordinary uri' (AList.mem_erase.mp hmem').2
  · next hlookup =>
    have hmem : uri ∉ st.listed := AList.lookup_eq_none.mp hlookup
    refine h.sendMessage (.minus huri) h.ordinary ?_
    exact (Set.sdiff_singleton_eq_self hmem).symm

/-- All are cancelled when no subscription waits in the buffer. -/
theorem Inv.unsubscribe_all (h : st.Inv) (hasked : st.asked = ∅) : (st.unsubscribe "").Inv := by
  have hlisted : {uri | uri ∈ (∅ : AList fun _ : String => Entry)} = ∅ :=
    Set.eq_empty_of_forall_notMem fun uri => AList.notMem_empty uri
  have hordinary : ∀ uri ∈ (∅ : AList fun _ : String => Entry), Ordinary uri :=
    fun uri hmem => absurd hmem (AList.notMem_empty uri)
  rw [State.unsubscribe, if_pos rfl]
  by_cases hopen : st.readyState = .open
  · have hsend := @sendMessage_now { st with list := ∅ } allMsg (.inr (.inl rfl)) hopen
    rw [hsend]
    refine ⟨h.written, hordinary, hasked.subset.trans (Set.empty_subset _), h.socketTimeout, ?_⟩
    intro _
    rw [List.flatMap_append, List.flatMap_singleton, parseMessage_allMsg, List.append_assoc,
      effects_append, List.singleton_append]
    exact hasked.trans hlisted.symm
  · rw [State.sendMessage, if_pos (.inr (.inl rfl)), if_neg hopen]
    exact ⟨h.written, hordinary, hasked.subset.trans (Set.empty_subset _),
      fun hopen' => absurd hopen' hopen, fun hopen' => absurd hopen' hopen⟩

/-- What waits in the buffer is sent. -/
theorem Inv.fire (h : st.Inv) (hwaits : st.socketTimeout ≠ none) : st.fire.Inv := by
  refine ⟨nofun, h.ordinary, Set.empty_subset _, fun _ => .inl rfl, fun hopen => ?_⟩
  have hsocket : st.socketTimeout = some st.socket := (h.socketTimeout hopen).resolve_left hwaits
  have hmade := h.made hopen
  have hwire : st.fire.wire = st.wire ++ [List.intercalate [','] st.buffer] :=
    if_pos ⟨hsocket, hopen⟩
  rw [hwire, List.flatMap_append, List.flatMap_singleton]
  have hbuffer : effects (parseMessage (List.intercalate [','] st.buffer)) =
      effects (st.buffer.map parseItem) := by
    cases hb : st.buffer with
    | nil => rfl
    | cons msg buffer =>
      rw [← hb, parseMessage_intercalate (by rw [hb]; nofun) h.written]
  have heq : st.fire.buffer.map parseItem = [] := rfl
  rw [heq, List.append_nil, effects_append, hbuffer, ← effects_append]
  exact hmade

/-- Messages for some of the uris of the list go into the buffer. -/
theorem sendMessage_foldl (entries : List (Sigma fun _ : String => Entry)) (st : State)
    (h : ∀ e ∈ entries, Ordinary e.1) (hw : ∀ msg ∈ st.buffer, Written msg (parseItem msg))
    (ht : st.socketTimeout = none ∨ st.socketTimeout = some st.socket) :
    ∃ buffer socketTimeout,
      entries.foldl (fun st e => st.sendMessage (subscription e.1 e.2.updateCounter)) st =
        { st with buffer := buffer, socketTimeout := socketTimeout } ∧
      (∀ msg ∈ buffer, Written msg (parseItem msg)) ∧
      (socketTimeout = none ∨ socketTimeout = some st.socket) ∧
      ∀ uris, effects (buffer.map parseItem) uris =
        effects (st.buffer.map parseItem) uris ∪ {uri | uri ∈ entries.map Sigma.fst} := by
  induction entries generalizing st with
  | nil =>
    refine ⟨st.buffer, st.socketTimeout, rfl, hw, ht, fun uris => ?_⟩
    exact (Set.union_eq_self_of_subset_right fun uri hmem => absurd hmem List.not_mem_nil).symm
  | cons e entries ih =>
    have hmsg := Written.plus (h e List.mem_cons_self) e.2.updateCounter
    rw [List.foldl_cons, sendMessage_written hmsg]
    obtain ⟨buffer, socketTimeout, heq, hwritten, htimeout, heffects⟩ :=
      ih { st with
          buffer := st.buffer ++ [subscription e.1 e.2.updateCounter]
          socketTimeout := some (st.socketTimeout.getD st.socket) }
        (fun e' hmem => h e' (List.mem_cons_of_mem _ hmem))
        (fun msg hmem => by
          rcases List.mem_append.mp hmem with hmem | hmem
          · exact hw msg hmem
          · rw [List.mem_singleton.mp hmem, hmsg.parseItem]
            exact hmsg)
        (.inr (by rcases ht with ht | ht <;> rw [ht] <;> rfl))
    refine ⟨buffer, socketTimeout, heq, hwritten, htimeout, fun uris => ?_⟩
    rw [heffects uris, List.map_append, effects_append, List.map_singleton, hmsg.parseItem]
    ext uri
    simp only [effects, effect, List.foldl_cons, List.foldl_nil, Set.mem_union, Set.mem_insert_iff,
      Set.mem_ofPred_eq, List.map_cons, List.mem_cons]
    tauto

/-- On a new connection all are cancelled, and each uri of the list is subscribed to again: what
still waited in the buffer was for some of them. -/
theorem Inv.opened {ticket : List Char} (h : st.Inv) (hticket : ',' ∉ ticket ∧ '=' ∉ ticket)
    (ht : st.socketTimeout = none ∨ st.socketTimeout = some st.socket) :
    (st.opened ticket).Inv := by
  have hccus : ['c', 'c', 'u', 's'] <+: handshakeMsg ++ ticket := ⟨'=' :: ticket, rfl⟩
  obtain ⟨buffer, socketTimeout, heq, hwritten, htimeout, heffects⟩ :=
    sendMessage_foldl st.list.entries
      { st with
        readyState := .open
        wire := [handshakeMsg ++ ticket, allMsg]
        id := (st.manager.message 0 ['N']).2.wsIdGen
        manager := (st.manager.message 0 ['N']).2 }
      (fun e hmem => h.ordinary e.1 (List.mem_map_of_mem hmem)) h.written ht
  have hall : effects (buffer.map parseItem) ∅ = st.listed :=
    (heffects ∅).trans (Set.union_eq_self_of_subset_left h.asked)
  rw [State.opened, restore, sendMessage_now (.inr (.inr hccus)) rfl,
    sendMessage_now (.inr (.inl rfl)) rfl]
  refine heq ▸ ⟨hwritten, h.ordinary, hall.subset, fun _ => htimeout, fun _ => ?_⟩
  rw [List.flatMap_cons, List.flatMap_singleton, parseMessage_handshake hticket,
    parseMessage_allMsg, List.nil_append, effects_append]
  exact hall

/-- Nothing is known of a connection that is not open. -/
theorem Inv.of_ne_open {st' : State} (h : st.Inv) (hlist : st'.list = st.list)
    (hbuffer : st'.buffer = st.buffer) (hopen : st'.readyState ≠ .open) : st'.Inv := by
  have hasked : st'.asked = st.asked := by rw [State.asked, hbuffer, State.asked]
  have hlisted : st'.listed = st.listed := by rw [listed, hlist, listed]
  refine ⟨?_, ?_, ?_, fun h' => absurd h' hopen, fun h' => absurd h' hopen⟩
  · rw [hbuffer]
    exact h.written
  · rw [hlist]
    exact h.ordinary
  · rw [hasked, hlisted]
    exact h.asked

/-- A message on the way is handled. -/
theorem Inv.handle {data : List Char} {wire : List (List Char)} (h : st.Inv)
    (hwire : st.wire = data :: wire) :
    Inv { st with wire := wire, manager := (st.manager.message st.id data).2 } := by
  refine ⟨h.written, h.ordinary, h.asked, h.socketTimeout, fun hopen => ?_⟩
  have hmade := h.made hopen
  rw [hwire, List.flatMap_cons, List.append_assoc, effects_append, ← subscribed_items] at hmade
  exact hmade

/-- The manager changes, but not what it keeps for the connection. -/
theorem Inv.of_idws2uris {manager : Manager} (h : st.Inv)
    (heq : st.readyState = .open → subscribed manager st.id = subscribed st.manager st.id) :
    Inv { st with manager := manager } := by
  refine ⟨h.written, h.ordinary, h.asked, h.socketTimeout, fun hopen => ?_⟩
  have hmade := h.made hopen
  rw [← heq hopen] at hmade
  exact hmade

theorem subscribed_record {m : Manager} (r : Record) (id : ℕ) :
    subscribed (m.record r) id = subscribed m id := by
  rw [Manager.record]
  cases r.uri with
  | none => rfl
  | some uri => rfl

theorem Inv.step (h : st.Inv) (e : Event) (hs : Sound e st) : (st.step e).Inv := by
  cases e with
  | subscribe uri updateCounter => exact h.subscribe hs updateCounter
  | unsubscribe uri =>
    rcases eq_or_ne uri "" with rfl | hne
    · exact h.unsubscribe_all (by rwa [Sound, if_pos rfl] at hs)
    · exact h.unsubscribe (by rwa [Sound, if_neg hne] at hs)
  | fire =>
    rw [State.step]
    split_ifs with hwaits
    · exact h
    · exact h.fire hwaits
  | opened ticket =>
    rw [State.step]
    split_ifs
    · exact h.opened hs.1 hs.2
    · exact h
  | closed => exact h.of_ne_open rfl rfl nofun
  | reconnect =>
    rw [State.step]
    split_ifs
    · exact h.of_ne_open rfl rfl nofun
    · exact h
  | handle =>
    rw [State.step]
    split
    · exact h
    · next hwire => exact h.handle hwire
  | receive uri updateCounter =>
    rw [State.step, State.receive]
    split
    · next e hlookup =>
      have hmem : uri ∈ st.list := AList.lookup_isSome.mp (by rw [hlookup]; rfl)
      exact h.of_listed (listed_insert_mem _ hmem)
    · exact h
  | other id data =>
    refine h.of_idws2uris fun hopen => ?_
    rw [subscribed, Manager.message, idws2uris_items_ne _ _ (hs hopen), ← subscribed]
  | record r => exact h.of_idws2uris fun _ => subscribed_record r st.id

end

/-- Once the messages are handled, the manager has the subscriptions of the list, whatever
connections were lost and made. -/
theorem throughout_agrees {es : List Event} (h : Along State.step Sound .init es) :
    Throughout State.step Agrees .init es :=
  h.throughout Inv.init (fun e _ hi hs => hi.step e hs) fun _ => Inv.agrees

theorem ordinary_sample : Ordinary "d:a" :=
  ⟨by decide, by decide, by decide, by decide, by decide⟩

/-- The connection is lost with a subscription in the buffer. -/
theorem throughout_agrees_sample :
    Throughout State.step Agrees .init
      [.opened ['t'], .handle, .handle, .subscribe "d:a" 3, .closed, .fire, .reconnect,
        .other 1 ['-', '*'], .opened ['t'], .handle, .handle, .fire, .handle, .unsubscribe "d:a",
        .fire, .handle] :=
  throughout_agrees ⟨⟨by decide, .inl rfl⟩, trivial, trivial, ordinary_sample, trivial, trivial,
    trivial, nofun, ⟨by decide, .inl rfl⟩, trivial, trivial, trivial, trivial, ordinary_sample,
    trivial, trivial, trivial⟩

/-- All are cancelled while a subscription waits in the buffer. -/
example : ¬ Agrees (run State.step .init
    [.opened ['t'], .handle, .handle, .subscribe "d:a" 3, .unsubscribe "", .handle, .fire,
      .handle]) := by
  intro h
  have heq := h rfl rfl rfl
  have hmem : "d:a" ∈ State.listed (run State.step .init
      [.opened ['t'], .handle, .handle, .subscribe "d:a" 3, .unsubscribe "", .handle, .fire,
        .handle]) := heq ▸ Option.some_ne_none 3
  exact AList.notMem_empty _ hmem

end State

end Veda.Browser
