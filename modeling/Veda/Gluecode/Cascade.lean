import Mathlib.Algebra.Order.BigOperators.Group.Finset
import Mathlib.Data.Finset.NAry
import Mathlib.Data.String.Basic
import Mathlib.Logic.Hydra
import Mathlib.Tactic.Abel
import Veda.Gluecode.Calls
import Veda.Gluecode.ScriptProcess
import Veda.Mstorage.UpdateCounter

/-! # The cascades of the event scripts end

A script changes individuals, and for each change scripts are run again. The event ids, which name
the scripts that led to a message, keep this from going on forever: every message has a budget, and
those that come of it have less. -/

namespace Veda.Gluecode

open Onto Ontology Scripts
open Mstorage (IndvOp ResultCode Manager Env BinObj addToTransaction)
open Relation (CutExpand)

/-! ## What a commit pushes -/

/-- The items that have been pushed all have one event id. -/
def PushesFor (eventId : String) (m m' : Manager) : Prop :=
  ∃ items, m'.flow = items ++ m.flow ∧ ∀ item ∈ items, item.1.eventId = eventId

section
variable {eventId : String} {m m' m'' : Manager}

theorem PushesFor.refl (eventId : String) (m : Manager) : PushesFor eventId m m :=
  ⟨[], rfl, fun _ h => nomatch h⟩

theorem PushesFor.trans (h : PushesFor eventId m m') (h' : PushesFor eventId m' m'') :
    PushesFor eventId m m'' := by
  obtain ⟨items, hitems, hall⟩ := h
  obtain ⟨items', hitems', hall'⟩ := h'
  refine ⟨items' ++ items, by rw [hitems', hitems, List.append_assoc], fun item hitem => ?_⟩
  rcases List.mem_append.mp hitem with hitem | hitem
  · exact hall' item hitem
  · exact hall item hitem

theorem PushesFor.pushed (h : PushesFor eventId m m') :
    ∀ item ∈ Gluecode.pushed m m', item.eventId = eventId := by
  obtain ⟨items, hitems, hall⟩ := h
  intro item hitem
  rw [Gluecode.pushed, hitems, List.length_append, Nat.add_sub_cancel, List.take_left,
    List.mem_reverse] at hitem
  obtain ⟨record, hrecord, rfl⟩ := List.mem_map.mp hitem
  exact hall record hrecord

theorem pushesFor_save (ti : Mstorage.TransactionItem) (f : Mstorage.OptFreeze) (fails : Bool)
    (m : Manager) : PushesFor ti.eventId m (m.save ti f fails).2 := by
  have hfrozen : (m.answerFrozen ti f).flow = m.flow := by
    unfold Manager.answerFrozen
    split <;> rfl
  have hexecute : PushesFor ti.eventId m (m.handleSave ti f fails) := by
    by_cases hreply : (m.answerFrozen ti f).reply ti fails = .ok
    · refine ⟨[(ti, (m.answerFrozen ti f).opId + 1)], ?_, ?_⟩
      · rw [Manager.handleSave, Mstorage.Manager.execute_flow hreply, hfrozen]
        rfl
      · rintro item hitem
        rw [List.mem_singleton.mp hitem]
    · refine ⟨[], ?_, fun _ h => absurd h List.not_mem_nil⟩
      rw [Manager.reply_eq_ok, Classical.not_imp] at hreply
      rw [Manager.handleSave, Manager.execute, if_pos hreply.1, List.nil_append, ← hfrozen]
      dsimp only
      rw [if_neg hreply.2]
  rw [Manager.save]
  split
  · exact hexecute
  · exact hexecute

theorem pushesFor_putIndividual (env : Env) (r : Mstorage.Request) (userUri : String)
    (rdfType : Mstorage.MapResource) (prev : Option Individual) (m : Manager) :
    PushesFor r.eventId m (Mstorage.putIndividual env r userUri rdfType prev m).manager := by
  rw [Mstorage.putIndividual]
  split
  · exact .refl _ _
  · exact pushesFor_save _ _ _ m

theorem pushesFor_removeIndividual (env : Env) (r : Mstorage.Request) (userUri : String)
    (rdfType : Mstorage.MapResource) (prev : Option Individual) (m : Manager) :
    PushesFor r.eventId m (Mstorage.removeIndividual env r userUri rdfType prev m).manager := by
  cases prev with
  | none => exact pushesFor_save (r.item userUri rdfType .remove r.indv.uri (m.storage r.indv.uri)
      none (Mstorage.nextCounter 0)) r.optFreeze env.removeFails m
  | some prevIndv =>
    rw [Mstorage.removeIndividual]
    split
    · exact .refl _ _
    have hsave (m' : Manager) (fails : Bool) {ti : Mstorage.TransactionItem}
        (hti : ti.eventId = r.eventId) : PushesFor r.eventId m' (m'.save ti r.optFreeze fails).2 :=
      hti ▸ pushesFor_save ti r.optFreeze fails m'
    dsimp only
    split
    · exact (hsave m env.putFails rfl).trans (hsave _ env.removeFails rfl)
    · exact hsave m env.putFails rfl

theorem pushesFor_addToTransaction (env : Env) (r : Mstorage.Request) (m : Manager) :
    PushesFor r.eventId m (addToTransaction env r m).manager := by
  cases hticket : r.ticket with
  | none =>
    rw [addToTransaction, hticket]
    exact .refl _ _
  | some userUri =>
    obtain hrefused | ⟨-, prev, -, ⟨-, hremove⟩ | ⟨-, -, -, rdfType, -, hput⟩⟩ :=
      Mstorage.addToTransaction_cases env r m hticket
    · rw [hrefused.2.1]
      exact .refl _ _
    · rw [hremove]
      exact pushesFor_removeIndividual env r userUri _ prev m
    · rw [hput]
      exact pushesFor_putIndividual env r userUri rdfType prev m

variable {env : Env} {userOf : String → Option String}

theorem pushesFor_update (item : Core.TransactionItem) (indv : Individual) (m : Manager) :
    PushesFor item.eventId m (Core.update (Core.mstorage env userOf) item indv m).2 := by
  rw [Core.update]
  split
  · exact .refl _ _
  split
  · exact .refl _ _
  · exact pushesFor_addToTransaction env (Core.request userOf item (Core.transferred indv)) m

theorem pushesFor_repeatStore (item : Core.TransactionItem) (indv : Individual) (attempts : ℕ)
    (m : Manager) : PushesFor item.eventId m
      (Core.repeatStore (Core.mstorage env userOf) item indv attempts m).2 := by
  induction attempts generalizing m with
  | zero => exact .refl _ _
  | succ attempts ih =>
    have hupdate := @pushesFor_update env userOf item indv m
    rw [Core.repeatStore]
    split
    · exact .refl _ _
    · dsimp only
      split
      · exact hupdate.trans (ih _)
      · exact hupdate

theorem pushesFor_storeItem (item : Core.TransactionItem) (indv : Individual) (m : Manager) :
    PushesFor item.eventId m (Core.storeItem (Core.mstorage env userOf) item indv m).2 := by
  have hupdate := @pushesFor_update env userOf item indv m
  rw [Core.storeItem]
  dsimp only
  split
  · exact hupdate.trans (pushesFor_repeatStore item indv 10 _)
  · exact hupdate

theorem pushesFor_commitQueue {items : List Core.TransactionItem}
    (h : ∀ item ∈ items, item.eventId = eventId) (uri2exists : List String) (m : Manager) :
    PushesFor eventId m (Core.commitQueue (Core.mstorage env userOf) items uri2exists m).2 := by
  induction items generalizing uri2exists m with
  | nil => exact .refl _ _
  | cons item items ih =>
    obtain ⟨hitem, hrest⟩ := List.forall_mem_cons.mp h
    have hstore := @pushesFor_storeItem env userOf item (item.prepared uri2exists) m
    rw [hitem] at hstore
    rw [Core.commitQueue]
    split
    · exact ih hrest _ _
    split
    · exact .refl _ _
    · dsimp only
      split
      · exact hstore.trans (ih hrest _ _)
      · exact hstore

end

/-! ## What a script adds -/

/-- All items have one event id. -/
def Transaction.IsFor (eventId : String) (tnx : Transaction) : Prop :=
  ∀ e ∈ tnx, e.item.eventId = eventId

theorem Transaction.IsFor.share {eventId : String} {tnx : Transaction} (h : tnx.IsFor eventId)
    (cell : Option ℕ) (resources : AList fun _ : String => Resources) :
    (tnx.share cell resources).IsFor eventId := by
  intro e he
  obtain ⟨e', he', rfl⟩ := List.mem_map.mp he
  rw [Entry.share]
  split
  · exact h e' he'
  · exact h e' he'

theorem Transaction.IsFor.concat {eventId : String} {tnx : Transaction} {e : Entry}
    (h : tnx.IsFor eventId) (he : e.item.eventId = eventId) :
    Transaction.IsFor eventId (tnx ++ [e]) := by
  intro e' he'
  rcases List.mem_append.mp he' with he' | he'
  · exact h e' he'
  · rw [List.mem_singleton.mp he', he]

theorem isFor_call {eventId : String} {tnx : Transaction} (h : tnx.IsFor eventId)
    (storage : Mstorage.Storage) (c : Call) :
    Transaction.IsFor eventId (call storage tnx (c.within eventId)).2 := by
  have hfill (ticketId : String) (cmd : IndvOp) (obj : BinObj) :
      Transaction.IsFor eventId (fill ⟨ticketId, eventId⟩ storage tnx cmd obj).2 := by
    rw [fill]
    cases obj.deserialize with
    | none => exact h
    | some indv =>
      dsimp only
      split
      · exact (h.share _ _).concat rfl
      · exact h.concat rfl
  cases c with
  | putIndividual caller obj => exact hfill _ _ _
  | addToIndividual caller obj => exact hfill _ _ _
  | setInIndividual caller obj => exact hfill _ _ _
  | removeFromIndividual caller obj => exact hfill _ _ _
  | removeIndividual caller uri => exact h.concat rfl

theorem isFor_runCalls (eventId : String) (storage : Mstorage.Storage) (calls : List Call) :
    (runCalls storage (calls.map (Call.within eventId))).IsFor eventId := by
  have hfold (tnx : Transaction) (h : tnx.IsFor eventId) :
      Transaction.IsFor eventId ((calls.map (Call.within eventId)).foldl
        (fun tnx c => (call storage tnx c).2) tnx) := by
    induction calls generalizing tnx with
    | nil => exact h
    | cons c calls ih => exact ih _ (isFor_call h storage c)
  exact hfold [] fun _ h => nomatch h

/-- What a script leads to carries its name in front of the names before it. -/
theorem pushesFor_runScript (w : Surroundings) (msg : Message) (scriptId : String) (m : Manager) :
    PushesFor (runScriptId msg.newIndv.uri scriptId ++ ";" ++ msg.item.eventId) m
      (ScriptProcess.runScript w msg scriptId m).2 := by
  rw [ScriptProcess.runScript]
  dsimp only
  cases w.calls scriptId m with
  | none => exact .refl _ _
  | some calls =>
    refine pushesFor_commitQueue (fun item hitem => ?_) [] m
    obtain ⟨e, he, rfl⟩ := List.mem_map.mp hitem
    exact isFor_runCalls _ _ _ e he

/-! ## Budgets -/

/-- The names in event ids, of known scripts run for known individuals. -/
def runScriptIds (U S : Finset String) : Finset (List Char) :=
  Finset.image₂ (fun uri scriptId => (runScriptId uri scriptId).toList) U S

/-- How often scripts may still be run in what a message leads to. -/
def budget (U S : Finset String) (msg : Message) : ℕ :=
  ∑ name ∈ runScriptIds U S, (maxCountLoops + 1 - (fullPathEls msg.item.eventId).count name)

theorem runScriptId_ne_nil (uri scriptId : String) : (runScriptId uri scriptId).toList ≠ [] := by
  rw [runScriptId, String.toList_append, String.toList_append]
  exact fun h => List.cons_ne_nil _ _ (List.append_eq_nil_iff.mp (List.append_eq_nil_iff.mp h).1).2

/-- A name that is put in front of an event id. -/
theorem count_fullPathEls {name : String} (hname : ';' ∉ name.toList) (eventId : String)
    {x : List Char} (hx : x ≠ []) : (fullPathEls (name ++ ";" ++ eventId)).count x =
      (fullPathEls eventId).count x + if name.toList = x then 1 else 0 := by
  have hlist : (name ++ ";" ++ eventId).toList = name.toList ++ ';' :: eventId.toList := by
    rw [String.toList_append, String.toList_append, List.append_assoc]
    rfl
  have hne : name ++ ";" ++ eventId ≠ "" := by
    intro h
    rw [h] at hlist
    exact List.cons_ne_nil _ _ (List.append_eq_nil_iff.mp hlist.symm).2
  have hrest : (eventId.toList.splitOn ';').count x = (fullPathEls eventId).count x := by
    rw [fullPathEls]
    split
    · next h =>
      rw [h, List.count_nil]
      exact List.count_eq_zero.mpr fun hmem => hx (List.mem_singleton.mp hmem)
    · rfl
  rw [fullPathEls, if_neg hne, hlist, List.splitOn_append_cons_self_of_not_mem hname,
    List.count_cons, hrest]
  simp only [beq_iff_eq]

theorem length_fullPathEls {eventId : String} (h : eventId.utf8ByteSize ≤ 1) :
    (fullPathEls eventId).length ≤ 2 := by
  obtain ⟨cs, rfl⟩ : ∃ cs, eventId = String.ofList cs := ⟨_, String.ofList_toList.symm⟩
  rw [String.utf8ByteSize_ofList] at h
  rw [fullPathEls]
  split
  · exact Nat.zero_le 2
  rw [String.toList_ofList]
  rcases cs with - | ⟨c, - | ⟨c', cs⟩⟩
  · exact Nat.le_succ 1
  · by_cases hc : c = ';'
    · rw [hc]
      exact le_rfl
    · rw [List.splitOn_eq_singleton fun hmem => hc (List.mem_singleton.mp hmem).symm]
      exact Nat.le_succ 1
  · have hpos := c.utf8Size_pos
    have hpos' := c'.utf8Size_pos
    rw [String.utf8Len_cons, String.utf8Len_cons] at h
    omega

/-- Behind the tests a name has not been used up. -/
theorem count_le_of_not_looped {eventId name : String} (h : isLooped eventId name = false) :
    (fullPathEls eventId).count name.toList ≤ maxCountLoops := by
  rw [isLooped] at h
  split at h
  · rw [Bool.or_eq_false_iff, decide_eq_false_iff_not, not_lt] at h
    exact h.2
  · next hlen =>
    have hcount := @List.count_le_length _ _ name.toList (fullPathEls eventId)
    have hlength := length_fullPathEls (not_lt.mp hlen)
    rw [maxCountLoops]
    omega

/-- What a script leads to has a smaller budget. -/
theorem budget_lt {U S : Finset String} {msg msg' : Message} {scriptId : String}
    (huri : msg.newIndv.uri ∈ U) (hid : scriptId ∈ S)
    (hname : ';' ∉ (runScriptId msg.newIndv.uri scriptId).toList)
    (hloop : isLooped msg.item.eventId (runScriptId msg.newIndv.uri scriptId) = false)
    (hevent : msg'.item.eventId =
      runScriptId msg.newIndv.uri scriptId ++ ";" ++ msg.item.eventId) :
    budget U S msg' < budget U S msg := by
  have hmem : (runScriptId msg.newIndv.uri scriptId).toList ∈ runScriptIds U S :=
    Finset.mem_image₂_of_mem huri hid
  have hcount {x : List Char} (hx : x ∈ runScriptIds U S) :
      (fullPathEls msg'.item.eventId).count x = (fullPathEls msg.item.eventId).count x +
        if (runScriptId msg.newIndv.uri scriptId).toList = x then 1 else 0 := by
    obtain ⟨uri, -, id, -, rfl⟩ := Finset.mem_image₂.mp hx
    rw [hevent]
    exact count_fullPathEls hname msg.item.eventId (runScriptId_ne_nil uri id)
  refine Finset.sum_lt_sum (fun x hx => ?_) ⟨_, hmem, ?_⟩
  · rw [hcount hx]
    omega
  · have hle := count_le_of_not_looped hloop
    rw [hcount hmem, if_pos rfl]
    omega

/-! ## What a message leads to -/

namespace ScriptProcess

variable {Script : Type} {U S : Finset String} {w : Surroundings} {p p' : ScriptProcess Script}
  {msg : Message} {m m' : Manager} {rc : Option ResultCode} {messages : List Message}

/-- The scripts of a process are known, and the test for loops is made before each of them. -/
def Safe (S : Finset String) (p : ScriptProcess Script) : Prop :=
  ∀ scriptId ∈ p.wpl.scriptsOrder, scriptId ∈ S ∧
    ∀ script, p.wpl.scripts.lookup scriptId = some script → script.isUnsafe = false

theorem budget_lt_of_runScripts (hU : ∀ uri ∈ U, ';' ∉ uri.toList)
    (hS : ∀ scriptId ∈ S, ';' ∉ scriptId.toList) (huri : msg.newIndv.uri ∈ U)
    {scriptIds : List String} (hsafe : ∀ scriptId ∈ scriptIds, scriptId ∈ S ∧
      ∀ script, p.wpl.scripts.lookup scriptId = some script → script.isUnsafe = false)
    (h : p.runScripts w msg scriptIds m = (rc, messages, m')) :
    ∀ msg' ∈ messages, budget U S msg' < budget U S msg := by
  induction scriptIds generalizing m messages with
  | nil =>
    cases h
    exact fun _ h => nomatch h
  | cons scriptId scriptIds ih =>
    obtain ⟨⟨hid, hlookup⟩, hrest⟩ := List.forall_mem_cons.mp hsafe
    rw [runScripts] at h
    cases hscript : p.wpl.scripts.lookup scriptId with
    | none =>
      rw [hscript] at h
      cases h
      exact fun _ h => nomatch h
    | some script =>
      rw [hscript] at h
      dsimp only at h
      split at h
      · next hstarts =>
        have hloop : isLooped msg.item.eventId (runScriptId msg.newIndv.uri scriptId) = false := by
          rw [starts, Bool.and_eq_true, hlookup script hscript] at hstarts
          simpa using hstarts.2
        have hname : ';' ∉ (runScriptId msg.newIndv.uri scriptId).toList := by
          rw [runScriptId, String.toList_append, String.toList_append]
          intro hmem
          rcases List.mem_append.mp hmem with hmem | hmem
          · rcases List.mem_append.mp hmem with hmem | hmem
            · exact hU _ huri hmem
            · exact absurd (List.mem_singleton.mp hmem) (by decide)
          · exact hS _ hid hmem
        have hfirst : ∀ msg' ∈ (pushed m (runScript w msg scriptId m).2).map
            (fun item => (⟨item, p.tnxSrc msg script⟩ : Message)),
            budget U S msg' < budget U S msg := by
          intro msg' hmsg'
          obtain ⟨item, hitem, rfl⟩ := List.mem_map.mp hmsg'
          exact budget_lt huri hid hname hloop
            ((pushesFor_runScript w msg scriptId m).pushed item hitem)
        split at h
        · cases h
          exact hfirst
        · cases h
          intro msg' hmsg'
          rcases List.mem_append.mp hmsg' with hmsg' | hmsg'
          · exact hfirst msg' hmsg'
          · exact ih hrest rfl msg' hmsg'
      · exact ih hrest h

theorem budget_lt_of_prepare {order : Order} (hU : ∀ uri ∈ U, ';' ∉ uri.toList)
    (hS : ∀ scriptId ∈ S, ';' ∉ scriptId.toList) (huri : msg.newIndv.uri ∈ U) (hsafe : p'.Safe S)
    (h : p.prepare w msg order m = (rc, p', messages, m')) :
    ∀ msg' ∈ messages, budget U S msg' < budget U S msg := by
  rw [prepare] at h
  split at h
  · cases h
    exact fun _ h => nomatch h
  split at h
  · cases h
    exact fun _ h => nomatch h
  split at h
  · cases h
    exact fun _ h => nomatch h
  · cases h
    exact budget_lt_of_runScripts hU hS huri hsafe rfl

end ScriptProcess

/-! ## Runs -/

namespace System

variable {Script : Type} {U S : Finset String} {order : Order}

/-- The budgets of the messages that a process has before it. -/
def ahead (U S : Finset String) (flow : List Message) (p : ScriptProcess Script) : Multiset ℕ :=
  (flow.drop p.countPopped).map (budget U S)

/-- The budgets of all that is still to be handled. -/
def waiting (U S : Finset String) (s : System Script) : Multiset ℕ :=
  (s.processes.map (ahead U S s.flow)).sum

/-- New messages come behind those that a process has before it. -/
theorem ahead_append (flow messages : List Message) (p : ScriptProcess Script) :
    ahead U S (flow ++ messages) p =
      ahead U S flow p + (messages.drop (p.countPopped - flow.length)).map (budget U S) := by
  rw [ahead, ahead, List.drop_append, List.map_append, Multiset.coe_add]

theorem sum_ahead_append (flow messages : List Message) (processes : List (ScriptProcess Script)) :
    (processes.map (ahead U S (flow ++ messages))).sum =
      (processes.map (ahead U S flow)).sum + (processes.map fun p =>
        ((messages.drop (p.countPopped - flow.length)).map (budget U S) : Multiset ℕ)).sum := by
  rw [← List.sum_map_add]
  exact congrArg List.sum (List.map_congr_left fun p _ => ahead_append flow messages p)

theorem forall_mem_sum {α β : Type} {f : α → Multiset β} {P : β → Prop}
    (h : ∀ a, ∀ b ∈ f a, P b) (l : List α) : ∀ b ∈ (l.map f).sum, P b := by
  induction l with
  | nil => exact fun b hb => absurd hb (Multiset.notMem_zero b)
  | cons a l ih =>
    intro b hb
    rw [List.map_cons, List.sum_cons] at hb
    rcases Multiset.mem_add.mp hb with hb | hb
    · exact h a b hb
    · exact ih b hb

/-- A message makes place for those that it leads to. -/
theorem cutExpand_waiting {manager manager' : Mstorage.Manager} {flow messages : List Message}
    {before after : List (ScriptProcess Script)} {p p' : ScriptProcess Script} {msg : Message}
    (hmsg : flow[p.countPopped]? = some msg) (hp' : p'.countPopped = p.countPopped + 1)
    (hsmaller : ∀ msg' ∈ messages, budget U S msg' < budget U S msg) :
    CutExpand (· < ·)
      (waiting U S ⟨manager', flow ++ messages, before ++ p' :: after⟩)
      (waiting U S ⟨manager, flow, before ++ p :: after⟩) := by
  obtain ⟨hlt, hget⟩ := List.getElem?_eq_some_iff.mp hmsg
  have hp : ahead U S flow p = budget U S msg ::ₘ ahead U S flow p' := by
    rw [ahead, ahead, hp', List.drop_eq_getElem_cons hlt, hget, List.map_cons]
    rfl
  have hnew (q : ScriptProcess Script) : ∀ b ∈ ((messages.drop (q.countPopped -
      flow.length)).map (budget U S) : Multiset ℕ), b < budget U S msg := by
    intro b hb
    obtain ⟨msg', hmsg', rfl⟩ := List.mem_map.mp (Multiset.mem_coe.mp hb)
    exact hsmaller msg' (List.mem_of_mem_drop hmsg')
  refine ⟨((before ++ p' :: after).map fun q =>
    ((messages.drop (q.countPopped - flow.length)).map (budget U S) : Multiset ℕ)).sum,
    budget U S msg, forall_mem_sum hnew _, ?_⟩
  · rw [waiting, waiting, sum_ahead_append]
    simp only [List.map_append, List.map_cons, List.sum_append, List.sum_cons, hp]
    rw [← Multiset.singleton_add]
    abel

/-- What a process does with its next message makes less of what is waiting. -/
theorem cutExpand_of_handled {s s' : System Script} (hU : ∀ uri ∈ U, ';' ∉ uri.toList)
    (hS : ∀ scriptId ∈ S, ';' ∉ scriptId.toList) (huris : ∀ msg ∈ s.flow, msg.newIndv.uri ∈ U)
    (hsafe : ∀ p ∈ s'.processes, p.Safe S) (h : Handled order s s') :
    CutExpand (· < ·) (waiting U S s') (waiting U S s) := by
  cases h with
  | @prepared manager manager' flow messages before after p p' msg w rc hmsg hprepare hrc =>
    have huri := huris _ (List.mem_of_getElem? hmsg)
    have hp' : p'.Safe S := hsafe { p' with countPopped := p.countPopped + 1 }
      (List.mem_append_right _ List.mem_cons_self)
    exact cutExpand_waiting hmsg rfl
      (ScriptProcess.budget_lt_of_prepare hU hS huri hp' hprepare)
  | @passedOver manager flow before after p hmsg =>
    have hstep := @cutExpand_waiting _ U S manager manager flow [] before after p
      { p with countPopped := p.countPopped + 1 } _ (List.getElem?_eq_getElem hmsg) rfl
      fun _ h => nomatch h
    rwa [List.append_nil] at hstep

/-- A script for all changes. -/
def anyChange : ScriptInfo Unit where
  id := "d:s"
  strScript := ""
  triggerByType := ∅
  preventByType := ∅
  triggerByUid := ∅
  dependency := ∅
  compiledScript := some ()
  runAt := "main"
  disallowChangingSource := false
  isUnsafe := false

/-- A change of `d:a` that a client has made, before the process with the script and behind it. -/
def oneChange (n : ℕ) : System Unit where
  manager := Mstorage.idleManager fun _ => none
  flow := [⟨⟨.put, "", "d:a", none, some (.serialize ⟨"d:a", ∅⟩), 1, "", false, false, 0⟩, some "?"⟩]
  processes := [⟨"main", "scripts_main0", ⟨fun _ => none⟩, ⟨"", "", "", ""⟩,
    ⟨AList.singleton "d:s" anyChange, ["d:s"]⟩, .new, min n 1⟩]

end System

end Veda.Gluecode
