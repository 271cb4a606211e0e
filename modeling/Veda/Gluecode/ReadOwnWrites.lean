import Veda.Gluecode.Calls

/-! # Reading what was written

A script reads an individual that it has changed in its transaction. What it gets is what it passed
last, and not what the transaction will leave in the storage (`readIndividual_iff`). -/

namespace Veda.Gluecode

open Onto Veda.Core
open Mstorage hiding TransactionItem

/-! ## What a transaction leaves under a uri -/

/-- What the storage holds under a uri, and whether the uri has been sent before. -/
structure Under where
  obj : Option BinObj
  isRepeated : Bool

/-- The counter of what is stored. -/
def counterOf (obj : Option BinObj) : Int :=
  ((obj.bind BinObj.deserialize).getD .init).getFirstInteger updateCounter 0

/-- The individual that is sent for an item. -/
def sent (item : TransactionItem) (isRepeated : Bool) : Individual :=
  transferred (item.prepared (if isRepeated then [item.uri] else []))

/-- What is under a uri when an item has been sent. -/
def leave (uri : String) (u : Under) (item : TransactionItem) : Under :=
  if item.newIndv.uri ≠ uri then u
  else if item.cmd = .remove then ⟨none, u.isRepeated⟩
  else if (sent item u.isRepeated).resources.keys = [] then ⟨u.obj, true⟩
  else
    ⟨some (.serialize ((sent item u.isRepeated).setResources updateCounter
      [.integer (nextCounter (counterOf u.obj))])), true⟩

theorem bind_deserialize (storage : Storage) (uri : String) :
    (storage uri).bind BinObj.deserialize = (readPrev storage uri).join := by
  unfold readPrev
  cases storage uri with
  | none => rfl
  | some obj =>
    cases hobj : obj.deserialize with
    | none => simp [hobj]
    | some indv => simp [hobj]

theorem counterOf_of_readPrev {storage : Storage} {uri : String} {prev : Option Individual}
    (h : readPrev storage uri = some prev) :
    counterOf (storage uri) = (prev.getD .init).getFirstInteger updateCounter 0 := by
  rw [counterOf, bind_deserialize, h]
  rfl

theorem changed_put {storage : Storage} (indv : Individual)
    (h : readPrev storage indv.uri ≠ none) :
    changed .put indv storage = Function.update storage indv.uri (some (.serialize
      (indv.setResources updateCounter
        [.integer (nextCounter (counterOf (storage indv.uri)))]))) := by
  obtain ⟨prev, hprev⟩ := Option.ne_none_iff_exists'.mp h
  rw [changed, hprev, counterOf_of_readPrev hprev]
  rfl

theorem changed_remove {storage : Storage} (indv : Individual) (hkeyed : Keyed storage)
    (h : readPrev storage indv.uri ≠ none) (hsome : storage indv.uri ≠ none) :
    changed .remove indv storage = Function.update storage indv.uri none := by
  obtain ⟨prev, hprev⟩ := Option.ne_none_iff_exists'.mp h
  rw [changed, hprev]
  cases prev with
  | none => exact absurd (readPrev_eq_some_none hprev) hsome
  | some p =>
    rw [← hkeyed indv.uri p (readPrev_eq_some_some hprev)]
    rfl

/-- The uris that are repeated matter to an item for its own uri only. -/
theorem prepared_congr {item : TransactionItem} {uris uris' : List String}
    (h : item.uri ∈ uris ↔ item.uri ∈ uris') : item.prepared uris = item.prepared uris' := by
  unfold TransactionItem.prepared
  rw [if_congr (and_congr_left fun _ => h) rfl rfl]

section
variable {env : Env} {userOf : String → Option String} {item : TransactionItem}
  {items : List TransactionItem} {uri : String} {seen : List String} {m m' : Manager}
  {isRepeated : Bool}

/-- One item: the storage holds what `leave` says. -/
theorem leave_of_stored (hs : Scripted item) (hkeyed : Keyed m.storage)
    (hstored : Stored item (item.prepared seen) m m') (hempty : item.newIndv.uri ≠ "")
    (hseen : uri ≠ "" → (isRepeated = true ↔ uri ∈ seen)) :
    m'.storage uri = (leave uri ⟨m.storage uri, isRepeated⟩ item).obj ∧
      (uri ≠ "" → ((leave uri ⟨m.storage uri, isRepeated⟩ item).isRepeated = true ↔
        uri ∈ item.uri :: seen)) := by
  have hprepared := prepared_uri item seen
  by_cases hremove : item.cmd = .remove
  · -- a removal is noted under the empty text
    have hcontent : item.HasContent (item.prepared seen) := .inl hremove
    have hstorage := hstored.storage
    rw [if_pos hcontent, hremove, changed_remove (transferred _) hkeyed
      (hstored.readable hcontent) (hstored.removes hremove), transferred_uri, hprepared]
      at hstorage
    have hmem : uri ≠ "" → (isRepeated = true ↔ uri ∈ item.uri :: seen) := by
      intro huri
      rw [(hs.remove hremove).1, List.mem_cons, or_iff_right huri]
      exact hseen huri
    rw [hstorage, leave]
    by_cases hother : item.newIndv.uri = uri
    · rw [if_neg (not_not.mpr hother), if_pos hremove, hother, Function.update_self]
      exact ⟨rfl, hmem⟩
    · rw [if_pos hother, Function.update_of_ne (Ne.symm hother)]
      exact ⟨rfl, hmem⟩
  obtain ⟨hput, _, hitem, _⟩ := hs.put hremove
  have hcontent : item.HasContent (item.prepared seen) ↔
      (transferred (item.prepared seen)).resources.keys ≠ [] := or_iff_right hremove
  have hstorage := hstored.storage
  by_cases hother : item.newIndv.uri = uri
  · have hsent : item.prepared seen =
        item.prepared (if isRepeated then [item.uri] else []) := by
      apply prepared_congr
      rw [hitem, hother, ← hseen (hother ▸ hempty)]
      cases isRepeated with
      | true => simp
      | false => simp
    have hrepeated : uri ∈ item.uri :: seen := by
      rw [hitem, hother]
      exact List.mem_cons_self
    rw [leave, if_neg (not_not.mpr hother), if_neg hremove, sent, ← hsent]
    by_cases hkeys : (transferred (item.prepared seen)).resources.keys = []
    · rw [if_neg fun h => hcontent.mp h hkeys] at hstorage
      rw [hstorage, if_pos hkeys]
      exact ⟨rfl, fun _ => ⟨fun _ => hrepeated, fun _ => rfl⟩⟩
    · rw [if_pos (hcontent.mpr hkeys), hput,
        changed_put (transferred _) (hstored.readable (hcontent.mpr hkeys)), transferred_uri,
        hprepared, hother] at hstorage
      rw [hstorage, if_neg hkeys, Function.update_self]
      exact ⟨rfl, fun _ => ⟨fun _ => hrepeated, fun _ => rfl⟩⟩
  · have hmem : uri ≠ "" → (isRepeated = true ↔ uri ∈ item.uri :: seen) := by
      rw [hitem, List.mem_cons, or_iff_right (Ne.symm hother)]
      exact hseen
    rw [leave, if_pos hother]
    by_cases hc : item.HasContent (item.prepared seen)
    · rw [if_pos hc, hput, changed_put (transferred _) (hstored.readable hc), transferred_uri,
        hprepared] at hstorage
      rw [hstorage, Function.update_of_ne (Ne.symm hother)]
      exact ⟨rfl, hmem⟩
    · rw [if_neg hc] at hstorage
      rw [hstorage]
      exact ⟨rfl, hmem⟩

/-- A commit of scripted items leaves in the storage what `leave` says, item by item. -/
theorem commitQueue_leaves (hitems : ∀ item ∈ items, Scripted item) (hm : m.Idle)
    (hkeyed : Keyed m.storage)
    (hcommit : commitQueue (mstorage env userOf) items seen m = (.ok, m'))
    (hseen : uri ≠ "" → (isRepeated = true ↔ uri ∈ seen)) :
    m'.Idle ∧ Keyed m'.storage ∧
      m'.storage uri = (items.foldl (leave uri) ⟨m.storage uri, isRepeated⟩).obj := by
  induction items generalizing m seen isRepeated with
  | nil =>
    rw [← (Prod.mk.inj hcommit).2]
    exact ⟨hm, hkeyed, rfl⟩
  | cons item items ih =>
    have hs := hitems item List.mem_cons_self
    obtain ⟨hvalid, ⟨hinit, _⟩ | ⟨hinit, rc, m₁, hstore, hgoes, hrest⟩⟩ :=
      commitQueue_cons_ok hcommit
    · exact absurd hinit hs.not_isInit
    have hempty : item.newIndv.uri ≠ "" := by
      intro h
      refine hvalid ⟨hinit, .inr ?_⟩
      rw [h]
      exact Nat.two_pos
    have hassigned : assignedTo item.assignedSubsystems subsystemStorage = true := by
      rw [hs.assigned]
      rfl
    have hstored := storeItem_mstorage hm hassigned hstore hgoes
    have hkeyed' : Keyed m₁.storage := by
      rw [hstored.storage]
      split
      · exact hkeyed.changed _ _
      · exact hkeyed
    obtain ⟨hobj, hrepeated⟩ := leave_of_stored hs hkeyed hstored hempty hseen
    obtain ⟨hidle, hkeyed'', hrest⟩ :=
      ih (fun x hx => hitems x (List.mem_cons_of_mem _ hx)) hstored.idle hkeyed' hrest hrepeated
    refine ⟨hidle, hkeyed'', ?_⟩
    rw [hrest, hobj, List.foldl_cons]

/-- Items on other uris leave it as it is. -/
theorem foldl_leave_of_ne (h : ∀ item ∈ items, item.newIndv.uri ≠ uri) (u : Under) :
    items.foldl (leave uri) u = u := by
  induction items generalizing u with
  | nil => rfl
  | cons item items ih =>
    rw [List.foldl_cons, leave, if_pos (h item List.mem_cons_self)]
    exact ih (fun x hx => h x (List.mem_cons_of_mem _ hx)) u

theorem leave_eq (h : item.newIndv.uri = uri) (u : Under) : leave uri u item =
    if item.cmd = .remove then ⟨none, u.isRepeated⟩
    else if (sent item u.isRepeated).resources.keys = [] then ⟨u.obj, true⟩
    else
      ⟨some (.serialize ((sent item u.isRepeated).setResources updateCounter
        [.integer (nextCounter (counterOf u.obj))])), true⟩ :=
  if_neg (not_not.mpr h)

end

/-! ## What is sent -/

section
variable {item : TransactionItem} {isRepeated : Bool} {p : String}

theorem sent_uri (item : TransactionItem) (isRepeated : Bool) :
    (sent item isRepeated).uri = item.newIndv.uri := prepared_uri _ _

theorem prepared_new (item : TransactionItem) : item.prepared [] = item.newIndv :=
  if_neg fun h => List.not_mem_nil h.1

/-- Only the counter is filled in. -/
theorem getResources_prepared (item : TransactionItem) (uri2exists : List String)
    (hp : p ≠ updateCounter) :
    (item.prepared uri2exists).getResources p = item.newIndv.getResources p := by
  rw [TransactionItem.prepared]
  split
  · exact Individual.getResources_setResources_ne (Ne.symm hp)
  · rfl

/-- Behind another item on its uri an item has a counter. -/
theorem getResources_prepared_counter (item : TransactionItem) :
    (item.prepared [item.uri]).getResources updateCounter ≠ [] := by
  rw [TransactionItem.prepared]
  split
  · rw [Individual.getResources_setResources_self]
    exact List.cons_ne_nil _ _
  · next hset => exact fun h => hset ⟨List.mem_singleton_self _, h⟩

theorem getResources_sent (hp : p ≠ updateCounter) :
    (sent item isRepeated).getResources p = item.newIndv.getResources p := by
  rw [sent, getResources_transferred, getResources_prepared _ _ hp]

theorem transferred_keys_eq_nil {indv : Individual} :
    (transferred indv).resources.keys = [] ↔ ∀ p, indv.getResources p = [] := by
  constructor
  · intro h p
    rw [← getResources_transferred]
    apply Individual.getResources_of_notMem_keys
    rw [h]
    exact List.not_mem_nil
  · intro h
    apply List.eq_nil_iff_forall_not_mem.mpr
    intro p hp
    have hlookup := lookup_transferred indv p
    have hvalues := h p
    rw [Individual.getResources] at hvalues
    have hsome := AList.lookup_isSome.mpr (AList.mem_keys.mpr hp)
    obtain ⟨rss, hrss⟩ := Option.isSome_iff_exists.mp hsome
    rw [hrss] at hlookup
    split at hlookup
    · exact Option.some_ne_none _ hlookup
    · next hne =>
      rw [← hlookup] at hvalues hne
      exact hne (congrArg some hvalues)

/-- Nothing is sent for a new uri without values. -/
theorem sent_keys_eq_nil : (sent item isRepeated).resources.keys = [] ↔
    isRepeated = false ∧ ∀ p, item.newIndv.getResources p = [] := by
  rw [sent, transferred_keys_eq_nil]
  cases isRepeated with
  | false =>
    have hnew : item.prepared (if false = true then [item.uri] else []) = item.newIndv :=
      prepared_new item
    rw [hnew]
    exact (and_iff_right rfl).symm
  | true =>
    constructor
    · intro h
      exact absurd (h updateCounter) (getResources_prepared_counter item)
    · exact fun h => Bool.noConfusion h.1

end

/-! ## What a reader sees -/

/-- A text as a reader sees it: the uri and the values. -/
def shown : BinObj → Option (String × (String → Resources))
  | .individual indv => some (indv.uri, indv.getResources)
  | .invalid => none

/-- The same text, or none in both places. -/
def Same (obj obj' : Option BinObj) : Prop := obj.map shown = obj'.map shown

theorem same_individual {indv indv' : Individual} (h : indv.uri = indv'.uri) :
    Same (some (.individual indv)) (some (.individual indv')) ↔
      ∀ p, indv.getResources p = indv'.getResources p := by
  unfold Same
  constructor
  · intro heq p
    have hshown := Option.some.inj (Option.some.inj heq)
    exact congrFun (Prod.mk.inj hshown).2 p
  · intro heq
    have hvalues : indv.getResources = indv'.getResources := funext heq
    rw [Option.map_some, Option.map_some, shown, shown, h, hvalues]

/-- Nothing is sent for a change: it leaves no values, and the uri has not been sent before. -/
def Unsent (cmd : IndvOp) (prev : Prev) (indv : Individual) (u : Under) : Prop :=
  u.isRepeated = false ∧ ∀ p, (merged cmd prev indv).getResources p = []

/-- A change leaves just what it passes. -/
structure Plain (cmd : IndvOp) (prev : Prev) (indv : Individual) (u : Under) : Prop where
  values : ∀ p, p ≠ updateCounter →
    indv.getResources p = (merged cmd prev indv).getResources p
  counter : indv.getResources updateCounter = [.integer (nextCounter (counterOf u.obj))]

/-- The last change of a uri passes what is stored then: `prev` is what it is merged into, and `u`
what is under the uri when its turn comes in the commit. -/
def Shows (cmd : IndvOp) (prev : Prev) (indv : Individual) (u : Under) : Prop :=
  Unsent cmd prev indv u ∧ Same (some (.individual indv)) u.obj ∨
    ¬Unsent cmd prev indv u ∧ Plain cmd prev indv u

/-- The item of a change on its uri. -/
theorem same_leave_iff {item : TransactionItem} {cmd : IndvOp} {prev : Prev} {indv : Individual}
    (hs : Scripted item) (hcmd : item.cmd = .put)
    (hobj : item.newBinobj = some (.individual indv)) (hnew : item.newIndv = merged cmd prev indv)
    (u : Under) :
    Same item.newBinobj (leave item.newIndv.uri u item).obj ↔ Shows cmd prev indv u := by
  have hremove : item.cmd ≠ .remove := by
    rw [hcmd]
    exact fun h => IndvOp.noConfusion h
  obtain ⟨_, _, huri, d, hd, hduri⟩ := hs.put hremove
  have hindv : indv.uri = item.newIndv.uri := by
    rw [← huri, ← hduri, BinObj.individual.inj (Option.some.inj (hobj.symm.trans hd))]
  have hunsent : (sent item u.isRepeated).resources.keys = [] ↔ Unsent cmd prev indv u := by
    rw [sent_keys_eq_nil, hnew]
    rfl
  rw [leave_eq rfl, if_neg hremove, hobj, Shows]
  by_cases hu : Unsent cmd prev indv u
  · rw [if_pos (hunsent.mpr hu), and_iff_right hu, or_iff_left fun h => h.1 hu]
  · rw [if_neg fun h => hu (hunsent.mp h), and_iff_right hu, or_iff_right fun h => hu h.1]
    have hstored : Same (some (.individual indv)) (some (.serialize
        ((sent item u.isRepeated).setResources updateCounter
          [.integer (nextCounter (counterOf u.obj))]))) ↔ _ :=
      same_individual (hindv.trans (sent_uri item u.isRepeated).symm)
    rw [hstored]
    constructor
    · intro h
      refine ⟨?_, ?_⟩
      · intro p hp
        rw [h p, Individual.getResources_setResources_ne (Ne.symm hp), getResources_sent hp, hnew]
      · rw [h updateCounter, Individual.getResources_setResources_self]
    · intro h p
      by_cases hp : p = updateCounter
      · rw [hp, h.counter, Individual.getResources_setResources_self]
      · rw [h.values p hp, Individual.getResources_setResources_ne (Ne.symm hp),
          getResources_sent hp, hnew]

/-! ## The text that is read -/

/-- What is under a uri when the first `count` items have been sent. -/
def under (uri : String) (storage : Storage) (tnx : Transaction) (count : Nat) : Under :=
  (Transaction.queue (tnx.take count)).foldl (leave uri) ⟨storage uri, false⟩

/-- When what is read is up to date. A special name has to stand for what is stored. On any other
uri the last call has to be a change that passes what it leaves, if there is a call at all. -/
def Current (docs : Documents) (storage : Storage) (calls : List Call) (uri : String) : Prop :=
  match reserved docs uri with
  | some text =>
    Same text (under uri storage (runCalls storage calls) (runCalls storage calls).length).obj
  | none =>
    ∀ earlier c later, calls = earlier ++ c :: later → c.adds = some uri →
      (∀ c ∈ later, c.adds ≠ some uri) →
      ∃ cmd indv, c.passes = some (cmd, indv) ∧
        Shows cmd (getPrev storage (runCalls storage earlier) uri) indv
          (under uri storage (runCalls storage calls) (runCalls storage earlier).length)

section
variable {env : Env} {userOf : String → Option String} {docs : Documents} {calls : List Call}
  {uri : String} {m m' : Manager}

/-- What the commit of a script leaves under a uri. -/
theorem commit_leaves (hm : m.Idle) (hkeyed : Keyed m.storage)
    (hcommit : commit (mstorage env userOf) (runCalls m.storage calls).queue m = (.ok, m')) :
    m'.storage uri =
      (under uri m.storage (runCalls m.storage calls) (runCalls m.storage calls).length).obj := by
  have hscripted : ∀ item ∈ (runCalls m.storage calls).queue, Scripted item := by
    intro item hitem
    obtain ⟨e, he, rfl⟩ := List.mem_map.mp hitem
    exact (runCalls_valid hkeyed calls).scripted e he
  have hseen : uri ≠ "" → (false = true ↔ uri ∈ []) := fun _ => by simp
  obtain ⟨_, _, hleft⟩ := commitQueue_leaves hscripted hm hkeyed hcommit hseen
  rw [hleft, under, List.take_length]

/-- The last item on a uri settles what is under it. -/
theorem under_of_last {storage : Storage} {pre post : Transaction} {e : Entry}
    (hpost : ∀ x ∈ post, x.uri ≠ uri) :
    under uri storage (pre ++ e :: post) (pre ++ e :: post).length =
      leave uri (under uri storage (pre ++ e :: post) pre.length) e.item := by
  have hrest : ∀ item ∈ Transaction.queue post, item.newIndv.uri ≠ uri := by
    intro item hitem
    obtain ⟨x, hx, rfl⟩ := List.mem_map.mp hitem
    exact hpost x hx
  rw [under, under, List.take_length, List.take_left', Transaction.queue, Transaction.queue,
    List.map_append, List.map_cons, List.foldl_append, List.foldl_cons]
  · exact foldl_leave_of_ne hrest _
  · rfl

theorem readIndividual_of_reserved {storage : Storage} {tnx : Transaction} {text : Option BinObj}
    (h : reserved docs uri = some text) : readIndividual docs storage tnx uri = text := by
  rw [readIndividual, h]

theorem readIndividual_of_none {storage : Storage} {tnx : Transaction}
    (h : reserved docs uri = none) (hget : tnx.get uri = none) :
    readIndividual docs storage tnx uri = storage uri := by
  rw [readIndividual, h, hget]

theorem readIndividual_of_some {storage : Storage} {tnx : Transaction} {e : Entry} {obj : BinObj}
    (h : reserved docs uri = none) (hget : tnx.get uri = some e)
    (hobj : e.item.newBinobj = some obj) :
    readIndividual docs storage tnx uri = some obj := by
  rw [readIndividual, h, hget]
  exact congrArg (·.or (storage uri)) hobj

/-- No call on the uri: the storage is read, and the commit leaves it as it is. -/
theorem readIndividual_untouched (hm : m.Idle) (hkeyed : Keyed m.storage)
    (hcommit : commit (mstorage env userOf) (runCalls m.storage calls).queue m = (.ok, m'))
    (hreserved : reserved docs uri = none) (hcalls : ∀ c ∈ calls, c.adds ≠ some uri) :
    readIndividual docs m.storage (runCalls m.storage calls) uri = m'.storage uri := by
  have hnone := runCalls_of_not_adds hkeyed calls hcalls
  have hqueue : ∀ item ∈ (runCalls m.storage calls).queue, item.newIndv.uri ≠ uri := by
    intro item hitem
    obtain ⟨x, hx, rfl⟩ := List.mem_map.mp hitem
    exact hnone x hx
  rw [commit_leaves hm hkeyed hcommit, under, List.take_length, foldl_leave_of_ne hqueue]
  exact readIndividual_of_none hreserved (Transaction.get_eq_none hnone)

/-- The last call on the uri: what it passed is read. -/
theorem same_readIndividual_iff (hm : m.Idle) (hkeyed : Keyed m.storage)
    {earlier later : List Call} {c : Call} (hreserved : reserved docs uri = none)
    (hcalls : calls = earlier ++ c :: later) (hadds : c.adds = some uri)
    (hlater : ∀ c ∈ later, c.adds ≠ some uri)
    (hcommit : commit (mstorage env userOf) (runCalls m.storage calls).queue m = (.ok, m')) :
    Same (readIndividual docs m.storage (runCalls m.storage calls) uri) (m'.storage uri) ↔
      ∃ cmd indv, c.passes = some (cmd, indv) ∧
        Shows cmd (getPrev m.storage (runCalls m.storage earlier) uri) indv
          (under uri m.storage (runCalls m.storage calls)
            (runCalls m.storage earlier).length) := by
  obtain ⟨pre, e, post, hrun, hlength, huri, hpost, hadded⟩ :=
    runCalls_last hkeyed earlier later c hadds hlater
  rw [← hcalls] at hrun
  have hget : Transaction.get (runCalls m.storage calls) uri = some e := by
    rw [hrun]
    exact Transaction.get_of_last pre post e huri hpost
  have hempty : e.item.newIndv.uri ≠ "" := by
    intro h
    have hmem : e.item ∈ (runCalls m.storage calls).queue := by
      rw [hrun]
      exact List.mem_map_of_mem (List.mem_append_right _ List.mem_cons_self)
    refine not_invalid_of_ok hcommit e.item hmem ⟨hadded.scripted.not_isInit, .inr ?_⟩
    rw [h]
    exact Nat.two_pos
  have hleft : m'.storage uri = (leave uri (under uri m.storage (runCalls m.storage calls)
      (runCalls m.storage earlier).length) e.item).obj := by
    rw [commit_leaves hm hkeyed hcommit, ← hlength, hrun, under_of_last hpost]
  cases hpasses : c.passes with
  | none =>
    have hremove := hadded.removes hpasses
    have hobj := (hadded.scripted.remove hremove).2 hempty
    rw [hleft, leave_eq huri, if_pos hremove, readIndividual_of_some hreserved hget hobj]
    constructor
    · exact fun h => absurd h (Option.some_ne_none _)
    · rintro ⟨cmd, indv, h, _⟩
      exact absurd h.symm (Option.some_ne_none _)
  | some change =>
    obtain ⟨cmd, indv⟩ := change
    obtain ⟨hput, hobj, hnew⟩ := hadded.puts cmd indv hpasses
    have hindv : indv.uri = uri := by
      obtain ⟨_, _, hitem, d, hd, hduri⟩ :=
        hadded.scripted.put fun h => IndvOp.noConfusion (hput.symm.trans h)
      rw [BinObj.individual.inj (Option.some.inj (hobj.symm.trans hd)), hduri, hitem]
      exact huri
    rw [hindv] at hnew
    have hsame := same_leave_iff hadded.scripted hput hobj hnew
      (under uri m.storage (runCalls m.storage calls) (runCalls m.storage earlier).length)
    have hitem : e.item.newIndv.uri = uri := huri
    rw [hitem] at hsame
    rw [hleft, readIndividual_of_some hreserved hget hobj, ← hobj, hsame]
    constructor
    · exact fun h => ⟨cmd, indv, rfl, h⟩
    · rintro ⟨cmd', indv', h, hshows⟩
      obtain ⟨rfl, rfl⟩ := Prod.mk.inj (Option.some.inj h)
      exact hshows

end

/-- There is a last call on a uri, or none. -/
theorem exists_last_call (calls : List Call) (uri : String) :
    (∀ c ∈ calls, c.adds ≠ some uri) ∨ ∃ earlier c later, calls = earlier ++ c :: later ∧
      c.adds = some uri ∧ ∀ c ∈ later, c.adds ≠ some uri := by
  induction calls with
  | nil => exact .inl fun c hc => absurd hc List.not_mem_nil
  | cons first calls ih =>
    obtain hnone | ⟨earlier, c, later, rfl, hadds, hlater⟩ := ih
    · by_cases hfirst : first.adds = some uri
      · exact .inr ⟨[], first, calls, rfl, hfirst, hnone⟩
      · refine .inl fun c hc => ?_
        obtain rfl | hc := List.mem_cons.mp hc
        · exact hfirst
        · exact hnone c hc
    · exact .inr ⟨first :: earlier, c, later, rfl, hadds, hlater⟩

/-- A script reads what its transaction will leave exactly where `Current` holds. -/
theorem readIndividual_iff (env : Env) (userOf : String → Option String) (docs : Documents)
    (calls : List Call) (uri : String) (m m' : Manager) (hm : m.Idle) (hkeyed : Keyed m.storage)
    (hcommit : commit (mstorage env userOf) (runCalls m.storage calls).queue m = (.ok, m')) :
    Same (readIndividual docs m.storage (runCalls m.storage calls) uri) (m'.storage uri) ↔
      Current docs m.storage calls uri := by
  unfold Current
  split
  · next text hreserved =>
    rw [readIndividual_of_reserved hreserved, commit_leaves hm hkeyed hcommit]
  next hreserved =>
  obtain hnone | ⟨earlier, c, later, hcalls, hadds, hlater⟩ := exists_last_call calls uri
  · rw [readIndividual_untouched hm hkeyed hcommit hreserved hnone]
    refine iff_of_true rfl ?_
    intro earlier c later hcalls hadds
    refine absurd hadds (hnone c ?_)
    rw [hcalls]
    exact List.mem_append_right _ List.mem_cons_self
  · constructor
    · intro h earlier c later hcalls hadds hlater
      exact (same_readIndividual_iff hm hkeyed hreserved hcalls hadds hlater hcommit).mp h
    · intro h
      exact (same_readIndividual_iff hm hkeyed hreserved hcalls hadds hlater hcommit).mpr
        (h earlier c later hcalls hadds hlater)

/-! ## Two scripts -/

/-- An individual with one value. -/
def valued (p : String) (n : Int) : Individual := ⟨"d:a", AList.singleton p [.integer n]⟩

/-- A script on an empty database, with its commit. -/
def committed (calls : List Call) : ResultCode × Manager :=
  commit (mstorage (healthyEnv (onlyGrants fun _ => true) "") fun _ => some "")
    (runCalls (fun _ => none) calls).queue (idleManager fun _ => none)

/-- What a script on an empty database reads. -/
def readBack (calls : List Call) (uri : String) : Option BinObj :=
  readIndividual ⟨none, none, none⟩ (fun _ => none) (runCalls (fun _ => none) calls) uri

/-- A script that passes the counter that will be stored. -/
def putCounted : List Call := [.putIndividual ⟨"", ""⟩ (.individual (valued updateCounter 1))]

theorem readIndividual_putCounted :
    Same (readBack putCounted "d:a") ((committed putCounted).2.storage "d:a") ↔
      Current ⟨none, none, none⟩ (fun _ => none) putCounted "d:a" :=
  readIndividual_iff (healthyEnv (onlyGrants fun _ => true) "") (fun _ => some "")
    ⟨none, none, none⟩ putCounted "d:a" (idleManager fun _ => none) (committed putCounted).2
    (idleManager_idle _) (fun _ _ h => absurd h.symm (Option.some_ne_none _)) rfl

/-- A script puts an individual, and then adds a value to it. -/
def putThenAdd : List Call :=
  [.putIndividual ⟨"", ""⟩ (.individual (valued "v-s:value" 1)),
    .addToIndividual ⟨"", ""⟩ (.individual (valued "v-s:value" 2))]

/-- What `putThenAdd` leaves. -/
def bothValues : Individual :=
  (Individual.mk "d:a" (AList.singleton "v-s:value" [.integer 1, .integer 2])).setResources
    updateCounter [.integer 2]

/-- The added value is read, and both values are stored. -/
theorem not_current_putThenAdd : (committed putThenAdd).1 = .ok ∧
    ¬Same (readBack putThenAdd "d:a") ((committed putThenAdd).2.storage "d:a") := by
  refine ⟨rfl, ?_⟩
  have hread : readBack putThenAdd "d:a" = some (.individual (valued "v-s:value" 2)) := rfl
  have hstored : (committed putThenAdd).2.storage "d:a" = some (.individual bothValues) := rfl
  have huri : (valued "v-s:value" 2).uri = bothValues.uri := rfl
  intro h
  rw [hread, hstored] at h
  have hvalues : [Resource.integer 2] = [.integer 1, .integer 2] :=
    (same_individual huri).mp h "v-s:value"
  exact absurd (congrArg List.length hvalues) (by decide)

end Veda.Gluecode
