import Veda.Gluecode.Script

/-! # What a call adds

The items that the calls of a script add to its transaction, and the last item on a uri. -/

namespace Veda.Gluecode

open Onto Veda.Core
open Mstorage hiding TransactionItem

/-! ## The items of a script -/

/-- What holds of every item that a call adds. -/
structure Scripted (item : TransactionItem) : Prop where
  rc : item.rc = .ok
  assigned : item.assignedSubsystems = allModules
  put : item.cmd ≠ .remove → item.cmd = .put ∧ item.status = .ok ∧ item.uri = item.newIndv.uri ∧
    ∃ d, item.newBinobj = some (.individual d) ∧ d.uri = item.uri
  remove : item.cmd = .remove → item.uri = "" ∧
    (item.newIndv.uri ≠ "" → item.newBinobj = some .invalid)

theorem Scripted.not_isInit {item : TransactionItem} (h : Scripted item) : ¬item.isInit := by
  rintro ⟨hcmd, _, hstatus⟩
  rw [(h.put hcmd).2.1] at hstatus
  exact ResultCode.noConfusion hstatus

namespace Transaction

variable {tnx : Transaction} {uri : String} {e : Entry}

theorem get_append (tnx : Transaction) (e : Entry) (uri : String) :
    Transaction.get (tnx ++ [e]) uri = if e.uri = uri then some e else tnx.get uri := by
  rw [get, List.foldl_append]
  rfl

theorem get_uri (h : tnx.get uri = some e) : e ∈ tnx ∧ e.uri = uri := by
  induction tnx using List.reverseRecOn with
  | nil => exact absurd h.symm (Option.some_ne_none e)
  | append_singleton tnx last ih =>
    rw [get_append] at h
    split at h
    · next huri =>
      rw [← Option.some.inj h]
      exact ⟨List.mem_append_right _ List.mem_cons_self, huri⟩
    · obtain ⟨hmem, huri⟩ := ih h
      exact ⟨List.mem_append_left _ hmem, huri⟩

/-- Behind the last item on a uri there is none that takes its place. -/
theorem get_of_last (pre post : Transaction) (e : Entry) (huri : e.uri = uri)
    (hpost : ∀ x ∈ post, x.uri ≠ uri) : Transaction.get (pre ++ e :: post) uri = some e := by
  induction post using List.reverseRecOn with
  | nil => rw [get_append, if_pos huri]
  | append_singleton post last ih =>
    have hlast := hpost last (List.mem_append_right _ List.mem_cons_self)
    rw [← List.cons_append, ← List.append_assoc, get_append, if_neg hlast]
    exact ih fun x hx => hpost x (List.mem_append_left _ hx)

theorem get_eq_none (h : ∀ e ∈ tnx, e.uri ≠ uri) : tnx.get uri = none := by
  cases hget : tnx.get uri with
  | none => rfl
  | some e =>
    obtain ⟨hmem, huri⟩ := get_uri hget
    exact absurd huri (h e hmem)

end Transaction

/-! ## Maps -/

section
variable {tnx : Transaction} {uri : String} {cell : Option Nat}
  {resources : AList fun _ : String => Resources} {e : Entry}

@[simp] theorem Entry.share_uri (cell : Option Nat)
    (resources : AList fun _ : String => Resources) (e : Entry) :
    (e.share cell resources).uri = e.uri := by
  unfold Entry.share
  split <;> rfl

@[simp] theorem Entry.share_cell (cell : Option Nat)
    (resources : AList fun _ : String => Resources) (e : Entry) :
    (e.share cell resources).cell = e.cell := by
  unfold Entry.share
  split <;> rfl

theorem Scripted.share (h : Scripted e.item) (cell : Option Nat)
    (resources : AList fun _ : String => Resources) : Scripted (e.share cell resources).item := by
  unfold Entry.share
  split
  · exact ⟨h.rc, h.assigned, h.put, h.remove⟩
  · exact h

namespace Transaction

/-- Only items on the uri refer to the map. A new map is named after the next place. -/
def Owns (tnx : Transaction) (uri : String) (cell : Option Nat) : Prop :=
  ∀ n, cell = some n → n ≤ tnx.length ∧ ∀ x ∈ tnx, x.cell = some n → x.uri = uri

/-- The items of a script. Each comes from a call, and items with one map are on one uri. -/
structure Valid (tnx : Transaction) : Prop where
  scripted : ∀ e ∈ tnx, Scripted e.item
  cells : ∀ e ∈ tnx, ∀ n, e.cell = some n → n < tnx.length
  owns : ∀ e ∈ tnx, Owns tnx e.uri e.cell

theorem share_none (tnx : Transaction) (resources : AList fun _ : String => Resources) :
    tnx.share none resources = tnx := by
  have hentry : ∀ e : Entry, e.share none resources = e := fun e => if_neg fun h => h.2 rfl
  rw [share, List.map_congr_left fun e _ => hentry e, List.map_id'']
  exact fun _ => rfl

/-- The map of an item on another uri stays. -/
theorem Owns.share_eq (h : Owns tnx uri cell) (he : e ∈ tnx) (hne : e.uri ≠ uri) :
    e.share cell resources = e := by
  refine if_neg ?_
  rintro ⟨hcell, hnone⟩
  obtain ⟨n, hn⟩ := Option.ne_none_iff_exists'.mp hnone
  exact hne ((h n hn).2 e he (hcell.trans hn))

theorem Owns.share (h : Owns tnx uri cell) (changed : Option Nat)
    (resources : AList fun _ : String => Resources) :
    Owns (tnx.share changed resources) uri cell := by
  intro n hn
  obtain ⟨hle, howns⟩ := h n hn
  refine ⟨hle.trans_eq (List.length_map _).symm, ?_⟩
  intro x hx hcell
  obtain ⟨e, he, rfl⟩ := List.mem_map.mp hx
  rw [Entry.share_uri]
  exact howns e he ((Entry.share_cell _ _ e).symm.trans hcell)

theorem Valid.share (h : tnx.Valid) (cell : Option Nat)
    (resources : AList fun _ : String => Resources) : (tnx.share cell resources).Valid := by
  refine ⟨?_, ?_, ?_⟩
  · intro x hx
    obtain ⟨e, he, rfl⟩ := List.mem_map.mp hx
    exact (h.scripted e he).share cell resources
  · intro x hx n hn
    obtain ⟨e, he, rfl⟩ := List.mem_map.mp hx
    rw [Entry.share_cell] at hn
    exact (h.cells e he n hn).trans_eq (List.length_map _).symm
  · intro x hx
    obtain ⟨e, he, rfl⟩ := List.mem_map.mp hx
    rw [Entry.share_uri, Entry.share_cell]
    exact (h.owns e he).share cell resources

/-- An item is added whose map belongs to its uri. -/
theorem Valid.append (h : tnx.Valid) (hs : Scripted e.item) (howns : Owns tnx e.uri e.cell) :
    Transaction.Valid (tnx ++ [e]) := by
  have hlength : tnx.length < (tnx ++ [e]).length := by
    rw [List.length_append]
    exact Nat.lt_succ_self _
  have hcells : ∀ x ∈ tnx ++ [e], ∀ n, x.cell = some n → n < (tnx ++ [e]).length := by
    intro x hx n hn
    obtain hx | hx := List.mem_append.mp hx
    · exact (h.cells x hx n hn).trans hlength
    · rw [List.mem_singleton.mp hx] at hn
      exact (howns n hn).1.trans_lt hlength
  refine ⟨?_, hcells, ?_⟩
  · intro x hx
    obtain hx | hx := List.mem_append.mp hx
    · exact h.scripted x hx
    · rw [List.mem_singleton.mp hx]
      exact hs
  · intro x hx n hn
    refine ⟨(hcells x hx n hn).le, ?_⟩
    intro y hy hcell
    -- of two items with one map, both are old, or one is the new one
    obtain hx | hx := List.mem_append.mp hx
    · obtain hy | hy := List.mem_append.mp hy
      · exact (h.owns x hx n hn).2 y hy hcell
      · rw [List.mem_singleton.mp hy] at hcell ⊢
        exact ((howns n hcell).2 x hx hn).symm
    · rw [List.mem_singleton.mp hx] at hn ⊢
      obtain hy | hy := List.mem_append.mp hy
      · exact (howns n hn).2 y hy hcell
      · rw [List.mem_singleton.mp hy]

theorem owns_none (tnx : Transaction) (uri : String) : Owns tnx uri none :=
  fun n hn => absurd hn.symm (Option.some_ne_none n)

theorem Valid.owns_ownCell (h : tnx.Valid) (uri : String) (indv : Individual) :
    Owns tnx uri (ownCell tnx indv) := by
  unfold ownCell
  split
  · exact owns_none tnx uri
  · intro n hn
    rw [← Option.some.inj hn]
    exact ⟨le_rfl, fun x hx hcell => absurd (h.cells x hx _ hcell) (lt_irrefl _)⟩

end Transaction

end

/-! ## One call -/

/-- What a change leaves in the transaction. -/
def merged (cmd : IndvOp) (prev : Prev) (indv : Individual) : Individual :=
  if cmd ≠ .put ∧ prev.status = .ok then indvApplyCmd cmd prev.indv indv else indv

/-- The uri that a call adds an item on. -/
def Call.adds : Call → Option String
  | .putIndividual _ obj => obj.deserialize.map Individual.uri
  | .addToIndividual _ obj => obj.deserialize.map Individual.uri
  | .setInIndividual _ obj => obj.deserialize.map Individual.uri
  | .removeFromIndividual _ obj => obj.deserialize.map Individual.uri
  | .removeIndividual _ uri => some uri

/-- The change of a call, with the individual that it passes. -/
def Call.passes : Call → Option (IndvOp × Individual)
  | .putIndividual _ obj => obj.deserialize.map (.put, ·)
  | .addToIndividual _ obj => obj.deserialize.map (.addIn, ·)
  | .setInIndividual _ obj => obj.deserialize.map (.setIn, ·)
  | .removeFromIndividual _ obj => obj.deserialize.map (.removeFrom, ·)
  | .removeIndividual _ _ => none

/-- The item of a call that adds one. -/
structure Added (storage : Storage) (tnx : Transaction) (c : Call) (e : Entry) : Prop where
  adds : c.adds = some e.uri
  scripted : Scripted e.item
  owns : tnx.Owns e.uri e.cell
  removes : c.passes = none → e.item.cmd = .remove
  puts : ∀ cmd indv, c.passes = some (cmd, indv) → e.item.cmd = .put ∧
    e.item.newBinobj = some (.individual indv) ∧
    e.item.newIndv = merged cmd (getPrev storage tnx indv.uri) indv

section
variable {storage : Storage} {tnx : Transaction} {uri : String} {obj : BinObj} {c : Call}

/-- What a change is merged into has the uri of the change. -/
theorem getPrev_uri (hkeyed : Keyed storage) (h : (getPrev storage tnx uri).status = .ok) :
    (getPrev storage tnx uri).indv.uri = uri := by
  have hstored : (getIndividual storage tnx uri).status = .ok →
      (getIndividual storage tnx uri).indv.uri = uri := by
    unfold getIndividual
    split
    · next indv hread =>
      intro _
      exact hkeyed uri indv (readPrev_eq_some_some hread)
    · exact fun h => ResultCode.noConfusion h
    · exact fun h => ResultCode.noConfusion h
  unfold getPrev at h ⊢
  split at h
  · next e he =>
    split at h
    · exact (Transaction.get_uri he).2
    · exact hstored h
  · exact hstored h

/-- The map of what a change is merged into. -/
theorem owns_getPrev (h : tnx.Valid) (uri : String) :
    tnx.Owns uri (getPrev storage tnx uri).cell := by
  have hstored : tnx.Owns uri (getIndividual storage tnx uri).cell := by
    unfold getIndividual
    split
    · exact h.owns_ownCell uri _
    · exact tnx.owns_none uri
    · exact tnx.owns_none uri
  unfold getPrev
  split
  · next e he =>
    obtain ⟨hmem, huri⟩ := Transaction.get_uri he
    split
    · exact huri ▸ h.owns e hmem
    · exact hstored
  · exact hstored

theorem newItem_scripted (caller : Caller) (indv : Individual) :
    Scripted (newItem caller (.individual indv) indv) where
  rc := rfl
  assigned := rfl
  put _ := ⟨rfl, rfl, rfl, indv, rfl, rfl⟩
  remove h := IndvOp.noConfusion h

/-- A change adds an item, unless its text cannot be read. -/
theorem fill_cases (hkeyed : Keyed storage) (h : tnx.Valid) (caller : Caller) (cmd : IndvOp)
    (hadds : c.adds = obj.deserialize.map Individual.uri)
    (hpasses : c.passes = obj.deserialize.map (cmd, ·)) :
    c.adds = none ∧ (fill caller storage tnx cmd obj).2 = tnx ∨
      ∃ cell resources e, tnx.Owns e.uri cell ∧ Added storage tnx c e ∧
        (fill caller storage tnx cmd obj).2 = tnx.share cell resources ++ [e] := by
  unfold fill
  split
  · next hobj =>
    rw [hobj] at hadds
    exact .inl ⟨hadds, rfl⟩
  next indv hobj =>
  rw [hobj] at hadds hpasses
  rw [BinObj.eq_of_deserialize hobj]
  have hnone : c.passes ≠ none := by
    rw [hpasses]
    exact Option.some_ne_none _
  right
  dsimp only
  split
  · next hmerge =>
    have hnew : (indvApplyCmd cmd (getPrev storage tnx indv.uri).indv indv).uri = indv.uri :=
      (indvApplyCmd_uri _ _ _).trans (getPrev_uri hkeyed hmerge.2)
    have hprev : tnx.Owns (indvApplyCmd cmd (getPrev storage tnx indv.uri).indv indv).uri
        (getPrev storage tnx indv.uri).cell := by
      rw [hnew]
      exact owns_getPrev h indv.uri
    refine ⟨_, _, _, ?_, ?_, rfl⟩
    · exact hprev
    refine ⟨?_, ?_, ?_, fun hp => absurd hp hnone, ?_⟩
    · exact hadds.trans (congrArg some hnew.symm)
    · exact ⟨rfl, rfl, fun _ => ⟨rfl, rfl, hnew.symm, indv, rfl, rfl⟩,
        fun hcmd => IndvOp.noConfusion hcmd⟩
    · by_cases hcell : (getPrev storage tnx indv.uri).cell = none
      · have hown := h.owns_ownCell (indvApplyCmd cmd (getPrev storage tnx indv.uri).indv indv).uri
          (indvApplyCmd cmd (getPrev storage tnx indv.uri).indv indv)
        rw [if_pos hcell]
        exact hown
      · rw [if_neg hcell]
        exact hprev
    · intro cmd' indv' hp
      obtain ⟨rfl, rfl⟩ := Prod.mk.inj (Option.some.inj (hpasses.symm.trans hp))
      exact ⟨rfl, rfl, (if_pos hmerge).symm⟩
  · next hmerge =>
    refine ⟨none, ∅, ⟨newItem caller (.individual indv) indv, ownCell tnx indv⟩, ?_, ?_, ?_⟩
    · exact tnx.owns_none _
    · refine ⟨hadds, newItem_scripted caller indv, h.owns_ownCell _ _,
        fun hp => absurd hp hnone, ?_⟩
      intro cmd' indv' hp
      obtain ⟨rfl, rfl⟩ := Prod.mk.inj (Option.some.inj (hpasses.symm.trans hp))
      exact ⟨rfl, rfl, (if_neg hmerge).symm⟩
    · rw [Transaction.share_none]

/-- A removal adds an item. -/
theorem fillRemove_added (storage : Storage) (tnx : Transaction) (caller : Caller)
    (uri : String) :
    ∃ e, Added storage tnx (.removeIndividual caller uri) e ∧
      fillRemove caller tnx uri = tnx ++ [e] := by
  refine ⟨_, ⟨rfl, ?_, tnx.owns_none _, fun _ => rfl, ?_⟩, rfl⟩
  · refine ⟨rfl, rfl, fun hcmd => absurd rfl hcmd, fun _ => ⟨rfl, fun huri => if_neg huri⟩⟩
  · exact fun cmd indv hp => absurd hp.symm (Option.some_ne_none _)

/-- A call adds an item and changes the map that the item refers to, or it leaves the transaction
as it is. -/
theorem call_cases (hkeyed : Keyed storage) (h : tnx.Valid) (c : Call) :
    c.adds = none ∧ (call storage tnx c).2 = tnx ∨
      ∃ cell resources e, tnx.Owns e.uri cell ∧ Added storage tnx c e ∧
        (call storage tnx c).2 = tnx.share cell resources ++ [e] := by
  cases c with
  | putIndividual caller obj => exact fill_cases hkeyed h caller .put rfl rfl
  | addToIndividual caller obj => exact fill_cases hkeyed h caller .addIn rfl rfl
  | setInIndividual caller obj => exact fill_cases hkeyed h caller .setIn rfl rfl
  | removeFromIndividual caller obj => exact fill_cases hkeyed h caller .removeFrom rfl rfl
  | removeIndividual caller uri =>
    obtain ⟨e, hadded, heq⟩ := fillRemove_added storage tnx caller uri
    refine .inr ⟨none, ∅, e, tnx.owns_none _, hadded, ?_⟩
    rw [Transaction.share_none]
    exact heq

end

/-! ## The calls of a script -/

section
variable {storage : Storage}

theorem runCalls_append (storage : Storage) (calls : List Call) (c : Call) :
    runCalls storage (calls ++ [c]) = (call storage (runCalls storage calls) c).2 := by
  rw [runCalls, List.foldl_append]
  rfl

/-- The transaction of every script. -/
theorem runCalls_valid (hkeyed : Keyed storage) (calls : List Call) :
    (runCalls storage calls).Valid := by
  induction calls using List.reverseRecOn with
  | nil =>
    have hnil : ∀ e : Entry, e ∉ runCalls storage [] := fun e => List.not_mem_nil
    exact ⟨fun e he => absurd he (hnil e), fun e he => absurd he (hnil e),
      fun e he => absurd he (hnil e)⟩
  | append_singleton calls c ih =>
    rw [runCalls_append]
    obtain ⟨_, heq⟩ | ⟨cell, resources, e, _, hadded, heq⟩ := call_cases hkeyed ih c
    · rw [heq]
      exact ih
    · rw [heq]
      exact (ih.share cell resources).append hadded.scripted (hadded.owns.share cell resources)

/-- Without a call on a uri there is no item on it. -/
theorem runCalls_of_not_adds (hkeyed : Keyed storage) (calls : List Call)
    (h : ∀ c ∈ calls, c.adds ≠ some uri) : ∀ e ∈ runCalls storage calls, e.uri ≠ uri := by
  induction calls using List.reverseRecOn with
  | nil => exact fun e he => absurd he List.not_mem_nil
  | append_singleton calls c ih =>
    have ih := ih fun c hc => h c (List.mem_append_left _ hc)
    have hlast := h c (List.mem_append_right _ List.mem_cons_self)
    rw [runCalls_append]
    obtain ⟨_, heq⟩ | ⟨cell, resources, e, _, hadded, heq⟩ :=
      call_cases hkeyed (runCalls_valid hkeyed calls) c
    · rw [heq]
      exact ih
    · rw [heq]
      intro x hx
      obtain hx | hx := List.mem_append.mp hx
      · obtain ⟨y, hy, rfl⟩ := List.mem_map.mp hx
        rw [Entry.share_uri]
        exact ih y hy
      · rw [List.mem_singleton.mp hx]
        exact fun huri => hlast (hadded.adds.trans (congrArg some huri))

/-- The item of the last call on a uri is the last item on it, and later calls leave it as it
is. -/
theorem runCalls_last (hkeyed : Keyed storage) (calls later : List Call) (c : Call)
    (hadds : c.adds = some uri) (hlater : ∀ c ∈ later, c.adds ≠ some uri) :
    ∃ pre e post, runCalls storage (calls ++ c :: later) = pre ++ e :: post ∧
      pre.length = (runCalls storage calls).length ∧ e.uri = uri ∧ (∀ x ∈ post, x.uri ≠ uri) ∧
      Added storage (runCalls storage calls) c e := by
  induction later using List.reverseRecOn with
  | nil =>
    rw [runCalls_append]
    obtain ⟨hnone, _⟩ | ⟨cell, resources, e, _, hadded, heq⟩ :=
      call_cases hkeyed (runCalls_valid hkeyed calls) c
    · exact absurd (hnone.symm.trans hadds).symm (Option.some_ne_none _)
    · refine ⟨_, e, [], heq, List.length_map _, ?_, fun x hx => absurd hx List.not_mem_nil, hadded⟩
      exact Option.some.inj (hadded.adds.symm.trans hadds)
  | append_singleton later last ih =>
    obtain ⟨pre, e, post, hrun, hlength, huri, hpost, hadded⟩ :=
      ih fun c hc => hlater c (List.mem_append_left _ hc)
    have hlast := hlater last (List.mem_append_right _ List.mem_cons_self)
    rw [← List.cons_append, ← List.append_assoc, runCalls_append]
    obtain ⟨_, heq⟩ | ⟨cell, resources, x, howns, hx, heq⟩ :=
      call_cases hkeyed (runCalls_valid hkeyed (calls ++ c :: later)) last
    · exact ⟨pre, e, post, heq.trans hrun, hlength, huri, hpost, hadded⟩
    have hne : e.uri ≠ x.uri := by
      intro heq
      exact hlast (hx.adds.trans (congrArg some (heq.symm.trans huri)))
    have hmem : e ∈ runCalls storage (calls ++ c :: later) := by
      rw [hrun]
      exact List.mem_append_right _ List.mem_cons_self
    refine ⟨pre.map (Entry.share cell resources), e,
      post.map (Entry.share cell resources) ++ [x], ?_, ?_, huri, ?_, hadded⟩
    · rw [heq, Transaction.share, hrun, List.map_append, List.map_cons,
        howns.share_eq hmem hne, List.append_assoc, List.cons_append]
    · rw [List.length_map, hlength]
    · intro y hy
      obtain hy | hy := List.mem_append.mp hy
      · obtain ⟨z, hz, rfl⟩ := List.mem_map.mp hy
        rw [Entry.share_uri]
        exact hpost z hz
      · rw [List.mem_singleton.mp hy]
        exact fun h => hne (huri.trans h.symm)

end

end Veda.Gluecode
