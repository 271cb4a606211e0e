import Veda.Mstorage.Replies

/-! # A transaction of the server

`commit` of `mstorage.d` hands the items of a transaction without autocommit to the thread of the
individuals and announces those of access control. All or nothing is what its callers are told by
its results. -/

namespace Veda.Mstorage.IndividualsManager

/-- The rest of an immutable `TransactionItem`: neither constructor sets `rc` or `op_id`. -/
def itemRc (_ : TransactionItem) : ResultCode := .zero

@[inherit_doc itemRc]
def itemOpId (_ : TransactionItem) : Nat := 0

/-- `struct Transaction`, with the queue of immutable items. -/
structure Transaction where
  src : String
  isAutocommit : Bool
  id : Int
  immutableQueue : List TransactionItem

structure OpResult where
  result : ResultCode
  opId : Int
  deriving DecidableEq

/-- What is there when the thread has handled the request. `rcs` is `none` while `commit` waits for
a reply. -/
structure Committed where
  rcs : Option (List OpResult)
  state : State
  mailbox : List ResultCode
  messages : List AclMessage

/-- The call of `save`: the reply that is read is the first in the mailbox. -/
def save (r : SaveRequest) (mailbox : List ResultCode) (o : Outcome) (s : State) :
    Option ResultCode × List ResultCode × State :=
  let s' := s.handleSave r o
  let mailbox := mailbox ++ s'.replies.drop s.replies.length
  (mailbox.head?, mailbox.tail, s')

/-- The loop of `commit` over the items. -/
def announce (items : List TransactionItem) : List AclMessage :=
  items.flatMap fun item =>
    if itemRc item = .ok then
      prepareEvent ∅ item.assignedSubsystems item.prevBinobj item.newBinobj (itemOpId item)
    else []

/-- `commit`; `opId` is what `get_subject_manager_op_id` gives when the reply is read. -/
def commit (tnx : Transaction) (mailbox : List ResultCode) (opId : Int) (o : Outcome) (s : State) :
    Committed :=
  if tnx.isAutocommit = false ∧ tnx.immutableQueue ≠ [] then
    match save ⟨tnx.src, tnx.immutableQueue, tnx.id, .none⟩ mailbox o s with
    | (none, mailbox, s) => ⟨none, s, mailbox, []⟩
    | (some rc, mailbox, s) =>
      if rc = .ok then ⟨some [⟨rc, opId⟩], s, mailbox, announce tnx.immutableQueue⟩
      else ⟨some [], s, mailbox, []⟩
  else ⟨some [], s, mailbox, []⟩

/-! ## All or nothing -/

/-- `commit` reports `Ok`. -/
def Committed.ReportsOk (c : Committed) : Prop := ∃ rcs, c.rcs = some rcs ∧ ∃ r ∈ rcs, r.result = .ok

/-- What an item leaves under its address. -/
def wanted (ti : TransactionItem) : Option BinObj :=
  if ti.cmd = .remove then none else ti.newBinobj

/-- The items are in the storage, in the queue and announced. -/
structure All (items : List TransactionItem) (s : State) (c : Committed) : Prop where
  stored : ∀ ti ∈ items, c.state.storage ti.uri = wanted ti
  pushed : ∃ records, c.state.flow = s.flow ++ records ∧ records.map FlowRecord.item = items
  announced : ∀ ti ∈ items, ti.isAclElement → ∃ message ∈ c.messages,
    message.prevBinobj = ti.prevBinobj ∧ message.newBinobj = ti.newBinobj

/-- Neither the storage nor the queue has changed. -/
structure Nothing (s : State) (c : Committed) : Prop where
  storage : c.state.storage = s.storage
  flow : c.state.flow = s.flow

def AllOrNothing (tnx : Transaction) (s : State) (c : Committed) : Prop :=
  (c.ReportsOk → All tnx.immutableQueue s c) ∧ (¬c.ReportsOk → Nothing s c)

variable {s : State} {o : Outcome} {ti : TransactionItem} {mailbox : List ResultCode}

/-- The reply that is read is `Ok`: it waits in the mailbox already, or the mailbox is empty and
the first item is carried out without a refusal before it. -/
def ReadsOk (ti : TransactionItem) (mailbox : List ResultCode) (o : Outcome) (s : State) : Prop :=
  mailbox.head? = some .ok ∨
    mailbox = [] ∧ Writes ti ∧ Carried ti o ∧ ¬(s.isFreeze ∧ ti.cmd = .put)

/-- The storage holds what the item asks for: it did before, or the storage makes the change. -/
def Stored (ti : TransactionItem) (o : Outcome) (s : State) : Prop :=
  Writes ti ∧ Changes ti o ∨ s.storage ti.uri = wanted ti

def Pushed (ti : TransactionItem) (o : Outcome) : Prop :=
  Writes ti ∧ Carried ti o ∧ o.push.pushed

/-- Where the reply is `Ok` the transaction has one item, it is not one of access control, and it
gets to the storage and to the queue. Where it is not, the first item gets to neither. -/
def Fits (ti : TransactionItem) (rest : List TransactionItem) (mailbox : List ResultCode)
    (o : Outcome) (s : State) : Prop :=
  (ReadsOk ti mailbox o s →
      rest = [] ∧ ti.isAclElement = false ∧ Stored ti o s ∧ Pushed ti o) ∧
    (¬ReadsOk ti mailbox o s →
      (Writes ti ∧ Changes ti o → s.storage ti.uri = wanted ti) ∧ ¬Pushed ti o)

instance : Decidable (ReadsOk ti mailbox o s) := inferInstanceAs (Decidable (_ ∨ _))

/-! ## What a commit does -/

/-- No item of a transaction has the code `Ok`. -/
theorem announce_eq_nil (items : List TransactionItem) : announce items = [] := by
  have hitem : ∀ item : TransactionItem, itemRc item ≠ .ok := fun _ =>
    (by decide : ResultCode.zero ≠ .ok)
  simp [announce, hitem]

variable {tnx : Transaction} {opId : Int}

/-- A transaction with autocommit or without items is not committed here. -/
theorem commit_of_not (h : ¬(tnx.isAutocommit = false ∧ tnx.immutableQueue ≠ [])) :
    commit tnx mailbox opId o s = ⟨some [], s, mailbox, []⟩ := if_neg h

/-- The request to save the whole queue. -/
def Transaction.request (tnx : Transaction) : SaveRequest :=
  ⟨tnx.src, tnx.immutableQueue, tnx.id, .none⟩

theorem commit_of (mailbox : List ResultCode) (opId : Int) (o : Outcome) (s : State)
    (h : tnx.isAutocommit = false) (hitems : tnx.immutableQueue = ti :: rest) :
    (commit tnx mailbox opId o s).state = s.handleSave tnx.request o ∧
      (commit tnx mailbox opId o s).messages = [] ∧
      ((commit tnx mailbox opId o s).ReportsOk ↔
        (save tnx.request mailbox o s).1 = some .ok) := by
  have hne : tnx.immutableQueue ≠ [] := by simp [hitems]
  have hstate : (save tnx.request mailbox o s).2.2 = s.handleSave tnx.request o := rfl
  unfold commit
  rw [if_pos ⟨h, hne⟩, ← hstate, Transaction.request]
  generalize save _ mailbox o s = read
  obtain ⟨_ | rc, mailbox, s⟩ := read
  · simp [Committed.ReportsOk]
  · by_cases hrc : rc = .ok
    · simp [Committed.ReportsOk, hrc, announce_eq_nil]
    · simp [Committed.ReportsOk, hrc]

/-- The reply that is read is the first in the mailbox, or else the first to this request. -/
theorem save_ok_iff (hitems : tnx.immutableQueue = ti :: rest) :
    (save tnx.request mailbox o s).1 = some .ok ↔ ReadsOk ti mailbox o s := by
  obtain ⟨rcs, hrcs, _, hhead⟩ := handleSave_replies (r := tnx.request) s o hitems
  have hmailbox : (save tnx.request mailbox o s).1 = (mailbox ++ rcs).head? := by
    rw [save, hrcs, List.drop_left]
  rw [hmailbox]
  cases mailbox with
  | cons rc rest => simp [ReadsOk]
  | nil =>
    rw [List.nil_append, hhead]
    simp [ReadsOk, PutWhileFrozen, Transaction.request]

/-! ## When it is all or nothing -/

theorem stored_iff (s : State) (o : Outcome) (hitems : tnx.immutableQueue = ti :: rest) :
    (s.handleSave tnx.request o).storage ti.uri = wanted ti ↔ Stored ti o s := by
  rw [State.handleSave_storage (r := tnx.request) s o hitems]
  by_cases h : Writes ti ∧ Changes ti o
  · rw [if_pos h]
    exact iff_of_true (Function.update_self _ _ _) (.inl h)
  · rw [if_neg h]
    exact (or_iff_right h).symm

theorem storage_eq_iff (s : State) (o : Outcome) (hitems : tnx.immutableQueue = ti :: rest) :
    (s.handleSave tnx.request o).storage = s.storage ↔
      (Writes ti ∧ Changes ti o → s.storage ti.uri = wanted ti) := by
  rw [State.handleSave_storage (r := tnx.request) s o hitems]
  by_cases h : Writes ti ∧ Changes ti o
  · rw [if_pos h]
    constructor
    · intro heq _
      rw [← heq]
      exact Function.update_self _ _ _
    · intro heq
      exact Function.update_eq_self_iff.mpr (heq h).symm
  · rw [if_neg h]
    exact iff_of_true rfl fun hc => absurd hc h

theorem flow_of_pushed (s : State) (hitems : tnx.immutableQueue = ti :: rest) (h : Pushed ti o) :
    (s.handleSave tnx.request o).flow = s.flow ++ [s.record tnx.request ti] :=
  (State.handleSave_flow (r := tnx.request) s o hitems).trans (if_pos h)

theorem flow_of_not_pushed (s : State) (hitems : tnx.immutableQueue = ti :: rest)
    (h : ¬Pushed ti o) : (s.handleSave tnx.request o).flow = s.flow :=
  (State.handleSave_flow (r := tnx.request) s o hitems).trans (if_neg h)

/-- Only the first item gets to the queue. -/
theorem pushed_iff (s : State) (o : Outcome) (hitems : tnx.immutableQueue = ti :: rest) :
    (∃ records, (s.handleSave tnx.request o).flow = s.flow ++ records ∧
      records.map FlowRecord.item = ti :: rest) ↔ rest = [] ∧ Pushed ti o := by
  constructor
  · rintro ⟨records, hflow, hmap⟩
    by_cases h : Pushed ti o
    · refine ⟨?_, h⟩
      rw [flow_of_pushed s hitems h] at hflow
      rw [← List.append_cancel_left hflow] at hmap
      exact (List.cons.inj hmap).2.symm
    · rw [flow_of_not_pushed s hitems h] at hflow
      rw [List.self_eq_append_right.mp hflow] at hmap
      exact absurd hmap.symm (List.cons_ne_nil _ _)
  · rintro ⟨rfl, h⟩
    exact ⟨_, flow_of_pushed s hitems h, rfl⟩

theorem flow_eq_iff (s : State) (o : Outcome) (hitems : tnx.immutableQueue = ti :: rest) :
    (s.handleSave tnx.request o).flow = s.flow ↔ ¬Pushed ti o := by
  constructor
  · intro hflow h
    rw [flow_of_pushed s hitems h] at hflow
    exact absurd (List.append_right_eq_self.mp hflow) (List.cons_ne_nil _ _)
  · exact flow_of_not_pushed s hitems

theorem all_iff (h : tnx.isAutocommit = false) (hitems : tnx.immutableQueue = ti :: rest) :
    All (ti :: rest) s (commit tnx mailbox opId o s) ↔
      rest = [] ∧ ti.isAclElement = false ∧ Stored ti o s ∧ Pushed ti o := by
  obtain ⟨hstate, hmessages, _⟩ := commit_of mailbox opId o s h hitems
  constructor
  · intro hall
    have hpushed := hall.pushed
    have hstored := hall.stored ti List.mem_cons_self
    rw [hstate] at hpushed hstored
    obtain ⟨hrest, hpushed⟩ := (pushed_iff s o hitems).mp hpushed
    refine ⟨hrest, ?_, (stored_iff s o hitems).mp hstored, hpushed⟩
    by_contra hacl
    obtain ⟨message, hmessage, _⟩ := hall.announced ti List.mem_cons_self (by simpa using hacl)
    rw [hmessages] at hmessage
    exact absurd hmessage List.not_mem_nil
  · rintro ⟨rfl, hacl, hstored, hpushed⟩
    constructor
    case stored =>
      intro ti' hti'
      rw [List.mem_singleton.mp hti', hstate]
      exact (stored_iff s o hitems).mpr hstored
    case pushed =>
      rw [hstate]
      exact (pushed_iff s o hitems).mpr ⟨rfl, hpushed⟩
    case announced =>
      intro ti' hti' hacl'
      rw [List.mem_singleton.mp hti', hacl] at hacl'
      exact absurd hacl' Bool.false_ne_true

theorem nothing_iff (h : tnx.isAutocommit = false) (hitems : tnx.immutableQueue = ti :: rest) :
    Nothing s (commit tnx mailbox opId o s) ↔
      (Writes ti ∧ Changes ti o → s.storage ti.uri = wanted ti) ∧ ¬Pushed ti o := by
  obtain ⟨hstate, _, _⟩ := commit_of mailbox opId o s h hitems
  have hstorage := storage_eq_iff s o hitems
  have hflow := flow_eq_iff s o hitems
  rw [← hstate] at hstorage hflow
  constructor
  · intro hnothing
    exact ⟨hstorage.mp hnothing.storage, hflow.mp hnothing.flow⟩
  · intro hfits
    exact ⟨hstorage.mpr hfits.1, hflow.mpr hfits.2⟩

/-- A commit is all or nothing exactly where the reply that it reads tells what became of a
transaction with one item. -/
theorem allOrNothing_iff (tnx : Transaction) (mailbox : List ResultCode) (opId : Int) (o : Outcome)
    (s : State) : AllOrNothing tnx s (commit tnx mailbox opId o s) ↔
      tnx.isAutocommit = true ∨
        ∀ ti rest, tnx.immutableQueue = ti :: rest → Fits ti rest mailbox o s := by
  by_cases h : tnx.isAutocommit = false ∧ tnx.immutableQueue ≠ []
  · obtain ⟨hauto, hne⟩ := h
    obtain ⟨ti, rest, hitems⟩ := List.exists_cons_of_ne_nil hne
    have hok := (commit_of mailbox opId o s hauto hitems).2.2.trans (save_ok_iff hitems)
    have hfits : AllOrNothing tnx s (commit tnx mailbox opId o s) ↔ Fits ti rest mailbox o s := by
      rw [AllOrNothing, Fits, hok, hitems, all_iff hauto hitems, nothing_iff hauto hitems]
    rw [hfits, hauto]
    constructor
    · intro h
      refine .inr fun ti' rest' hitems' => ?_
      obtain ⟨rfl, rfl⟩ := List.cons.inj (hitems.symm.trans hitems')
      exact h
    · rintro (h | h)
      · exact absurd h Bool.false_ne_true
      · exact h ti rest hitems
  · rw [commit_of_not h]
    refine iff_of_true ⟨?_, ?_⟩ ?_
    · rintro ⟨rcs, hrcs, r, hr, _⟩
      rw [← Option.some.inj hrcs] at hr
      exact absurd hr List.not_mem_nil
    · exact fun _ => ⟨rfl, rfl⟩
    · by_cases hauto : tnx.isAutocommit = true
      · exact .inl hauto
      · refine .inr fun ti rest hitems => absurd ?_ h
        exact ⟨by simpa using hauto, by simp [hitems]⟩

/-- Of two items the first is stored and reported. -/
theorem not_allOrNothing_two_items :
    let s := State.start (fun _ => none) none []
    let tnx : Transaction := ⟨"?", false, -1, [sampleItem .put "d:a", sampleItem .put "d:b"]⟩
    let c := commit tnx [] 1 .fine s
    c.rcs = some [⟨.ok, 1⟩] ∧ c.state.storage "d:b" = none ∧ c.state.flow.length = 1 ∧
      ¬AllOrNothing tnx s c := by
  intro s tnx c
  have hnone : c.state.storage "d:b" = none := by decide
  refine ⟨rfl, hnone, rfl, ?_⟩
  intro h
  have hstored := (h.1 ⟨_, rfl, _, List.mem_cons_self, rfl⟩).stored (sampleItem .put "d:b")
    (List.mem_cons_of_mem _ List.mem_cons_self)
  exact Option.some_ne_none _ (hstored.symm.trans hnone)

end Veda.Mstorage.IndividualsManager
