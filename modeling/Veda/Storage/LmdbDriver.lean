import Mathlib.Data.List.Infix
import Veda.Lib.Run

/-! # Transactions of the LMDB driver

`store`, `remove` and `get_binobj` begin a transaction, work in it, and end it on the way out, with
many ways out. The functions of LMDB are known by what they return: a call of the driver is run
against their return codes in order, and writes down what it does to transactions. -/

namespace Veda.Storage

open Veda.Run

/-! ## LMDB -/

/-- The functions of LMDB that return a code. -/
inductive Fn where
  | envCreate | envOpen | envInfo | envSetMapsize | txnBegin | dbiOpen | put | del | txnCommit | get
  deriving DecidableEq

/-- What one call of such a function returns, and the data that `mdb_get` finds. -/
structure Answer where
  fn : Fn
  rc : ℤ
  data : String := ""
  deriving DecidableEq

def MDB_INVALID : ℤ := -30793
def MDB_MAP_FULL : ℤ := -30792
def MDB_MAP_RESIZED : ℤ := -30785
def MDB_BAD_RSLOT : ℤ := -30783

/-- What is done to transactions. A pointer that is null is `none`. -/
inductive Event where
  | txnBegin (txn : ℕ)
  | txnAbort (txn : Option ℕ)
  | txnCommit (txn : Option ℕ)
  deriving DecidableEq

def Event.txn : Event → Option ℕ
  | .txnBegin txn => some txn
  | .txnAbort txn => txn
  | .txnCommit txn => txn

/-! ## The driver -/

inductive DBMode where
  | R | RW
  deriving DecidableEq

inductive ResultCode where
  | Ok | NoContent | FailOpenTransaction | FailCommit | FailStore
  deriving DecidableEq

structure LmdbDriver where
  mode : DBMode
  dbIsOpened : Bool
  /-- `db_is_open[_path]` -/
  dbIsOpen : Bool
  readCount : ℕ

/-- The driver, the codes that are still to be returned, and what was done so far. -/
structure State where
  driver : LmdbDriver
  answers : List Answer
  next : ℕ
  events : List Event

/-- A part of a call, `none` where the codes are not those of the functions it calls. -/
abbrev M := StateT State Option

/-- A function of LMDB is called. -/
def call (fn : Fn) : M Answer := fun s =>
  match s.answers with
  | [] => none
  | a :: answers => if a.fn = fn then some (a, { s with answers }) else none

def emit (e : Event) : M Unit := fun s => some ((), { s with events := s.events ++ [e] })

def driver : M LmdbDriver := fun s => some (s.driver, s)

def setDriver (d : LmdbDriver) : M Unit := fun s => some ((), { s with driver := d })

/-- `mdb_txn_begin`, with the code and the pointer after it. -/
def mdbTxnBegin (txn : Option ℕ) : M (ℤ × Option ℕ) := do
  let a ← call .txnBegin
  if a.rc = 0 then fun s => some ((a.rc, some s.next),
    { s with next := s.next + 1, events := s.events ++ [.txnBegin s.next] })
  else return (a.rc, txn)

def mdbTxnAbort (txn : Option ℕ) : M Unit := emit (.txnAbort txn)

def mdbTxnCommit (txn : Option ℕ) : M ℤ := do
  let a ← call .txnCommit
  emit (.txnCommit txn)
  return a.rc

def openDb : M Unit := do
  let d ← driver
  if d.dbIsOpen then return
  let a ← call .envCreate
  if a.rc = 0 then
    let a ← call .envOpen
    if a.rc = 0 then setDriver { d with readCount := 0, dbIsOpen := true, dbIsOpened := true }
    else setDriver { d with readCount := 0 }

def reopen : M Unit := do
  let d ← driver
  if d.mode = .R then
    setDriver { d with dbIsOpen := false }
    openDb

def abortUnlessNull (txn : Option ℕ) : M Unit :=
  if txn.isSome then mdbTxnAbort txn else return

/-- `growth_db`, `none` where its recursion goes deeper than `depth`. -/
def growthDb (txn : Option ℕ) : ℕ → M ℤ
  | 0 => fun _ => none
  | depth + 1 => do
    abortUnlessNull txn
    let a ← call .envInfo
    if a.rc = 0 then
      let a ← call .envSetMapsize
      if a.rc ≠ 0 then growthDb txn depth
      else return a.rc
    else return a.rc

/-- The commit of `store` and `remove`. -/
def commitOrRetry (txn : Option ℕ) (depth : ℕ) (retry : M ResultCode) : M ResultCode := do
  let rc ← mdbTxnCommit txn
  if rc = MDB_MAP_FULL then
    let _ ← growthDb none depth
    retry
  else if rc ≠ 0 then return .FailCommit
  else return .Ok

/-- The transaction of `store` and `remove`: `fn` is done in it, `onError` where that fails, and
`retry` once the database has grown. -/
def transact (fn : Fn) (onError : Option ℕ → M Unit) (depth : ℕ) (retry : M ResultCode) :
    M ResultCode := do
  let (rc, txn) ← mdbTxnBegin none
  if rc ≠ 0 then
    mdbTxnAbort txn
    return .FailOpenTransaction
  let a ← call .dbiOpen
  if a.rc ≠ 0 then
    mdbTxnAbort txn
    return .FailOpenTransaction
  let a ← call fn
  if a.rc = MDB_MAP_FULL then
    let _ ← growthDb txn depth
    retry
  else if a.rc ≠ 0 then
    onError txn
    return .FailStore
  else commitOrRetry txn depth retry

def ensureOpened : M Unit := do
  let d ← driver
  if d.dbIsOpened = false then openDb

/-- A put that fails leaves the transaction as it is. -/
def store (key value : String) : ℕ → M ResultCode
  | 0 => fun _ => none
  | depth + 1 => do
    ensureOpened
    if key = "" then return .NoContent
    if value = "" then return .NoContent
    transact .put (fun _ => return) depth (store key value depth)

def remove (key : String) : ℕ → M ResultCode
  | 0 => fun _ => none
  | depth + 1 => do
    ensureOpened
    if key = "" then return .NoContent
    transact .del mdbTxnAbort depth (remove key depth)

/-- The loop over `i` in `get_binobj`, with the turns that are left. -/
def beginAgain : ℕ → ℤ → Option ℕ → M (ℤ × Option ℕ)
  | 0, rc, txn => return (rc, txn)
  | i + 1, rc, txn => do
    if rc ≠ 0 then
      mdbTxnAbort txn
      let (rc, txn) ← mdbTxnBegin txn
      beginAgain i rc txn
    else return (rc, txn)

def beginRead : M (ℤ × Option ℕ) := do
  let (rc, txn) ← mdbTxnBegin none
  if rc = MDB_BAD_RSLOT then beginAgain 10 rc txn else return (rc, txn)

/-- The environment is opened anew if the slot is still bad. -/
def beginAfterReopen (rc : ℤ) (txn : Option ℕ) : M (ℤ × Option ℕ) :=
  if rc = MDB_BAD_RSLOT then do
    mdbTxnAbort txn
    reopen
    mdbTxnBegin txn
  else return (rc, txn)

/-- The part of `get_binobj` with the transaction `txn`. -/
def readBinobj (txn : Option ℕ) (retry : M (Option String)) : M (Option String) := do
  let a ← call .dbiOpen
  if a.rc ≠ 0 then return none
  let a ← call .get
  if a.rc = MDB_INVALID then
    reopen
    retry
  else
    let d ← driver
    setDriver { d with readCount := d.readCount + 1 }
    mdbTxnAbort txn
    return if a.rc = 0 then some a.data else none

def reopenAfterMany : M Unit := do
  let d ← driver
  if 100000 < d.readCount then reopen

def getBinobj (uri : String) : ℕ → M (Option String)
  | 0 => fun _ => none
  | depth + 1 => do
    ensureOpened
    reopenAfterMany
    if uri.utf8ByteSize < 2 then return none
    let d ← driver
    if d.dbIsOpen = false then return none
    let (rc, txn) ← beginRead
    if rc = MDB_MAP_RESIZED then
      reopen
      getBinobj uri depth
    else
      let (rc, txn) ← beginAfterReopen rc txn
      if rc ≠ 0 then return none
      readBinobj txn (getBinobj uri depth)

/-! ## Calls -/

inductive Op where
  | store (key value : String)
  | remove (key : String)
  | getBinobj (uri : String)

/-- A call of the driver, with the codes that LMDB returns in it and a bound on its recursion. -/
structure Call where
  op : Op
  answers : List Answer
  depth : ℕ

/-- The call, without what it returns. -/
def Op.exec : Op → ℕ → M Unit
  | .store key value, depth => do let _ ← Storage.store key value depth
  | .remove key, depth => do let _ ← Storage.remove key depth
  | .getBinobj uri, depth => do let _ ← Storage.getBinobj uri depth

/-- The state after a call that used the codes up, `none` where it does not return with them. -/
def Call.step (c : Call) (s : Option State) : Option State := do
  let s ← s
  let (_, s) ← c.op.exec c.depth { s with answers := c.answers }
  if s.answers = [] then some s else none

/-! ## The property -/

/-- What is done to a transaction that is begun is one commit or one abort after that, and nothing
is done to others. -/
def EndedOnce (events : List Event) : Prop :=
  ∀ txn, events.filter (·.txn = some txn) = [] ∨
    events.filter (·.txn = some txn) = [.txnBegin txn, .txnAbort (some txn)] ∨
    events.filter (·.txn = some txn) = [.txnBegin txn, .txnCommit (some txn)]

/-- The map is to be made larger, which fails. -/
def mapsizeFails : List Answer → Bool
  | a :: b :: _ => a.fn = .envInfo ∧ a.rc = 0 ∧ b.fn = .envSetMapsize ∧ b.rc ≠ 0
  | _ => false

/-- The map is full in `fn`, and making it larger fails. -/
def growthFails (fn : Fn) : List Answer → Bool
  | [] => false
  | a :: answers =>
    (a.fn = fn ∧ a.rc = MDB_MAP_FULL ∧ mapsizeFails answers) || growthFails fn answers

/-- The codes of a call after which its transactions are ended. -/
def Op.Fine (answers : List Answer) : Op → Prop
  | .store _ _ => (∀ a ∈ answers, a.fn = .put → a.rc = 0 ∨ a.rc = MDB_MAP_FULL) ∧
    growthFails .put answers = false
  | .remove _ => growthFails .del answers = false
  | .getBinobj _ => ∀ a ∈ answers, (a.fn = .dbiOpen → a.rc = 0) ∧ (a.fn = .get → a.rc ≠ MDB_INVALID)

instance (answers : List Answer) : (op : Op) → Decidable (op.Fine answers)
  | .store _ _ => inferInstanceAs (Decidable (_ ∧ _))
  | .remove _ => inferInstanceAs (Decidable (_ = _))
  | .getBinobj _ => List.decidableBAll _ _

/-! ## Transactions that are ended -/

section
variable {events e e' : List Event} {n : ℕ} {txn : ℕ}

theorem filter_of_other (h : ∀ ev ∈ events, ev.txn ≠ some txn) :
    events.filter (·.txn = some txn) = [] :=
  List.filter_eq_nil_iff.mpr fun ev hmem => by simpa using h ev hmem

theorem endedOnce_of_null (h : ∀ ev ∈ events, ev.txn = none) : EndedOnce events := by
  refine fun txn => .inl (filter_of_other fun ev hmem => ?_)
  rw [h ev hmem]
  exact Option.some_ne_none txn |>.symm

/-- What is done to one transaction. -/
theorem endedOnce_single (h : ∀ ev ∈ events, ev.txn = some n) : EndedOnce events ↔
    events = [] ∨ events = [.txnBegin n, .txnAbort (some n)] ∨
      events = [.txnBegin n, .txnCommit (some n)] := by
  have hself : events.filter (·.txn = some n) = events :=
    List.filter_eq_self.mpr fun ev hmem => by simpa using h ev hmem
  constructor
  · intro hended
    simpa only [hself] using hended n
  · intro hevents txn
    by_cases htxn : txn = n
    · subst htxn
      rwa [hself]
    · refine .inl (filter_of_other fun ev hmem => ?_)
      rw [h ev hmem]
      exact fun heq => htxn (Option.some.inj heq).symm

theorem endedOnce_null_append (h : ∀ ev ∈ e, ev.txn = none) :
    EndedOnce (e ++ e') ↔ EndedOnce e' := by
  refine forall_congr' fun txn => ?_
  have hnil : e.filter (·.txn = some txn) = [] := filter_of_other fun ev hmem heq => by
    rw [h ev hmem] at heq
    contradiction
  rw [List.filter_append, hnil, List.nil_append]

/-- Two parts that are about different transactions. -/
theorem endedOnce_append (h : ∀ ev ∈ e, ∀ txn ∈ ev.txn, txn < n)
    (h' : ∀ ev ∈ e', ∀ txn ∈ ev.txn, n ≤ txn) :
    EndedOnce (e ++ e') ↔ EndedOnce e ∧ EndedOnce e' := by
  rw [EndedOnce, EndedOnce, EndedOnce, ← forall_and]
  refine forall_congr' fun txn => ?_
  rw [List.filter_append]
  rcases Nat.lt_or_ge txn n with hlt | hge
  · have hnil : e'.filter (·.txn = some txn) = [] :=
      filter_of_other fun ev hmem heq => absurd (h' ev hmem txn heq) (Nat.not_le.mpr hlt)
    rw [hnil, List.append_nil]
    exact (and_iff_left (.inl rfl)).symm
  · have hnil : e.filter (·.txn = some txn) = [] :=
      filter_of_other fun ev hmem heq => absurd (h ev hmem txn heq) (Nat.not_lt.mpr hge)
    rw [hnil, List.nil_append]
    exact (and_iff_right (.inl rfl)).symm

end

/-! ## Parts of a call -/

section
variable {α β : Type} {s s' t t' : State} {a : Answer} {used used' : List Answer}
  {e e' : List Event} {n n' : ℕ}

theorem bind_eq_some {x : M α} {f : α → M β} {b : β} :
    (x >>= f) s = some (b, s') ↔ ∃ a t, x s = some (a, t) ∧ f a t = some (b, s') := by
  refine Option.bind_eq_some_iff.trans ?_
  constructor
  · rintro ⟨⟨a, t⟩, h⟩
    exact ⟨a, t, h⟩
  · rintro ⟨a, t, h⟩
    exact ⟨(a, t), h⟩

/-- The codes that were used, what was done, and the number of transactions that were begun. -/
structure Did (s t : State) (used : List Answer) (e : List Event) (n : ℕ) : Prop where
  answers : s.answers = used ++ t.answers
  events : t.events = s.events ++ e
  next : t.next = s.next + n

theorem Did.refl : Did s s [] [] 0 := ⟨rfl, (List.append_nil _).symm, rfl⟩

theorem Did.trans (h : Did s t used e n) (h' : Did t s' used' e' n') :
    Did s s' (used ++ used') (e ++ e') (n + n') where
  answers := by rw [h.answers, h'.answers, List.append_assoc]
  events := by rw [h'.events, h.events, List.append_assoc]
  next := by rw [h'.next, h.next, Nat.add_assoc]

theorem did_call {fn : Fn} (h : call fn s = some (a, t)) : a.fn = fn ∧ Did s t [a] [] 0 := by
  unfold call at h
  split at h
  next => contradiction
  next b answers hanswers =>
    split at h
    next hfn =>
      cases h
      exact ⟨hfn, hanswers, (List.append_nil _).symm, rfl⟩
    next => contradiction

theorem did_mdbTxnAbort {txn : Option ℕ} (h : mdbTxnAbort txn s = some ((), t)) :
    Did s t [] [.txnAbort txn] 0 := by
  cases h
  exact ⟨rfl, rfl, rfl⟩

theorem did_mdbTxnCommit {txn : Option ℕ} {rc : ℤ} (h : mdbTxnCommit txn s = some (rc, t)) :
    ∃ a, a.fn = .txnCommit ∧ a.rc = rc ∧ Did s t [a] [.txnCommit txn] 0 := by
  obtain ⟨a, t, hcall, h⟩ := bind_eq_some.mp h
  cases h
  obtain ⟨hfn, hdid⟩ := did_call hcall
  exact ⟨a, hfn, rfl, hdid.answers, congrArg (· ++ [_]) (hdid.events.trans (List.append_nil _)),
    hdid.next⟩

/-- A transaction is begun, or the pointer is as it was. -/
theorem did_mdbTxnBegin {txn txn' : Option ℕ} {rc : ℤ}
    (h : mdbTxnBegin txn s = some ((rc, txn'), t)) : ∃ a, a.fn = .txnBegin ∧
      ((rc ≠ 0 ∧ txn' = txn ∧ Did s t [a] [] 0) ∨
        (rc = 0 ∧ txn' = some s.next ∧ Did s t [a] [.txnBegin s.next] 1)) := by
  obtain ⟨a, u, hcall, h⟩ := bind_eq_some.mp h
  obtain ⟨hfn, hdid⟩ := did_call hcall
  have hnext : u.next = s.next := hdid.next
  refine ⟨a, hfn, ?_⟩
  split at h
  next hrc =>
    cases h
    rw [hnext]
    exact .inr ⟨hrc, rfl, hdid.answers, by rw [hdid.events, List.append_nil], rfl⟩
  next hrc =>
    cases h
    exact .inl ⟨hrc, rfl, hdid⟩

/-- No transaction is touched, and only the environment is asked. -/
def Quiet (s t : State) : Prop :=
  ∃ used, Did s t used [] 0 ∧ ∀ a ∈ used, a.fn = .envCreate ∨ a.fn = .envOpen

theorem quiet_self : Quiet s s := ⟨[], .refl, by simp⟩

theorem did_setDriver {d : LmdbDriver} (h : setDriver d s = some ((), t)) : Did s t [] [] 0 := by
  cases h
  exact ⟨rfl, (List.append_nil _).symm, rfl⟩

theorem quiet_setDriver {d : LmdbDriver} (h : setDriver d s = some ((), t)) : Quiet s t :=
  ⟨[], did_setDriver h, by simp⟩

theorem Quiet.trans (h : Quiet s t) (h' : Quiet t s') : Quiet s s' := by
  obtain ⟨used, hdid, hused⟩ := h
  obtain ⟨used', hdid', hused'⟩ := h'
  exact ⟨used ++ used', hdid.trans hdid', List.forall_mem_append.mpr ⟨hused, hused'⟩⟩

theorem quiet_call {fn : Fn} (hfn : fn = .envCreate ∨ fn = .envOpen)
    (h : call fn s = some (a, t)) : Quiet s t := by
  obtain ⟨rfl, hdid⟩ := did_call h
  exact ⟨[a], hdid, by simpa using hfn⟩

theorem quiet_openDb (h : openDb s = some ((), t)) : Quiet s t := by
  obtain ⟨d, u, hd, h⟩ := bind_eq_some.mp h
  cases hd
  split at h
  next =>
    cases h
    exact quiet_self
  next =>
    obtain ⟨a, u, hcall, h⟩ := bind_eq_some.mp h
    refine (quiet_call (.inl rfl) hcall).trans ?_
    split at h
    next =>
      obtain ⟨b, v, hcall, h⟩ := bind_eq_some.mp h
      refine (quiet_call (.inr rfl) hcall).trans ?_
      split at h <;> exact quiet_setDriver h
    next =>
      cases h
      exact quiet_self

theorem quiet_ensureOpened (h : ensureOpened s = some ((), t)) : Quiet s t := by
  obtain ⟨d, u, hd, h⟩ := bind_eq_some.mp h
  cases hd
  split at h
  next => exact quiet_openDb h
  next =>
    cases h
    exact quiet_self

theorem quiet_reopen (h : reopen s = some ((), t)) : Quiet s t := by
  obtain ⟨d, u, hd, h⟩ := bind_eq_some.mp h
  cases hd
  split at h
  next =>
    obtain ⟨⟨⟩, u, hset, h⟩ := bind_eq_some.mp h
    exact (quiet_setDriver hset).trans (quiet_openDb h)
  next =>
    cases h
    exact quiet_self

theorem quiet_reopenAfterMany (h : reopenAfterMany s = some ((), t)) : Quiet s t := by
  obtain ⟨d, u, hd, h⟩ := bind_eq_some.mp h
  cases hd
  split at h
  next => exact quiet_reopen h
  next =>
    cases h
    exact quiet_self

/-! ## Growth -/

variable {txn : Option ℕ} {depth : ℕ} {rc : ℤ}

theorem did_abortUnlessNull (h : abortUnlessNull txn s = some ((), t)) :
    Did s t [] (if txn.isSome then [.txnAbort txn] else []) 0 := by
  unfold abortUnlessNull at h
  split at h
  next htxn =>
    rw [if_pos htxn]
    exact did_mdbTxnAbort h
  next htxn =>
    cases h
    rw [if_neg htxn]
    exact .refl

/-- The transaction is aborted once for each time that the map is to be made larger. -/
theorem did_growthDb (h : growthDb txn depth s = some (rc, t)) :
    ∃ used k, Did s t used
        (List.replicate (k + 1) (if txn.isSome then [.txnAbort txn] else [])).flatten 0 ∧
      (∀ a ∈ used, a.fn = .envInfo ∨ a.fn = .envSetMapsize) ∧
      ∀ rest, mapsizeFails (used ++ rest) = true ↔ k ≠ 0 := by
  induction depth generalizing s with
  | zero => contradiction
  | succ depth ih =>
    obtain ⟨⟨⟩, u, habort, h⟩ := bind_eq_some.mp h
    have habort := did_abortUnlessNull habort
    obtain ⟨a, v, hcall, h⟩ := bind_eq_some.mp h
    obtain ⟨hafn, hcall⟩ := did_call hcall
    split at h
    next harc =>
      obtain ⟨b, w, hcall', h⟩ := bind_eq_some.mp h
      obtain ⟨hbfn, hcall'⟩ := did_call hcall'
      have hdid := (habort.trans hcall).trans hcall'
      split at h
      next hbrc =>
        obtain ⟨used, k, hgrow, hused, -⟩ := ih h
        refine ⟨[a, b] ++ used, k + 1, ?_, ?_, fun rest => ?_⟩
        · simpa [List.replicate_succ] using hdid.trans hgrow
        · simpa [hafn, hbfn] using hused
        · simp [mapsizeFails, hafn, harc, hbfn, hbrc]
      next hbrc =>
        cases h
        refine ⟨[a, b], 0, by simpa using hdid, by simp [hafn, hbfn], fun rest => ?_⟩
        simp [mapsizeFails, hbrc]
    next harc =>
      cases h
      refine ⟨[a], 0, by simpa using habort.trans hcall, by simp [hafn], fun rest => ?_⟩
      cases rest <;> simp [mapsizeFails, harc]

/-! ## Parts that are about their own transactions -/

/-- What is done is done to transactions that were begun in between. -/
structure Part (s t : State) (used : List Answer) (e : List Event) : Prop where
  answers : s.answers = used ++ t.answers
  events : t.events = s.events ++ e
  next_le : s.next ≤ t.next
  own : ∀ ev ∈ e, ∀ txn ∈ ev.txn, s.next ≤ txn ∧ txn < t.next

theorem Did.part_of_null (h : Did s t used e 0) (he : ∀ ev ∈ e, ev.txn = none) :
    Part s t used e where
  answers := h.answers
  events := h.events
  next_le := Nat.le_of_eq h.next.symm
  own ev hmem txn htxn := by
    rw [he ev hmem] at htxn
    contradiction

theorem Did.part_of_single (h : Did s t used e 1) (he : ∀ ev ∈ e, ev.txn = some s.next) :
    Part s t used e where
  answers := h.answers
  events := h.events
  next_le := Nat.le.intro h.next.symm
  own ev hmem txn htxn := by
    rw [he ev hmem] at htxn
    cases htxn
    exact ⟨Nat.le_refl _, Nat.lt_of_lt_of_eq (Nat.lt_succ_self _) h.next.symm⟩

theorem Part.trans (h : Part s t used e) (h' : Part t s' used' e') :
    Part s s' (used ++ used') (e ++ e') where
  answers := by rw [h.answers, h'.answers, List.append_assoc]
  events := by rw [h'.events, h.events, List.append_assoc]
  next_le := Nat.le_trans h.next_le h'.next_le
  own ev hmem txn htxn := by
    rcases List.mem_append.mp hmem with hmem | hmem
    · obtain ⟨hle, hlt⟩ := h.own ev hmem txn htxn
      exact ⟨hle, Nat.lt_of_lt_of_le hlt h'.next_le⟩
    · obtain ⟨hle, hlt⟩ := h'.own ev hmem txn htxn
      exact ⟨Nat.le_trans h.next_le hle, hlt⟩

theorem Part.endedOnce_append (h : Part s t used e) (h' : Part t s' used' e') :
    EndedOnce (e ++ e') ↔ EndedOnce e ∧ EndedOnce e' :=
  Storage.endedOnce_append (fun ev hmem txn htxn => (h.own ev hmem txn htxn).2)
    fun ev hmem txn htxn => (h'.own ev hmem txn htxn).1

/-- The transactions of the part are ended unless the codes are `Bad`. -/
def Settles (Bad : List Answer → Prop) (s t : State) : Prop :=
  ∃ used e, Part s t used e ∧ (EndedOnce e ↔ ¬ Bad used)

variable {Bad : List Answer → Prop} {X : Prop}

/-- A part goes before one of which it is known. -/
theorem Part.settles (h : Part s t used e) (hended : EndedOnce e ↔ ¬ X)
    (hbad : ∀ rest, Bad (used ++ rest) ↔ X ∨ Bad rest) (hrest : Settles Bad t s') :
    Settles Bad s s' := by
  obtain ⟨used', e', h', hended'⟩ := hrest
  refine ⟨used ++ used', e ++ e', h.trans h', ?_⟩
  rw [h.endedOnce_append h', hended, hended', hbad, not_or]

/-- Nothing is left to be done. -/
theorem settles_self (hbad : ¬ Bad []) : Settles Bad s s :=
  ⟨[], [], Did.refl.part_of_null (by simp), iff_of_true (endedOnce_of_null (by simp)) hbad⟩

theorem Quiet.settles (h : Quiet s t)
    (hbad : ∀ used rest, (∀ a ∈ used, a.fn = .envCreate ∨ a.fn = .envOpen) →
      (Bad (used ++ rest) ↔ Bad rest)) (hrest : Settles Bad t s') : Settles Bad s s' := by
  obtain ⟨used, hdid, hused⟩ := h
  exact (hdid.part_of_null (by simp)).settles (X := False)
    (iff_of_true (endedOnce_of_null (by simp)) not_false)
    (fun rest => (hbad used rest hused).trans (iff_of_eq (false_or _).symm)) hrest

/-! ## store and remove -/

section
variable {fn : Fn} {leaves : Bool} {rest : List Answer}

def Fn.writes : Fn → Bool
  | .put | .del => true
  | _ => false

/-- The codes that leave a transaction of a write or end it twice. A write that `leaves` its
transaction does so for the codes other than the one for a full map. -/
def WriteFails (fn : Fn) (leaves : Bool) (answers : List Answer) : Prop :=
  (leaves = true ∧ ∃ a ∈ answers, a.fn = fn ∧ a.rc ≠ 0 ∧ a.rc ≠ MDB_MAP_FULL) ∨
    growthFails fn answers = true

theorem writeFails_nil : ¬ WriteFails fn leaves [] := by
  simp [WriteFails, growthFails]

theorem writeFails_cons_ne (h : a.fn ≠ fn) :
    WriteFails fn leaves (a :: rest) ↔ WriteFails fn leaves rest := by
  simp [WriteFails, growthFails, h]

theorem writeFails_cons (h : a.fn = fn) : WriteFails fn leaves (a :: rest) ↔
    ((leaves = true ∧ a.rc ≠ 0 ∧ a.rc ≠ MDB_MAP_FULL) ∨
      (a.rc = MDB_MAP_FULL ∧ mapsizeFails rest = true)) ∨ WriteFails fn leaves rest := by
  simp only [WriteFails, growthFails, h, List.exists_mem_cons_iff, Bool.or_eq_true, true_and,
    decide_eq_true_iff, and_or_left]
  exact or_or_or_comm

theorem writeFails_append (hfn : fn.writes = true) (h : ∀ a ∈ used, a.fn.writes = false) :
    WriteFails fn leaves (used ++ rest) ↔ WriteFails fn leaves rest := by
  induction used with
  | nil => rfl
  | cons a used ih =>
    obtain ⟨ha, hused⟩ := List.forall_mem_cons.mp h
    have hne : a.fn ≠ fn := fun heq => by
      rw [heq, hfn] at ha
      contradiction
    rw [List.cons_append, writeFails_cons_ne hne, ih hused]

/-- A part of a write that did nothing to the database. -/
theorem Part.settles_write (hfn : fn.writes = true) (h : Part s t used e)
    (hused : ∀ a ∈ used, a.fn.writes = false) (hended : EndedOnce e)
    (hrest : Settles (WriteFails fn leaves) t s') : Settles (WriteFails fn leaves) s s' :=
  h.settles (X := False) (iff_of_true hended not_false)
    (fun _ => (writeFails_append hfn hused).trans (iff_of_eq (false_or _).symm)) hrest

/-- The codes of what only asks the environment are no writes. -/
theorem not_writes_of_growth (h : ∀ a ∈ used, a.fn = .envInfo ∨ a.fn = .envSetMapsize) :
    ∀ a ∈ used, a.fn.writes = false := by
  intro a hmem
  rcases h a hmem with h | h <;> rw [h] <;> rfl

section
variable {retry : M ResultCode} {r : ResultCode} {front : List Answer}

/-- The transaction is aborted as often as the map is to be made larger. -/
theorem settles_growth (hfn : fn.writes = true)
    (hretry : ∀ t t' r, retry t = some (r, t') → Settles (WriteFails fn leaves) t t')
    (hbegun : Did s t front [.txnBegin s.next] 1)
    (hfront : ∀ rest, WriteFails fn leaves (front ++ rest) ↔
      mapsizeFails rest = true ∨ WriteFails fn leaves rest)
    (hgrow : growthDb (some s.next) depth t = some (rc, t')) (h : retry t' = some (r, s')) :
    Settles (WriteFails fn leaves) s s' := by
  obtain ⟨used, k, hdid, hused, hfails⟩ := did_growthDb hgrow
  have hpart := (hbegun.trans hdid).part_of_single (by simp [Event.txn])
  refine hpart.settles (X := k ≠ 0) ?_ (fun rest => ?_) (hretry t' s' r h)
  · rw [endedOnce_single (n := s.next) (by simp [Event.txn])]
    cases k <;> simp [List.replicate_succ]
  · rw [List.append_assoc, hfront, hfails, writeFails_append hfn (not_writes_of_growth hused)]

theorem settles_commitOrRetry (hfn : fn.writes = true)
    (hretry : ∀ t t' r, retry t = some (r, t') → Settles (WriteFails fn leaves) t t')
    (hbegun : Did s t front [.txnBegin s.next] 1)
    (hfront : ∀ rest, WriteFails fn leaves (front ++ rest) ↔ WriteFails fn leaves rest)
    (h : commitOrRetry (some s.next) depth retry t = some (r, s')) :
    Settles (WriteFails fn leaves) s s' := by
  obtain ⟨rc, t', hcommit, h⟩ := bind_eq_some.mp h
  obtain ⟨a, ha, rfl, hended⟩ := did_mdbTxnCommit hcommit
  have hne : a.fn ≠ fn := fun heq => by
    rw [← heq, ha] at hfn
    contradiction
  have hpart := (hbegun.trans hended).part_of_single (by simp [Event.txn])
  refine hpart.settles (X := False) ?_ (fun rest => ?_) ?_
  · rw [endedOnce_single (n := s.next) (by simp [Event.txn])]
    simp
  · rw [List.append_assoc, hfront, List.singleton_append, writeFails_cons_ne hne, false_or]
  split at h
  next =>
    obtain ⟨rc, u, hgrow, h⟩ := bind_eq_some.mp h
    obtain ⟨used, k, hdid, hused, -⟩ := did_growthDb hgrow
    exact (hdid.part_of_null (by simp)).settles_write hfn (not_writes_of_growth hused)
      (endedOnce_of_null (by simp)) (hretry u s' r h)
  next => split at h <;> cases h <;> exact settles_self writeFails_nil

theorem settles_transact {onError : Option ℕ → M Unit} (hfn : fn.writes = true)
    (hretry : ∀ t t' r, retry t = some (r, t') → Settles (WriteFails fn leaves) t t')
    (hError : ∀ txn t t', onError txn t = some ((), t') →
      Did t t' [] (if leaves = true then [] else [.txnAbort txn]) 0)
    (h : transact fn onError depth retry s = some (r, s')) :
    Settles (WriteFails fn leaves) s s' := by
  obtain ⟨⟨rc, txn⟩, t, hbegin, h⟩ := bind_eq_some.mp h
  obtain ⟨a, ha, ⟨hrc, rfl, hbegun⟩ | ⟨rfl, rfl, hbegun⟩⟩ := did_mdbTxnBegin hbegin
  · -- nothing was begun
    dsimp only at h
    rw [if_pos hrc] at h
    obtain ⟨⟨⟩, u, habort, h⟩ := bind_eq_some.mp h
    cases h
    have hpart := (hbegun.trans (did_mdbTxnAbort habort)).part_of_null (by simp [Event.txn])
    exact hpart.settles_write hfn (by simp [ha, Fn.writes])
      (endedOnce_of_null (by simp [Event.txn])) (settles_self writeFails_nil)
  dsimp only at h
  rw [if_neg (by decide)] at h
  obtain ⟨b, u, hopen, h⟩ := bind_eq_some.mp h
  obtain ⟨hb, hopened⟩ := did_call hopen
  split at h
  next =>
    obtain ⟨⟨⟩, v, habort, h⟩ := bind_eq_some.mp h
    cases h
    have hdid := (hbegun.trans hopened).trans (did_mdbTxnAbort habort)
    refine (hdid.part_of_single (by simp [Event.txn])).settles_write hfn
      (by simp [ha, hb, Fn.writes]) ?_ (settles_self writeFails_nil)
    exact (endedOnce_single (n := s.next) (by simp [Event.txn])).mpr (by simp)
  next =>
    obtain ⟨c, v, hcall, h⟩ := bind_eq_some.mp h
    obtain ⟨hc, hcalled⟩ := did_call hcall
    have hdid := (hbegun.trans hopened).trans hcalled
    have hfront (rest : List Answer) : WriteFails fn leaves ([a] ++ [b] ++ [c] ++ rest) ↔
        WriteFails fn leaves (c :: rest) :=
      show WriteFails fn leaves ([a, b] ++ c :: rest) ↔ _ from
        writeFails_append hfn (by simp [ha, hb, Fn.writes])
    split at h
    next hfull =>
      obtain ⟨rc, w, hgrow, h⟩ := bind_eq_some.mp h
      refine settles_growth hfn hretry hdid (fun rest => ?_) hgrow h
      rw [hfront, writeFails_cons hc]
      simp [hfull]
    next hfull =>
      split at h
      next hrc =>
        obtain ⟨⟨⟩, w, herror, h⟩ := bind_eq_some.mp h
        cases h
        have hpart := (hdid.trans (hError _ _ _ herror)).part_of_single (by simp [Event.txn])
        refine hpart.settles (X := leaves = true) ?_ (fun rest => ?_) (settles_self writeFails_nil)
        · rw [endedOnce_single (n := s.next) (by simp [Event.txn])]
          cases leaves <;> simp
        · rw [List.append_nil, hfront, writeFails_cons hc]
          simp [hrc, hfull]
      next hrc =>
        refine settles_commitOrRetry hfn hretry hdid (fun rest => ?_) h
        rw [hfront, writeFails_cons hc]
        simp [hrc, hfull]

end

theorem writeFails_quiet (hfn : fn.writes = true)
    (h : ∀ a ∈ used, a.fn = .envCreate ∨ a.fn = .envOpen) :
    WriteFails fn leaves (used ++ rest) ↔ WriteFails fn leaves rest := by
  refine writeFails_append hfn fun a hmem => ?_
  rcases h a hmem with h | h <;> rw [h] <;> rfl

theorem settles_store {key value : String} {r : ResultCode}
    (h : store key value depth s = some (r, s')) : Settles (WriteFails .put true) s s' := by
  induction depth generalizing s s' r with
  | zero => contradiction
  | succ depth ih =>
    obtain ⟨⟨⟩, t, hopened, h⟩ := bind_eq_some.mp h
    refine (quiet_ensureOpened hopened).settles (fun _ _ => writeFails_quiet rfl) ?_
    split at h
    next =>
      cases h
      exact settles_self writeFails_nil
    next =>
      split at h
      next =>
        cases h
        exact settles_self writeFails_nil
      next =>
        refine settles_transact rfl (fun t t' r => ih) (fun txn t t' h => ?_) h
        cases h
        exact .refl

theorem settles_remove {key : String} {r : ResultCode}
    (h : remove key depth s = some (r, s')) : Settles (WriteFails .del false) s s' := by
  induction depth generalizing s s' r with
  | zero => contradiction
  | succ depth ih =>
    obtain ⟨⟨⟩, t, hopened, h⟩ := bind_eq_some.mp h
    refine (quiet_ensureOpened hopened).settles (fun _ _ => writeFails_quiet rfl) ?_
    split at h
    next =>
      cases h
      exact settles_self writeFails_nil
    next => exact settles_transact rfl (fun t t' r => ih) (fun txn t t' => did_mdbTxnAbort) h

end

/-! ## get_binobj -/

section
variable {rest : List Answer} {rc' : ℤ} {txn' : Option ℕ} {i : ℕ}

/-- The codes that leave the transaction of a read. -/
def ReadFails (answers : List Answer) : Prop :=
  ∃ a ∈ answers, (a.fn = .dbiOpen ∧ a.rc ≠ 0) ∨ (a.fn = .get ∧ a.rc = MDB_INVALID)

theorem readFails_nil : ¬ ReadFails [] := by simp [ReadFails]

theorem readFails_append : ReadFails (used ++ rest) ↔ ReadFails used ∨ ReadFails rest := by
  simp only [ReadFails, List.mem_append, or_and_right, exists_or]

/-- The functions that are called before the transaction is used. -/
def Fn.begins : Fn → Bool
  | .envCreate | .envOpen | .txnBegin => true
  | _ => false

theorem not_readFails (h : ∀ a ∈ used, a.fn.begins = true) : ¬ ReadFails used := by
  rintro ⟨a, hmem, hfails⟩
  have hbegins := h a hmem
  rcases hfails with ⟨hfn, -⟩ | ⟨hfn, -⟩ <;> rw [hfn] at hbegins <;> contradiction

/-- At most one transaction is begun, and it is the one that is pointed to. -/
def Began (s t : State) (rc : ℤ) (txn : Option ℕ) : Prop :=
  ∃ used e, (∀ a ∈ used, a.fn.begins = true) ∧ (∀ ev ∈ e, ev.txn = none) ∧
    ((rc ≠ 0 ∧ txn = none ∧ Did s t used e 0) ∨
      (rc = 0 ∧ txn = some s.next ∧ Did s t used (e ++ [.txnBegin s.next]) 1))

theorem began_mdbTxnBegin (h : mdbTxnBegin none s = some ((rc, txn), t)) : Began s t rc txn := by
  obtain ⟨a, ha, h⟩ := did_mdbTxnBegin h
  exact ⟨[a], [], by simp [ha, Fn.begins], by simp, h⟩

/-- Nothing was begun at first. -/
theorem Began.after (h : Did s t used e 0) (hused : ∀ a ∈ used, a.fn.begins = true)
    (he : ∀ ev ∈ e, ev.txn = none) (hbegan : Began t t' rc txn) : Began s t' rc txn := by
  obtain ⟨used', e', hused', he', h'⟩ := hbegan
  have hnext : t.next = s.next := h.next
  refine ⟨used ++ used', e ++ e', List.forall_mem_append.mpr ⟨hused, hused'⟩,
    List.forall_mem_append.mpr ⟨he, he'⟩, h'.imp ?_ ?_⟩
  · rintro ⟨hrc, htxn, h'⟩
    exact ⟨hrc, htxn, h.trans h'⟩
  · rintro ⟨hrc, htxn, h'⟩
    rw [hnext] at htxn h'
    have hdid := h.trans h'
    rw [← List.append_assoc] at hdid
    exact ⟨hrc, htxn, hdid⟩

theorem Quiet.began (h : Quiet s t) (hbegan : Began t t' rc txn) : Began s t' rc txn := by
  obtain ⟨used, hdid, hused⟩ := h
  refine hbegan.after hdid (fun a hmem => ?_) (by simp)
  rcases hused a hmem with h | h <;> rw [h] <;> rfl

theorem beginAgain_zero : beginAgain i 0 txn = pure (0, txn) := by
  cases i <;> rfl

theorem began_beginAgain (hrc : rc ≠ 0) (h : beginAgain i rc none s = some ((rc', txn'), t)) :
    Began s t rc' txn' := by
  induction i generalizing s rc with
  | zero =>
    cases h
    exact ⟨[], [], by simp, by simp, .inl ⟨hrc, rfl, .refl⟩⟩
  | succ i ih =>
    rw [beginAgain, if_pos hrc] at h
    obtain ⟨⟨⟩, u, habort, h⟩ := bind_eq_some.mp h
    obtain ⟨⟨rc, txn⟩, v, hbegin, h⟩ := bind_eq_some.mp h
    refine Began.after (did_mdbTxnAbort habort) (by simp) (by simp [Event.txn]) ?_
    obtain ⟨a, ha, ⟨hrc, rfl, hbegun⟩ | ⟨rfl, rfl, hbegun⟩⟩ := did_mdbTxnBegin hbegin
    · exact (ih hrc h).after hbegun (by simp [ha, Fn.begins]) (by simp)
    · dsimp only at h
      rw [beginAgain_zero] at h
      cases h
      exact began_mdbTxnBegin hbegin

theorem began_beginRead (h : beginRead s = some ((rc, txn), t)) : Began s t rc txn := by
  obtain ⟨⟨rc, txn⟩, u, hbegin, h⟩ := bind_eq_some.mp h
  dsimp only at h
  split at h
  next hslot =>
    subst hslot
    obtain ⟨a, ha, ⟨hrc, rfl, hbegun⟩ | ⟨hrc, -⟩⟩ := did_mdbTxnBegin hbegin
    · exact (began_beginAgain hrc h).after hbegun (by simp [ha, Fn.begins]) (by simp)
    · contradiction
  next =>
    cases h
    exact began_mdbTxnBegin hbegin

theorem Began.beginAfterReopen (hbegan : Began s t rc txn)
    (h : beginAfterReopen rc txn t = some ((rc', txn'), t')) : Began s t' rc' txn' := by
  unfold Storage.beginAfterReopen at h
  split at h
  next hslot =>
    subst hslot
    obtain ⟨used, e, hused, he, ⟨-, rfl, hdid⟩ | ⟨hrc, -⟩⟩ := hbegan
    · obtain ⟨⟨⟩, u, habort, h⟩ := bind_eq_some.mp h
      obtain ⟨⟨⟩, v, hreopen, h⟩ := bind_eq_some.mp h
      refine Began.after hdid hused he (Began.after (did_mdbTxnAbort habort) (by simp)
        (by simp [Event.txn]) ?_)
      exact (quiet_reopen hreopen).began (began_mdbTxnBegin h)
    · contradiction
  next =>
    cases h
    exact hbegan

/-- A part of a read that is about no transaction. -/
theorem Did.settles_read (h : Did s t used e 0) (hused : ∀ a ∈ used, a.fn.begins = true)
    (he : ∀ ev ∈ e, ev.txn = none) (hrest : Settles ReadFails t s') : Settles ReadFails s s' :=
  (h.part_of_null he).settles (X := False) (iff_of_true (endedOnce_of_null he) not_false)
    (fun _ => readFails_append.trans (or_congr_left (iff_false_intro (not_readFails hused)))) hrest

theorem Quiet.settles_read (h : Quiet s t) (hrest : Settles ReadFails t s') :
    Settles ReadFails s s' := by
  obtain ⟨used, hdid, hused⟩ := h
  refine hdid.settles_read (fun a hmem => ?_) (by simp) hrest
  rcases hused a hmem with h | h <;> rw [h] <;> rfl

/-- The transaction of the read, with what was done to it. -/
theorem Did.part_of_begun {ended : List Event} (h : Did s t used (e ++ .txnBegin s.next :: ended) 1)
    (he : ∀ ev ∈ e, ev.txn = none) (hended : ∀ ev ∈ ended, ev.txn = some s.next) :
    Part s t used (e ++ .txnBegin s.next :: ended) where
  answers := h.answers
  events := h.events
  next_le := Nat.le.intro h.next.symm
  own ev hmem txn htxn := by
    rw [h.next]
    rcases List.mem_append.mp hmem with hmem | hmem
    · rw [he ev hmem] at htxn
      contradiction
    · have hself : ev.txn = some s.next := by
        rcases List.mem_cons.mp hmem with rfl | hmem
        · rfl
        · exact hended ev hmem
      cases hself.symm.trans htxn
      exact ⟨Nat.le_refl _, Nat.lt_succ_self _⟩

theorem settles_readBinobj {retry : M (Option String)} {r : Option String}
    (hretry : ∀ t t' r, retry t = some (r, t') → Settles ReadFails t t')
    (hused : ∀ a ∈ used, a.fn.begins = true) (he : ∀ ev ∈ e, ev.txn = none)
    (hbegun : Did s t used (e ++ [.txnBegin s.next]) 1)
    (h : readBinobj (some s.next) retry t = some (r, s')) : Settles ReadFails s s' := by
  have hnone := not_readFails hused
  -- where the transaction is left the read fails
  have hleft {used' : List Answer} {u : State} (hdid : Did t u used' [] 0)
      (hfails : ReadFails used') (hrest : Settles ReadFails u s') : Settles ReadFails s s' := by
    have hdid := hbegun.trans hdid
    rw [List.append_nil] at hdid
    refine (hdid.part_of_begun he (by simp)).settles (X := True) ?_ (fun rest => ?_) hrest
    · rw [endedOnce_null_append he, endedOnce_single (n := s.next) (by simp [Event.txn])]
      simp
    · rw [readFails_append, readFails_append]
      exact iff_of_true (.inl (.inr hfails)) (.inl trivial)
  obtain ⟨a, u, hopen, h⟩ := bind_eq_some.mp h
  obtain ⟨ha, hopened⟩ := did_call hopen
  split at h
  next hrc =>
    cases h
    exact hleft hopened ⟨a, List.mem_cons_self, .inl ⟨ha, hrc⟩⟩ (settles_self readFails_nil)
  next hrc =>
    obtain ⟨b, v, hget, h⟩ := bind_eq_some.mp h
    obtain ⟨hb, hgot⟩ := did_call hget
    have hdid := hopened.trans hgot
    split at h
    next hinvalid =>
      obtain ⟨⟨⟩, w, hreopen, h⟩ := bind_eq_some.mp h
      exact hleft hdid ⟨b, by simp, .inr ⟨hb, hinvalid⟩⟩
        ((quiet_reopen hreopen).settles_read (hretry w s' r h))
    next hinvalid =>
      obtain ⟨d, w, hd, h⟩ := bind_eq_some.mp h
      cases hd
      obtain ⟨⟨⟩, w, hset, h⟩ := bind_eq_some.mp h
      obtain ⟨⟨⟩, x, habort, h⟩ := bind_eq_some.mp h
      cases h
      have hrest := ((hbegun.trans hdid).trans (did_setDriver hset)).trans (did_mdbTxnAbort habort)
      have hended : Did s s' (used ++ [a, b])
          (e ++ [.txnBegin s.next, .txnAbort (some s.next)]) 1 := by
        simpa using hrest
      refine ⟨_, _, hended.part_of_begun he (by simp [Event.txn]), ?_⟩
      rw [endedOnce_null_append he, endedOnce_single (n := s.next) (by simp [Event.txn])]
      refine iff_of_true (by simp) fun hfails => ?_
      rcases readFails_append.mp hfails with hused | ⟨c, hmem, hc⟩
      · exact hnone hused
      · simp only [List.mem_cons, List.not_mem_nil, or_false] at hmem
        rcases hmem with rfl | rfl
        · simp [ha, hrc] at hc
        · simp [hb, hinvalid] at hc

theorem settles_getBinobj {uri : String} {depth : ℕ} {r : Option String}
    (h : getBinobj uri depth s = some (r, s')) : Settles ReadFails s s' := by
  induction depth generalizing s s' r with
  | zero => contradiction
  | succ depth ih =>
    obtain ⟨⟨⟩, t, hopened, h⟩ := bind_eq_some.mp h
    refine (quiet_ensureOpened hopened).settles_read ?_
    obtain ⟨⟨⟩, u, hreopened, h⟩ := bind_eq_some.mp h
    refine (quiet_reopenAfterMany hreopened).settles_read ?_
    split at h
    next =>
      cases h
      exact settles_self readFails_nil
    obtain ⟨d, v, hd, h⟩ := bind_eq_some.mp h
    cases hd
    split at h
    next =>
      cases h
      exact settles_self readFails_nil
    obtain ⟨⟨rc, txn⟩, v, hbegin, h⟩ := bind_eq_some.mp h
    dsimp only at h
    have hbegan := began_beginRead hbegin
    split at h
    next hresized =>
      obtain ⟨⟨⟩, w, hreopen, h⟩ := bind_eq_some.mp h
      obtain ⟨used, e, hused, he, ⟨-, rfl, hdid⟩ | ⟨rfl, -⟩⟩ := hbegan
      · exact hdid.settles_read hused he ((quiet_reopen hreopen).settles_read (ih h))
      · contradiction
    next =>
      obtain ⟨⟨rc', txn'⟩, w, hagain, h⟩ := bind_eq_some.mp h
      dsimp only at h
      obtain ⟨used, e, hused, he, ⟨hrc, rfl, hdid⟩ | ⟨rfl, rfl, hdid⟩⟩ :=
        hbegan.beginAfterReopen hagain
      · rw [if_pos hrc] at h
        cases h
        exact hdid.settles_read hused he (settles_self readFails_nil)
      · exact settles_readBinobj (fun t t' r => ih) hused he hdid h

end

end

/-! ## Calls in any order -/

section
variable {c : Call} {s s' : State} {calls : List Call} {d : LmdbDriver}

theorem not_writeFails_put {answers : List Answer} : ¬ WriteFails .put true answers ↔
    (∀ a ∈ answers, a.fn = .put → a.rc = 0 ∨ a.rc = MDB_MAP_FULL) ∧
      growthFails .put answers = false := by
  simp only [WriteFails, true_and, not_or, not_exists, not_and, Bool.not_eq_true]
  refine and_congr_left fun _ => forall₂_congr fun a _ => imp_congr_right fun _ => ?_
  rw [not_not, ← or_iff_not_imp_left]

theorem Settles.of_used_up {Bad : List Answer → Prop} (h : Settles Bad s s')
    (hused : s'.answers = []) : ∃ e, Part s s' s.answers e ∧ (EndedOnce e ↔ ¬ Bad s.answers) := by
  obtain ⟨used, e, hpart, hended⟩ := h
  have hanswers := hpart.answers
  rw [hused, List.append_nil] at hanswers
  rw [hanswers]
  exact ⟨e, hpart, hended⟩

theorem Op.exec_spec {op : Op} {depth : ℕ} (h : op.exec depth s = some ((), s'))
    (hused : s'.answers = []) :
    ∃ e, Part s s' s.answers e ∧ (EndedOnce e ↔ op.Fine s.answers) := by
  cases op with
  | store key value =>
    obtain ⟨r, t, h, ht⟩ := bind_eq_some.mp h
    cases ht
    obtain ⟨e, hpart, hended⟩ := (settles_store h).of_used_up hused
    exact ⟨e, hpart, hended.trans not_writeFails_put⟩
  | remove key =>
    obtain ⟨r, t, h, ht⟩ := bind_eq_some.mp h
    cases ht
    obtain ⟨e, hpart, hended⟩ := (settles_remove h).of_used_up hused
    refine ⟨e, hpart, hended.trans ?_⟩
    simp [WriteFails, Op.Fine]
  | getBinobj uri =>
    obtain ⟨r, t, h, ht⟩ := bind_eq_some.mp h
    cases ht
    obtain ⟨e, hpart, hended⟩ := (settles_getBinobj h).of_used_up hused
    refine ⟨e, hpart, hended.trans ?_⟩
    simp only [ReadFails, Op.Fine, not_exists, not_and, not_or, not_not]

/-- The call returns with its codes. -/
def Call.Returns (c : Call) (s : Option State) : Prop := (c.step s).isSome

instance (c : Call) (s : Option State) : Decidable (c.Returns s) :=
  inferInstanceAs (Decidable ((c.step s).isSome = true))

/-- The transactions that were begun so far are ended once, and nothing is done to others. -/
def Ended (s : Option State) : Prop := ∀ t ∈ s, EndedOnce t.events

/-- Besides, they were begun before. -/
def Inv (s : Option State) : Prop :=
  ∃ t, s = some t ∧ EndedOnce t.events ∧ ∀ ev ∈ t.events, ∀ txn ∈ ev.txn, txn < t.next

/-- A call ends its transactions if and only if its codes are fine. -/
theorem Inv.step {s : Option State} (hs : Inv s) (h : c.Returns s) :
    (Ended (c.step s) ↔ c.op.Fine c.answers) ∧ (Ended (c.step s) → Inv (c.step s)) := by
  obtain ⟨t, rfl, hended, hlt⟩ := hs
  obtain ⟨t', hstep⟩ := Option.isSome_iff_exists.mp h
  obtain ⟨⟨⟨⟩, u⟩, hexec, hu⟩ := Option.bind_eq_some_iff.mp hstep
  dsimp only at hu
  split at hu
  next hused =>
    cases hu
    obtain ⟨e, hpart, hfine⟩ := Op.exec_spec hexec hused
    have hevents : t'.events = t.events ++ e := hpart.events
    have hiff : EndedOnce t'.events ↔ c.op.Fine c.answers := by
      rw [hevents, endedOnce_append hlt fun ev hmem txn htxn => (hpart.own ev hmem txn htxn).1]
      exact (and_iff_right hended).trans hfine
    have hnext : ∀ ev ∈ t'.events, ∀ txn ∈ ev.txn, txn < t'.next := by
      intro ev hmem txn htxn
      rw [hevents] at hmem
      rcases List.mem_append.mp hmem with hmem | hmem
      · exact Nat.lt_of_lt_of_le (hlt ev hmem txn htxn) hpart.next_le
      · exact (hpart.own ev hmem txn htxn).2
    rw [hstep]
    refine ⟨Iff.trans ?_ hiff, fun h => ⟨t', rfl, h t' rfl, hnext⟩⟩
    exact ⟨fun h => h t' rfl, fun h v hv => Option.some.inj hv ▸ h⟩
  next => contradiction

/-- **Transactions are ended once** at the return of every call, in any order of calls, if and only
if the codes of every call are fine. -/
theorem ended_iff (h : Along Call.step Call.Returns (some ⟨d, [], 0, []⟩) calls) :
    Throughout Call.step Ended (some ⟨d, [], 0, []⟩) calls ↔
      ∀ c ∈ calls, c.op.Fine c.answers := by
  have hinit : Inv (some ⟨d, [], 0, []⟩) := ⟨_, rfl, endedOnce_of_null (by simp), by simp⟩
  rw [h.throughout_iff hinit (C := fun c _ => c.op.Fine c.answers), along_iff_forall]
  · rintro s ⟨t, rfl, hended, -⟩ u hu
    exact Option.some.inj hu ▸ hended
  · exact fun c s hs hc hfine => (hs.step hc).2 ((hs.step hc).1.mpr hfine)
  · exact fun c s hs hc hended => (hs.step hc).1.mp hended

/-- The map is full, the environment cannot be opened at first, and a slot is bad. -/
theorem ended_retried : Throughout Call.step Ended (some ⟨⟨.R, false, false, 0⟩, [], 0, []⟩)
    [⟨.store "d:a" "x", [⟨.envCreate, 0, ""⟩, ⟨.envOpen, 2, ""⟩, ⟨.txnBegin, 13, ""⟩], 2⟩,
      ⟨.store "d:a" "x", [⟨.envCreate, 0, ""⟩, ⟨.envOpen, 0, ""⟩, ⟨.txnBegin, 0, ""⟩,
        ⟨.dbiOpen, 0, ""⟩, ⟨.put, MDB_MAP_FULL, ""⟩, ⟨.envInfo, 0, ""⟩, ⟨.envSetMapsize, 0, ""⟩,
        ⟨.txnBegin, 0, ""⟩, ⟨.dbiOpen, 0, ""⟩, ⟨.put, 0, ""⟩, ⟨.txnCommit, 0, ""⟩], 2⟩,
      ⟨.getBinobj "d:a", [⟨.txnBegin, MDB_BAD_RSLOT, ""⟩, ⟨.txnBegin, 0, ""⟩, ⟨.dbiOpen, 0, ""⟩,
        ⟨.get, 0, "x"⟩], 1⟩] :=
  (ended_iff (by decide +kernel)).mpr (by decide +kernel)

/-- A key that is too long for `mdb_put`, an environment that cannot grow in `remove`, and a read of
an invalid file. -/
theorem not_ended :
    let s : Option State := some ⟨⟨.RW, true, true, 0⟩, [], 0, []⟩
    let tooLong : Call := ⟨.store "d:a" "x",
      [⟨.txnBegin, 0, ""⟩, ⟨.dbiOpen, 0, ""⟩, ⟨.put, -30781, ""⟩], 1⟩
    let noSpace : Call := ⟨.remove "d:a", [⟨.txnBegin, 0, ""⟩, ⟨.dbiOpen, 0, ""⟩,
      ⟨.del, MDB_MAP_FULL, ""⟩, ⟨.envInfo, 0, ""⟩, ⟨.envSetMapsize, 12, ""⟩, ⟨.envInfo, 13, ""⟩,
      ⟨.txnBegin, 13, ""⟩], 3⟩
    let invalid : Call := ⟨.getBinobj "d:a", [⟨.txnBegin, 0, ""⟩, ⟨.dbiOpen, 0, ""⟩,
      ⟨.get, MDB_INVALID, ""⟩, ⟨.txnBegin, 13, ""⟩], 2⟩
    ∀ c ∈ [tooLong, noSpace, invalid], c.Returns s ∧ ¬ Ended (c.step s) := by
  -- the first transaction is not ended once
  have hnot {s : Option State} (t : State) (hs : s = some t)
      (h : ¬ (t.events.filter (·.txn = some 0) = [] ∨
        t.events.filter (·.txn = some 0) = [.txnBegin 0, .txnAbort (some 0)] ∨
        t.events.filter (·.txn = some 0) = [.txnBegin 0, .txnCommit (some 0)])) : ¬ Ended s :=
    fun hended => h (hended t hs 0)
  intro s tooLong noSpace invalid
  simp only [List.forall_mem_cons]
  refine ⟨⟨by decide +kernel, hnot ⟨_, _, _, [.txnBegin 0]⟩ rfl (by decide)⟩,
    ⟨by decide +kernel, hnot ⟨_, _, _, [.txnBegin 0, .txnAbort (some 0), .txnAbort (some 0),
      .txnAbort none]⟩ rfl (by decide)⟩,
    ⟨by decide +kernel, hnot ⟨_, _, _, [.txnBegin 0]⟩ rfl (by decide)⟩, by simp⟩

end

end Veda.Storage
