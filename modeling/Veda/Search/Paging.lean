import Mathlib.Data.List.TakeDrop
import Mathlib.Data.Nat.Find
import Mathlib.Data.Int.Notation

/-! # Pages of a result

The model of `exec_xapian_query_and_queue_authorize` in `xapian_vql.d`, and of a client that asks for
one page after the other, from the cursor of the page before. What Xapian gives, who may read what
and when the clock of the authorization has passed five seconds are parameters; the counters are
natural numbers. -/

namespace Veda.Search.Paging

/-! ## The model -/

/-- `ResultCode`, as far as it is used here. -/
inductive ResultCode where
  | ok
  | ticketNotFound
  | databaseModifiedError
  | internalServerError
  deriving DecidableEq

/-- `OptAuthorize`. -/
inductive OptAuthorize where
  | no
  | yes
  deriving DecidableEq

/-- A match in an `MSet`, with what `is_next` and `get_document_data` put into `err`. -/
structure Match where
  data : String
  isNextErr : ℤ
  dataErr : ℤ

structure MSet where
  estimated : ℕ
  items : List Match

/-- `SearchResult` without the times, and what was given to `add_out_element`. -/
structure SearchResult where
  result : List String
  count : ℕ
  estimated : ℕ
  processed : ℕ
  cursor : ℕ
  resultCode : ResultCode

/-- What a call is asked for, and after how many passes of the loop the authorization is found to
have taken more than five seconds. -/
structure Request where
  top : ℕ
  limit : ℕ
  isSlow : ℕ → Bool

section
variable (opAuth : OptAuthorize) (authorize : String → String → Bool)

/-- `op_auth != OptAuthorize.YES || authorize(subject_id, user_uri, …)`. -/
def isPassed (user : String) (subjectId : String) : Bool :=
  opAuth ≠ .yes || authorize subjectId user

/-- The counters and what was given out. -/
structure State where
  processed : ℕ
  readCount : ℕ
  result : List String

/-- The state after a match. -/
def State.visit (st : State) (passed : Bool) (subjectId : String) : State :=
  ⟨st.processed + 1, if passed then st.readCount + 1 else st.readCount,
    if passed then st.result ++ [subjectId] else st.result⟩

/-- The loop over the matches: the state at its end, and the result code where an error ends the
call. -/
def loop (user : String) (top : ℕ) (isSlow : ℕ → Bool) :
    List Match → State → State × Option ResultCode
  | [], st => (st, none)
  | item :: items, st =>
    if item.isNextErr < 0 then
      (st, if item.isNextErr = -1 then none else some .internalServerError)
    else if item.dataErr < 0 then
      (st, if item.dataErr = -1 then none else some .internalServerError)
    else
      let passed := isPassed opAuth authorize user item.data
      let st := st.visit passed item.data
      if passed ∧ st.readCount ≥ top then (st, none)
      -- the clock runs only while something is authorized
      else if opAuth = .yes ∧ isSlow st.processed then (st, none)
      else loop user top isSlow items st

/-- `exec_xapian_query_and_queue_authorize`. -/
def exec (getMset : ℕ → ℕ → Except ℤ (Option MSet)) (userUri : Option String) (start : ℕ)
    (req : Request) : SearchResult :=
  let top := if req.top = 0 then 10000 else req.top
  let limit := if req.limit = 0 then 10000 else req.limit
  match userUri with
  | none => ⟨[], 0, 0, 0, 0, .ticketNotFound⟩
  | some user =>
    match getMset start limit with
    | .error err =>
      ⟨[], 0, 0, 0, 0, if err = -1 then .databaseModifiedError else .internalServerError⟩
    | .ok none => ⟨[], 0, 0, 0, start, .ok⟩
    | .ok (some mset) =>
      match loop opAuth authorize user top req.isSlow mset.items ⟨0, 0, []⟩ with
      | (st, none) =>
        ⟨st.result, st.readCount, mset.estimated, st.processed, start + st.processed, .ok⟩
      | (st, some resultCode) => ⟨st.result, 0, mset.estimated, 0, 0, resultCode⟩

/-! ## Pages -/

/-- Xapian gives the part of the matches that is asked for, without an error. -/
def slice (found : List String) (estimated : ℕ) (start limit : ℕ) : Except ℤ (Option MSet) :=
  .ok (some ⟨estimated, ((found.drop start).take limit).map (⟨·, 0, 0⟩)⟩)

variable (found : List String) (estimated : ℕ) (userUri : Option String) (reqs : ℕ → Request)

/-- The pages one after the other, each from the cursor of the one before. -/
def page : ℕ → SearchResult
  | 0 => exec opAuth authorize (slice found estimated) userUri 0 (reqs 0)
  | n + 1 => exec opAuth authorize (slice found estimated) userUri (page n).cursor (reqs (n + 1))

/-- What the user may read. Without a user nothing is given out. -/
def readable (subjectId : String) : Bool :=
  userUri.any fun user => isPassed opAuth authorize user subjectId

/-- Some page is the first that processes nothing, and the pages up to it give out the matches that
the user may read, each one once and in the order of the list. -/
def ExactlyOnce : Prop :=
  ∃ n, (page opAuth authorize found estimated userUri reqs n).processed = 0 ∧
    (∀ k < n, (page opAuth authorize found estimated userUri reqs k).processed ≠ 0) ∧
    (List.range (n + 1)).flatMap
        (fun k => (page opAuth authorize found estimated userUri reqs k).result) =
      found.filter (readable opAuth authorize userUri)

end

/-! ## One page -/

section
variable {opAuth : OptAuthorize} {authorize : String → String → Bool} {user : String} {top : ℕ}
  {isSlow : ℕ → Bool} {found : List String} {estimated start : ℕ} {userUri : Option String}
  {req : Request} {reqs : ℕ → Request}

/-- The loop processes a part of the matches from the first one on, which is not empty unless there
are none, and gives out those of them that may be read. -/
theorem loop_spec (items : List String) (st : State) : ∃ m ≤ items.length, ∃ readCount,
    (items ≠ [] → m ≠ 0) ∧
    loop opAuth authorize user top isSlow (items.map (⟨·, 0, 0⟩)) st =
      (⟨st.processed + m, readCount,
        st.result ++ (items.take m).filter (isPassed opAuth authorize user)⟩, none) := by
  induction items generalizing st with
  | nil => exact ⟨0, le_rfl, st.readCount, nofun, by simp [loop]⟩
  | cons item items ih =>
    have hone {l : List String} : st.result ++ ((item :: l).filter (isPassed opAuth authorize user)) =
        (st.visit (isPassed opAuth authorize user item) item).result ++
          l.filter (isPassed opAuth authorize user) := by
      unfold State.visit
      cases h : isPassed opAuth authorize user item <;> simp [h]
    have hend : (st.visit (isPassed opAuth authorize user item) item, (none : Option ResultCode)) =
        (⟨st.processed + 1, (st.visit (isPassed opAuth authorize user item) item).readCount,
          st.result ++ ((item :: items).take 1).filter (isPassed opAuth authorize user)⟩, none) := by
      rw [List.take_succ_cons, hone, List.take_zero, List.filter_nil, List.append_nil]
      rfl
    simp only [List.map_cons, loop, Int.lt_irrefl, if_false, ge_iff_le]
    split
    next => exact ⟨1, Nat.le_add_left .., _, fun _ => nofun, hend⟩
    next =>
      split
      next => exact ⟨1, Nat.le_add_left .., _, fun _ => nofun, hend⟩
      next =>
        obtain ⟨m, hm, readCount, -, hloop⟩ :=
          ih (st.visit (isPassed opAuth authorize user item) item)
        refine ⟨m + 1, Nat.succ_le_succ hm, readCount, fun _ => nofun, ?_⟩
        rw [hloop, List.take_succ_cons, hone, State.visit, Nat.add_assoc, Nat.add_comm 1 m]

/-- A page of the matches from `start` on. -/
theorem exec_spec (hstart : start ≤ found.length) : ∃ m,
    start + m ≤ found.length ∧ (start < found.length → m ≠ 0) ∧
    (exec opAuth authorize (slice found estimated) (some user) start req).processed = m ∧
    (exec opAuth authorize (slice found estimated) (some user) start req).cursor = start + m ∧
    (exec opAuth authorize (slice found estimated) (some user) start req).result =
      ((found.drop start).take m).filter (isPassed opAuth authorize user) := by
  have hlimit : (if req.limit = 0 then 10000 else req.limit) ≠ 0 := by
    split
    next => decide
    next h => exact h
  unfold exec slice
  dsimp only
  generalize (if req.limit = 0 then 10000 else req.limit) = limit at hlimit
  generalize (if req.top = 0 then 10000 else req.top) = top
  obtain ⟨m, hm, readCount, hne, hloop⟩ := @loop_spec opAuth authorize user top req.isSlow
    ((found.drop start).take limit) ⟨0, 0, []⟩
  rw [List.length_take, List.length_drop] at hm
  refine ⟨m, by omega, fun hlt => hne ?_, ?_⟩
  · rw [← List.length_pos_iff, List.length_take, List.length_drop]
    omega
  · rw [hloop]
    have htake : ((found.drop start).take limit).take m = (found.drop start).take m := by
      rw [List.take_take, Nat.min_eq_left (by omega)]
    rw [htake]
    exact ⟨Nat.zero_add m, congrArg _ (Nat.zero_add m), rfl⟩

/-! ## All pages -/

variable (opAuth authorize found estimated userUri reqs) in
/-- Where a page begins. -/
def cursorBefore : ℕ → ℕ
  | 0 => 0
  | n + 1 => (page opAuth authorize found estimated userUri reqs n).cursor

theorem page_eq (n : ℕ) : page opAuth authorize found estimated userUri reqs n =
    exec opAuth authorize (slice found estimated) userUri
      (cursorBefore opAuth authorize found estimated userUri reqs n) (reqs n) := by
  cases n <;> rfl

/-- The pages before a page have given out what may be read of the matches before its begin. -/
theorem pages_spec (n : ℕ) :
    cursorBefore opAuth authorize found estimated (some user) reqs n ≤ found.length ∧
      (List.range n).flatMap
          (fun k => (page opAuth authorize found estimated (some user) reqs k).result) =
        (found.take (cursorBefore opAuth authorize found estimated (some user) reqs n)).filter
          (isPassed opAuth authorize user) := by
  induction n with
  | zero => exact ⟨Nat.zero_le _, rfl⟩
  | succ n ih =>
    obtain ⟨hle, houtput⟩ := ih
    obtain ⟨m, hm, -, -, hcursor, hresult⟩ :=
      @exec_spec opAuth authorize user found estimated _ (reqs n) hle
    rw [← page_eq] at hcursor hresult
    have hnext : cursorBefore opAuth authorize found estimated (some user) reqs (n + 1) =
      cursorBefore opAuth authorize found estimated (some user) reqs n + m := hcursor
    rw [hnext]
    refine ⟨hm, ?_⟩
    rw [List.range_succ, List.flatMap_append, houtput, List.flatMap_singleton, hresult,
      ← List.filter_append, List.take_add]

/-- A page that processes something goes on by that much. -/
theorem processed_spec (n : ℕ) :
    cursorBefore opAuth authorize found estimated (some user) reqs (n + 1) =
        cursorBefore opAuth authorize found estimated (some user) reqs n +
          (page opAuth authorize found estimated (some user) reqs n).processed ∧
      ((page opAuth authorize found estimated (some user) reqs n).processed = 0 →
        cursorBefore opAuth authorize found estimated (some user) reqs n = found.length) := by
  have hle := (@pages_spec opAuth authorize user found estimated reqs n).1
  obtain ⟨m, hm, hne, hprocessed, hcursor, -⟩ :=
    @exec_spec opAuth authorize user found estimated _ (reqs n) hle
  rw [← page_eq] at hprocessed hcursor
  rw [hprocessed]
  refine ⟨hcursor, fun hzero => ?_⟩
  by_contra hlt
  exact hne (by omega) hzero

/-- The cursor grows with every page that processes something, so that one processes nothing. -/
theorem exists_processed_eq_zero :
    ∃ n, (page opAuth authorize found estimated (some user) reqs n).processed = 0 := by
  by_contra hnone
  rw [not_exists] at hnone
  have hgrows : ∀ n, n ≤ cursorBefore opAuth authorize found estimated (some user) reqs n := by
    intro n
    induction n with
    | zero => exact Nat.zero_le _
    | succ n ih =>
      have hnext := (@processed_spec opAuth authorize user found estimated reqs n).1
      have hpos := hnone n
      omega
  have hle := (@pages_spec opAuth authorize user found estimated reqs (found.length + 1)).1
  exact absurd (hgrows (found.length + 1)) (by omega)

end

/-- **Paging is exact**: whatever is asked for on each page and wherever the authorization takes too
long, the pages up to the first one that processes nothing give out every match that the user may
read once and in order. -/
theorem exactlyOnce (opAuth : OptAuthorize) (authorize : String → String → Bool)
    (found : List String) (estimated : ℕ) (userUri : Option String) (reqs : ℕ → Request) :
    ExactlyOnce opAuth authorize found estimated userUri reqs := by
  cases userUri with
  | none =>
    have hnothing : found.filter (readable opAuth authorize none) = [] :=
      List.filter_eq_nil_iff.mpr fun _ _ => Bool.false_ne_true
    refine ⟨0, rfl, nofun, ?_⟩
    rw [hnothing]
    rfl
  | some user =>
    have hexists := @exists_processed_eq_zero opAuth authorize user found estimated reqs
    refine ⟨Nat.find hexists, Nat.find_spec hexists, fun k hk => Nat.find_min hexists hk, ?_⟩
    generalize hn : Nat.find hexists = n
    obtain ⟨hnext, hend⟩ := @processed_spec opAuth authorize user found estimated reqs n
    have hzero := hn ▸ Nat.find_spec hexists
    rw [(@pages_spec opAuth authorize user found estimated reqs (n + 1)).2, hnext, hzero,
      Nat.add_zero, hend hzero, List.take_length]
    rfl

end Veda.Search.Paging
