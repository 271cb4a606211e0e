import Veda.Mstorage.Replies

/-! # Operation ids over restarts

The thread of the individuals together with the crashes of its process. What survives is the
module-info file, the queue and what the database has kept; the operation id starts again from the
`committed_op_id` of the file. -/

namespace Veda.Mstorage.IndividualsManager

open Run

/-- A crash in the middle of a request is a request whose later writes did not take place, followed
by a restart. -/
inductive Event where
  | receive (e : Message)
  | restart (kept : Storage)

def stepEvent : Event → State → State
  | .receive e, s => step e s
  | .restart kept, s => State.start kept s.moduleInfo s.flow

/-- The ids of the records in the queue, the oldest first. -/
def State.opIds (s : State) : List Int := s.flow.map FlowRecord.opId

/-- The operation ids grow. -/
def Growing (s : State) : Prop := s.opIds.Pairwise (· < ·)

/-- The `committed_op_id` in the file, which an unreadable file does not have. -/
def State.fileCommitted (s : State) : Int := (s.moduleInfo.map MInfo.committedOpId).getD 0

/-- A restart finds no record in the queue that is later than the `committed_op_id` in the file,
and a request finds that the counter can count on. -/
def Durable : Event → State → Prop
  | .receive (.save _ _), s => s.opId < 0x7FFFFFFFFFFFFFFF
  | .receive _, _ => True
  | .restart _, s => ∀ record ∈ s.flow, record.opId ≤ s.fileCommitted

instance decidableDurable : ∀ e s, Decidable (Durable e s)
  | .receive (.save _ _), s => inferInstanceAs (Decidable (s.opId < _))
  | .receive (.commit _ _), _ => .isTrue trivial
  | .receive (.commitAndReply _ _), _ => .isTrue trivial
  | .receive .freeze, _ => .isTrue trivial
  | .receive .unfreeze, _ => .isTrue trivial
  | .receive (.find _), _ => .isTrue trivial
  | .restart _, s => inferInstanceAs (Decidable (∀ record ∈ s.flow, _))

/-- The ids grow up to the current one, and all counters are counts. -/
structure Counted (s : State) : Prop where
  growing : Growing s
  latest : ∀ record ∈ s.flow, record.opId ≤ s.opId
  opId : 0 ≤ s.opId
  committed : 0 ≤ s.committedOpId
  file : 0 ≤ s.fileCommitted

namespace Counted

variable {s : State}

theorem start (kept : Storage) {info : Option MInfo} {flow : List FlowRecord}
    (hflow : (flow.map FlowRecord.opId).Pairwise (· < ·))
    (hfile : 0 ≤ (info.map MInfo.committedOpId).getD 0)
    (hlatest : ∀ record ∈ flow, record.opId ≤ (info.map MInfo.committedOpId).getD 0) :
    Counted (State.start kept info flow) where
  growing := hflow
  latest := hlatest
  opId := hfile
  committed := Int.le_refl 0
  file := hfile

/-- What is not counted may change. -/
theorem congr {s' : State} (h : Counted s) (hflow : s'.flow = s.flow) (hopId : s'.opId = s.opId)
    (hcommitted : s'.committedOpId = s.committedOpId ∨ s'.committedOpId = s.opId)
    (hfile : s'.moduleInfo = s.moduleInfo ∨
      ∃ opId committed, s'.moduleInfo = some ⟨opId, committed⟩ ∧ 0 ≤ committed) : Counted s' where
  growing := by rw [Growing, State.opIds, hflow]; exact h.growing
  latest := by rw [hflow, hopId]; exact h.latest
  opId := by rw [hopId]; exact h.opId
  committed := by
    obtain heq | heq := hcommitted
    · rw [heq]; exact h.committed
    · rw [heq]; exact h.opId
  file := by
    obtain heq | ⟨opId, committed, heq, hnonneg⟩ := hfile
    · rw [State.fileCommitted, heq]; exact h.file
    · rw [State.fileCommitted, heq]; exact hnonneg

theorem nextOpId (h : Counted s) (hid : s.opId < 0x7FFFFFFFFFFFFFFF) :
    s.nextOpId = s.opId + 1 := by
  have hnonneg := h.opId
  rw [State.nextOpId, Int.bmod_eq_of_le (by omega) (by omega)]

/-- The next id is later than all in the queue, with or without its record. -/
theorem succeed (h : Counted s) (hid : s.opId < 0x7FFFFFFFFFFFFFFF) (r : SaveRequest)
    (ti : TransactionItem) (o : Outcome) : Counted (s.succeed r ti o) := by
  have hnext := h.nextOpId hid
  have hnonneg := h.opId
  have hlatest : ∀ record ∈ s.flow, record.opId < s.nextOpId := by
    intro record hrecord
    have hle := h.latest record hrecord
    omega
  rw [State.succeed_eq]
  constructor
  case growing =>
    cases o.push.pushed with
    | false => exact h.growing
    | true =>
      simp only [Growing, State.opIds, if_true, List.map_append, List.map_cons, List.map_nil]
      apply List.pairwise_append.mpr
      refine ⟨h.growing, List.pairwise_singleton _ _, ?_⟩
      intro opId hopId next hnext
      obtain ⟨record, hrecord, rfl⟩ := List.mem_map.mp hopId
      rw [List.mem_singleton.mp hnext]
      exact hlatest record hrecord
  case latest =>
    intro record hrecord
    cases hpushed : o.push.pushed with
    | false =>
      rw [hpushed] at hrecord
      exact Int.le_of_lt (hlatest record hrecord)
    | true =>
      rw [hpushed] at hrecord
      obtain hold | hnew := List.mem_append.mp hrecord
      · exact Int.le_of_lt (hlatest record hold)
      · rw [List.mem_singleton.mp hnew]
        exact Int.le_refl _
  case opId =>
    dsimp only
    omega
  case committed => exact h.committed
  case file =>
    cases hwritten : o.infoWritten with
    | false => exact h.file
    | true => exact h.committed

theorem handleSave (h : Counted s) (hid : s.opId < 0x7FFFFFFFFFFFFFFF) (r : SaveRequest)
    (o : Outcome) : Counted (s.handleSave r o) := by
  cases htiz : r.tiz with
  | nil =>
    rw [State.handleSave, htiz]
    exact h.congr rfl rfl (.inl rfl) (.inl rfl)
  | cons ti rest =>
    obtain ⟨replies, heq⟩ := s.answerFrozen_eq r ti
    have hopId : (s.answerFrozen r ti).opId = s.opId := by rw [heq]
    have hfrozen : Counted (s.answerFrozen r ti) := by
      rw [heq]
      exact h.congr rfl rfl (.inl rfl) (.inl rfl)
    rw [State.handleSave, htiz]
    dsimp only
    by_cases hcmd : Writes ti
    · by_cases hc : Carried ti o
      · rw [State.execute_of_carried hcmd hc]
        have hstored : ∀ storage, Counted { s.answerFrozen r ti with storage := storage } :=
          fun _ => hfrozen.congr rfl rfl (.inl rfl) (.inl rfl)
        apply (hstored _).succeed
        rw [hopId]
        exact hid
      · obtain ⟨rc, _, heq⟩ :=
          State.execute_of_not_carried (s := s.answerFrozen r ti) (r := r) hcmd hc
        rw [heq]
        exact hfrozen.congr rfl rfl (.inl rfl) (.inl rfl)
    · rw [State.execute_of_not_writes hcmd]
      exact hfrozen

theorem step (h : Counted s) (e : Event) (hd : Durable e s) : Counted (stepEvent e s) := by
  cases e with
  | restart kept => exact start kept h.growing h.file hd
  | receive e =>
    cases e with
    | save r o => exact h.handleSave hd r o
    | commit flushes written =>
      rw [stepEvent, IndividualsManager.step, State.commit_eq]
      apply h.congr
      · rfl
      · rfl
      · cases flushes
        · exact .inl rfl
        · exact .inr rfl
      · dsimp only
        split
        · exact .inr ⟨_, _, rfl, h.opId⟩
        · exact .inl rfl
    | commitAndReply flushes written =>
      rw [stepEvent, IndividualsManager.step, State.commitAndReply_eq]
      apply h.congr
      · rfl
      · rfl
      · exact .inr rfl
      · dsimp only
        split
        · exact .inr ⟨_, _, rfl, h.opId⟩
        · exact .inl rfl
    | freeze => exact h.congr rfl rfl (.inl rfl) (.inl rfl)
    | unfreeze => exact h.congr rfl rfl (.inl rfl) (.inl rfl)
    | find uri => exact h

end Counted

/-- In a run in which every restart is durable, the ids grow in every state. -/
theorem growing_of_durable (storage : Storage) (es : List Event)
    (h : Along stepEvent Durable (State.start storage none []) es) :
    Throughout stepEvent Growing (State.start storage none []) es := by
  have hstart : Counted (State.start storage none []) := by
    apply Counted.start storage List.Pairwise.nil
    · exact Int.le_refl 0
    intro record hrecord
    exact absurd hrecord List.not_mem_nil
  exact h.throughout hstart (fun e _ hs hd => hs.step e hd) fun _ hs => hs.growing

/-- A request to save one item with a text. -/
def sampleSave : Event := .receive (.save ⟨"?", [sampleItem .put "d:a"], -1, .none⟩ .fine)

/-- A commit before the restart makes it durable. -/
theorem growing_commit_restart :
    Throughout stepEvent Growing (State.start (fun _ => none) none [])
      [sampleSave, .receive (.commit true true), .restart (fun _ => none), sampleSave] :=
  growing_of_durable (fun _ => none) _ (by decide)

/-- After a restart the first request writes a `committed_op_id` of zero to the file, and the next
restart begins with it. -/
theorem not_growing_second_restart :
    let es := [sampleSave, .receive (.commit true true), .restart (fun _ => none), sampleSave,
      .restart (fun _ => none), sampleSave]
    (run stepEvent (State.start (fun _ => none) none []) es).opIds = [1, 2, 1] ∧
      ¬Throughout stepEvent Growing (State.start (fun _ => none) none []) es := by
  intro es
  have hids : (run stepEvent (State.start (fun _ => none) none []) es).opIds = [1, 2, 1] := rfl
  refine ⟨hids, ?_⟩
  intro h
  have hgrowing := h.run
  rw [Growing, hids] at hgrowing
  exact absurd hgrowing (by decide)

end Veda.Mstorage.IndividualsManager
