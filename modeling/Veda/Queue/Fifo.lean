import Veda.Lib.Run
import Veda.Queue.Position

/-! # First in, first out

Producers that open the queue one after another, and one consumer object in D. The consumer
returns what was pushed, in order and once, as long as it stays in the part in which it began: when
it goes to the next part, its queue object keeps the files of the old one open. -/

namespace Veda.Queue.Fifo

open Run

structure World where
  source : Source
  consumer : Consumer
  pushed : List Bytes
  /-- The messages for which `commit_and_next` returned true. -/
  committed : List Bytes
  /-- The last call of `pop` returned a message, and it was not committed. -/
  answered : Bool

def init : World := ⟨.empty, .openNew, [], [], false⟩

inductive Event where
  | openRW
  | push (msg : { msg : Bytes // msg ≠ [] }) (type : QMessageType)
  | pop
  | commitAndNext

section
variable (crc32 : Bytes → BitVec 32)

def step : Event → World → World
  | .openRW, w => { w with source := w.source.step crc32 .restart }
  | .push msg type, w =>
    match w.source.producer with
    | none => w
    | some _ =>
      { w with
        source := (w.source.step crc32 (.append msg.1 type)).step crc32 .putInfoPush
        pushed := w.pushed ++ [msg.1] }
  | .pop, w =>
    let (answer, consumer) := w.consumer.pop w.source.files
    { w with consumer, answered := match answer with
      | .msg _ => true
      | _ => false }
  | .commitAndNext, w =>
    let (ok, consumer) := w.consumer.commitAndNext crc32 w.source.files
    if ok then
      { w with consumer, committed := w.committed ++ [consumer.lastReadMsg], answered := false }
    else { w with consumer }

/-- `pop` returns null at the end of what was pushed, and when it goes to the next part. -/
def NullAtEnd : Event → World → Prop
  | .pop, w =>
    (w.consumer.pop w.source.files).1 = .null →
      w.committed = w.pushed ∨ (w.consumer.pop w.source.files).2.id ≠ w.consumer.id
  | _, _ => True

/-- A run loses nothing, repeats nothing and keeps the order. -/
def InOrder (es : List Event) : Prop :=
  Throughout (step crc32) (fun w => w.committed <+: w.pushed) init es ∧
    Along (step crc32) NullAtEnd init es

/-- What the count in `_info_push` permits. -/
def AllCommitted (files : Files) (c : Consumer) : Prop :=
  ∀ part, files.parts c.id = some part → ∀ info, part.infoPush = some info →
    info.countPushed ≤ c.countPopped

instance (files : Files) (c : Consumer) : Decidable (AllCommitted files c) :=
  inferInstanceAs (Decidable (∀ part, files.parts c.id = some part →
    ∀ info, part.infoPush = some info → info.countPushed ≤ c.countPopped))

/-- No counter overflows, no message is too long, a consumer is used when there is a first part
and has no file of another part open, and only what `pop` returned is committed. -/
def Sound : Event → World → Prop
  | .openRW, w => ∀ id, w.source.files.infoQueue = some id → id + 1 < 2 ^ 32
  | .push msg _, w =>
    msg.1.length ≤ 0xFFFFFFFF / 2 ∧
      ∀ q, w.source.producer = some q → q.countPushed.toNat + 1 < 2 ^ 32
  | .pop, w => w.source.files.infoQueue ≠ none ∧ w.consumer.queue.Fresh w.consumer.id
  | .commitAndNext, w =>
    w.source.files.infoQueue ≠ none ∧ w.consumer.queue.Fresh w.consumer.id ∧
      (w.answered = true ∨ AllCommitted w.source.files w.consumer)

instance : ∀ (e : Event) (w : World), Decidable (Sound e w)
  | .openRW, w => inferInstanceAs (Decidable (∀ id, w.source.files.infoQueue = some id → _))
  | .push msg _, w => inferInstanceAs (Decidable (msg.1.length ≤ _ ∧
      ∀ q, w.source.producer = some q → q.countPushed.toNat + 1 < 2 ^ 32))
  | .pop, w => inferInstanceAs (Decidable (_ ∧ w.consumer.queue.Fresh w.consumer.id))
  | .commitAndNext, w => inferInstanceAs (Decidable (_ ∧ w.consumer.queue.Fresh w.consumer.id ∧
      (w.answered = true ∨ AllCommitted w.source.files w.consumer)))

/-! ## The invariant -/

/-- The log of what was pushed. -/
structure Logged (l : Log) (w : World) : Prop where
  wf : l.WF
  source : w.source = l.source crc32
  count : ∀ p, l.count p = (l.appended p).length
  first : (l.appended 0).map Message.body <+: w.pushed
  single : l.parts ≤ 1 → w.pushed = (l.appended 0).map Message.body

/-- The consumer reads the first part, or it has read all of it and gone on. -/
inductive Position (l : Log) (w : World) : Prop
  | reading (k : Nat) (hat : w.consumer.At l 0 k)
      (committed : w.committed = ((l.appended 0).take k).map Message.body)
      (answered : w.answered = true → w.consumer.Read crc32 l 0 k)
  | moved (parts : 2 ≤ l.parts) (hopen : w.consumer.queue.infoPushR = some 0)
      (id : w.consumer.id ≠ 0) (committed : w.committed = (l.appended 0).map Message.body)

def Inv (w : World) : Prop := ∃ l, Logged crc32 l w ∧ Position crc32 l w

variable {crc32} {l l' : Log} {w w' : World}

theorem inv_init : Inv crc32 init := by
  refine ⟨.empty, ⟨.empty, rfl, fun _ => rfl, List.prefix_rfl, fun _ => rfl⟩, ?_⟩
  exact .reading 0 (.openNew _) rfl nofun

theorem Logged.parts_pos (h : Logged crc32 l w) (hinfo : w.source.files.infoQueue ≠ none) :
    0 < l.parts := by
  apply Nat.pos_of_ne_zero
  intro h0
  rw [h.source] at hinfo
  exact hinfo (if_pos h0)

/-- A step of the producer does not move the consumer. -/
theorem Position.mono (h : Position crc32 l w) (hl : l.WF) (hle : l.Le l') (source : Source)
    (pushed : List Bytes) :
    Position crc32 l' { w with source, pushed } := by
  cases h with
  | reading k hat committed answered =>
    have htake := hle.take (Nat.le_trans hat.le (hl.count_le 0))
    refine .reading k (hat.mono hl hle) ?_ fun ha => (answered ha).mono hle
    rw [htake]
    exact committed
  | moved parts hopen id committed =>
    refine .moved (Nat.le_trans parts hle.parts) hopen id ?_
    rw [hle.closed 0 parts]
    exact committed

theorem Position.committed_prefix (h : Position crc32 l w) (hlog : Logged crc32 l w) :
    w.committed <+: w.pushed := by
  cases h with
  | reading k hat committed answered =>
    rw [committed]
    exact ((List.take_prefix k _).map _).trans hlog.first
  | moved parts hopen id committed =>
    rw [committed]
    exact hlog.first

theorem inv_openRW (h : Inv crc32 w) (hsound : Sound .openRW w) :
    Inv crc32 (step crc32 .openRW w) := by
  obtain ⟨l, hlog, hpos⟩ := h
  have hparts := Log.parts_lt crc32 (l := l) (by
    have hid : ∀ id, w.source.files.infoQueue = some id → id + 1 < 2 ^ 32 := hsound
    rw [hlog.source] at hid
    exact hid)
  refine ⟨l.restart, ?_, ?_⟩
  · exact {
      wf := hlog.wf.restart hparts
      source := by
        rw [← Log.source_restart crc32 hlog.wf hparts, ← hlog.source]
        rfl
      count := hlog.count
      first := hlog.first
      single := fun h1 => hlog.single (Nat.le_of_succ_le h1) }
  · exact hpos.mono hlog.wf l.le_restart _ _

/-- A message is pushed to the last part. -/
theorem Logged.push (h : Logged crc32 l w) (m : Message) (hparts : 0 < l.parts)
    (hlen : (l.appended (l.parts - 1)).length + 1 < 2 ^ 32) :
    Logged crc32 (l.append m).putInfoPush { w with
      source := (w.source.step crc32 (.append m.body m.type)).step crc32 .putInfoPush
      pushed := w.pushed ++ [m.body] } where
  wf := (h.wf.append m hparts hlen).putInfoPush hparts
  source := by
    rw [← Log.source_putInfoPush crc32 (l := l.append m) hparts,
      ← Log.source_append crc32 h.wf m hparts, ← h.source]
  count p := by
    have hcount := h.count p
    by_cases hp : p = l.parts - 1
    · subst hp
      simp [Log.count, Log.putInfoPush, Log.append]
    · simpa [Log.count, Log.putInfoPush, Log.append, hp] using hcount
  first := by
    by_cases hp : 0 = l.parts - 1
    · have hpushed := h.single (by omega)
      simp [Log.putInfoPush, Log.append, ← hp, hpushed]
    · refine List.IsPrefix.trans ?_ (h.first.trans (List.prefix_append _ _))
      simp [Log.putInfoPush, Log.append, hp]
  single h1 := by
    have hp : l.parts - 1 = 0 := by
      have : l.parts ≤ 1 := h1
      omega
    have hpushed := h.single h1
    simp [Log.putInfoPush, Log.append, hp, hpushed]

theorem inv_push (h : Inv crc32 w) (msg : { msg : Bytes // msg ≠ [] }) (type : QMessageType)
    (hsound : Sound (.push msg type) w) : Inv crc32 (step crc32 (.push msg type) w) := by
  obtain ⟨l, hlog, hpos⟩ := h
  obtain ⟨hshort, hcount⟩ := hsound
  cases hq : w.source.producer with
  | none =>
    rw [step, hq]
    exact ⟨l, hlog, hpos⟩
  | some q =>
    have hproducer : l.producer = some q := by
      rw [← hq, hlog.source]
      rfl
    obtain ⟨hparts, -⟩ := Log.producer_eq_some hproducer
    have hlen : (l.appended (l.parts - 1)).length + 1 < 2 ^ 32 := by
      rw [← Log.toNat_countPushed hlog.wf hproducer]
      exact hcount q hq
    have hlog' := hlog.push ⟨type, msg.1, msg.2, hshort⟩ hparts hlen
    have hle := l.le_append ⟨type, msg.1, msg.2, hshort⟩
    have hwf := hlog.wf.append ⟨type, msg.1, msg.2, hshort⟩ hparts hlen
    have hle' := hle.trans (Log.le_putInfoPush hwf)
    rw [step, hq]
    exact ⟨_, hlog', hpos.mono hlog.wf hle' _ _⟩

/-- A consumer that has no file of another part open is in the first part. -/
theorem Position.reading_of_fresh (h : Position crc32 l w)
    (hfresh : w.consumer.queue.Fresh w.consumer.id) :
    ∃ k, w.consumer.At l 0 k ∧ w.committed = ((l.appended 0).take k).map Message.body ∧
      (w.answered = true → w.consumer.Read crc32 l 0 k) := by
  cases h with
  | reading k hat committed answered => exact ⟨k, hat, committed, answered⟩
  | moved parts hopen id committed => exact absurd (hfresh.infoPushR 0 hopen).symm id

theorem count_le_of_allCommitted {c : Consumer} (hat : c.At l 0 k) (hl : l.WF)
    (hparts : 0 < l.parts) (h : AllCommitted (l.files crc32) c) : l.count 0 ≤ k := by
  have hbound := Nat.lt_of_le_of_lt (hl.count_le 0) (hl.length 0)
  cases hc : l.counted 0 with
  | none => simp [Log.count, hc]
  | some j =>
    have hj : l.count 0 = j := by rw [Log.count, hc, Option.getD_some]
    have hle := h (l.part crc32 0) (by rw [hat.id, Log.files_parts_of_lt crc32 hparts])
      (Log.infoPush (l.appended 0) j) (by rw [Log.part, hc, Option.map_some])
    rw [hat.countPopped, Log.infoPush, ofNat_le_ofNat (by omega)
      (Nat.lt_of_le_of_lt hat.le hbound)] at hle
    rw [hj]
    exact hle

/-- `pop` keeps the invariant and returns null where it may. -/
theorem inv_pop (h : Inv crc32 w) (hsound : Sound .pop w) :
    Inv crc32 (step crc32 .pop w) ∧ NullAtEnd .pop w := by
  obtain ⟨l, hlog, hpos⟩ := h
  obtain ⟨hinfo, hfresh⟩ := hsound
  have hparts := hlog.parts_pos hinfo
  obtain ⟨k, hat, committed, -⟩ := hpos.reading_of_fresh hfresh
  have hfiles : w.source.files = l.files crc32 := congrArg Source.files hlog.source
  have hall (hk : l.count 0 = k) : w.committed = (l.appended 0).map Message.body := by
    rw [committed, ← hk, hlog.count, List.take_length]
  rw [step, NullAtEnd, hfiles]
  rcases hat.pop crc32 hlog.wf hparts with ⟨c', hpop, hat', hread⟩ | ⟨hlast, hk, c', hpop, hat'⟩ |
    ⟨hnext, hk, c', hpop, hid, hopen⟩
  · rw [hpop]
    exact ⟨⟨l, ⟨hlog.wf, hlog.source, hlog.count, hlog.first, hlog.single⟩,
      .reading k hat' committed fun _ => hread⟩, nofun⟩
  · rw [hpop]
    refine ⟨⟨l, ⟨hlog.wf, hlog.source, hlog.count, hlog.first, hlog.single⟩,
      .reading k hat' committed nofun⟩, fun _ => .inl ?_⟩
    rw [hall hk, hlog.single (Nat.le_of_eq hlast)]
  · rw [hpop]
    refine ⟨⟨l, ⟨hlog.wf, hlog.source, hlog.count, hlog.first, hlog.single⟩,
      .moved hnext hopen (by simp [hid]) (hall hk)⟩, fun _ => .inr ?_⟩
    simp [hid, hat.id]

theorem inv_commitAndNext (h : Inv crc32 w) (hsound : Sound .commitAndNext w) :
    Inv crc32 (step crc32 .commitAndNext w) := by
  obtain ⟨l, hlog, hpos⟩ := h
  obtain ⟨hinfo, hfresh, hanswered⟩ := hsound
  have hparts := hlog.parts_pos hinfo
  obtain ⟨k, hat, committed, answered⟩ := hpos.reading_of_fresh hfresh
  have hfiles : w.source.files = l.files crc32 := congrArg Source.files hlog.source
  rw [step, hfiles]
  rcases hanswered with ha | hcommitted
  · have hread := answered ha
    obtain ⟨c', hcommit, hat', hmsg⟩ := hat.commit_read hlog.wf hparts hread
    obtain ⟨hk, hbody, -⟩ := hread
    rw [hcommit]
    refine ⟨l, ⟨hlog.wf, hlog.source, hlog.count, hlog.first, hlog.single⟩,
      .reading (k + 1) hat' ?_ nofun⟩
    show w.committed ++ [c'.lastReadMsg] = _
    rw [committed, hmsg, hbody, List.take_succ_eq_append_getElem hk, List.map_append]
    rfl
  · have hk := count_le_of_allCommitted hat hlog.wf hparts (hfiles ▸ hcommitted)
    obtain ⟨c', hcommit, hat'⟩ := hat.commit_none crc32 hlog.wf hparts hk
    rw [hcommit]
    refine ⟨l, ⟨hlog.wf, hlog.source, hlog.count, hlog.first, hlog.single⟩,
      .reading k hat' committed fun ha => ?_⟩
    obtain ⟨-, -, hlt, -⟩ := answered ha
    exact absurd hlt (Nat.not_lt.mpr hk)

theorem inv_step (e : Event) (w : World) (h : Inv crc32 w) (hsound : Sound e w) :
    Inv crc32 (step crc32 e w) := by
  cases e with
  | openRW => exact inv_openRW h hsound
  | push msg type => exact inv_push h msg type hsound
  | pop => exact (inv_pop h hsound).1
  | commitAndNext => exact inv_commitAndNext h hsound

theorem nullAtEnd_of_inv (e : Event) (w : World) (h : Inv crc32 w) (hsound : Sound e w) :
    NullAtEnd e w := by
  cases e with
  | pop => exact (inv_pop h hsound).2
  | openRW | push msg type | commitAndNext => trivial

end

end Veda.Queue.Fifo
