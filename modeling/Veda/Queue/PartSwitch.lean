import Veda.Lib.Run
import Veda.Queue.Position

/-! # Leaving a part

The producer and a program that works through a queue, each of which takes one step at a time: the
producer writes one file in a step, and the program reads one. What is to be shown is that the
program has committed all the messages of the parts that it has left (`Kept`).

The program decides to leave a part from `_info_push` of the part and from `_info_queue`, which it
reads one after the other. A producer that appends messages and is restarted in between is not
noticed, nor is one that was restarted before it has counted its last message (`Reader.Sound`). -/

namespace Veda.Queue.PartSwitch

open Run

/-- A program that works through a queue. -/
structure Reader where
  State : Type
  init : State
  /-- The part it is in. -/
  part : State → Nat
  /-- Its next step, with the message that it commits. -/
  step : (Bytes → BitVec 32) → Files → State → State × Option Bytes
  /-- Between the two reads, where no message is left that it knows of: the messages it has
  popped. -/
  leaving : State → Option Nat
  /-- It has no file of another part open. -/
  Fresh : State → Prop

variable {R : Reader}

structure World (R : Reader) where
  source : Source
  reader : R.State
  /-- The messages whose records were appended to each part. -/
  appended : Nat → List Bytes
  /-- The messages that were committed in each part. -/
  committed : Nat → List Bytes

def World.init (R : Reader) : World R := ⟨.empty, R.init, fun _ => [], fun _ => []⟩

inductive Event where
  | restart
  | append (m : Message)
  | putInfoPush
  /-- The next step of the reader. -/
  | next

/-- A message is added to the list of a part. -/
def push (lists : Nat → List Bytes) (p : Nat) (msg : Bytes) : Nat → List Bytes :=
  Function.update lists p (lists p ++ [msg])

section
variable (crc32 : Bytes → BitVec 32)

def step : Event → World R → World R
  | .restart, w => { w with source := w.source.step crc32 .restart }
  | .append m, w =>
    match w.source.producer with
    | none => w
    | some q =>
      { w with
        source := w.source.step crc32 (.append m.body m.type)
        appended := push w.appended q.id m.body }
  | .putInfoPush, w => { w with source := w.source.step crc32 .putInfoPush }
  | .next, w =>
    let (reader, msg) := R.step crc32 w.source.files w.reader
    { w with reader, committed := msg.elim w.committed (push w.committed (R.part w.reader)) }

/-- The parts that the reader has left were committed. -/
def Kept (w : World R) : Prop := ∀ p < R.part w.reader, w.appended p <+: w.committed p

end

/-- The number of messages in `_info_push` of a part. -/
def infoCount (files : Files) (p : Nat) : BitVec 32 :=
  (((files.parts p).bind Part.infoPush).map InfoPush.countPushed).getD 0

/-- A producer is replaced after it has counted its messages, and not between the two reads of a
reader that has not popped all of them. No counter overflows, and a reader has the files of its
part open. -/
def Sound : Event → World R → Prop
  | .restart, w =>
    (∀ id, w.source.files.infoQueue = some id → id + 1 < 2 ^ 32) ∧
      ∀ q, w.source.producer = some q → infoCount w.source.files q.id = q.countPushed ∧
        (R.part w.reader = q.id → ∀ n, R.leaving w.reader = some n → n = q.countPushed.toNat)
  | .append _, w => ∀ q, w.source.producer = some q → q.countPushed.toNat + 1 < 2 ^ 32
  | .putInfoPush, _ => True
  | .next, w => R.Fresh w.reader

instance [∀ s, Decidable (R.Fresh s)] : ∀ (e : Event) (w : World R), Decidable (Sound e w)
  | .restart, w => inferInstanceAs (Decidable ((∀ id, w.source.files.infoQueue = some id → _) ∧
      ∀ q, w.source.producer = some q → infoCount w.source.files q.id = q.countPushed ∧
        (R.part w.reader = q.id → ∀ n, R.leaving w.reader = some n → n = q.countPushed.toNat)))
  | .append _, w => inferInstanceAs (Decidable (∀ q, w.source.producer = some q → _))
  | .putInfoPush, _ => .isTrue trivial
  | .next, w => inferInstanceAs (Decidable (R.Fresh w.reader))

/-! ## The invariant -/

/-- All the messages of the parts before the last one are counted. -/
structure Closed (l : Log) : Prop where
  wf : l.WF
  count : ∀ p, p + 1 < l.parts → l.count p = (l.appended p).length

theorem Closed.empty : Closed .empty := ⟨.empty, nofun⟩

/-- Where a reader stands in a log, and that its steps and those of the producer keep it there. -/
structure Invariant (R : Reader) (crc32 : Bytes → BitVec 32) where
  Pos : Log → R.State → (Nat → List Bytes) → Prop
  init : Pos .empty R.init fun _ => []
  restart : ∀ {l s committed}, Closed l → Pos l s committed →
    (R.part s + 1 = l.parts → ∀ n, R.leaving s = some n → n = (l.appended (R.part s)).length) →
    Pos l.restart s committed
  append : ∀ {l s committed} m, Closed l → 0 < l.parts → Pos l s committed →
    Pos (l.append m) s committed
  putInfoPush : ∀ {l s committed}, Closed l → 0 < l.parts → Pos l s committed →
    Pos l.putInfoPush s committed
  next : ∀ {l s committed}, Closed l → Pos l s committed → R.Fresh s →
    let (s', msg) := R.step crc32 (l.files crc32) s
    Pos l s' (msg.elim committed (push committed (R.part s)))
  kept : ∀ {l s committed}, Pos l s committed →
    ∀ p < R.part s, (l.appended p).map Message.body <+: committed p

namespace Invariant

variable {crc32 : Bytes → BitVec 32} {l : Log} {w : World R}

/-- The log of what was pushed, and the place of the reader. -/
structure Holds (inv : Invariant R crc32) (l : Log) (w : World R) : Prop where
  closed : Closed l
  source : w.source = l.source crc32
  appended : ∀ p, w.appended p = (l.appended p).map Message.body
  pos : inv.Pos l w.reader w.committed

theorem Holds.infoCount (inv : Invariant R crc32) (h : inv.Holds l w) (hp : p < l.parts) :
    infoCount w.source.files p = BitVec.ofNat 32 (l.count p) := by
  rw [h.source]
  simp only [PartSwitch.infoCount, Log.source, Log.files_parts_of_lt crc32 hp, Option.bind_some,
    Log.part, Log.count]
  cases l.counted p with
  | none => rfl
  | some k => rfl

variable (inv : Invariant R crc32)

theorem Holds.restart (h : inv.Holds l w) (hsound : Sound .restart w) :
    inv.Holds l.restart (PartSwitch.step crc32 .restart w) := by
  obtain ⟨hid, hcounted⟩ := hsound
  have hparts := Log.parts_lt crc32 (l := l) (by
    rw [h.source] at hid
    exact hid)
  have hlast (hpos : 0 < l.parts) : ∃ q, w.source.producer = some q ∧ q.id = l.parts - 1 ∧
      q.countPushed.toNat = (l.appended (l.parts - 1)).length := by
    refine ⟨_, (congrArg Source.producer h.source).trans (Log.producer_of_pos hpos), rfl, ?_⟩
    exact Log.toNat_countPushed h.closed.wf (Log.producer_of_pos hpos)
  refine ⟨⟨h.closed.wf.restart hparts, ?_⟩, ?_, h.appended, ?_⟩
  · intro p hp
    have hp : p + 1 < l.parts + 1 := hp
    rcases Nat.lt_or_eq_of_le (Nat.le_of_lt_succ hp) with hlt | heq
    · exact h.closed.count p hlt
    · obtain ⟨q, hq, hqid, hcount⟩ := hlast (by omega)
      have hinfo := (hcounted q hq).1
      rw [hqid, h.infoCount inv (by omega)] at hinfo
      have hle := Nat.lt_of_le_of_lt (h.closed.wf.count_le (l.parts - 1))
        (h.closed.wf.length (l.parts - 1))
      have hcount' : l.count (l.parts - 1) = (l.appended (l.parts - 1)).length := by
        rw [← hcount, ← hinfo, BitVec.toNat_ofNat, Nat.mod_eq_of_lt hle]
      have hpl : p = l.parts - 1 := by omega
      rw [hpl]
      exact hcount'
  · rw [← Log.source_restart crc32 h.closed.wf hparts, ← h.source]
    rfl
  · apply inv.restart h.closed h.pos
    intro hpart n hn
    obtain ⟨q, hq, hqid, hcount⟩ := hlast (by omega)
    have hpart' : R.part w.reader = l.parts - 1 := by omega
    rw [hpart', ← hcount]
    exact (hcounted q hq).2 (hpart'.trans hqid.symm) n hn

theorem Holds.append (h : inv.Holds l w) (m : Message) (hsound : Sound (.append m) w) :
    ∃ l', inv.Holds l' (PartSwitch.step crc32 (.append m) w) := by
  cases hq : w.source.producer with
  | none =>
    rw [PartSwitch.step, hq]
    exact ⟨l, h⟩
  | some q =>
    have hproducer : l.producer = some q := by
      rw [← hq, h.source]
      rfl
    have hlen := hsound q hq
    obtain ⟨hparts, hqid⟩ := Log.producer_eq_some hproducer
    rw [Log.toNat_countPushed h.closed.wf hproducer] at hlen
    rw [PartSwitch.step, hq, hqid]
    refine ⟨l.append m, ⟨h.closed.wf.append m hparts hlen, ?_⟩, ?_, ?_, ?_⟩
    · intro p hp
      have hp : p + 1 < l.parts := hp
      have hne : p ≠ l.parts - 1 := by omega
      have hcount := h.closed.count p hp
      simpa [Log.append, Log.count, hne] using hcount
    · rw [← Log.source_append crc32 h.closed.wf m hparts, ← h.source]
    · intro p
      by_cases hp : p = l.parts - 1
      · subst hp
        simp [push, Log.append, h.appended]
      · simp [push, Log.append, hp, h.appended]
    · exact inv.append m h.closed hparts h.pos

theorem Holds.putInfoPush (h : inv.Holds l w) :
    ∃ l', inv.Holds l' (PartSwitch.step crc32 .putInfoPush w) := by
  rcases Nat.eq_zero_or_pos l.parts with h0 | hparts
  · have hnone : w.source.producer = none := (congrArg Source.producer h.source).trans (if_pos h0)
    have hsame : PartSwitch.step crc32 .putInfoPush w = w := by
      simp only [PartSwitch.step, Source.step, hnone]
    rw [hsame]
    exact ⟨l, h⟩
  · refine ⟨l.putInfoPush, ⟨h.closed.wf.putInfoPush hparts, ?_⟩, ?_, h.appended, ?_⟩
    · intro p hp
      have hp : p + 1 < l.parts := hp
      have hne : p ≠ l.parts - 1 := by omega
      have hcount := h.closed.count p hp
      simpa [Log.putInfoPush, Log.count, hne] using hcount
    · rw [← Log.source_putInfoPush crc32 hparts, ← h.source]
      rfl
    · exact inv.putInfoPush h.closed hparts h.pos

theorem Holds.next (h : inv.Holds l w) (hsound : Sound .next w) :
    inv.Holds l (PartSwitch.step crc32 .next w) := by
  have hnext := inv.next h.closed h.pos hsound
  have hfiles : w.source.files = l.files crc32 := congrArg Source.files h.source
  rw [← hfiles] at hnext
  exact ⟨h.closed, h.source, h.appended, hnext⟩

theorem holds_init : inv.Holds .empty (World.init R) := ⟨.empty, rfl, fun _ => rfl, inv.init⟩

theorem holds_step (e : Event) (w : World R) (h : ∃ l, inv.Holds l w) (hsound : Sound e w) :
    ∃ l, inv.Holds l (PartSwitch.step crc32 e w) := by
  obtain ⟨l, h⟩ := h
  cases e with
  | restart => exact ⟨l.restart, h.restart inv hsound⟩
  | append m => exact h.append inv m hsound
  | putInfoPush => exact h.putInfoPush inv
  | next => exact ⟨l, h.next inv hsound⟩

theorem Holds.kept (h : inv.Holds l w) : Kept w := by
  intro p hp
  rw [h.appended]
  exact inv.kept h.pos p hp

/-- A reader that stands somewhere in the log has committed the parts that it has left. -/
theorem throughout_kept (inv : Invariant R crc32) (es : List Event)
    (h : Along (PartSwitch.step crc32) Sound (World.init R) es) :
    Throughout (PartSwitch.step crc32) Kept (World.init R) es := by
  apply h.throughout ⟨.empty, holds_init inv⟩ (holds_step inv)
  rintro w ⟨l, hl⟩
  exact hl.kept inv

end Invariant

/-! ## The reader in D -/

inductive DPhase where
  | start
  /-- `_info_push` was read. -/
  | infoRead
  /-- `pop` has returned a message. -/
  | answered
  deriving DecidableEq, Repr

structure DState where
  consumer : Consumer
  phase : DPhase

/-- A program that calls `pop` and, for a message, `commit_and_next`. -/
def dReader : Reader where
  State := DState
  init := ⟨.openNew, .start⟩
  part s := s.consumer.id
  step crc32 files s :=
    match s.phase with
    | .start =>
      if !s.consumer.queue.isReady || !s.consumer.isReady then (s, none)
      else
        let (ok, c) := s.consumer.popInfo files
        (⟨c, if ok then .infoRead else .start⟩, none)
    | .infoRead =>
      let (answer, c) := s.consumer.popRest files
      (⟨c, match answer with
        | .msg _ => .answered
        | _ => .start⟩, none)
    | .answered =>
      let (ok, c) := s.consumer.commitAndNext crc32 files
      (⟨c, .start⟩, if ok then some c.lastReadMsg else none)
  leaving s :=
    if s.phase = .infoRead ∧ s.consumer.countPopped ≥ s.consumer.queue.countPushed then
      some s.consumer.countPopped.toNat
    else none
  Fresh s := s.consumer.queue.Fresh s.consumer.id

instance : ∀ s, Decidable (dReader.Fresh s) := fun s =>
  inferInstanceAs (Decidable (s.consumer.queue.Fresh s.consumer.id))

/-- The reader is in the first part, or it has committed all of it and gone on, or it was started
when there was no part. -/
inductive DPos (crc32 : Bytes → BitVec 32) (l : Log) :
    DState → (Nat → List Bytes) → Prop
  | start (k : Nat) (hat : c.At l 0 k) (hclosed : l.parts = 0 → c.queue.infoPushR = none)
      (hcommitted : committed 0 = ((l.appended 0).take k).map Message.body) :
      DPos crc32 l ⟨c, .start⟩ committed
  | infoRead (k : Nat) (hat : c.At l 0 k) (hparts : 0 < l.parts)
      (hcommitted : committed 0 = ((l.appended 0).take k).map Message.body)
      (hdone : c.countPopped ≥ c.queue.countPushed → c.queue.infoPushR = some 0 ∧
        (1 < l.parts → k = (l.appended 0).length)) : DPos crc32 l ⟨c, .infoRead⟩ committed
  | answered (k : Nat) (hat : c.At l 0 k) (hparts : 0 < l.parts)
      (hcommitted : committed 0 = ((l.appended 0).take k).map Message.body)
      (hread : c.Read crc32 l 0 k) : DPos crc32 l ⟨c, .answered⟩ committed
  | moved (hparts : 1 < l.parts) (hid : c.id = 1) (hopen : c.queue.infoPushR = some 0)
      (hcommitted : committed 0 = (l.appended 0).map Message.body) :
      DPos crc32 l ⟨c, .start⟩ committed
  | stopped (hid : c.id = 0) (hready : c.queue.isReady = false) : DPos crc32 l ⟨c, .start⟩ committed

namespace DPos

variable {crc32 : Bytes → BitVec 32} {l l' : Log} {s : DState} {committed : Nat → List Bytes}

/-- A step of the producer does not move the reader, unless it ends a part that the reader is about
to leave too early. -/
theorem mono (h : DPos crc32 l s committed) (hl : l.WF) (hle : l.Le l')
    (hleaving : l'.parts = l.parts ∨ (dReader.part s + 1 = l.parts →
      ∀ n, dReader.leaving s = some n → n = (l'.appended (dReader.part s)).length)) :
    DPos crc32 l' s committed := by
  have htake {k : Nat} {c : Consumer} (hat : c.At l 0 k) :
      (l'.appended 0).take k = (l.appended 0).take k :=
    hle.take (Nat.le_trans hat.le (hl.count_le 0))
  cases h with
  | start k hat hclosed hcommitted =>
    exact .start k (hat.mono hl hle) (fun h0 => hclosed (Nat.le_zero.mp (h0 ▸ hle.parts)))
      (by rw [htake hat, hcommitted])
  | answered k hat hparts hcommitted hread =>
    exact .answered k (hat.mono hl hle) (Nat.lt_of_lt_of_le hparts hle.parts)
      (by rw [htake hat, hcommitted]) (hread.mono hle)
  | moved hparts hid hopen hcommitted =>
    exact .moved (Nat.lt_of_lt_of_le hparts hle.parts) hid hopen
      (by rw [hle.closed 0 hparts, hcommitted])
  | stopped hid hready => exact .stopped hid hready
  | infoRead k hat hparts hcommitted hdone =>
    refine .infoRead k (hat.mono hl hle) (Nat.lt_of_lt_of_le hparts hle.parts)
      (by rw [htake hat, hcommitted]) fun hge => ⟨(hdone hge).1, fun hparts' => ?_⟩
    by_cases hmany : 1 < l.parts
    · rw [hle.closed 0 hmany]
      exact (hdone hge).2 hmany
    · have hk : k < 2 ^ 32 :=
        Nat.lt_of_le_of_lt (Nat.le_trans hat.le (hl.count_le 0)) (hl.length 0)
      have hn := hleaving.resolve_left (by omega)
      simp only [dReader, hat.id] at hn
      rw [if_pos ⟨trivial, hge⟩] at hn
      have hn := hn (by omega) _ rfl
      rw [hat.countPopped, BitVec.toNat_ofNat, Nat.mod_eq_of_lt hk] at hn
      exact hn

/-- A step of the reader. -/
theorem next (h : DPos crc32 l s committed) (hl : Closed l) (hfresh : dReader.Fresh s) :
    DPos crc32 l (dReader.step crc32 (l.files crc32) s).1
      ((dReader.step crc32 (l.files crc32) s).2.elim committed (push committed (dReader.part s))) := by
  cases h with
  | start k hat hclosed hcommitted =>
    rename_i c
    have hready : (!c.queue.isReady || !c.isReady) = false := by simp [hat.queueReady, hat.ready]
    rcases Nat.eq_zero_or_pos l.parts with h0 | hparts
    · have hge : c.countPopped ≥ c.queue.countPushed := by
        obtain ⟨j, hkj, hj, hcount⟩ := hat.countPushed
        have hj0 : j = 0 := by
          have hempty := (hl.wf.absent 0 (Nat.le_of_eq h0)).2
          rw [Log.count, hempty] at hj
          exact Nat.le_zero.mp hj
        rw [hcount, hj0]
        exact BitVec.le_def.mpr (Nat.zero_le _)
      have hinfo : c.queue.getInfoPush (l.files crc32) c.id =
          (false, { c.queue with isReady := false }) := by
        rw [QueueR.getInfoPush, if_neg (by simp [hat.queueReady]), if_pos (.inr (hclosed h0)),
          hat.id, Log.files_parts_of_le crc32 (Nat.le_of_eq h0)]
        exact if_neg Bool.false_ne_true
      simp only [dReader, hready, Consumer.popInfo, if_pos hge, hinfo]
      exact .stopped hat.id rfl
    · obtain ⟨c', hinfo, hat', hdone⟩ := hat.popInfo crc32 hl.wf hparts
      simp only [dReader, hready, hinfo]
      refine .infoRead k hat' hparts hcommitted fun hge => ⟨(hdone hge).2, fun hmany => ?_⟩
      rw [← (hdone hge).1, hl.count 0 hmany]
  | infoRead k hat hparts hcommitted hdone =>
    rename_i c
    by_cases hge : c.countPopped ≥ c.queue.countPushed
    · obtain ⟨hopen, hk⟩ := hdone hge
      rcases Nat.lt_or_eq_of_le hparts with hmany | hone
      · obtain ⟨c', hrest, hid, hopen'⟩ := hat.popRest_leave crc32 hmany hge hopen
        simp only [dReader, hrest]
        refine .moved hmany hid hopen' ?_
        rw [Option.elim_none, hcommitted, hk hmany, List.take_length]
      · simp only [dReader, hat.popRest_wait crc32 hone.symm hge]
        exact .start k hat (fun h0 => absurd h0 (Nat.ne_of_gt hparts)) hcommitted
    · obtain ⟨c', hrest, hat', hread⟩ := hat.popRest_read crc32 hl.wf hparts hge
      simp only [dReader, hrest]
      exact .answered k hat' hparts hcommitted hread
  | answered k hat hparts hcommitted hread =>
    obtain ⟨c', hcommit, hat', hmsg⟩ := hat.commit_read hl.wf hparts hread
    obtain ⟨hk, hbody, -⟩ := hread
    simp only [dReader, hcommit, hat.id]
    refine .start (k + 1) hat' (fun h0 => absurd h0 (Nat.ne_of_gt hparts)) ?_
    rw [if_pos trivial, Option.elim_some, push, Function.update_self, hcommitted, hmsg, hbody,
      List.take_succ_eq_append_getElem hk, List.map_append]
    rfl
  | moved hparts hid hopen hcommitted =>
    have h0 := hfresh.infoPushR 0 hopen
    rw [hid] at h0
    cases h0
  | stopped hid hready =>
    simp only [dReader, hready]
    exact .stopped hid hready

theorem kept (h : DPos crc32 l s committed) (p : Nat) (hp : p < dReader.part s) :
    (l.appended p).map Message.body <+: committed p := by
  have hzero {c : Consumer} (hid : c.id = 0) : ¬p < c.id := by
    rw [hid]
    exact Nat.not_lt_zero p
  cases h with
  | start k hat _ _ | infoRead k hat _ _ _ | answered k hat _ _ _ => exact absurd hp (hzero hat.id)
  | moved hparts hid hopen hcommitted =>
    have hp : p < 1 := hid ▸ hp
    obtain rfl : p = 0 := by omega
    exact hcommitted ▸ List.prefix_rfl
  | stopped hid hready => exact absurd hp (hzero hid)

end DPos

def dInvariant (crc32 : Bytes → BitVec 32) : Invariant dReader crc32 where
  Pos := DPos crc32
  init := .start 0 (.openNew _) (fun _ => rfl) rfl
  restart hl h hleaving := h.mono hl.wf (Log.le_restart _) (.inr hleaving)
  append m hl _ h := h.mono hl.wf (Log.le_append m _) (.inl rfl)
  putInfoPush hl _ h := h.mono hl.wf (Log.le_putInfoPush hl.wf) (.inl rfl)
  next hl h hfresh := h.next hl hfresh
  kept h := h.kept

end Veda.Queue.PartSwitch
