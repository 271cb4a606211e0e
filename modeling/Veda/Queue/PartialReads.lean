import Veda.Lib.Run
import Veda.Queue.VPosition

/-! # Records that are being written

The program of `veda-ccus` on a part whose file is still being written: every read sees the file up
to some byte, and `_info_push` counts what it likes. A header of which nothing is seen is read
later. A header that is seen in part, or a header that is seen without the whole of its body, is
not: the position in the file is behind what was read, and a short body makes the consumer give
up. -/

namespace Veda.Queue.PartialReads

open Run

/-- What a read sees: the first bytes of the file of records, and the line of `_info_push`. -/
structure View where
  seen : Nat
  info : Option InfoPush

/-- What the reads of a call see. -/
structure Views where
  first : View
  second : View
  third : View

section
variable (crc32 : Bytes → BitVec 32) (ms : List Message)

def View.file (v : View) : Bytes := (records crc32 0 0 ms).take v.seen

/-- The files of a queue with one part. -/
def View.files (v : View) : Files where
  infoQueue := some 0
  parts p := if p = 0 then some ⟨v.file crc32 ms, v.info⟩ else none

inductive Phase where
  | header
  | body
  | commit (msg : Bytes)
  deriving DecidableEq, Repr

structure World where
  consumer : VQueue.Consumer
  phase : Phase
  /-- The bodies that were committed. -/
  committed : List Bytes

def init (v : View) : World := ⟨.new (v.files crc32 ms), .header, []⟩

/-- The next call, with its answer. -/
def call (v : Views) (w : World) : Bool × World :=
  match w.phase with
  | .header =>
    let (ok, consumer) := w.consumer.popHeader (v.first.files crc32 ms) (v.second.files crc32 ms)
      (v.third.files crc32 ms)
    (ok, { w with consumer, phase := if ok then .body else .header })
  | .body =>
    let (ok, msg, consumer) := w.consumer.popBody crc32 (v.first.files crc32 ms)
      (v.second.files crc32 ms) w.consumer.header.msgLength.toNat
    (ok, { w with consumer, phase := if ok then .commit msg else .header })
  | .commit msg =>
    let (ok, consumer) := w.consumer.commitAndNext
    (ok, ⟨consumer, .header, if ok then w.committed ++ [msg] else w.committed⟩)

def step (v : Views) (w : World) : World := (call crc32 ms v w).2

/-- A view of all that is written. -/
def View.Complete (v : View) : Prop := (records crc32 0 0 ms).length ≤ v.seen

structure Views.Complete (v : Views) : Prop where
  first : v.first.Complete crc32 ms
  second : v.second.Complete crc32 ms
  third : v.third.Complete crc32 ms

/-- The next two calls return the next message, once it is visible. -/
def Recoverable (w : World) : Prop :=
  ∀ k, k = w.committed.length → ∀ m, ms[k]? = some m → ∀ v v' : Views,
    v.Complete crc32 ms → v'.Complete crc32 ms →
      (step crc32 ms v' (step crc32 ms v w)).phase = .commit m.body

/-- A call that returns false can be made up for. -/
def FalseRecovers (v : Views) (w : World) : Prop :=
  (call crc32 ms v w).1 = false → Recoverable crc32 ms (step crc32 ms v w)

/-- The bodies are committed in order, and a message that could not be read is read later. -/
def Survives (v : View) (es : List Views) : Prop :=
  Throughout (step crc32 ms) (fun w => w.committed <+: ms.map Message.body) (init crc32 ms v) es ∧
    Along (step crc32 ms) (FalseRecovers crc32 ms) (init crc32 ms v) es

/-- The read of a header sees all of it or nothing, and the read of a body sees all of it. -/
def Sound (v : Views) (w : World) : Prop :=
  match w.phase with
  | .header =>
    (v.third.file crc32 ms).length ≤ w.consumer.queue.cursor ∨
      w.consumer.queue.cursor + headerLength ≤ (v.third.file crc32 ms).length
  | .body =>
    w.consumer.queue.cursor + w.consumer.header.msgLength.toNat ≤ (v.first.file crc32 ms).length
  | .commit _ => True

instance : ∀ (v : Views) (w : World), Decidable (Sound crc32 ms v w)
  | _, ⟨_, .header, _⟩ => inferInstanceAs (Decidable (_ ∨ _))
  | _, ⟨_, .body, _⟩ => inferInstanceAs (Decidable (_ ≤ _))
  | _, ⟨_, .commit _, _⟩ => .isTrue trivial

end

/-! ## The invariant -/

/-- The consumer is in the only part. -/
structure Local (c : VQueue.Consumer) : Prop where
  id : c.id = 0
  queueId : c.queue.id = 0
  ffQueueR : c.queue.ffQueueR = 0

inductive Pos (crc32 : Bytes → BitVec 32) (ms : List Message) : World → Prop
  | header (k : Nat) (hlocal : Local c) (hat : c.At ms k)
      (hcommitted : committed = (ms.take k).map Message.body) :
      Pos crc32 ms ⟨c, .header, committed⟩
  | body (k : Nat) (hlocal : Local c) (hread : c.HeaderRead crc32 ms k)
      (hcommitted : committed = (ms.take k).map Message.body) :
      Pos crc32 ms ⟨c, .body, committed⟩
  | commit (k : Nat) (hlocal : Local c) (hread : c.BodyRead ms k) (hk : k < ms.length)
      (hmsg : msg = ms[k].body) (hcommitted : committed = (ms.take k).map Message.body) :
      Pos crc32 ms ⟨c, .commit msg, committed⟩

section
variable {crc32 : Bytes → BitVec 32} {ms : List Message} {k : Nat} {c : VQueue.Consumer}
  {committed : List Bytes}

theorem Local.frame (h : Local c) (hf : c.ReadFrame c') : Local c' :=
  ⟨hf.id.trans h.id, hf.queueId.trans h.queueId, hf.ffQueueR.trans h.ffQueueR⟩

theorem View.take_file (v : View) (hseen : pos + n ≤ (v.file crc32 ms).length) :
    ((v.file crc32 ms).drop pos).take n = ((records crc32 0 0 ms).drop pos).take n := by
  rw [View.file, List.length_take] at hseen
  rw [View.file, List.drop_take, List.take_take, Nat.min_eq_left (by omega)]

theorem Local.visible (h : Local c) (v : View) (pos : Nat) :
    c.visible (v.files crc32 ms) pos = (v.file crc32 ms).drop pos := by
  rw [VQueue.Consumer.visible, h.ffQueueR]
  rfl

/-- The info files do not move the consumer. -/
theorem Local.popHeader (h : Local c) (crc32 : Bytes → BitVec 32) (hat : c.At ms k) (v : Views) :
    ∃ c', Local c' ∧ c'.At ms k ∧
      c.popHeader (v.first.files crc32 ms) (v.second.files crc32 ms) (v.third.files crc32 ms) =
        c'.headerRead (v.third.files crc32 ms) := by
  have hinfo : ∃ c', c.headerInfo (v.first.files crc32 ms) = (true, c') ∧ Local c' ∧ c'.At ms k := by
    by_cases hge : c.countPopped ≥ c.queue.countPushed
    · have hframe := VQueue.Queue.readInfoPush_frame (v.first.files crc32 ms) c.queue
      have hget : c.queue.getInfoOfPart (v.first.files crc32 ms) c.id =
          (true, c.queue.readInfoPush (v.first.files crc32 ms)) :=
        if_neg (not_not_intro (h.queueId.trans h.id.symm))
      refine ⟨{ c with queue := c.queue.readInfoPush (v.first.files crc32 ms) },
        by simp only [VQueue.Consumer.headerInfo, if_pos hge, hget], ?_, ?_⟩
      · exact ⟨h.id, hframe.id.trans h.queueId, hframe.ffQueueR.trans h.ffQueueR⟩
      · exact ⟨hat.ready, hframe.cursor.trans hat.cursor, hat.le⟩
    · exact ⟨c, by simp only [VQueue.Consumer.headerInfo, if_neg hge], h, hat⟩
  obtain ⟨c₁, hinfo, h₁, hat₁⟩ := hinfo
  have hpart : ∃ c', c₁.headerPart (v.second.files crc32 ms) = (true, c') ∧ Local c' ∧
      c'.At ms k := by
    by_cases hge : c₁.countPopped ≥ c₁.queue.countPushed
    · have hids : c₁.queue.id = c₁.id := h₁.queueId.trans h₁.id.symm
      refine ⟨{ c₁ with queue := c₁.queue.getInfoQueue (v.second.files crc32 ms) }, ?_,
        ⟨h₁.id, rfl, h₁.ffQueueR⟩, ⟨hat₁.ready, hat₁.cursor, hat₁.le⟩⟩
      rw [VQueue.Consumer.headerPart, if_pos hge, if_pos hids]
      exact if_neg (Nat.not_lt_zero _)
    · exact ⟨c₁, by simp only [VQueue.Consumer.headerPart, if_neg hge], h₁, hat₁⟩
  obtain ⟨c₂, hpart, h₂, hat₂⟩ := hpart
  exact ⟨c₂, h₂, hat₂, by simp only [VQueue.Consumer.popHeader, hinfo, hpart, if_true]⟩

theorem Local.header_read (h : Local c) (committed : List Bytes) (hat : c.At ms k)
    (hk : k < ms.length) (v : Views)
    (hseen : c.queue.cursor + headerLength ≤ (v.third.file crc32 ms).length) :
    ∃ c', call crc32 ms v ⟨c, .header, committed⟩ = (true, ⟨c', .body, committed⟩) ∧ Local c' ∧
      c'.HeaderRead crc32 ms k := by
  obtain ⟨c₁, h₁, hat₁, hpop⟩ := h.popHeader crc32 hat v
  have hdata : (c₁.visible (v.third.files crc32 ms) c₁.queue.cursor).take headerLength =
      (ms[k].record crc32 (size (ms.take k)) k).take headerLength := by
    rw [hat.cursor] at hseen
    rw [h₁.visible, hat₁.cursor, v.third.take_file hseen, take_header crc32 ms k hk]
  obtain ⟨c', hread, hheader, hframe⟩ := hat₁.headerRead hk _ hdata
  exact ⟨c', by simp only [call, hpop, hread, if_true], h₁.frame hframe, hheader⟩

theorem Local.header_end (h : Local c) (committed : List Bytes) (hat : c.At ms k) (v : Views)
    (hseen : (v.third.file crc32 ms).length ≤ c.queue.cursor) :
    ∃ c', call crc32 ms v ⟨c, .header, committed⟩ = (false, ⟨c', .header, committed⟩) ∧ Local c' ∧
      c'.At ms k := by
  obtain ⟨c₁, h₁, hat₁, hpop⟩ := h.popHeader crc32 hat v
  have hdata : c₁.visible (v.third.files crc32 ms) c₁.queue.cursor = [] := by
    rw [hat.cursor] at hseen
    rw [h₁.visible, hat₁.cursor, List.drop_eq_nil_of_le hseen]
  have hread := VQueue.Consumer.headerRead_end _ hdata
  exact ⟨c₁, by simp [call, hpop, hread], h₁, hat₁⟩

theorem Local.body_read (h : Local c) (committed : List Bytes) (hread : c.HeaderRead crc32 ms k)
    (hk : k < ms.length) (v : Views)
    (hseen : c.queue.cursor + c.header.msgLength.toNat ≤ (v.first.file crc32 ms).length) :
    ∃ c', call crc32 ms v ⟨c, .body, committed⟩ = (true, ⟨c', .commit ms[k].body, committed⟩) ∧
      Local c' ∧ c'.BodyRead ms k := by
  have hdata : (c.visible (v.first.files crc32 ms) c.queue.cursor).take ms[k].body.length =
      ms[k].body := by
    rw [hread.msgLength hk] at hseen
    rw [h.visible, v.first.take_file hseen, hread.cursor, take_body crc32 ms k hk]
  obtain ⟨c', hbody, hread', hframe⟩ := hread.popBody hk _ (v.second.files crc32 ms) hdata
  exact ⟨c', by simp only [call, hbody, if_true], h.frame hframe, hread'⟩

/-- Where the consumer is about to read a header, two calls that see everything return the next
message. -/
theorem recoverable (h : Local c) (hat : c.At ms k)
    (hcommitted : committed = (ms.take k).map Message.body) :
    Recoverable crc32 ms ⟨c, .header, committed⟩ := by
  intro i hi m hm v v' hv hv'
  have hik : i = k := by
    rw [hi, hcommitted, List.length_map, List.length_take_of_le hat.le]
  subst hik
  obtain ⟨hk, rfl⟩ := List.getElem?_eq_some_iff.mp hm
  have hsize : size (ms.take i) + ms[i].size + size (ms.drop (i + 1)) = size ms := by
    conv => rhs; rw [← List.take_append_drop i ms, List.drop_eq_getElem_cons hk]
    rw [size_append, size_cons, Nat.add_assoc]
  have hfile {u : View} (hu : u.Complete crc32 ms) : (u.file crc32 ms).length = size ms := by
    rw [View.file, List.take_of_length_le hu, length_records]
  rw [Message.size] at hsize
  obtain ⟨c₁, hcall, h₁, hread⟩ := h.header_read committed hat hk v
    (by rw [hfile hv.third, hat.cursor]; omega)
  obtain ⟨c₂, hcall', -, -⟩ := h₁.body_read committed hread hk v'
    (by rw [hfile hv'.first, hread.cursor, hread.msgLength hk]; omega)
  rw [step, step, hcall, hcall']

theorem pos_step (v : Views) (w : World) (h : Pos crc32 ms w) (hsound : Sound crc32 ms v w) :
    Pos crc32 ms (step crc32 ms v w) ∧ FalseRecovers crc32 ms v w := by
  rw [step, FalseRecovers, step]
  cases h with
  | header k hlocal hat hcommitted =>
    rename_i c committed
    rcases hsound with hend | hseen
    · obtain ⟨c', hcall, hlocal', hat'⟩ := hlocal.header_end committed hat v hend
      rw [hcall]
      exact ⟨.header k hlocal' hat' hcommitted, fun _ => recoverable hlocal' hat' hcommitted⟩
    · have hk : k < ms.length := by
        apply Nat.lt_of_le_of_ne hat.le
        rintro rfl
        have hsize : (v.third.file crc32 ms).length ≤ size ms := by
          rw [View.file, List.length_take, length_records]
          exact Nat.min_le_right _ _
        rw [hat.cursor, List.take_length, headerLength] at hseen
        omega
      obtain ⟨c', hcall, hlocal', hread⟩ := hlocal.header_read committed hat hk v hseen
      rw [hcall]
      exact ⟨.body k hlocal' hread hcommitted, fun h => Bool.noConfusion h⟩
  | body k hlocal hread hcommitted =>
    rename_i c committed
    obtain ⟨c', hcall, hlocal', hread'⟩ := hlocal.body_read committed hread hread.lt v hsound
    rw [hcall]
    exact ⟨.commit k hlocal' hread' hread.lt rfl hcommitted, fun h => Bool.noConfusion h⟩
  | commit k hlocal hread hk hmsg hcommitted =>
    obtain ⟨c', hcommit, hat, -, hqueue, hid⟩ := hread.commitAndNext
    simp only [call, hcommit]
    refine ⟨.header (k + 1) ⟨hid.trans hlocal.id, ?_, ?_⟩ hat ?_, fun h => Bool.noConfusion h⟩
    · rw [hqueue, hlocal.queueId]
    · rw [hqueue, hlocal.ffQueueR]
    · rw [if_pos trivial, hcommitted, hmsg, List.take_succ_eq_append_getElem hk, List.map_append]
      rfl

theorem pos_init (v : View) : Pos crc32 ms (init crc32 ms v) := by
  have hframe := VQueue.Queue.readInfoPush_frame (v.files crc32 ms)
    ⟨true, 0, 0, 0, 0, 0, (v.files crc32 ms).infoQueue.getD 0⟩
  refine .header 0 ⟨rfl, hframe.id, hframe.ffQueueR⟩ ⟨rfl, ?_, Nat.zero_le _⟩ rfl
  rw [List.take_zero, size_nil]
  exact hframe.cursor

theorem Pos.committed_prefix {w : World} (h : Pos crc32 ms w) :
    w.committed <+: ms.map Message.body := by
  cases h with
  | header k _ _ hcommitted | body k _ _ hcommitted | commit k _ _ _ _ hcommitted =>
    rw [hcommitted]
    exact (List.take_prefix k ms).map _

end

/-- The bodies that are committed are those that were pushed, and a message that could not be read
is read later, where no header or body is seen in part. -/
theorem survives_of_sound (crc32 : Bytes → BitVec 32) (ms : List Message) (v : View)
    (es : List Views) (h : Along (step crc32 ms) (Sound crc32 ms) (init crc32 ms v) es) :
    Survives crc32 ms v es :=
  ⟨h.throughout (pos_init v) (fun e w hw hs => (pos_step e w hw hs).1) fun _ hw => hw.committed_prefix,
    h.of_invariant (pos_init v) (fun e w hw hs => (pos_step e w hw hs).1)
      fun e w hw hs => (pos_step e w hw hs).2⟩

/-- All reads of a call see the same bytes, and `_info_push` is empty. -/
def Views.of (seen : Nat) : Views := ⟨⟨seen, none⟩, ⟨seen, none⟩, ⟨seen, none⟩⟩

theorem survives_header_before_body :
    Survives crc32Ieee [.oneByte] ⟨0, none⟩ [.of 0, .of 25, .of 26, .of 26] :=
  survives_of_sound crc32Ieee _ _ _ (by decide +kernel)

/-- A header that is seen in part, and a header that is seen without its body, are lost. -/
theorem not_survives_in_part :
    ¬Survives crc32Ieee [.oneByte] ⟨0, none⟩ [.of 10] ∧
      ¬Survives crc32Ieee [.oneByte] ⟨0, none⟩ [.of 25, .of 25] := by
  have hcomplete : (Views.of 26).Complete crc32Ieee [.oneByte] := by
    constructor <;> exact Nat.le_of_eq (length_records crc32Ieee 0 0 [.oneByte])
  refine ⟨fun h => ?_, fun h => ?_⟩
  · have hread := h.2.1 (by decide +kernel) 0 (by decide +kernel) .oneByte rfl _ _ hcomplete
      hcomplete
    revert hread
    decide +kernel
  · have hread := h.2.2.1 (by decide +kernel) 0 (by decide +kernel) .oneByte rfl _ _ hcomplete
      hcomplete
    revert hread
    decide +kernel

end Veda.Queue.PartialReads
