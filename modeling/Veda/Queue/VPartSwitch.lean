import Veda.Queue.PartSwitch
import Veda.Queue.VPosition

/-! # Leaving a part in Rust

The program of `veda-ccus` as a reader of `Veda.Queue.PartSwitch`, and what holds of both readers. -/

namespace Veda.Queue.PartSwitch

open Run

inductive VPhase where
  | header
  /-- `_info_push` was read. -/
  | infoRead
  /-- `_info_queue` was read, if it had to be. -/
  | partRead
  | headerRead
  | bodyRead (msg : Bytes)
  deriving DecidableEq, Repr

inductive VState where
  /-- There is no consumer yet. -/
  | closed
  | run (phase : VPhase) (consumer : VQueue.Consumer)

/-- A program that calls `pop_header`, `pop_body` with a buffer of the length in the header, and
`commit_and_next`. -/
def vReader : Reader where
  State := VState
  init := .closed
  part
    | .closed => 0
    | .run _ c => c.id
  step crc32 files
    | .closed => (if (files.parts 0).isSome then .run .header (.new files) else .closed, none)
    | .run .header c =>
      let (ok, c) := c.headerInfo files
      (.run (if ok then .infoRead else .header) c, none)
    | .run .infoRead c =>
      let (ok, c) := c.headerPart files
      (.run (if ok then .partRead else .header) c, none)
    | .run .partRead c =>
      let (ok, c) := c.headerRead files
      (.run (if ok then .headerRead else .header) c, none)
    | .run .headerRead c =>
      let (ok, msg, c) := c.popBody crc32 files files c.header.msgLength.toNat
      (.run (if ok then .bodyRead msg else .header) c, none)
    | .run (.bodyRead msg) c =>
      let (ok, c) := c.commitAndNext
      (.run .header c, if ok then some msg else none)
  leaving
    | .run .infoRead c => if c.countPopped ≥ c.queue.countPushed then some c.countPopped else none
    | _ => none
  Fresh _ := True

instance : ∀ s, Decidable (vReader.Fresh s) := fun _ => .isTrue trivial

/-! ## The info files -/

section
variable {crc32 : Bytes → BitVec 32} {l l' : Log} {p k : Nat} {c c' : VQueue.Consumer}
  {q : VQueue.Queue} {files : Files}

theorem countPushed_readInfoPush (crc32 : Bytes → BitVec 32) (hl : l.WF) (hp : p < l.parts)
    (hq : q.ffInfoPushW = p) : (q.readInfoPush (l.files crc32)).countPushed = l.count p := by
  rw [VQueue.Queue.readInfoPush, hq, Log.files_parts_of_lt crc32 hp, Option.bind_some, Log.part,
    Log.count]
  cases hc : l.counted p with
  | none => rfl
  | some j =>
    have hj : j < 2 ^ 32 := Nat.lt_of_le_of_lt (hl.counted p j hc) (hl.length p)
    exact Nat.mod_eq_of_lt hj

/-- `_info_push` of a part that is there is read. -/
theorem getInfoOfPart_files (crc32 : Bytes → BitVec 32) (hp : p < l.parts) :
    ∃ q', q.getInfoOfPart (l.files crc32) p = (true, q') ∧ VQueue.Queue.InfoFrame q q' ∧
      (q.id ≠ p ∨ q.ffInfoPushW = p →
        q' = { q with ffInfoPushW := p }.readInfoPush (l.files crc32)) := by
  have hsome : ((l.files crc32).parts p).isSome = true := by
    rw [Log.files_parts_of_lt crc32 hp]
    rfl
  by_cases hid : q.id = p
  · refine ⟨_, if_neg (not_not_intro hid), VQueue.Queue.readInfoPush_frame _ _, fun h => ?_⟩
    have hopen := h.resolve_left (not_not_intro hid)
    rw [← hopen]
  · rw [VQueue.Queue.getInfoOfPart, if_pos hid, if_pos hsome]
    have hframe := VQueue.Queue.readInfoPush_frame (l.files crc32) { q with ffInfoPushW := p }
    exact ⟨_, rfl, ⟨hframe.isReady, hframe.ffQueueR, hframe.cursor, hframe.id⟩, fun _ => rfl⟩

/-- A part that is there is opened. -/
theorem openPart_files (crc32 : Bytes → BitVec 32) (hready : q.isReady = true) (hp : p < l.parts) :
    (q.openPart (l.files crc32) p).2 =
      { q with ffInfoPushW := p, ffQueueR := p, cursor := 0 }.readInfoPush (l.files crc32) := by
  have hsome : ((l.files crc32).parts p).isSome = true := by
    rw [Log.files_parts_of_lt crc32 hp]
    rfl
  rw [VQueue.Queue.openPart, if_neg (by simp [hready]), if_pos hsome]
  rw [VQueue.Queue.getInfoOfPart, if_neg (not_not_intro rfl)]

/-- The consumer is in part `p`, of which it has committed `k` messages. -/
structure Place (l : Log) (p k : Nat) (c : VQueue.Consumer) : Prop where
  id : c.id = p
  countPopped : c.countPopped = k
  queueReady : c.queue.isReady = true
  ffQueueR : c.queue.ffQueueR = p
  ffInfoPushW : c.queue.ffInfoPushW = p
  le_queueId : p ≤ c.queue.id
  queueId_lt : c.queue.id < l.parts

theorem Place.lt (h : Place l p k c) : p < l.parts := Nat.lt_of_le_of_lt h.le_queueId h.queueId_lt

theorem Place.mono (h : Place l p k c) (hle : l.Le l') : Place l' p k c :=
  { h with queueId_lt := Nat.lt_of_lt_of_le h.queueId_lt hle.parts }

theorem Place.frame (h : Place l p k c) (hf : c.ReadFrame c') : Place l p k c' where
  id := hf.id.trans h.id
  countPopped := hf.countPopped.trans h.countPopped
  queueReady := hf.queueReady.trans h.queueReady
  ffQueueR := hf.ffQueueR.trans h.ffQueueR
  ffInfoPushW := hf.ffInfoPushW.trans h.ffInfoPushW
  le_queueId := hf.queueId ▸ h.le_queueId
  queueId_lt := hf.queueId ▸ h.queueId_lt

/-- The first part of `pop_header`. -/
theorem Place.headerInfo (h : Place l p k c) (crc32 : Bytes → BitVec 32) (hl : l.WF)
    (hat : c.At ms k) :
    ∃ c', c.headerInfo (l.files crc32) = (true, c') ∧ Place l p k c' ∧ c'.At ms k ∧
      (c'.countPopped ≥ c'.queue.countPushed → l.count p ≤ k) := by
  by_cases hge : c.countPopped ≥ c.queue.countPushed
  · obtain ⟨q, hq, hframe, heq⟩ := getInfoOfPart_files (q := c.queue) crc32 h.lt
    have heq := heq (.inr h.ffInfoPushW)
    rw [← h.id] at hq
    refine ⟨{ c with queue := q }, by simp only [VQueue.Consumer.headerInfo, if_pos hge, hq], ?_,
      ⟨hat.ready, hframe.cursor.trans hat.cursor, hat.le⟩, fun hge' => ?_⟩
    · exact {
        id := h.id
        countPopped := h.countPopped
        queueReady := hframe.isReady.trans h.queueReady
        ffQueueR := hframe.ffQueueR.trans h.ffQueueR
        ffInfoPushW := by rw [heq, VQueue.Queue.ffInfoPushW_readInfoPush]
        le_queueId := hframe.id ▸ h.le_queueId
        queueId_lt := hframe.id ▸ h.queueId_lt }
    · have hge' : q.countPushed ≤ c.countPopped := hge'
      rw [heq, countPushed_readInfoPush crc32 hl h.lt rfl, h.countPopped] at hge'
      exact hge'
  · refine ⟨c, by simp only [VQueue.Consumer.headerInfo, if_neg hge], h, hat, fun h' => ?_⟩
    exact absurd h' hge

/-- The second part of `pop_header`: the consumer stays, or it goes to the next part. -/
theorem Place.headerPart (h : Place l p k c) (crc32 : Bytes → BitVec 32)
    (hat : c.At (l.appended p) k)
    (hdone : c.countPopped ≥ c.queue.countPushed → p + 1 < l.parts → k = (l.appended p).length) :
    ∃ c', c.headerPart (l.files crc32) = (true, c') ∧
      (Place l p k c' ∧ c'.At (l.appended p) k ∨
        k = (l.appended p).length ∧ Place l (p + 1) 0 c' ∧ c'.At (l.appended (p + 1)) 0) := by
  by_cases hge : c.countPopped ≥ c.queue.countPushed
  · generalize hc₁ : (if c.queue.id = c.id then
      { c with queue := c.queue.getInfoQueue (l.files crc32) } else c) = c₁
    have hplace : Place l p k c₁ ∧ c₁.At (l.appended p) k := by
      rw [← hc₁]
      split
      · have hlt := h.lt
        have hinfo : (c.queue.getInfoQueue (l.files crc32)).id = l.parts - 1 := by
          rw [VQueue.Queue.getInfoQueue, Log.infoQueue_files crc32 (by omega), Option.getD_some]
        refine ⟨{ h with le_queueId := ?_, queueId_lt := ?_ }, ⟨hat.ready, hat.cursor, hat.le⟩⟩
        · show p ≤ (c.queue.getInfoQueue (l.files crc32)).id
          omega
        · show (c.queue.getInfoQueue (l.files crc32)).id < l.parts
          omega
      · exact ⟨h, hat⟩
    obtain ⟨hplace, hat₁⟩ := hplace
    by_cases hgt : c₁.queue.id > c₁.id
    · have hnext : p + 1 < l.parts := by
        have h1 := hplace.queueId_lt
        have h2 := hplace.id
        omega
      obtain ⟨q, hq, hframe, -⟩ := getInfoOfPart_files (q := c₁.queue) crc32 hnext
      rw [← hplace.id] at hq
      have hready : q.isReady = true := hframe.isReady.trans hplace.queueReady
      have hopen := openPart_files (q := q) crc32 hready (hplace.id ▸ hnext)
      have hfr := VQueue.Queue.readInfoPush_frame (l.files crc32)
        { q with ffInfoPushW := c₁.id + 1, ffQueueR := c₁.id + 1, cursor := 0 }
      have hopenW := VQueue.Queue.ffInfoPushW_readInfoPush (l.files crc32)
        { q with ffInfoPushW := c₁.id + 1, ffQueueR := c₁.id + 1, cursor := 0 }
      rw [← hopen] at hfr hopenW
      generalize hq' : (q.openPart (l.files crc32) (c₁.id + 1)).2 = q' at hfr hopenW
      have hpart : c.headerPart (l.files crc32) = (true, { c₁ with
          id := c₁.id + 1
          queue := q'
          countPopped := 0
          posRecord := 0
          isReady := c₁.isReady && q.isReady }) := by
        simp only [VQueue.Consumer.headerPart, if_pos hge, hc₁, if_pos hgt, hq, hq', if_true]
      refine ⟨_, hpart, .inr ⟨hdone hge hnext, ?_, ?_⟩⟩
      · exact {
          id := congrArg (· + 1) hplace.id
          countPopped := rfl
          queueReady := hfr.isReady.trans hready
          ffQueueR := hfr.ffQueueR.trans (congrArg (· + 1) hplace.id)
          ffInfoPushW := hopenW.trans (congrArg (· + 1) hplace.id)
          le_queueId := by
            have h1 := hplace.id
            rw [hfr.id, hframe.id]
            omega
          queueId_lt := by
            rw [hfr.id, hframe.id]
            exact hplace.queueId_lt }
      · exact ⟨by simp [hat₁.ready, hready], hfr.cursor, Nat.zero_le _⟩
    · refine ⟨c₁, ?_, .inl ⟨hplace, hat₁⟩⟩
      simp only [VQueue.Consumer.headerPart, if_pos hge, hc₁, if_neg hgt]
  · exact ⟨c, by simp only [VQueue.Consumer.headerPart, if_neg hge], .inl ⟨h, hat⟩⟩

/-- The consumer that is made when there is a first part. -/
theorem place_new (crc32 : Bytes → BitVec 32) (hp : 0 < l.parts) :
    Place l 0 0 (.new (l.files crc32)) := by
  have hframe := VQueue.Queue.readInfoPush_frame (l.files crc32)
    ⟨true, 0, 0, 0, 0, 0, (l.files crc32).infoQueue.getD 0⟩
  exact {
    id := rfl
    countPopped := rfl
    queueReady := hframe.isReady
    ffQueueR := hframe.ffQueueR
    ffInfoPushW := VQueue.Queue.ffInfoPushW_readInfoPush _ _
    le_queueId := Nat.zero_le _
    queueId_lt := by
      show (VQueue.Queue.readInfoPush _ _).id < l.parts
      rw [hframe.id, Log.infoQueue_files crc32 hp]
      exact Nat.sub_lt hp Nat.one_pos }

/-! ## The invariant -/

/-- The parts before `p` were committed, and `k` messages of part `p`. -/
structure Committed (l : Log) (p k : Nat) (committed : Nat → List Bytes) : Prop where
  before : ∀ i < p, committed i = (l.appended i).map Message.body
  here : committed p = ((l.appended p).take k).map Message.body
  after : ∀ i, p < i → committed i = []

theorem Committed.mono (h : Committed l p k committed) (hle : l.Le l') (hp : p < l.parts)
    (hk : k ≤ (l.appended p).length) : Committed l' p k committed where
  before i hi := by rw [hle.closed i (by omega), h.before i hi]
  here := by rw [hle.take hk, h.here]
  after := h.after

theorem Committed.push (h : Committed l p k committed) (hk : k < (l.appended p).length) :
    Committed l p (k + 1) (push committed p (l.appended p)[k].body) where
  before i hi := by rw [PartSwitch.push, Function.update_of_ne (Nat.ne_of_lt hi), h.before i hi]
  here := by
    rw [PartSwitch.push, Function.update_self, h.here, List.take_succ_eq_append_getElem hk,
      List.map_append]
    rfl
  after i hi := by rw [PartSwitch.push, Function.update_of_ne (Nat.ne_of_gt hi), h.after i hi]

/-- At the end of a part. -/
theorem Committed.next (h : Committed l p (l.appended p).length committed) :
    Committed l (p + 1) 0 committed where
  before i hi := by
    rcases Nat.lt_or_eq_of_le (Nat.le_of_lt_succ hi) with hlt | rfl
    · exact h.before i hlt
    · rw [h.here, List.take_length]
  here := by rw [h.after (p + 1) (Nat.lt_succ_self p), List.take_zero, List.map_nil]
  after i hi := h.after i (Nat.lt_of_succ_lt hi)

end

inductive VPos (crc32 : Bytes → BitVec 32) (l : Log) : VState → (Nat → List Bytes) → Prop
  | closed (hcommitted : ∀ p, committed p = []) : VPos crc32 l .closed committed
  | header (p k : Nat) (hplace : Place l p k c) (hat : c.At (l.appended p) k)
      (hcommitted : Committed l p k committed) : VPos crc32 l (.run .header c) committed
  | infoRead (p k : Nat) (hplace : Place l p k c) (hat : c.At (l.appended p) k)
      (hcommitted : Committed l p k committed)
      (hdone : c.countPopped ≥ c.queue.countPushed → p + 1 < l.parts → k = (l.appended p).length) :
      VPos crc32 l (.run .infoRead c) committed
  | partRead (p k : Nat) (hplace : Place l p k c) (hat : c.At (l.appended p) k)
      (hcommitted : Committed l p k committed) : VPos crc32 l (.run .partRead c) committed
  | headerRead (p k : Nat) (hplace : Place l p k c) (hread : c.HeaderRead crc32 (l.appended p) k)
      (hcommitted : Committed l p k committed) : VPos crc32 l (.run .headerRead c) committed
  | bodyRead (p k : Nat) (hplace : Place l p k c) (hread : c.BodyRead (l.appended p) k)
      (hcommitted : Committed l p k committed) (hk : k < (l.appended p).length)
      (hmsg : msg = (l.appended p)[k].body) : VPos crc32 l (.run (.bodyRead msg) c) committed

namespace VPos

variable {crc32 : Bytes → BitVec 32} {l l' : Log} {s : VState} {committed : Nat → List Bytes}

/-- A step of the producer does not move the reader, unless it ends a part that the reader is about
to leave too early. -/
theorem mono (h : VPos crc32 l s committed) (hle : l.Le l')
    (hleaving : l'.parts = l.parts ∨ (vReader.part s + 1 = l.parts →
      ∀ n, vReader.leaving s = some n → n = (l'.appended (vReader.part s)).length)) :
    VPos crc32 l' s committed := by
  cases h with
  | closed hcommitted => exact .closed hcommitted
  | header p k hplace hat hcommitted =>
    exact .header p k (hplace.mono hle) (hat.mono (hle.appended p))
      (hcommitted.mono hle hplace.lt hat.le)
  | partRead p k hplace hat hcommitted =>
    exact .partRead p k (hplace.mono hle) (hat.mono (hle.appended p))
      (hcommitted.mono hle hplace.lt hat.le)
  | headerRead p k hplace hread hcommitted =>
    exact .headerRead p k (hplace.mono hle) (hread.mono (hle.appended p))
      (hcommitted.mono hle hplace.lt (Nat.le_of_lt hread.lt))
  | bodyRead p k hplace hread hcommitted hk hmsg =>
    refine .bodyRead p k (hplace.mono hle) (hread.mono (hle.appended p))
      (hcommitted.mono hle hplace.lt (Nat.le_of_lt hk))
      (Nat.lt_of_lt_of_le hk (hle.appended p).length_le) ?_
    rw [hmsg, (hle.appended p).getElem hk]
  | infoRead p k hplace hat hcommitted hdone =>
    refine .infoRead p k (hplace.mono hle) (hat.mono (hle.appended p))
      (hcommitted.mono hle hplace.lt hat.le) fun hge hnext => ?_
    have hlt := hplace.lt
    by_cases hclosed : p + 1 < l.parts
    · rw [hle.closed p hclosed]
      exact hdone hge hclosed
    · have hn := hleaving.resolve_left (by omega)
      rw [hplace.countPopped] at hge
      simp only [vReader, hplace.id, hplace.countPopped, if_pos hge] at hn
      exact hn (by omega) k rfl

/-- A step of the reader. -/
theorem next (h : VPos crc32 l s committed) (hl : Closed l) :
    VPos crc32 l (vReader.step crc32 (l.files crc32) s).1
      ((vReader.step crc32 (l.files crc32) s).2.elim committed (push committed (vReader.part s))) := by
  cases h with
  | closed hcommitted =>
    rcases Nat.eq_zero_or_pos l.parts with h0 | hparts
    · simp only [vReader, Log.files_parts_of_le crc32 (Nat.le_of_eq h0)]
      exact .closed hcommitted
    · simp only [vReader, Log.files_parts_of_lt crc32 hparts]
      refine .header 0 0 (place_new crc32 hparts) ⟨rfl, ?_, Nat.zero_le _⟩ ?_
      · exact (VQueue.Queue.readInfoPush_frame _ _).cursor
      · exact ⟨nofun, hcommitted 0, fun i _ => hcommitted i⟩
  | header p k hplace hat hcommitted =>
    obtain ⟨c', hinfo, hplace', hat', hdone⟩ := hplace.headerInfo crc32 hl.wf hat
    simp only [vReader, hinfo]
    refine .infoRead p k hplace' hat' hcommitted fun hge hnext => ?_
    apply Nat.le_antisymm hat.le
    rw [← hl.count p hnext]
    exact hdone hge
  | infoRead p k hplace hat hcommitted hdone =>
    obtain ⟨c', hpart, ⟨hplace', hat'⟩ | ⟨hk, hplace', hat'⟩⟩ := hplace.headerPart crc32 hat hdone
    · simp only [vReader, hpart]
      exact .partRead p k hplace' hat' hcommitted
    · subst hk
      simp only [vReader, hpart]
      exact .partRead (p + 1) 0 hplace' hat' hcommitted.next
  | partRead p k hplace hat hcommitted =>
    rename_i c
    have hvisible : c.visible (l.files crc32) c.queue.cursor =
        (records crc32 0 0 (l.appended p)).drop (size ((l.appended p).take k)) := by
      rw [VQueue.Consumer.visible, hplace.ffQueueR, Log.queueOf_files crc32 hplace.lt, hat.cursor]
      rfl
    rcases Nat.lt_or_eq_of_le hat.le with hk | hk
    · obtain ⟨c', hread, hread', hframe⟩ := hat.headerRead hk (l.files crc32)
        (by rw [hvisible, take_header crc32 _ k hk])
      simp only [vReader, hread]
      exact .headerRead p k (hplace.frame hframe) hread' hcommitted
    · have hend : c.visible (l.files crc32) c.queue.cursor = [] := by
        rw [hvisible, hk, List.take_length, ← length_records crc32 0 0, List.drop_length]
      simp only [vReader, VQueue.Consumer.headerRead_end _ hend]
      exact .header p k hplace hat hcommitted
  | headerRead p k hplace hread hcommitted =>
    rename_i c
    have hk := hread.lt
    have hvisible : (c.visible (l.files crc32) c.queue.cursor).take
        (l.appended p)[k].body.length = (l.appended p)[k].body := by
      rw [VQueue.Consumer.visible, hplace.ffQueueR, Log.queueOf_files crc32 hplace.lt, hread.cursor]
      exact take_body crc32 _ k hk
    obtain ⟨c', hbody, hread', hframe⟩ := hread.popBody hk (l.files crc32) (l.files crc32) hvisible
    simp only [vReader, hbody]
    exact .bodyRead p k (hplace.frame hframe) hread' hcommitted hk rfl
  | bodyRead p k hplace hread hcommitted hk hmsg =>
    obtain ⟨c', hcommit, hat', hcount, hqueue, hid⟩ := hread.commitAndNext
    subst hmsg
    simp only [vReader, hcommit, hplace.id]
    refine .header p (k + 1) ?_ hat' (hcommitted.push hk)
    exact {
      id := hid.trans hplace.id
      countPopped := hcount.trans (congrArg (· + 1) hplace.countPopped)
      queueReady := hqueue ▸ hplace.queueReady
      ffQueueR := hqueue ▸ hplace.ffQueueR
      ffInfoPushW := hqueue ▸ hplace.ffInfoPushW
      le_queueId := hqueue ▸ hplace.le_queueId
      queueId_lt := hqueue ▸ hplace.queueId_lt }

theorem kept (h : VPos crc32 l s committed) (i : Nat) (hi : i < vReader.part s) :
    (l.appended i).map Message.body <+: committed i := by
  cases h with
  | closed hcommitted => exact absurd hi (Nat.not_lt_zero i)
  | header p k hplace _ hcommitted | infoRead p k hplace _ hcommitted _
  | partRead p k hplace _ hcommitted | headerRead p k hplace _ hcommitted
  | bodyRead p k hplace _ hcommitted _ _ =>
    exact hcommitted.before i (hplace.id ▸ hi) ▸ List.prefix_rfl

end VPos

def vInvariant (crc32 : Bytes → BitVec 32) : Invariant vReader crc32 where
  Pos := VPos crc32
  init := .closed fun _ => rfl
  restart _ h hleaving := h.mono (Log.le_restart _) (.inr hleaving)
  append m _ _ h := h.mono (Log.le_append m _) (.inl rfl)
  putInfoPush hl _ h := h.mono (Log.le_putInfoPush hl.wf) (.inl rfl)
  next hl h _ := h.next hl
  kept h := h.kept

end Veda.Queue.PartSwitch
