import Veda.Queue.Consumer
import Veda.Queue.Log

/-! # Where a consumer in D stands

`Consumer.At l p k` says that a consumer has committed the first `k` messages of part `p` of a log
and that the files it has open are those of that part. The halves of `pop` and `commit_and_next`
are described for such a consumer: what they return, and where the consumer stands afterwards. -/

namespace Veda.Queue

open LittleEndian

theorem ofNat_le_ofNat {j k : Nat} (hj : j < 2 ^ 32) (hk : k < 2 ^ 32) :
    BitVec.ofNat 32 j ≤ BitVec.ofNat 32 k ↔ j ≤ k := by
  rw [BitVec.le_def, BitVec.toNat_ofNat, BitVec.toNat_ofNat, Nat.mod_eq_of_lt hj,
    Nat.mod_eq_of_lt hk]

namespace QueueR

/-- The queue object of a consumer has no file of another part open. -/
structure Fresh (p : Nat) (q : QueueR) : Prop where
  infoPushR : ∀ i, q.infoPushR = some i → i = p
  queueR : ∀ i, q.queueR = some i → i = p

instance (p : Nat) (q : QueueR) : Decidable (q.Fresh p) :=
  decidable_of_iff ((∀ i, q.infoPushR = some i → i = p) ∧ ∀ i, q.queueR = some i → i = p)
    ⟨fun h => ⟨h.1, h.2⟩, fun h => ⟨h.1, h.2⟩⟩

/-- `_info_push` is read. -/
theorem getInfoPush_files (crc32 : Bytes → BitVec 32) {l : Log} {q : QueueR} (hp : p < l.parts)
    (hready : q.isReady = true) (hid : q.id = p) (hfresh : q.Fresh p)
    (hnone : l.counted p = none → q.countPushed = 0) :
    ∃ e, q.getInfoPush (l.files crc32) p = (true, { q with
      infoPushR := some p
      rightEdge := e
      countPushed := BitVec.ofNat 32 (l.count p) }) := by
  have hread : ∃ e, { q with infoPushR := some p }.readInfoPush (l.files crc32) = { q with
      infoPushR := some p
      rightEdge := e
      countPushed := BitVec.ofNat 32 (l.count p) } := by
    rw [readInfoPush, Option.bind_some, Log.files_parts_of_lt crc32 hp, Log.count]
    cases hc : l.counted p with
    | none => exact ⟨q.rightEdge, by simp [Log.part, hc, hnone hc]⟩
    | some k => exact ⟨_, by simp [Log.part, hc]; exact ⟨rfl, rfl⟩⟩
  obtain ⟨e, he⟩ := hread
  refine ⟨e, ?_⟩
  rw [getInfoPush, if_neg (by simp [hready])]
  cases hopen : q.infoPushR with
  | none => rw [if_pos (Or.inr rfl), if_pos (by rw [Log.files_parts_of_lt crc32 hp]; rfl), he]
  | some i =>
    have hi := hfresh.infoPushR i hopen
    have hq : { q with infoPushR := some p } = q := by rw [← hi, ← hopen]
    rw [hq] at he
    rw [if_neg (by simp [hid]), he]

end QueueR

namespace Consumer

/-- The consumer has committed the first `k` messages of part `p`. -/
structure At (l : Log) (p k : Nat) (c : Consumer) : Prop where
  queueReady : c.queue.isReady = true
  ready : c.isReady = true
  queueId : c.queue.id = p
  id : c.id = p
  fresh : c.queue.Fresh p
  countPopped : c.countPopped = BitVec.ofNat 32 k
  startPosRecord : c.startPosRecord = BitVec.ofNat 64 (size ((l.appended p).take k))
  /-- The number of messages it knows of. -/
  countPushed : ∃ j, k ≤ j ∧ j ≤ l.count p ∧ c.queue.countPushed = BitVec.ofNat 32 j

/-- The message after the first `k` ones was read. -/
def Read (crc32 : Bytes → BitVec 32) (l : Log) (p k : Nat) (c : Consumer) : Prop :=
  ∃ h : k < (l.appended p).length,
    c.lastReadMsg = (l.appended p)[k].body ∧ k < l.count p ∧
    Loaded crc32 (BitVec.ofNat 64 (size ((l.appended p).take k))) (BitVec.ofNat 32 (k + 1))
      (l.appended p)[k].type.code (l.appended p)[k].body c

variable {crc32 : Bytes → BitVec 32} {l l' : Log} {p k : Nat} {c c' : Consumer}

theorem At.le (h : At l p k c) : k ≤ l.count p := by
  obtain ⟨j, hkj, hj, -⟩ := h.countPushed
  exact Nat.le_trans hkj hj

theorem At.openNew (l : Log) : openNew.At l 0 0 where
  queueReady := rfl
  ready := rfl
  queueId := rfl
  id := rfl
  fresh := ⟨nofun, nofun⟩
  countPopped := rfl
  startPosRecord := rfl
  countPushed := ⟨0, Nat.le_refl _, Nat.zero_le _, rfl⟩

theorem At.frame (h : At l p k c) (hf : ReadFrame c c') : At l p k c' where
  queueReady := hf.queue ▸ h.queueReady
  ready := hf.isReady ▸ h.ready
  queueId := hf.queue ▸ h.queueId
  id := hf.id ▸ h.id
  fresh := hf.queue ▸ h.fresh
  countPopped := hf.countPopped ▸ h.countPopped
  startPosRecord := hf.startPosRecord ▸ h.startPosRecord
  countPushed := hf.queue ▸ h.countPushed

/-- The consumer stands where it stood when the producer has gone on. -/
theorem At.mono (h : At l p k c) (hl : l.WF) (hle : l.Le l') : At l' p k c where
  queueReady := h.queueReady
  ready := h.ready
  queueId := h.queueId
  id := h.id
  fresh := h.fresh
  countPopped := h.countPopped
  startPosRecord := by
    have hk := Nat.le_trans h.le (hl.count_le p)
    rw [h.startPosRecord, hle.take hk]
  countPushed := by
    obtain ⟨j, hkj, hj, hcount⟩ := h.countPushed
    exact ⟨j, hkj, Nat.le_trans hj (hle.count p), hcount⟩

theorem Read.mono (h : Read crc32 l p k c) (hle : l.Le l') : Read crc32 l' p k c := by
  obtain ⟨hk, hmsg, hcount, hloaded⟩ := h
  have hk' := Nat.lt_of_lt_of_le hk (hle.appended p).length_le
  have hget : (l'.appended p)[k] = (l.appended p)[k] := ((hle.appended p).getElem hk).symm
  have htake := hle.take (Nat.le_of_lt hk)
  refine ⟨hk', ?_, Nat.lt_of_lt_of_le hcount (hle.count p), ?_⟩
  · rw [hget, hmsg]
  · rw [hget, htake]
    exact hloaded

theorem At.readInfo (crc32 : Bytes → BitVec 32) (h : At l p k c) (hp : p < l.parts) :
    ∃ q, c.queue.getInfoPush (l.files crc32) p = (true, q) ∧ At l p k { c with queue := q } ∧
      q.countPushed = BitVec.ofNat 32 (l.count p) ∧ q.infoPushR = some p := by
  obtain ⟨j, hkj, hj, hcount⟩ := h.countPushed
  have hnone : l.counted p = none → c.queue.countPushed = 0 := by
    intro hc
    rw [Log.count, hc] at hj
    rw [hcount, Nat.le_zero.mp hj]
    rfl
  obtain ⟨e, he⟩ := c.queue.getInfoPush_files crc32 hp h.queueReady h.queueId h.fresh hnone
  refine ⟨_, he, ?_, rfl, rfl⟩
  exact {
    queueReady := h.queueReady
    ready := h.ready
    queueId := h.queueId
    id := h.id
    fresh := ⟨fun i hi => (Option.some.inj hi).symm, h.fresh.queueR⟩
    countPopped := h.countPopped
    startPosRecord := h.startPosRecord
    countPushed := ⟨l.count p, h.le, Nat.le_refl _, rfl⟩ }

/-- The first half of `pop`. A consumer that goes on to look for another part has committed what
`_info_push` counts. -/
theorem At.popInfo (h : At l p k c) (crc32 : Bytes → BitVec 32) (hl : l.WF) (hp : p < l.parts) :
    ∃ c', c.popInfo (l.files crc32) = (true, c') ∧ At l p k c' ∧
      (c'.countPopped ≥ c'.queue.countPushed → l.count p = k ∧ c'.queue.infoPushR = some p) := by
  have hbound := Nat.lt_of_le_of_lt (hl.count_le p) (hl.length p)
  by_cases hge : c.countPopped ≥ c.queue.countPushed
  · obtain ⟨q, hq, hat, hcount, hopen⟩ := h.readInfo crc32 hp
    rw [← h.id] at hq
    refine ⟨{ c with queue := q }, by simp only [Consumer.popInfo, if_pos hge, hq], hat, ?_⟩
    intro hge'
    have hge' : BitVec.ofNat 32 (l.count p) ≤ BitVec.ofNat 32 k := by
      rw [← h.countPopped, ← hcount]
      exact hge'
    rw [ofNat_le_ofNat hbound (Nat.lt_of_le_of_lt h.le hbound)] at hge'
    exact ⟨Nat.le_antisymm hge' h.le, hopen⟩
  · exact ⟨c, by simp only [Consumer.popInfo, if_neg hge], h, fun h' => absurd h' hge⟩

/-- The second half of `pop` where a message is left that the consumer knows of. -/
theorem At.popRest_read (h : At l p k c) (crc32 : Bytes → BitVec 32) (hl : l.WF) (hp : p < l.parts)
    (hlt : ¬c.countPopped ≥ c.queue.countPushed) :
    ∃ c', c.popRest (l.files crc32) = (.msg c'.lastReadMsg, c') ∧ At l p k c' ∧
      Read crc32 l p k c' := by
  have hbound := Nat.lt_of_le_of_lt (hl.count_le p) (hl.length p)
  have hkcount : k < l.count p := by
    obtain ⟨j, hkj, hj, hcount⟩ := h.countPushed
    have hnle : ¬BitVec.ofNat 32 j ≤ BitVec.ofNat 32 k := by
      rw [← hcount, ← h.countPopped]
      exact hlt
    rw [ofNat_le_ofNat (by omega) (by omega)] at hnle
    omega
  have hk : k < (l.appended p).length := Nat.lt_of_lt_of_le hkcount (hl.count_le p)
  have hqueue : c.queue.getRQueueFile c.id = { c.queue with queueR := some p } := by
    rw [QueueR.getRQueueFile, h.id]
    cases hopen : c.queue.queueR with
    | none => rw [if_pos (Or.inr rfl), ← h.queueId]
    | some i =>
      have hi := h.fresh.queueR i hopen
      rw [if_neg (by simp [h.queueId]), ← hi, ← hopen]
  have hsize : (BitVec.ofNat 64 (size ((l.appended p).take k))).toNat =
      size ((l.appended p).take k) := by
    rw [BitVec.toNat_ofNat]
    exact Nat.mod_eq_of_lt (size_take_lt _ k (hl.length p))
  obtain ⟨c', hread, hloaded, hframe⟩ := readRecord_record crc32 (BitVec.ofNat 32 (k + 1))
    (l.appended p)[k].type.code { c with queue := { c.queue with queueR := some p } }
    (records crc32 0 0 ((l.appended p).take k))
    (records crc32 (size ((l.appended p).take (k + 1))) (k + 1) ((l.appended p).drop (k + 1)))
    h.startPosRecord (by rw [length_records, hsize]) (l.appended p)[k].nonempty
    (l.appended p)[k].short
  refine ⟨c', ?_, ?_, hk, hloaded.lastReadMsg, hkcount, hloaded⟩
  · rw [popRest, if_neg hlt, hqueue, hloaded.lastReadMsg]
    simp only [Option.bind_some, Log.queueOf_files crc32 hp]
    rw [records_at crc32 _ k hk]
    exact hread
  · refine At.frame ?_ hframe
    exact {
      queueReady := h.queueReady
      ready := h.ready
      queueId := h.queueId
      id := h.id
      fresh := ⟨h.fresh.infoPushR, fun i hi => (Option.some.inj hi).symm⟩
      countPopped := h.countPopped
      startPosRecord := h.startPosRecord
      countPushed := h.countPushed }

/-- The second half of `pop` in the last part. -/
theorem At.popRest_wait (h : At l p k c) (crc32 : Bytes → BitVec 32) (hp : l.parts = p + 1)
    (hge : c.countPopped ≥ c.queue.countPushed) : c.popRest (l.files crc32) = (.null, c) := by
  have hinfo : c.queue.getInfoQueue (l.files crc32) = c.queue := by
    rw [QueueR.getInfoQueue, if_neg (by simp [h.queueReady]), Log.infoQueue_files crc32 (by omega)]
    have hid : l.parts - 1 = c.queue.id := by
      rw [h.queueId]
      omega
    simp only [hid]
  have hids : c.queue.id = c.id := h.queueId.trans h.id.symm
  rw [popRest, if_pos hge, if_pos hids, hinfo]
  exact if_neg (by simp [hids])

/-- The second half of `pop` in another part. The file `_info_push` of the part that was left
stays open. -/
theorem At.popRest_leave (h : At l p k c) (crc32 : Bytes → BitVec 32) (hp : p + 1 < l.parts)
    (hge : c.countPopped ≥ c.queue.countPushed) (hopen : c.queue.infoPushR = some p) :
    ∃ c', c.popRest (l.files crc32) = (.null, c') ∧ c'.id = p + 1 ∧ c'.queue.infoPushR = some p := by
  have hinfo : c.queue.getInfoQueue (l.files crc32) = { c.queue with id := l.parts - 1 } := by
    rw [QueueR.getInfoQueue, if_neg (by simp [h.queueReady]), Log.infoQueue_files crc32 (by omega)]
  have hids : c.queue.id = c.id := h.queueId.trans h.id.symm
  have hgt : l.parts - 1 > c.id := by
    rw [h.id]
    omega
  generalize hq : ({ c.queue with id := c.id + 1 } : QueueR).readInfoPush (l.files crc32) = q
  have hget : ({ c.queue with id := c.id + 1 } : QueueR).getInfoPush (l.files crc32) (c.id + 1) =
      (true, q) := by
    rw [QueueR.getInfoPush, if_neg (by simp [h.queueReady]), if_neg (by simp [hopen]), hq]
  have hopen' : q.infoPushR = some p := by
    rw [← hq, QueueR.readInfoPush]
    split
    · exact hopen
    · exact hopen
  rw [popRest, if_pos hge, if_pos hids, hinfo]
  simp only [if_pos hgt, hget]
  exact ⟨_, rfl, congrArg (· + 1) h.id, hopen'⟩

/-- What `pop` does. -/
theorem At.pop (h : At l p k c) (crc32 : Bytes → BitVec 32) (hl : l.WF) (hp : p < l.parts) :
    (∃ c', c.pop (l.files crc32) = (.msg c'.lastReadMsg, c') ∧ At l p k c' ∧
      Read crc32 l p k c') ∨
    (l.parts = p + 1 ∧ l.count p = k ∧ ∃ c', c.pop (l.files crc32) = (.null, c') ∧ At l p k c') ∨
    (p + 1 < l.parts ∧ l.count p = k ∧ ∃ c', c.pop (l.files crc32) = (.null, c') ∧
      c'.id = p + 1 ∧ c'.queue.infoPushR = some p) := by
  obtain ⟨c₁, hinfo, hat, hdone⟩ := h.popInfo crc32 hl hp
  have hpop : c.pop (l.files crc32) = c₁.popRest (l.files crc32) := by
    rw [Consumer.pop, if_neg (by simp [h.queueReady, h.ready]), hinfo]
    rfl
  rw [hpop]
  by_cases hge : c₁.countPopped ≥ c₁.queue.countPushed
  · obtain ⟨hcount, hopen⟩ := hdone hge
    rcases Nat.lt_or_eq_of_le (Nat.succ_le_of_lt hp) with hlt | heq
    · exact .inr (.inr ⟨hlt, hcount, hat.popRest_leave crc32 hlt hge hopen⟩)
    · exact .inr (.inl ⟨heq.symm, hcount, c₁, hat.popRest_wait crc32 heq.symm hge, hat⟩)
  · exact .inl (hat.popRest_read crc32 hl hp hge)

/-- The step of `start_pos_record`. -/
theorem setWidth_size (m : Message) :
    (25 + BitVec.ofNat 32 m.body.length).setWidth 64 = BitVec.ofNat 64 m.size := by
  have hshort := m.short
  apply BitVec.eq_of_toNat_eq
  rw [BitVec.toNat_setWidth, BitVec.toNat_add, toNat_ofNat_length hshort, BitVec.toNat_ofNat,
    Message.size, headerLength]
  show (25 + m.body.length) % 2 ^ 32 % 2 ^ 64 = _
  omega

/-- `commit_and_next` of a message that was read. -/
theorem At.commit_read (h : At l p k c) (hl : l.WF) (hp : p < l.parts)
    (hread : Read crc32 l p k c) :
    ∃ c', c.commitAndNext crc32 (l.files crc32) = (true, c') ∧ At l p (k + 1) c' ∧
      c'.lastReadMsg = c.lastReadMsg := by
  have hbound := Nat.lt_of_le_of_lt (hl.count_le p) (hl.length p)
  obtain ⟨hk, -, hcount, hloaded⟩ := hread
  obtain ⟨q, hq, hat, hpushed, -⟩ := h.readInfo crc32 hp
  rw [← h.id] at hq
  have hlt : ¬c.countPopped ≥ q.countPushed := by
    rw [h.countPopped, hpushed, ge_iff_le, ofNat_le_ofNat hbound (by omega)]
    omega
  have hloaded' : Loaded crc32 (BitVec.ofNat 64 (size ((l.appended p).take k)))
      (BitVec.ofNat 32 (k + 1)) (l.appended p)[k].type.code (l.appended p)[k].body
      { c with queue := q } := ⟨hloaded.header, hloaded.lastReadMsg, hloaded.zeroCrc⟩
  have hstep : c.startPosRecord + (25 + c.header.msgLength).setWidth 64 =
      BitVec.ofNat 64 (size ((l.appended p).take (k + 1))) := by
    rw [hloaded.header, h.startPosRecord]
    refine (congrArg _ (setWidth_size (l.appended p)[k])).trans ?_
    rw [← BitVec.ofNat_add, List.take_succ_eq_append_getElem hk, size_append, size_cons, size_nil,
      Nat.add_zero]
  have hqready : q.isReady = true := hat.queueReady
  rw [commitAndNext, if_neg (by simp [h.queueReady, h.ready]), hq]
  simp only [if_neg hlt, if_pos hloaded'.crcAgrees]
  rw [putInfo, if_neg (by simp [hqready, h.ready])]
  refine ⟨_, rfl, ?_, rfl⟩
  exact {
    queueReady := hat.queueReady
    ready := h.ready
    queueId := hat.queueId
    id := hat.queueId
    fresh := hat.fresh
    countPopped := by
      rw [h.countPopped]
      exact (BitVec.ofNat_add k 1).symm
    startPosRecord := hstep
    countPushed := ⟨l.count p, hcount, Nat.le_refl _, hpushed⟩ }

/-- `commit_and_next` where there is no message to commit. -/
theorem At.commit_none (h : At l p k c) (crc32 : Bytes → BitVec 32) (hl : l.WF) (hp : p < l.parts)
    (hk : l.count p ≤ k) :
    ∃ c', c.commitAndNext crc32 (l.files crc32) = (false, c') ∧ At l p k c' := by
  have hbound := Nat.lt_of_le_of_lt (hl.count_le p) (hl.length p)
  obtain ⟨q, hq, hat, hcount, -⟩ := h.readInfo crc32 hp
  rw [← h.id] at hq
  have hge : c.countPopped ≥ q.countPushed := by
    rw [h.countPopped, hcount, ge_iff_le, ofNat_le_ofNat hbound (Nat.lt_of_le_of_lt h.le hbound)]
    exact hk
  refine ⟨{ c with queue := q }, ?_, hat⟩
  rw [commitAndNext, if_neg (by simp [h.queueReady, h.ready]), hq]
  exact if_pos hge

end Consumer

end Veda.Queue
