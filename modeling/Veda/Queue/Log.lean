import Veda.Queue.Files

/-! # What the files of a queue hold

A `Log` is what the producer has done with a queue, part by part: the messages whose records were
appended, and how many of them `_info_push` counts. The files and the producer are a function of
the log (`Log.source`), and the three steps of the producer are steps of the log as long as no
counter overflows (`Log.source_step`). -/

namespace Veda.Queue

open LittleEndian

/-- A message that `put_msg` writes. -/
structure Message where
  type : QMessageType
  body : Bytes
  nonempty : body ≠ []
  short : body.length ≤ 0xFFFFFFFF / 2

namespace Message

/-- The length of the record of a message. -/
def size (m : Message) : Nat := headerLength + m.body.length

theorem size_le (m : Message) : m.size ≤ 2147483672 := by
  have h := m.short
  rw [size, headerLength]
  omega

def oneByte : Message := ⟨.string, [0x61], List.cons_ne_nil _ _, by decide⟩

end Message

/-- The length of the records of messages. -/
def size (ms : List Message) : Nat := (ms.map Message.size).sum

@[simp] theorem size_nil : size [] = 0 := rfl

@[simp] theorem size_cons (m : Message) (ms : List Message) : size (m :: ms) = m.size + size ms := by
  simp [size]

@[simp] theorem size_append (ms ms' : List Message) : size (ms ++ ms') = size ms + size ms' := by
  simp [size]

theorem size_le (ms : List Message) : size ms ≤ 2147483672 * ms.length := by
  induction ms with
  | nil => exact Nat.zero_le _
  | cons m ms ih =>
    have h := m.size_le
    rw [size_cons, List.length_cons]
    omega

theorem size_take_lt (ms : List Message) (k : Nat) (h : ms.length < 2 ^ 32) :
    size (ms.take k) < 2 ^ 64 := by
  have hle := size_le (ms.take k)
  have hlen := List.length_take_le' k ms
  omega

section
variable (crc32 : Bytes → BitVec 32)

/-- The record of a message that comes after `n` messages with `pos` bytes of records. -/
def Message.record (pos n : Nat) (m : Message) : Bytes :=
  Queue.record crc32 (BitVec.ofNat 64 pos) (BitVec.ofNat 32 (n + 1)) m.type.code m.body

@[simp] theorem Message.length_record (pos n : Nat) (m : Message) :
    (m.record crc32 pos n).length = m.size :=
  Queue.length_record _ _ _ _ _

/-- The records of messages that come after `n` messages with `pos` bytes of records. -/
def records (pos n : Nat) : List Message → Bytes
  | [] => []
  | m :: ms => m.record crc32 pos n ++ records (pos + m.size) (n + 1) ms

theorem records_append (pos n : Nat) (ms ms' : List Message) :
    records crc32 pos n (ms ++ ms') =
      records crc32 pos n ms ++ records crc32 (pos + size ms) (n + ms.length) ms' := by
  induction ms generalizing pos n with
  | nil => rfl
  | cons m ms ih =>
    rw [List.cons_append, records, ih, records, List.append_assoc, size_cons, List.length_cons,
      Nat.add_assoc pos, Nat.add_assoc n, Nat.add_comm 1]

@[simp] theorem length_records (pos n : Nat) (ms : List Message) :
    (records crc32 pos n ms).length = size ms := by
  induction ms generalizing pos n with
  | nil => rfl
  | cons m ms ih => rw [records, List.length_append, ih, m.length_record, size_cons]

/-- The records around a message. -/
theorem records_at (ms : List Message) (k : Nat) (hk : k < ms.length) :
    records crc32 0 0 ms = records crc32 0 0 (ms.take k) ++
      (ms[k].record crc32 (size (ms.take k)) k ++
        records crc32 (size (ms.take (k + 1))) (k + 1) (ms.drop (k + 1))) := by
  have hsize : size (ms.take (k + 1)) = size (ms.take k) + ms[k].size := by
    rw [List.take_succ_eq_append_getElem hk, size_append, size_cons, size_nil, Nat.add_zero]
  have hlen : (ms.take k).length = k := List.length_take_of_le (Nat.le_of_lt hk)
  rw [hsize]
  conv => lhs; rw [← List.take_append_drop k ms, records_append, List.drop_eq_getElem_cons hk]
  rw [records, hlen, Nat.zero_add, Nat.zero_add]

end

/-! ## The producer and its files -/

/-- The files of a queue, with the queue object that is open for writing. -/
structure Source where
  files : Files
  producer : Option Producer

namespace Source

def empty : Source := ⟨.empty, none⟩

/-- The steps of the producer, each of which is one write. -/
inductive Event where
  /-- A new queue object is opened in the mode `RW`. -/
  | restart
  /-- The first half of `push`. -/
  | append (msg : Bytes) (type : QMessageType)
  /-- The second half of `push`. -/
  | putInfoPush

def step (crc32 : Bytes → BitVec 32) : Event → Source → Source
  | .restart, s =>
    let (q, files) := Producer.openRW s.files
    ⟨files, some q⟩
  | .append msg type, s =>
    match s.producer with
    | none => s
    | some q =>
      let (q, files) := q.append crc32 msg type s.files
      ⟨files, some q⟩
  | .putInfoPush, s =>
    match s.producer with
    | none => s
    | some q => { s with files := q.putInfoPush s.files }

end Source

/-- What the producer has done: the number of parts, the messages appended to each, and the number
of messages that `_info_push` counts. -/
structure Log where
  parts : Nat
  appended : Nat → List Message
  counted : Nat → Option Nat

namespace Log

def empty : Log := ⟨0, fun _ => [], fun _ => none⟩

def restart (l : Log) : Log := { l with parts := l.parts + 1 }

/-- A message is appended to the last part. -/
def append (m : Message) (l : Log) : Log :=
  { l with appended := Function.update l.appended (l.parts - 1) (l.appended (l.parts - 1) ++ [m]) }

/-- All the messages of the last part are counted. -/
def putInfoPush (l : Log) : Log :=
  { l with counted :=
      Function.update l.counted (l.parts - 1) (some (l.appended (l.parts - 1)).length) }

/-- No counter overflows, and a part that does not exist is empty. -/
structure WF (l : Log) : Prop where
  parts : l.parts ≤ 2 ^ 32
  length : ∀ p, (l.appended p).length < 2 ^ 32
  counted : ∀ p k, l.counted p = some k → k ≤ (l.appended p).length
  absent : ∀ p, l.parts ≤ p → l.appended p = [] ∧ l.counted p = none

section
variable (crc32 : Bytes → BitVec 32)

/-- The line of `_info_push` that counts the first `k` messages. -/
def infoPush (ms : List Message) (k : Nat) : InfoPush :=
  ⟨BitVec.ofNat 64 (size (ms.take k)), BitVec.ofNat 32 k⟩

def part (l : Log) (p : Nat) : Part :=
  ⟨records crc32 0 0 (l.appended p), (l.counted p).map (infoPush (l.appended p))⟩

def files (l : Log) : Files where
  infoQueue := if l.parts = 0 then none else some (l.parts - 1)
  parts p := if p < l.parts then some (l.part crc32 p) else none

def producer (l : Log) : Option Producer :=
  if l.parts = 0 then none
  else
    let ms := l.appended (l.parts - 1)
    some ⟨l.parts - 1, BitVec.ofNat 32 ms.length, BitVec.ofNat 64 (size ms)⟩

def source (l : Log) : Source := ⟨l.files crc32, l.producer⟩

theorem WF.empty : empty.WF where
  parts := Nat.zero_le _
  length _ := Nat.two_pow_pos 32
  counted _ _ h := nomatch h
  absent _ _ := ⟨rfl, rfl⟩

theorem WF.restart {l : Log} (hl : l.WF) (h : l.parts < 2 ^ 32) : l.restart.WF where
  parts := h
  length := hl.length
  counted := hl.counted
  absent p hp := hl.absent p (Nat.le_of_succ_le hp)

theorem WF.append {l : Log} (hl : l.WF) (m : Message) (hparts : 0 < l.parts)
    (h : (l.appended (l.parts - 1)).length + 1 < 2 ^ 32) : (l.append m).WF where
  parts := hl.parts
  length p := by
    by_cases hp : p = l.parts - 1
    · subst hp
      simpa [Log.append] using h
    · simpa [Log.append, hp] using hl.length p
  counted p k hk := by
    have hle := hl.counted p k hk
    by_cases hp : p = l.parts - 1
    · subst hp
      simp only [Log.append, Function.update_self, List.length_append, List.length_singleton]
      omega
    · simpa [Log.append, hp] using hle
  absent p hp := by
    have hne : p ≠ l.parts - 1 := by
      have : l.parts ≤ p := hp
      omega
    simpa [Log.append, hne] using hl.absent p hp

theorem WF.putInfoPush {l : Log} (hl : l.WF) (hparts : 0 < l.parts) : l.putInfoPush.WF where
  parts := hl.parts
  length := hl.length
  counted p k hk := by
    by_cases hp : p = l.parts - 1
    · subst hp
      simp only [Log.putInfoPush, Function.update_self, Option.some.injEq] at hk
      exact Nat.le_of_eq hk.symm
    · rw [Log.putInfoPush] at hk
      exact hl.counted p k (by simpa [hp] using hk)
  absent p hp := by
    have hne : p ≠ l.parts - 1 := by
      have : l.parts ≤ p := hp
      omega
    simpa [Log.putInfoPush, hne] using hl.absent p hp

/-- What a consumer finds in `_info_push`. -/
def count (l : Log) (p : Nat) : Nat := (l.counted p).getD 0

theorem WF.count_le {l : Log} (hl : l.WF) (p : Nat) : l.count p ≤ (l.appended p).length := by
  rw [count]
  cases h : l.counted p with
  | none => exact Nat.zero_le _
  | some k => exact hl.counted p k h

/-- The producer went on. -/
structure Le (l l' : Log) : Prop where
  parts : l.parts ≤ l'.parts
  appended : ∀ p, l.appended p <+: l'.appended p
  closed : ∀ p, p + 1 < l.parts → l'.appended p = l.appended p
  count : ∀ p, l.count p ≤ l'.count p

theorem Le.trans {l l' l'' : Log} (h : l.Le l') (h' : l'.Le l'') : l.Le l'' where
  parts := Nat.le_trans h.parts h'.parts
  appended p := (h.appended p).trans (h'.appended p)
  closed p hp := (h'.closed p (Nat.lt_of_lt_of_le hp h.parts)).trans (h.closed p hp)
  count p := Nat.le_trans (h.count p) (h'.count p)

theorem Le.take {l l' : Log} (h : l.Le l') (hk : k ≤ (l.appended p).length) :
    (l'.appended p).take k = (l.appended p).take k := by
  obtain ⟨ms, hms⟩ := h.appended p
  rw [← hms, List.take_append_of_le_length hk]

theorem le_restart (l : Log) : l.Le l.restart :=
  ⟨Nat.le_succ _, fun _ => List.prefix_rfl, fun _ _ => rfl, fun _ => Nat.le_refl _⟩

theorem le_append (m : Message) (l : Log) : l.Le (l.append m) where
  parts := Nat.le_refl _
  appended p := by
    by_cases hp : p = l.parts - 1
    · subst hp
      simp [append]
    · simp [append, hp]
  closed p hp := by
    have hne : p ≠ l.parts - 1 := by omega
    simp [append, hne]
  count _ := Nat.le_refl _

theorem le_putInfoPush {l : Log} (hl : l.WF) : l.Le l.putInfoPush where
  parts := Nat.le_refl _
  appended _ := List.prefix_rfl
  closed _ _ := rfl
  count p := by
    by_cases hp : p = l.parts - 1
    · subst hp
      simpa [count, putInfoPush] using hl.count_le (l.parts - 1)
    · simp [count, putInfoPush, hp]

/-! ## The producer follows the log -/

theorem files_parts_of_lt {l : Log} (h : p < l.parts) :
    (l.files crc32).parts p = some (l.part crc32 p) := if_pos h

theorem files_parts_of_le {l : Log} (h : l.parts ≤ p) : (l.files crc32).parts p = none :=
  if_neg (Nat.not_lt.mpr h)

theorem queueOf_files {l : Log} (h : p < l.parts) :
    (l.files crc32).queueOf p = some (records crc32 0 0 (l.appended p)) := by
  rw [Files.queueOf, files_parts_of_lt crc32 h]
  rfl

theorem infoQueue_files {l : Log} (h : 0 < l.parts) :
    (l.files crc32).infoQueue = some (l.parts - 1) := if_neg (Nat.ne_of_gt h)

theorem producer_of_pos {l : Log} (h : 0 < l.parts) :
    l.producer = some ⟨l.parts - 1, BitVec.ofNat 32 (l.appended (l.parts - 1)).length,
      BitVec.ofNat 64 (size (l.appended (l.parts - 1)))⟩ := if_neg (Nat.ne_of_gt h)

theorem producer_eq_some {l : Log} {q : Producer} (h : l.producer = some q) :
    0 < l.parts ∧ q = ⟨l.parts - 1, BitVec.ofNat 32 (l.appended (l.parts - 1)).length,
      BitVec.ofNat 64 (size (l.appended (l.parts - 1)))⟩ := by
  have hparts : 0 < l.parts := by
    apply Nat.pos_of_ne_zero
    intro h0
    rw [producer, if_pos h0] at h
    cases h
  rw [producer_of_pos hparts] at h
  exact ⟨hparts, (Option.some.inj h).symm⟩

theorem toNat_countPushed {l : Log} {q : Producer} (hl : l.WF) (h : l.producer = some q) :
    q.countPushed.toNat = (l.appended (l.parts - 1)).length := by
  obtain ⟨-, rfl⟩ := producer_eq_some h
  rw [BitVec.toNat_ofNat, Nat.mod_eq_of_lt (hl.length _)]

/-- There is room for one more part. -/
theorem parts_lt {l : Log} (h : ∀ id, (l.files crc32).infoQueue = some id → id + 1 < 2 ^ 32) :
    l.parts < 2 ^ 32 := by
  cases hn : l.parts with
  | zero => exact Nat.two_pow_pos 32
  | succ n =>
    apply h
    rw [infoQueue_files crc32 (by omega), hn, Nat.add_sub_cancel]

/-- The part that a producer opens comes after those that are there. -/
theorem openRW_files {l : Log} (h : l.parts < 2 ^ 32) :
    Producer.openRW (l.files crc32) = (⟨l.parts, 0, 0⟩, ⟨some l.parts,
      Function.update (l.files crc32).parts l.parts
        (some (((l.files crc32).parts l.parts).getD ⟨[], none⟩))⟩) := by
  cases hn : l.parts with
  | zero =>
    have hinfo : (l.files crc32).infoQueue = none := if_pos hn
    simp only [Producer.openRW, hinfo]
  | succ n =>
    have hinfo : (l.files crc32).infoQueue = some n := by
      rw [infoQueue_files crc32 (by omega), hn, Nat.add_sub_cancel]
    simp only [Producer.openRW, hinfo, Nat.mod_eq_of_lt (hn ▸ h)]

theorem source_restart {l : Log} (hl : l.WF) (h : l.parts < 2 ^ 32) :
    Source.step crc32 .restart (l.source crc32) = l.restart.source crc32 := by
  obtain ⟨happ, hcount⟩ := hl.absent l.parts (Nat.le_refl _)
  have hpart : ((l.files crc32).parts l.parts).getD ⟨[], none⟩ = l.part crc32 l.parts := by
    rw [files_parts_of_le crc32 (Nat.le_refl _), part, happ, hcount]
    rfl
  have hparts : Function.update (l.files crc32).parts l.parts (some (l.part crc32 l.parts)) =
      (l.restart.files crc32).parts := by
    funext p
    by_cases hp : p = l.parts
    · subst hp
      rw [Function.update_self]
      exact (if_pos (Nat.lt_succ_self _)).symm
    · have hiff : p < l.parts + 1 ↔ p < l.parts := by omega
      rw [Function.update_of_ne hp]
      simp only [files, restart, hiff]
      rfl
  have hproducer : l.restart.producer = some ⟨l.parts, 0, 0⟩ := by
    rw [producer_of_pos (Nat.succ_pos _)]
    simp [restart, happ]
  simp only [Source.step, source, openRW_files crc32 h, hpart, hparts, hproducer]
  rfl

/-- A change of the last part. -/
theorem modifyPart_files {l : Log} (l' : Log) {f : Part → Part} (hparts : 0 < l.parts)
    (hl' : l'.parts = l.parts) (hf : f (l.part crc32 (l.parts - 1)) = l'.part crc32 (l.parts - 1))
    (hother : ∀ p ≠ l.parts - 1, l.part crc32 p = l'.part crc32 p) :
    (l.files crc32).modifyPart (l.parts - 1) f = l'.files crc32 := by
  have hupdate : Function.update (l.files crc32).parts (l.parts - 1)
      (((l.files crc32).parts (l.parts - 1)).map f) = (l'.files crc32).parts := by
    funext p
    by_cases hp : p = l.parts - 1
    · subst hp
      rw [Function.update_self, files_parts_of_lt crc32 (by omega),
        files_parts_of_lt crc32 (by omega), Option.map_some, hf]
    · rw [Function.update_of_ne hp]
      simp only [files, hl', hother p hp]
  rw [Files.modifyPart, hupdate]
  simp only [files, hl']

theorem part_append {l : Log} (hl : l.WF) (m : Message) :
    (l.append m).part crc32 (l.parts - 1) =
      { l.part crc32 (l.parts - 1) with
        queue := (l.part crc32 (l.parts - 1)).queue ++ m.record crc32
          (size (l.appended (l.parts - 1))) (l.appended (l.parts - 1)).length } := by
  have hqueue : records crc32 0 0 (l.appended (l.parts - 1) ++ [m]) =
      records crc32 0 0 (l.appended (l.parts - 1)) ++ m.record crc32
        (size (l.appended (l.parts - 1))) (l.appended (l.parts - 1)).length := by
    rw [records_append, records, records, List.append_nil, Nat.zero_add, Nat.zero_add]
  have hinfo : (l.counted (l.parts - 1)).map (infoPush (l.appended (l.parts - 1) ++ [m])) =
      (l.counted (l.parts - 1)).map (infoPush (l.appended (l.parts - 1))) := by
    apply Option.map_congr
    intro k hk
    have hle := hl.counted (l.parts - 1) k hk
    rw [infoPush, infoPush, List.take_append_of_le_length hle]
  simp only [part, append, Function.update_self, hqueue, hinfo]

theorem source_append {l : Log} (hl : l.WF) (m : Message) (hparts : 0 < l.parts) :
    Source.step crc32 (.append m.body m.type) (l.source crc32) = (l.append m).source crc32 := by
  have hfiles := modifyPart_files crc32 (l.append m) (f := fun part => { part with
    queue := part.queue ++ m.record crc32 (size (l.appended (l.parts - 1)))
      (l.appended (l.parts - 1)).length }) hparts rfl (part_append crc32 hl m).symm
    (fun p hp => by simp [part, append, hp])
  have hproducer : (l.append m).producer = some ⟨l.parts - 1,
      BitVec.ofNat 32 ((l.appended (l.parts - 1)).length + 1),
      BitVec.ofNat 64 (size (l.appended (l.parts - 1)) + m.size)⟩ := by
    rw [producer_of_pos (l := l.append m) hparts]
    simp [append]
  have hcount : BitVec.ofNat 32 (l.appended (l.parts - 1)).length + 1 =
      BitVec.ofNat 32 ((l.appended (l.parts - 1)).length + 1) := (BitVec.ofNat_add _ _).symm
  have hne : m.body.length ≠ 0 := fun h => m.nonempty (List.length_eq_zero_iff.mp h)
  have hedge := BitVec.ofNat_add (n := 64) (size (l.appended (l.parts - 1))) m.size
  simp only [Source.step, source, producer_of_pos hparts, Producer.append, Producer.putMsg,
    if_neg hne, if_neg (Nat.not_lt.mpr m.short), hcount, hproducer, hedge, ← hfiles,
    length_record]
  rfl

theorem source_putInfoPush {l : Log} (hparts : 0 < l.parts) :
    Source.step crc32 .putInfoPush (l.source crc32) = l.putInfoPush.source crc32 := by
  have hinfo : infoPush (l.appended (l.parts - 1)) (l.appended (l.parts - 1)).length =
      ⟨BitVec.ofNat 64 (size (l.appended (l.parts - 1))),
        BitVec.ofNat 32 (l.appended (l.parts - 1)).length⟩ := by
    rw [infoPush, List.take_length]
  have hfiles := modifyPart_files crc32 l.putInfoPush (f := fun part => { part with
    infoPush := some ⟨BitVec.ofNat 64 (size (l.appended (l.parts - 1))),
      BitVec.ofNat 32 (l.appended (l.parts - 1)).length⟩ }) hparts rfl
    (by simp [part, putInfoPush, hinfo]) (fun p hp => by simp [part, putInfoPush, hp])
  simp only [Source.step, source, producer_of_pos hparts, Producer.putInfoPush, hfiles]
  rw [producer_of_pos (l := l.putInfoPush) hparts]
  rfl

end

end Log

end Veda.Queue
