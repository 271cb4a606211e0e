import Mathlib.Data.List.Induction
import Veda.Queue.Log

/-! # The counters of a part

What `_info_push` says of the records in the file of a part, after the queue was opened and
messages were pushed. -/

namespace Veda.Queue

/-! ## The records of a file -/

/-- The records that a file consists of. -/
def readRecords : Nat → Bytes → Option (List (Header × Bytes))
  | _, [] => some []
  | 0, _ :: _ => none
  | n + 1, file =>
    let header := Header.fromBuff (file.take headerLength)
    let body := (file.drop headerLength).take header.msgLength.toNat
    if file.length < headerLength + header.msgLength.toNat then none
    else (readRecords n (file.drop (headerLength + header.msgLength.toNat))).map
      ((header, body) :: ·)

/-- Every header has the position of its record and its number. -/
def Numbered : Nat → Nat → List (Header × Bytes) → Prop
  | _, _, [] => True
  | pos, k, (header, body) :: rs =>
    header.startPos.toNat = pos ∧ header.countPushed.toNat = k ∧
      Numbered (pos + headerLength + body.length) (k + 1) rs

/-- `_info_push` counts the records of the part and has its length. An empty file stands for
zeros. -/
structure Matches (part : Part) : Prop where
  records : ∃ rs, readRecords part.queue.length part.queue = some rs ∧
    (part.infoPush.getD ⟨0, 0⟩).countPushed.toNat = rs.length ∧ Numbered 0 1 rs
  rightEdge : (part.infoPush.getD ⟨0, 0⟩).rightEdge.toNat = part.queue.length

section
variable (crc32 : Bytes → BitVec 32)

/-- The records of messages as they are read. -/
def entries (pos n : Nat) : List Message → List (Header × Bytes)
  | [] => []
  | m :: ms => (readHeader crc32 (BitVec.ofNat 64 pos) (BitVec.ofNat 32 (n + 1)) m.type.code m.body,
      m.body) :: entries (pos + m.size) (n + 1) ms

@[simp] theorem length_entries (pos n : Nat) (ms : List Message) :
    (entries crc32 pos n ms).length = ms.length := by
  induction ms generalizing pos n with
  | nil => rfl
  | cons m ms ih => rw [entries, List.length_cons, ih, List.length_cons]

theorem numbered_entries (pos n : Nat) (ms : List Message) (hn : n + ms.length < 2 ^ 32)
    (hpos : pos + size ms < 2 ^ 64) : Numbered pos (n + 1) (entries crc32 pos n ms) := by
  induction ms generalizing pos n with
  | nil => trivial
  | cons m ms ih =>
    rw [List.length_cons] at hn
    rw [size_cons] at hpos
    refine ⟨?_, ?_, ?_⟩
    · exact Nat.mod_eq_of_lt (by omega)
    · exact Nat.mod_eq_of_lt (by omega)
    · rw [Nat.add_assoc pos headerLength]
      exact ih (pos + m.size) (n + 1) (by omega) (by omega)

theorem toNat_msgLength (m : Message) (pos : BitVec 64) (count : BitVec 32) :
    (readHeader crc32 pos count m.type.code m.body).msgLength.toNat = m.body.length := by
  have h := m.short
  exact Nat.mod_eq_of_lt (by omega)

/-- A record is read at the beginning of a file. -/
theorem fromBuff_record (m : Message) (pos n : Nat) (rest : Bytes) :
    Header.fromBuff ((m.record crc32 pos n ++ rest).take headerLength) =
      readHeader crc32 (BitVec.ofNat 64 pos) (BitVec.ofNat 32 (n + 1)) m.type.code m.body := by
  have h := HeaderBuff.fromBuff_read_record crc32 (BitVec.ofNat 64 pos) (BitVec.ofNat 32 (n + 1))
    m.type.code m.body .init rest
  rw [HeaderBuff.read_record] at h
  rw [Message.record, take_record]
  exact h

theorem readRecords_succ (n : Nat) {file : Bytes} (h : file ≠ []) :
    readRecords (n + 1) file =
      if file.length < headerLength +
          (Header.fromBuff (file.take headerLength)).msgLength.toNat then none
      else (readRecords n (file.drop (headerLength +
        (Header.fromBuff (file.take headerLength)).msgLength.toNat))).map
          ((Header.fromBuff (file.take headerLength), (file.drop headerLength).take
            (Header.fromBuff (file.take headerLength)).msgLength.toNat) :: ·) := by
  cases file with
  | nil => exact absurd rfl h
  | cons byte file => rfl

theorem readRecords_records (pos n : Nat) (ms : List Message) {fuel : Nat}
    (hfuel : size ms ≤ fuel) :
    readRecords fuel (records crc32 pos n ms) = some (entries crc32 pos n ms) := by
  induction ms generalizing pos n fuel with
  | nil => cases fuel <;> rfl
  | cons m ms ih =>
    rw [size_cons, Message.size, headerLength] at hfuel
    obtain ⟨fuel, rfl⟩ : ∃ k, fuel = k + 1 := ⟨fuel - 1, by omega⟩
    have hlength := m.length_record crc32 pos n
    have hne : m.record crc32 pos n ++ records crc32 (pos + m.size) (n + 1) ms ≠ [] := fun hnil => by
      rw [(List.append_eq_nil_iff.1 hnil).1, List.length_nil, Message.size, headerLength] at hlength
      omega
    have hbody : (m.record crc32 pos n ++ records crc32 (pos + m.size) (n + 1) ms).drop
        headerLength = m.body ++ records crc32 (pos + m.size) (n + 1) ms :=
      drop_record ..
    rw [records, readRecords_succ fuel hne, fromBuff_record, toNat_msgLength, if_neg, hbody,
      List.take_left, List.drop_left' (by rw [hlength, Message.size]),
      ih (pos + m.size) (n + 1) (by omega)]
    · rfl
    · rw [List.length_append, hlength, Message.size]
      omega

/-! ## Pushes -/

/-- A message that `put_msg` does not refuse. -/
def Storable (msg : Bytes) : Prop := msg.length ≠ 0 ∧ msg.length ≤ 0xFFFFFFFF / 2

instance (msg : Bytes) : Decidable (Storable msg) := inferInstanceAs (Decidable (_ ∧ _))

/-- `Queue.open`, and a sequence of calls of `push`. -/
def pushes (files : Files) (msgs : List (Bytes × QMessageType)) : Producer × Files :=
  msgs.foldl (fun s msg => Producer.push crc32 msg.1 msg.2 s.1 s.2) (Producer.openRW files)

/-- The part that the producer writes to. -/
def currentPart (s : Producer × Files) : Part := (s.2.parts s.1.id).getD ⟨[], none⟩

/-- The messages were pushed to the part that had been opened as `base`. -/
structure Pushed (base : Part) (ms : List Message) (s : Producer × Files) : Prop where
  countPushed : s.1.countPushed = BitVec.ofNat 32 ms.length
  rightEdge : s.1.rightEdge = BitVec.ofNat 64 (size ms)
  part : s.2.parts s.1.id = some ⟨base.queue ++ records crc32 0 0 ms,
    if ms = [] then base.infoPush else some ⟨s.1.rightEdge, s.1.countPushed⟩⟩

theorem pushed_open (files : Files) :
    Pushed crc32 (currentPart (Producer.openRW files)) [] (Producer.openRW files) := by
  have hpart : ∃ part, (Producer.openRW files).2.parts (Producer.openRW files).1.id = some part :=
    ⟨_, Function.update_self ..⟩
  obtain ⟨part, hpart⟩ := hpart
  refine ⟨rfl, rfl, ?_⟩
  rw [currentPart, hpart, records, List.append_nil]
  rfl

variable {crc32} {base : Part} {ms : List Message} {s : Producer × Files}

theorem modifyPart_self {files : Files} {id : Nat} {part : Part} (h : files.parts id = some part)
    (f : Part → Part) : (files.modifyPart id f).parts id = some (f part) := by
  simp [Files.modifyPart, h]

/-- A message that is not refused is appended and counted. -/
theorem Pushed.push (h : Pushed crc32 base ms s) (m : Message) :
    Pushed crc32 base (ms ++ [m]) (Producer.push crc32 m.body m.type s.1 s.2) := by
  obtain ⟨hcount, hedge, hpart⟩ := h
  have hne : m.body.length ≠ 0 := fun hnil => m.nonempty (List.length_eq_zero_iff.1 hnil)
  have hcount' : s.1.countPushed + 1 = BitVec.ofNat 32 (ms.length + 1) := by
    rw [hcount]
    exact (BitVec.ofNat_add _ _).symm
  have hrecord : Queue.record crc32 s.1.rightEdge (s.1.countPushed + 1) m.type.code m.body =
      m.record crc32 (size ms) ms.length := by
    rw [hcount', hedge]
    rfl
  have hrecords : records crc32 0 0 (ms ++ [m]) =
      records crc32 0 0 ms ++ m.record crc32 (size ms) ms.length := by
    rw [records_append, records, records, List.append_nil, Nat.zero_add, Nat.zero_add]
  simp only [Producer.push, Producer.append, Producer.putMsg, if_neg hne,
    if_neg (Nat.not_lt.2 m.short), Producer.putInfoPush, hrecord, m.length_record]
  refine ⟨?_, ?_, ?_⟩
  · simpa using hcount'
  · rw [hedge, size_append, size_cons, size_nil, Nat.add_zero]
    exact (BitVec.ofNat_add _ _).symm
  · dsimp only
    have hnil : ms ++ [m] ≠ [] := by simp
    rw [modifyPart_self (modifyPart_self hpart _), if_neg hnil, hrecords, List.append_assoc]

/-- A message that is refused is only counted. -/
theorem Pushed.refused (h : Pushed crc32 base ms s) {msg : Bytes} (hmsg : ¬ Storable msg)
    (type : QMessageType) :
    currentPart (Producer.push crc32 msg type s.1 s.2) =
      ⟨base.queue ++ records crc32 0 0 ms,
        some ⟨BitVec.ofNat 64 (size ms), BitVec.ofNat 32 (ms.length + 1)⟩⟩ := by
  obtain ⟨hcount, hedge, hpart⟩ := h
  have hput : Producer.append crc32 msg type s.1 s.2 =
      ({ s.1 with countPushed := s.1.countPushed + 1 }, s.2) := by
    unfold Producer.append Producer.putMsg
    split
    · rfl
    · rename_i hne
      rw [if_pos (by_contra fun hshort => hmsg ⟨hne, by omega⟩)]
  simp only [Producer.push, hput, Producer.putInfoPush, currentPart, modifyPart_self hpart,
    Option.getD_some, hcount, hedge]
  rw [BitVec.ofNat_add]
  rfl

theorem pushes_append (files : Files) (msgs : List (Bytes × QMessageType))
    (msg : Bytes × QMessageType) :
    pushes crc32 files (msgs ++ [msg]) =
      Producer.push crc32 msg.1 msg.2 (pushes crc32 files msgs).1 (pushes crc32 files msgs).2 :=
  List.foldl_append ..

/-- After messages none of which is refused. -/
theorem pushed_pushes (files : Files) {msgs : List (Bytes × QMessageType)}
    (h : ∀ msg ∈ msgs, Storable msg.1) :
    ∃ ms, ms.length = msgs.length ∧
      Pushed crc32 (currentPart (Producer.openRW files)) ms (pushes crc32 files msgs) := by
  induction msgs using List.reverseRecOn with
  | nil => exact ⟨[], rfl, pushed_open crc32 files⟩
  | append_singleton msgs msg ih =>
    obtain ⟨ms, hlength, hpushed⟩ := ih fun m hm => h m (by simp [hm])
    obtain ⟨hne, hshort⟩ := h msg (by simp)
    have hnonempty : msg.1 ≠ [] := fun hnil => hne (by rw [hnil]; rfl)
    refine ⟨ms ++ [⟨msg.2, msg.1, hnonempty, hshort⟩], by simp [hlength], ?_⟩
    rw [pushes_append]
    exact hpushed.push _

theorem Pushed.currentPart_eq (h : Pushed crc32 base ms s) (hnil : ms ≠ []) :
    currentPart s = ⟨base.queue ++ records crc32 0 0 ms,
      some ⟨BitVec.ofNat 64 (size ms), BitVec.ofNat 32 ms.length⟩⟩ := by
  rw [currentPart, h.part, if_neg hnil, h.rightEdge, h.countPushed]
  rfl

/-- What matches is a part that was empty, with the right count. -/
theorem Matches.of_records {count : BitVec 32}
    (h : Matches ⟨base.queue ++ Queue.records crc32 0 0 ms,
      some ⟨BitVec.ofNat 64 (size ms), count⟩⟩) :
    base.queue = [] ∧ count.toNat = ms.length := by
  have hedge := h.rightEdge
  simp only [Option.getD_some, BitVec.toNat_ofNat, List.length_append, length_records] at hedge
  have hle := Nat.mod_le (size ms) (2 ^ 64)
  have hnil : base.queue = [] := List.length_eq_zero_iff.1 (by omega)
  obtain ⟨rs, hrs, hcount, -⟩ := h.records
  simp only [hnil, List.nil_append, length_records] at hrs
  rw [readRecords_records crc32 0 0 ms (le_refl _)] at hrs
  cases hrs
  exact ⟨hnil, by simpa using hcount⟩

theorem matches_records (hlength : ms.length < 2 ^ 32) :
    Matches ⟨records crc32 0 0 ms, some ⟨BitVec.ofNat 64 (size ms), BitVec.ofNat 32 ms.length⟩⟩ := by
  have hsize := size_take_lt ms ms.length hlength
  rw [List.take_length] at hsize
  refine ⟨⟨entries crc32 0 0 ms, ?_, ?_, ?_⟩, ?_⟩
  · exact readRecords_records crc32 0 0 ms (by rw [length_records])
  · simpa using hlength
  · exact numbered_entries crc32 0 0 ms (by omega) (by omega)
  · simpa using hsize

/-- **The counters match the file after every push** exactly if the part was empty or is left as it
was, no message is refused, and the counter does not overflow. -/
theorem matches_pushes_iff (crc32 : Bytes → BitVec 32) (files : Files)
    (msgs : List (Bytes × QMessageType)) :
    (∀ done, done <+: msgs → Matches (currentPart (pushes crc32 files done))) ↔
      Matches (currentPart (Producer.openRW files)) ∧
        (msgs ≠ [] → (currentPart (Producer.openRW files)).queue = []) ∧
        (∀ msg ∈ msgs, Storable msg.1) ∧ msgs.length < 2 ^ 32 := by
  constructor
  · intro h
    induction msgs using List.reverseRecOn with
    | nil => exact ⟨h [] (List.prefix_refl _), by simp, by simp, by simp⟩
    | append_singleton msgs msg ih =>
      obtain ⟨hbase, -, hstorable, hlength⟩ := ih fun done hdone =>
        h done (hdone.trans (List.prefix_append _ _))
      have hlast := h (msgs ++ [msg]) (List.prefix_refl _)
      obtain ⟨ms, hms, hpushed⟩ := @pushed_pushes crc32 files msgs hstorable
      rw [pushes_append] at hlast
      by_cases hmsg : Storable msg.1
      · have hnonempty : msg.1 ≠ [] := fun hnil => hmsg.1 (by rw [hnil]; rfl)
        have hnext := hpushed.push ⟨msg.2, msg.1, hnonempty, hmsg.2⟩
        rw [hnext.currentPart_eq (by simp)] at hlast
        obtain ⟨hempty, hcount⟩ := hlast.of_records
        refine ⟨hbase, fun _ => hempty, ?_, ?_⟩
        · intro other hother
          obtain hother | hother := List.mem_append.1 hother
          · exact hstorable other hother
          · rw [List.mem_singleton.1 hother]
            exact hmsg
        · simp only [List.length_append, List.length_singleton, BitVec.toNat_ofNat] at hcount ⊢
          have hlt := Nat.mod_lt (ms.length + 1) (Nat.two_pow_pos 32)
          omega
      · -- the counter moves without a record
        rw [hpushed.refused hmsg] at hlast
        obtain ⟨-, hcount⟩ := hlast.of_records
        rw [BitVec.toNat_ofNat] at hcount
        omega
  · rintro ⟨hbase, hempty, hstorable, hlength⟩ done hdone
    obtain ⟨ms, hms, hpushed⟩ := @pushed_pushes crc32 files done fun msg hmsg =>
      hstorable msg (hdone.subset hmsg)
    have hle := hdone.length_le
    by_cases hnil : ms = []
    · obtain rfl : done = [] := by simpa [hnil] using hms.symm
      exact hbase
    · have hmsgs : msgs ≠ [] := fun hmsgs => hnil (List.length_eq_zero_iff.1 (by
        rw [hmsgs, List.length_nil] at hle
        omega))
      rw [hpushed.currentPart_eq hnil, hempty hmsgs]
      exact matches_records (by omega)

end

/-- An empty message is counted and not written. -/
theorem not_matches_empty :
    ¬ Matches (currentPart (pushes crc32Ieee .empty [([], .string)])) := by
  intro h
  have hpart : currentPart (pushes crc32Ieee .empty [([], .string)]) = ⟨[], some ⟨0, 1⟩⟩ := rfl
  rw [hpart] at h
  obtain ⟨rs, hrs, hcount, -⟩ := h.records
  cases hrs
  exact absurd hcount (by decide)

end Veda.Queue
