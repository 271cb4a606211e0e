import Veda.Queue.InfoMatch
import Veda.Queue.VPartSwitch

/-! # The records that `subscribe_manager` takes

The loop of `subscribe_manager` in `veda-ccus/src/main.rs` as a program that works through
`individuals-flow`, with `msgpack2individual` of `v-onto`. A record that `msgpack2individual`
rejects is skipped after `pop_body` has moved the position and before `commit_and_next` would have
counted it.

The fields that the loop reads of a record, after it was accepted, do not touch the consumer. -/

namespace Veda.Ccus.QueueReader

open Veda.LittleEndian Veda.Queue Veda.Run

/-! ## `msgpack2individual` -/

/-- An integer of `n` bytes, the high ones first, and the bytes after it. -/
def readNumber (n : Nat) (bytes : Bytes) : Option (Nat × Bytes) :=
  if bytes.length < n then none else some (decode (bytes.take n).reverse, bytes.drop n)

/-- The bytes of a string of a given length, and the bytes after it. -/
def readData (size : Nat) (bytes : Bytes) : Option (Bytes × Bytes) :=
  if bytes.length < size then none else some (bytes.take size, bytes.drop size)

/-- `read_string_from_msgpack`. A string that is not UTF-8 is read as well. -/
def readString : Bytes → Option (Bytes × Bytes)
  | [] => none
  | marker :: bytes =>
    if 0xa0 ≤ marker ∧ marker ≤ 0xbf then readData (marker.toNat - 0xa0) bytes
    else if marker = 0xda then (readNumber 2 bytes).bind fun (size, bytes) => readData size bytes
    else if marker = 0xdb then (readNumber 4 bytes).bind fun (size, bytes) => readData size bytes
    else if marker = 0xc0 then some ([], bytes)
    else none

/-- `read_map_len`. -/
def readMapLen : Bytes → Option (Nat × Bytes)
  | [] => none
  | marker :: bytes =>
    if 0x80 ≤ marker ∧ marker ≤ 0x8f then some (marker.toNat - 0x80, bytes)
    else if marker = 0xde then readNumber 2 bytes
    else if marker = 0xdf then readNumber 4 bytes
    else none

/-- What `msgpack2individual` sets in an `Individual`. -/
structure Parsed where
  uri : Bytes
  lenPredicates : Nat
  cur : Nat
  deriving DecidableEq

/-- `msgpack2individual`. The magic header is the marker of an array of two. -/
def msgpack2individual : Bytes → Option Parsed
  | [] => none
  | msgType :: bytes =>
    if msgType ≠ 146 then none
    else (readString bytes).bind fun (uri, rest) => (readMapLen rest).map fun (size, rest) =>
      ⟨uri, size, bytes.length + 1 - rest.length⟩

/-! ## The loop -/

/-- How a turn of the loop ends. -/
inductive Outcome where
  | noHeader
  | noBody
  | rejected
  | taken (body : Bytes)
  deriving DecidableEq

/-- A turn of the loop, from `pop_header` on. -/
def iterate (crc32 : Bytes → BitVec 32) (files : Files) (c : VQueue.Consumer) :
    Outcome × VQueue.Consumer :=
  let (ok, c) := c.popHeader files files files
  if !ok then (.noHeader, c)
  else
    let (ok, msg, c) := c.popBody crc32 files files c.header.msgLength.toNat
    if !ok then (.noBody, c)
    else if (msgpack2individual msg).isNone then (.rejected, c)
    else (.taken msg, c.commitAndNext.2)

/-- The queue, its reader, and whether the last turn found no header. -/
structure World where
  source : Source
  consumer : Option VQueue.Consumer
  exhausted : Bool

def World.init : World := ⟨.empty, none, false⟩

inductive Event where
  /-- A new queue object is opened in the mode `RW`. -/
  | restart
  | push (m : Message)
  | turn

def World.step (crc32 : Bytes → BitVec 32) : Event → World → World
  | .restart, w => { w with source := w.source.step crc32 .restart, exhausted := false }
  | .push m, w =>
    { w with
      source := (w.source.step crc32 (.append m.body m.type)).step crc32 .putInfoPush
      exhausted := false }
  | .turn, w =>
    match w.consumer with
    | none =>
      if (w.source.files.parts 0).isSome then
        { w with consumer := some (.new w.source.files), exhausted := false }
      else w
    | some c =>
      let (outcome, c) := iterate crc32 w.source.files c
      { w with consumer := some c, exhausted := outcome = .noHeader }

/-- The records of a part. -/
def World.fileOf (w : World) (part : Nat) : Bytes := (w.source.files.queueOf part).getD []

/-- The number of records that make up the first `pos` bytes of a file. -/
def recordsBefore (file : Bytes) (pos : Nat) : Option Nat :=
  (readRecords pos (file.take pos)).map List.length

/-- `count_popped` is the number of records before `pos_record`, and a part in which there is no
header has no record after it. Nor is there a next part then, unless this one is empty. -/
structure Keeps (w : World) : Prop where
  counted : ∀ c, w.consumer = some c →
    recordsBefore (w.fileOf c.id) c.posRecord = some c.countPopped
  exhausted : w.exhausted = true → ∀ c, w.consumer = some c →
    c.posRecord = (w.fileOf c.id).length ∧
      ((w.source.files.parts (c.id + 1)).isSome → w.fileOf c.id = [])

/-- No counter overflows. -/
def Fits : Event → World → Prop
  | .restart, w => ∀ id, w.source.files.infoQueue = some id → id + 1 < 2 ^ 32
  | .push _, w => ∀ q, w.source.producer = some q → q.countPushed.toNat + 1 < 2 ^ 32
  | .turn, _ => True

/-- The body of the record at a position of a file. -/
def bodyAt (file : Bytes) (pos : Nat) : Option Bytes :=
  if file.length ≤ pos then none
  else
    let header := Header.fromBuff ((file.drop pos).take headerLength)
    some (((file.drop pos).drop headerLength).take header.msgLength.toNat)

/-- The body of the next record: in the part of the consumer or, at its end, in the next part. -/
def World.upcoming (w : World) : Option Bytes :=
  match w.consumer with
  | none => none
  | some c => (bodyAt (w.fileOf c.id) c.posRecord).or (bodyAt (w.fileOf (c.id + 1)) 0)

/-- The record that a turn comes to is accepted by `msgpack2individual`. -/
def Accepts : Event → World → Prop
  | .turn, w => ∀ body, w.upcoming = some body → (msgpack2individual body).isSome
  | _, _ => True

/-! ## What the steps of the consumer keep -/

section
variable {crc32 : Bytes → BitVec 32} {l l' : Log} {p k : Nat} {c c' : VQueue.Consumer}
  {q : VQueue.Queue}

/-- What is known of `_info_push` is not more than what is in the file. -/
def Bounded (l : Log) (q : VQueue.Queue) : Prop :=
  q.countPushed ≤ (l.appended q.ffInfoPushW).length

theorem Bounded.mono (h : Bounded l q) (hle : l.Le l') : Bounded l' q :=
  Nat.le_trans h (hle.appended _).length_le

theorem bounded_readInfoPush (hl : l.WF) (q : VQueue.Queue) :
    Bounded l (q.readInfoPush (l.files crc32)) := by
  rw [Bounded, VQueue.Queue.ffInfoPushW_readInfoPush]
  rcases Nat.lt_or_ge q.ffInfoPushW l.parts with hlt | hge
  · rw [PartSwitch.countPushed_readInfoPush crc32 hl hlt rfl]
    exact hl.count_le _
  · rw [VQueue.Queue.readInfoPush, Log.files_parts_of_le crc32 hge]
    exact Nat.zero_le _

theorem Bounded.getInfoOfPart (hl : l.WF) (h : Bounded l q) (part : Nat) :
    Bounded l (q.getInfoOfPart (l.files crc32) part).2 := by
  rw [VQueue.Queue.getInfoOfPart]
  split
  · split
    · exact bounded_readInfoPush hl _
    · exact h
  · exact bounded_readInfoPush hl _

theorem Bounded.openPart (hl : l.WF) (h : Bounded l q) (part : Nat) :
    Bounded l (q.openPart (l.files crc32) part).2 := by
  rw [VQueue.Queue.openPart]
  split
  · exact h
  · split
    · rw [VQueue.Queue.getInfoOfPart, if_neg (not_not_intro rfl)]
      exact bounded_readInfoPush hl _
    · exact h

variable (crc32) in
theorem Bounded.headerInfo (hl : l.WF) (h : Bounded l c.queue) :
    Bounded l (c.headerInfo (l.files crc32)).2.queue := by
  rw [VQueue.Consumer.headerInfo]
  split
  · exact h.getInfoOfPart hl _
  · exact h

variable (crc32) in
theorem Bounded.headerPart (hl : l.WF) (h : Bounded l c.queue) :
    Bounded l (c.headerPart (l.files crc32)).2.queue := by
  have hinfo : Bounded l (if c.queue.id = c.id then
      { c with queue := c.queue.getInfoQueue (l.files crc32) } else c).queue := by
    split
    · exact h
    · exact h
  rw [VQueue.Consumer.headerPart]
  generalize (if c.queue.id = c.id then
    { c with queue := c.queue.getInfoQueue (l.files crc32) } else c) = c₁ at hinfo ⊢
  split
  · dsimp only
    split
    · split
      · exact (hinfo.getInfoOfPart hl _).openPart hl _
      · exact hinfo.getInfoOfPart hl _
    · exact hinfo
  · exact h

theorem posRecord_headerInfo (files : Files) (c : VQueue.Consumer) :
    (c.headerInfo files).2.posRecord = c.posRecord := by
  rw [VQueue.Consumer.headerInfo]
  split
  · rfl
  · rfl

theorem posRecord_headerPart (files : Files) (c : VQueue.Consumer) :
    (c.headerPart files).2.id = c.id ∧ (c.headerPart files).2.posRecord = c.posRecord ∨
      (c.headerPart files).2.id = c.id + 1 ∧
        ((c.headerPart files).1 = true → (c.headerPart files).2.posRecord = 0) := by
  have hinfo : (if c.queue.id = c.id then { c with queue := c.queue.getInfoQueue files }
      else c).id = c.id ∧ (if c.queue.id = c.id then
        { c with queue := c.queue.getInfoQueue files } else c).posRecord = c.posRecord := by
    split
    · exact ⟨rfl, rfl⟩
    · exact ⟨rfl, rfl⟩
  rw [VQueue.Consumer.headerPart]
  generalize (if c.queue.id = c.id then { c with queue := c.queue.getInfoQueue files } else c) = c₁
    at hinfo ⊢
  split
  · dsimp only
    split
    · split
      · exact .inr ⟨congrArg (· + 1) hinfo.1, fun _ => rfl⟩
      · exact .inr ⟨congrArg (· + 1) hinfo.1, fun h => absurd h (by simp)⟩
    · exact .inl hinfo
  · exact .inl ⟨rfl, rfl⟩

/-- The part is left when there is another one. -/
theorem id_headerPart {files : Files} (hge : c.countPopped ≥ c.queue.countPushed)
    (hid : c.id ≤ c.queue.id) (hinfo : c.id < (c.queue.getInfoQueue files).id) :
    (c.headerPart files).2.id = c.id + 1 := by
  have hlater : ∃ c₁ : VQueue.Consumer, (if c.queue.id = c.id then
      { c with queue := c.queue.getInfoQueue files } else c) = c₁ ∧ c₁.id = c.id ∧
      c₁.queue.id > c₁.id := by
    refine ⟨_, rfl, ?_⟩
    split
    · exact ⟨rfl, hinfo⟩
    · exact ⟨rfl, by omega⟩
  obtain ⟨c₁, hc₁, hid₁, hgt⟩ := hlater
  simp only [VQueue.Consumer.headerPart, if_pos hge, hc₁, if_pos hgt]
  split
  · exact congrArg (· + 1) hid₁
  · exact congrArg (· + 1) hid₁

theorem headerRead_frame (files : Files) (c : VQueue.Consumer) :
    (c.headerRead files).2.queue.countPushed = c.queue.countPushed ∧
      (c.headerRead files).2.posRecord = c.posRecord := by
  have hqueue : (c.queue.read files headerLength).2.countPushed = c.queue.countPushed := rfl
  rw [VQueue.Consumer.headerRead]
  generalize c.queue.read files headerLength = buff at hqueue ⊢
  dsimp only
  split
  · exact ⟨hqueue, rfl⟩
  · exact ⟨hqueue, rfl⟩

variable (crc32) in
/-- A body that is read at once moves the position. -/
theorem popBody_frame {files₁ : Files} (files₂ : Files) {n : Nat}
    (hlength : (c.queue.read files₁ n).1.length = n) (hready : c.isReady = true) :
    (c.popBody crc32 files₁ files₂ n).2.2.queue.countPushed = c.queue.countPushed ∧
      (c.popBody crc32 files₁ files₂ n).2.2.posRecord = c.posRecord + headerLength + n := by
  simp only [VQueue.Consumer.popBody, hready, Bool.not_true, Bool.false_eq_true, if_false, hlength,
    ne_eq, not_true_eq_false, VQueue.Consumer.checkBody]
  constructor
  · split
    · rfl
    · rfl
  · split
    · rfl
    · rfl

theorem posRecord_commitAndNext (c : VQueue.Consumer) :
    c.commitAndNext.2.posRecord = c.posRecord := by
  rw [VQueue.Consumer.commitAndNext]
  split
  · rfl
  · rfl

end

/-! ## The invariant -/

section
variable {crc32 : Bytes → BitVec 32} {l l' : Log} {p k : Nat} {c c' : VQueue.Consumer} {w : World}

/-- All the messages are counted. -/
structure Counted (l : Log) : Prop where
  wf : l.WF
  count : ∀ p, l.count p = (l.appended p).length

/-- The consumer stands before a message, with the counters and the position of it. -/
structure Stand (l : Log) (p k : Nat) (c : VQueue.Consumer) : Prop where
  place : PartSwitch.Place l p k c
  here : c.At (l.appended p) k
  posRecord : c.posRecord = size ((l.appended p).take k)
  bounded : Bounded l c.queue

theorem Stand.mono (h : Stand l p k c) (hle : l.Le l') : Stand l' p k c where
  place := h.place.mono hle
  here := h.here.mono (hle.appended p)
  posRecord := by rw [h.posRecord, hle.take h.here.le]
  bounded := h.bounded.mono hle

/-- The next message of a part or, at its end, the first of the next part. -/
def nextMessage (l : Log) (p k : Nat) : Option Message :=
  (l.appended p)[k]?.or (l.appended (p + 1))[0]?

/-- What `pop_header` does before it reads. -/
theorem Stand.switch (h : Stand l p k c) (crc32 : Bytes → BitVec 32) (hl : Counted l) :
    ∃ p' k' c₁ c', c.headerInfo (l.files crc32) = (true, c₁) ∧
      c₁.headerPart (l.files crc32) = (true, c') ∧ Stand l p' k' c' ∧
      nextMessage l p k = (l.appended p')[k']? ∧
      (k' = (l.appended p').length → p' + 1 < l.parts → l.appended p' = []) := by
  obtain ⟨c₁, hinfo, hplace, hat, hdone⟩ := h.place.headerInfo crc32 hl.wf h.here
  have hpos₁ : c₁.posRecord = c.posRecord := by
    have hpos := posRecord_headerInfo (l.files crc32) c
    rwa [hinfo] at hpos
  have hbounded₁ : Bounded l c₁.queue := by
    have hbounded := h.bounded.headerInfo crc32 hl.wf
    rwa [hinfo] at hbounded
  have hend : c₁.countPopped ≥ c₁.queue.countPushed → k = (l.appended p).length := by
    intro hge
    have hle := hdone hge
    rw [hl.count] at hle
    exact Nat.le_antisymm h.here.le hle
  obtain ⟨c', hpart, hc'⟩ := hplace.headerPart crc32 hat fun hge _ => hend hge
  have hbounded' : Bounded l c'.queue := by
    have hbounded := hbounded₁.headerPart crc32 hl.wf
    rwa [hpart] at hbounded
  have hpos' := posRecord_headerPart (l.files crc32) c₁
  rw [hpart, hplace.id] at hpos'
  dsimp only at hpos'
  obtain ⟨hplace', hat'⟩ | ⟨hk, hplace', hat'⟩ := hc'
  · -- the consumer stays
    have hpos' : c'.posRecord = c₁.posRecord := by
      obtain ⟨-, hpos'⟩ | ⟨hid, -⟩ := hpos'
      · exact hpos'
      · have hid' := hplace'.id
        omega
    have hlast : k = (l.appended p).length → l.parts ≤ p + 1 := by
      intro hk
      by_contra hnext
      have hge : c₁.countPopped ≥ c₁.queue.countPushed := by
        have hbounded := hbounded₁
        rw [Bounded, hplace.ffInfoPushW] at hbounded
        rw [hplace.countPopped, hk]
        exact hbounded
      have hlater : c₁.id < (c₁.queue.getInfoQueue (l.files crc32)).id := by
        rw [VQueue.Queue.getInfoQueue, Log.infoQueue_files crc32 (by omega), hplace.id]
        show p < l.parts - 1
        omega
      have hmoves := id_headerPart hge (hplace.id ▸ hplace.le_queueId) hlater
      rw [hpart, hplace'.id, hplace.id] at hmoves
      omega
    refine ⟨p, k, c₁, c', hinfo, hpart, ⟨hplace', hat', ?_, hbounded'⟩, ?_, ?_⟩
    · rw [hpos', hpos₁, h.posRecord]
    · rcases Nat.lt_or_eq_of_le h.here.le with hlt | heq
      · simp [nextMessage, hlt]
      · have hnone := (hl.wf.absent (p + 1) (hlast heq)).1
        simp [nextMessage, heq, hnone]
    · intro hk hnext
      have hle := hlast hk
      omega
  · -- it goes on to the next part
    have hpos' : c'.posRecord = 0 := by
      obtain ⟨hid, -⟩ | ⟨-, hpos'⟩ := hpos'
      · have hid' := hplace'.id
        omega
      · exact hpos' rfl
    refine ⟨p + 1, 0, c₁, c', hinfo, hpart, ⟨hplace', hat', ?_, hbounded'⟩, ?_, ?_⟩
    · rw [hpos', List.take_zero, size_nil]
    · simp [nextMessage, hk]
    · intro hempty _
      exact List.length_eq_zero_iff.1 hempty.symm

/-- The header of a message is read. -/
theorem Stand.headerRead (h : Stand l p k c) (crc32 : Bytes → BitVec 32)
    (hk : k < (l.appended p).length) :
    ∃ c', c.headerRead (l.files crc32) = (true, c') ∧
      VQueue.Consumer.HeaderRead crc32 (l.appended p) k c' ∧ PartSwitch.Place l p k c' ∧
      c'.posRecord = size ((l.appended p).take k) ∧ Bounded l c'.queue := by
  obtain ⟨c', hread, hheader, hframe⟩ := h.here.headerRead hk (l.files crc32) (by
    rw [VQueue.Consumer.visible, h.place.ffQueueR, Log.queueOf_files crc32 h.place.lt,
      Option.getD_some, h.here.cursor, take_header crc32 _ k hk])
  obtain ⟨hcount, hpos⟩ := headerRead_frame (l.files crc32) c
  rw [hread] at hcount hpos
  refine ⟨c', hread, hheader, h.place.frame hframe, hpos.trans h.posRecord, ?_⟩
  have hbounded := h.bounded
  rw [Bounded, ← hframe.ffInfoPushW, ← hcount] at hbounded
  exact hbounded

/-- A turn of the loop. -/
theorem Stand.iterate (h : Stand l p k c) (crc32 : Bytes → BitVec 32) (hl : Counted l) :
    ∃ p' k' c', Stand l p' k' c' ∧ nextMessage l p k = (l.appended p')[k']? ∧
      (k' = (l.appended p').length → p' + 1 < l.parts → l.appended p' = []) ∧
      match (l.appended p')[k']? with
      | none => iterate crc32 (l.files crc32) c = (.noHeader, c')
      | some m => ∃ c'' : VQueue.Consumer, c''.id = p' ∧ c''.countPopped = k' ∧
          c''.posRecord = size ((l.appended p').take (k' + 1)) ∧
          if (msgpack2individual m.body).isNone then
            iterate crc32 (l.files crc32) c = (.rejected, c'')
          else ∃ c₃, iterate crc32 (l.files crc32) c = (.taken m.body, c₃) ∧
            Stand l p' (k' + 1) c₃ := by
  obtain ⟨p', k', c₁, c', hinfo, hpart, hstand, hnext, hlast⟩ := h.switch crc32 hl
  have hpop : c.popHeader (l.files crc32) (l.files crc32) (l.files crc32) =
      c'.headerRead (l.files crc32) := by
    simp only [VQueue.Consumer.popHeader, hinfo, hpart, if_true]
  refine ⟨p', k', c', hstand, hnext, hlast, ?_⟩
  rcases Nat.lt_or_eq_of_le hstand.here.le with hk | hk
  · obtain ⟨c₂, hread, hheader, hplace, hpos, hbounded⟩ := hstand.headerRead crc32 hk
    have hsee : (c₂.visible (l.files crc32) c₂.queue.cursor).take
        (l.appended p')[k'].body.length = (l.appended p')[k'].body := by
      rw [VQueue.Consumer.visible, hplace.ffQueueR, Log.queueOf_files crc32 hplace.lt,
        Option.getD_some, hheader.cursor]
      exact take_body crc32 _ k' hk
    obtain ⟨c₃, hbody, hbodyRead, hframe⟩ := hheader.popBody hk (l.files crc32) (l.files crc32) hsee
    have hlength : (c₂.queue.read (l.files crc32) c₂.header.msgLength.toNat).1.length =
        c₂.header.msgLength.toNat := by
      rw [hheader.msgLength hk]
      exact congrArg List.length hsee
    obtain ⟨hcount₃, hpos₃⟩ := popBody_frame crc32 (l.files crc32) hlength hheader.ready
    rw [hbody] at hcount₃ hpos₃
    dsimp only at hcount₃ hpos₃
    rw [hpos, hheader.msgLength hk] at hpos₃
    have hsize : size ((l.appended p').take (k' + 1)) =
        size ((l.appended p').take k') + headerLength + (l.appended p')[k'].body.length := by
      rw [List.take_succ_eq_append_getElem hk, size_append, size_cons, size_nil, Message.size,
        Nat.add_zero, Nat.add_assoc]
    have hplace₃ := hplace.frame hframe
    have hbounded₃ : Bounded l c₃.queue := by
      rw [Bounded, ← hframe.ffInfoPushW, ← hcount₃] at hbounded
      exact hbounded
    rw [List.getElem?_eq_getElem hk]
    refine ⟨c₃, hplace₃.id, hplace₃.countPopped, hpos₃.trans hsize.symm, ?_⟩
    split
    next hreject =>
      simp only [QueueReader.iterate, hpop, hread, hbody, hreject, Bool.not_true, Bool.false_eq_true,
        if_false, if_true]
    next haccept =>
      obtain ⟨c₄, hcommit, hat, hpopped, hqueue, hid⟩ := hbodyRead.commitAndNext
      have hpos₄ := posRecord_commitAndNext c₃
      rw [hcommit] at hpos₄
      refine ⟨c₄, ?_, ⟨?_, hat, hpos₄.trans (hpos₃.trans hsize.symm), ?_⟩⟩
      · simp only [QueueReader.iterate, hpop, hread, hbody, haccept, hcommit, Bool.not_true,
          Bool.false_eq_true, if_false]
      · exact {
          id := hid.trans hplace₃.id
          countPopped := by rw [hpopped, hplace₃.countPopped]
          queueReady := hqueue ▸ hplace₃.queueReady
          ffQueueR := hqueue ▸ hplace₃.ffQueueR
          ffInfoPushW := hqueue ▸ hplace₃.ffInfoPushW
          le_queueId := hqueue ▸ hplace₃.le_queueId
          queueId_lt := hqueue ▸ hplace₃.queueId_lt }
      · rw [Bounded, hqueue]
        exact hbounded₃
  · have hend := VQueue.Consumer.headerRead_end (c := c') (l.files crc32) (by
      rw [VQueue.Consumer.visible, hstand.place.ffQueueR,
        Log.queueOf_files crc32 hstand.place.lt, Option.getD_some, hstand.here.cursor, hk,
        List.take_length]
      exact List.drop_eq_nil_of_le (Nat.le_of_eq (length_records crc32 0 0 _)))
    rw [List.getElem?_eq_none (Nat.le_of_eq hk.symm)]
    simp only [QueueReader.iterate, hpop, hend, Bool.not_false, if_true]

/-! ## The files -/

theorem recordsBefore_records (crc32 : Bytes → BitVec 32) {ms : List Message} (hk : k ≤ ms.length) :
    recordsBefore (records crc32 0 0 ms) (size (ms.take k)) = some k := by
  have htake : (records crc32 0 0 ms).take (size (ms.take k)) = records crc32 0 0 (ms.take k) := by
    conv => lhs; rw [← List.take_append_drop k ms, records_append]
    exact List.take_left' (by rw [length_records, List.take_append_drop])
  rw [recordsBefore, htake, readRecords_records crc32 0 0 _ (Nat.le_refl _), Option.map_some,
    length_entries, List.length_take_of_le hk]

theorem bodyAt_records (crc32 : Bytes → BitVec 32) {ms : List Message} (hk : k ≤ ms.length) :
    bodyAt (records crc32 0 0 ms) (size (ms.take k)) = ms[k]?.map Message.body := by
  rw [bodyAt, length_records]
  rcases Nat.lt_or_eq_of_le hk with hlt | rfl
  · have hsize : size ms = size (ms.take k) + (ms[k].size + size (ms.drop (k + 1))) := by
      conv => lhs; rw [← List.take_append_drop k ms, size_append, List.drop_eq_getElem_cons hlt,
        size_cons]
    have hpos : 0 < ms[k].size := by
      rw [Message.size, headerLength]
      omega
    rw [if_neg (by omega), drop_records crc32 ms k hlt]
    dsimp only
    rw [fromBuff_record, toNat_msgLength, Message.record, drop_record, List.take_left,
      List.getElem?_eq_getElem hlt]
    rfl
  · rw [List.take_length, if_pos (Nat.le_refl _), List.getElem?_eq_none (Nat.le_refl _)]
    rfl

/-- The queue is that of the log, and the consumer stands before a message. -/
structure Good (crc32 : Bytes → BitVec 32) (l : Log) (w : World) : Prop where
  counted : Counted l
  source : w.source = l.source crc32
  consumer : ∀ c, w.consumer = some c → ∃ p k, Stand l p k c ∧
    (w.exhausted = true → k = (l.appended p).length ∧ (p + 1 < l.parts → l.appended p = []))

theorem Good.init (crc32 : Bytes → BitVec 32) : Good crc32 .empty .init :=
  ⟨⟨.empty, fun _ => rfl⟩, rfl, fun _ h => nomatch h⟩

theorem Good.fileOf (h : Good crc32 l w) (p : Nat) :
    w.fileOf p = records crc32 0 0 (l.appended p) := by
  rw [World.fileOf, h.source]
  rcases Nat.lt_or_ge p l.parts with hlt | hge
  · show ((l.files crc32).queueOf p).getD [] = _
    rw [Log.queueOf_files crc32 hlt, Option.getD_some]
  · show ((l.files crc32).queueOf p).getD [] = _
    rw [(h.counted.wf.absent p hge).1, Files.queueOf, Log.files_parts_of_le crc32 hge]
    rfl

theorem Good.keeps (h : Good crc32 l w) : Keeps w := by
  constructor
  · intro c hc
    obtain ⟨p, k, hstand, -⟩ := h.consumer c hc
    rw [h.fileOf, hstand.place.id, hstand.posRecord, hstand.place.countPopped]
    exact recordsBefore_records crc32 hstand.here.le
  · intro hexhausted c hc
    obtain ⟨p, k, hstand, hend⟩ := h.consumer c hc
    obtain ⟨hk, hlast⟩ := hend hexhausted
    rw [h.fileOf, hstand.place.id, hstand.posRecord, length_records, hk, List.take_length]
    refine ⟨rfl, fun hsome => ?_⟩
    have hparts : p + 1 < l.parts := by
      by_contra hge
      rw [h.source] at hsome
      change ((l.files crc32).parts (p + 1)).isSome = true at hsome
      rw [Log.files_parts_of_le crc32 (by omega)] at hsome
      exact absurd hsome (by simp)
    rw [hlast hparts]
    rfl

/-- The record that a turn comes to. -/
theorem Good.upcoming (h : Good crc32 l w) (hc : w.consumer = some c) (hstand : Stand l p k c) :
    w.upcoming = (nextMessage l p k).map Message.body := by
  have hfirst := bodyAt_records crc32 (Nat.zero_le (l.appended (p + 1)).length)
  rw [List.take_zero, size_nil] at hfirst
  rw [World.upcoming, hc]
  dsimp only
  rw [h.fileOf, h.fileOf, hstand.place.id, hstand.posRecord, bodyAt_records crc32 hstand.here.le,
    hfirst, nextMessage]
  cases (l.appended p)[k]? <;> rfl

/-! ## Steps -/

theorem Good.mono (h : Good crc32 l w) (hle : l.Le l') (hl' : Counted l') (source : Source)
    (hsource : source = l'.source crc32) :
    Good crc32 l' { w with source, exhausted := false } := by
  refine ⟨hl', hsource, fun c hc => ?_⟩
  obtain ⟨p, k, hstand, -⟩ := h.consumer c hc
  exact ⟨p, k, hstand.mono hle, fun hfalse => absurd hfalse (by simp)⟩

theorem Good.restart (h : Good crc32 l w) (hfits : Fits .restart w) :
    Good crc32 l.restart (w.step crc32 .restart) := by
  have hparts : l.parts < 2 ^ 32 := Log.parts_lt crc32 (by
    rw [Fits, h.source] at hfits
    exact hfits)
  apply h.mono (Log.le_restart l) ⟨h.counted.wf.restart hparts, h.counted.count⟩
  rw [h.source, Log.source_restart crc32 h.counted.wf hparts]

/-- A push, where there is a producer. -/
theorem Counted.push (hl : Counted l) (m : Message) (hparts : 0 < l.parts)
    (hlength : (l.appended (l.parts - 1)).length + 1 < 2 ^ 32) :
    Counted (l.append m).putInfoPush := by
  have hwf := hl.wf.append m hparts hlength
  refine ⟨hwf.putInfoPush hparts, fun p => ?_⟩
  by_cases hp : p = l.parts - 1
  · subst hp
    simp [Log.count, Log.putInfoPush, Log.append]
  · have hcount := hl.count p
    simpa [Log.count, Log.putInfoPush, Log.append, hp] using hcount

theorem Good.push (h : Good crc32 l w) (m : Message) (hfits : Fits (.push m) w) :
    ∃ l', Good crc32 l' (w.step crc32 (.push m)) := by
  rcases Nat.eq_zero_or_pos l.parts with hzero | hparts
  · have hnone : w.source.producer = none := by
      rw [h.source]
      exact if_pos hzero
    have hsource : (w.source.step crc32 (.append m.body m.type)).step crc32 .putInfoPush =
        w.source := by
      simp only [Source.step, hnone]
    refine ⟨l, ?_⟩
    rw [World.step, hsource]
    exact h.mono ⟨Nat.le_refl _, fun _ => List.prefix_rfl, fun _ _ => rfl, fun _ => Nat.le_refl _⟩
      h.counted _ h.source
  · have hlength : (l.appended (l.parts - 1)).length + 1 < 2 ^ 32 := by
      have hproducer := Log.producer_of_pos hparts
      rw [← Log.toNat_countPushed h.counted.wf hproducer]
      apply hfits
      rw [h.source]
      exact hproducer
    have hwf := h.counted.wf.append m hparts hlength
    refine ⟨(l.append m).putInfoPush, ?_⟩
    have hle := (Log.le_append m l).trans (Log.le_putInfoPush hwf)
    apply h.mono hle (h.counted.push m hparts hlength)
    rw [h.source, Log.source_append crc32 h.counted.wf m hparts,
      Log.source_putInfoPush (l := l.append m) crc32 hparts]

theorem Good.files (h : Good crc32 l w) : w.source.files = l.files crc32 := by
  rw [h.source]
  rfl

theorem step_turn (hc : w.consumer = some c)
    (hturn : iterate crc32 w.source.files c = (outcome, c')) :
    w.step crc32 .turn = { w with consumer := some c', exhausted := outcome = .noHeader } := by
  simp only [World.step, hc, hturn]

theorem stand_new (crc32 : Bytes → BitVec 32) (hl : l.WF) (hparts : 0 < l.parts) :
    Stand l 0 0 (.new (l.files crc32)) where
  place := PartSwitch.place_new crc32 hparts
  here := ⟨rfl, (VQueue.Queue.readInfoPush_frame _ _).cursor, Nat.zero_le _⟩
  posRecord := rfl
  bounded := bounded_readInfoPush hl _

/-- A turn that does not come to a record that is rejected. -/
theorem Good.turn (h : Good crc32 l w) (haccepts : Accepts .turn w) :
    Good crc32 l (w.step crc32 .turn) := by
  cases hc : w.consumer with
  | none =>
    simp only [World.step, hc, h.files]
    rcases Nat.eq_zero_or_pos l.parts with hzero | hparts
    · rw [Log.files_parts_of_le crc32 (Nat.le_of_eq hzero), Option.isSome_none,
        if_neg Bool.false_ne_true]
      exact h
    · rw [Log.files_parts_of_lt crc32 hparts, Option.isSome_some, if_pos rfl]
      refine ⟨h.counted, h.source, fun c' hc' => ?_⟩
      cases hc'
      exact ⟨0, 0, stand_new crc32 h.counted.wf hparts, fun hfalse => absurd hfalse (by simp)⟩
  | some c =>
    obtain ⟨p, k, hstand, -⟩ := h.consumer c hc
    obtain ⟨p', k', c', hstand', hnext, hlast, hturn⟩ := hstand.iterate crc32 h.counted
    have hupcoming := h.upcoming hc hstand
    rw [hnext] at hupcoming
    rw [← h.files] at hturn
    cases hmessage : (l.appended p')[k']? with
    | none =>
      rw [hmessage] at hturn
      have hk := Nat.le_antisymm hstand'.here.le (List.getElem?_eq_none_iff.1 hmessage)
      rw [step_turn hc hturn]
      refine ⟨h.counted, h.source, fun c₁ hc₁ => ?_⟩
      cases hc₁
      exact ⟨p', k', hstand', fun _ => ⟨hk, hlast hk⟩⟩
    | some m =>
      rw [hmessage] at hturn hupcoming
      obtain ⟨c'', -, -, -, hturn⟩ := hturn
      have haccept := haccepts m.body hupcoming
      have hisNone : ¬ (msgpack2individual m.body).isNone = true := by
        rw [← Option.not_isSome, haccept]
        exact Bool.false_ne_true
      rw [if_neg hisNone] at hturn
      obtain ⟨c₃, hturn, hstand₃⟩ := hturn
      rw [step_turn hc hturn]
      refine ⟨h.counted, h.source, fun c₁ hc₁ => ?_⟩
      cases hc₁
      exact ⟨p', k' + 1, hstand₃, fun hfalse => absurd hfalse (by simp)⟩

/-- A record that is rejected lies before the position and is not counted. -/
theorem Good.rejected (h : Good crc32 l w) (hkeeps : Keeps (w.step crc32 .turn)) :
    Accepts .turn w := by
  intro body hbody
  cases hc : w.consumer with
  | none =>
    rw [World.upcoming, hc] at hbody
    cases hbody
  | some c =>
    obtain ⟨p, k, hstand, -⟩ := h.consumer c hc
    obtain ⟨p', k', c', hstand', hnext, hlast, hturn⟩ := hstand.iterate crc32 h.counted
    have hupcoming := h.upcoming hc hstand
    rw [hbody, hnext, eq_comm, Option.map_eq_some_iff] at hupcoming
    obtain ⟨m, hmessage, rfl⟩ := hupcoming
    rw [hmessage, ← h.files] at hturn
    obtain ⟨c'', hid, hpopped, hpos, hturn⟩ := hturn
    by_contra hreject
    rw [if_pos (by simpa using hreject)] at hturn
    rw [step_turn hc hturn] at hkeeps
    have hcounted := hkeeps.counted c'' rfl
    have hfile : World.fileOf { w with consumer := some c'', exhausted := false } c''.id =
        records crc32 0 0 (l.appended p') := by
      rw [hid, ← h.fileOf]
      rfl
    have hk : k' + 1 ≤ (l.appended p').length :=
      (List.getElem?_eq_some_iff.1 hmessage).1
    have hcounted := hfile ▸ hcounted
    rw [hpos, hpopped, recordsBefore_records crc32 hk] at hcounted
    simp at hcounted

end

/-- **The reader keeps its place** in exactly the runs in which `msgpack2individual` accepts every
record that the reader comes to. -/
theorem keeps_iff_accepts (crc32 : Bytes → BitVec 32) (events : List Event)
    (hfits : Along (World.step crc32) Fits .init events) :
    Throughout (World.step crc32) Keeps .init events ↔
      Along (World.step crc32) Accepts .init events := by
  apply Along.throughout_iff (I := fun w => ∃ l, Good crc32 l w) hfits ⟨_, Good.init crc32⟩
  · rintro w ⟨l, h⟩
    exact h.keeps
  · rintro e w ⟨l, h⟩ hfits haccepts
    cases e with
    | restart => exact ⟨_, h.restart hfits⟩
    | push m => exact h.push m hfits
    | turn => exact ⟨l, h.turn haccepts⟩
  · rintro e w ⟨l, h⟩ - hkeeps
    cases e with
    | restart => trivial
    | push m => trivial
    | turn => exact h.rejected hkeeps

instance (w : World) : ∀ e, Decidable (Fits e w)
  | .restart => inferInstanceAs (Decidable (∀ id, w.source.files.infoQueue = some id → _))
  | .push _ => inferInstanceAs (Decidable (∀ q, w.source.producer = some q → _))
  | .turn => .isTrue trivial

/-- A record with the uri `a` and no predicates, and one that ends in the uri. -/
def oneRecord : Message := ⟨.string, [0x92, 0xa1, 0x61, 0x80], by decide, by decide⟩

def cutRecord : Message := ⟨.string, [0x92, 0xa1], by decide, by decide⟩

theorem keeps_iff_accepts_two_parts :
    Throughout (World.step crc32Ieee) Keeps .init
        [.restart, .push oneRecord, .turn, .turn, .restart, .push oneRecord, .turn, .turn] ↔
      Along (World.step crc32Ieee) Accepts .init
        [.restart, .push oneRecord, .turn, .turn, .restart, .push oneRecord, .turn, .turn] :=
  keeps_iff_accepts crc32Ieee _ (by decide +kernel)

/-- A record that is cut off is passed and not counted. -/
theorem not_keeps_cut : ¬ Throughout (World.step crc32Ieee) Keeps .init
    [.restart, .push cutRecord, .turn, .turn] := by
  intro h
  generalize hw : run (World.step crc32Ieee) .init [.restart, .push cutRecord, .turn, .turn] = w
  have hdrift : w.consumer.map (fun c => (recordsBefore (w.fileOf c.id) c.posRecord,
      c.countPopped)) = some (some 1, 0) := by
    rw [← hw]
    decide +kernel
  obtain ⟨c, hc, hcounters⟩ := Option.map_eq_some_iff.1 hdrift
  have hkeeps := h.run
  rw [hw] at hkeeps
  have hcounted := hkeeps.counted c hc
  rw [Prod.mk.injEq] at hcounters
  rw [hcounters.1, hcounters.2] at hcounted
  cases hcounted

end Veda.Ccus.QueueReader
