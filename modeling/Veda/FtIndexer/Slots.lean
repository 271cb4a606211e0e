import Mathlib.Algebra.Group.Nat.Defs
import Mathlib.Data.List.Nodup
import Veda.Lib.Csv
import Veda.Lib.Run
import Veda.Search.XapianVql

/-! # The slots of the predicates

The model of `key2slot`: `get_slot_and_set_if_not_found` and `store__key2slot` of the indexer, the
file in which the map is kept, and `read_key2slot` of the searcher. A file is the list of its
characters; its size is counted in bytes. The order in which the map is gone through and the
checksum are parameters. -/

namespace Veda.FtIndexer

open Veda.Run Search.Xapian

/-! ## The map and its text -/

/-- `int[ string ]`, in the order of insertion. -/
abbrev Key2slot := List (String × ℤ)

/-- `key2slot[ key ] = slot`. -/
def assign (key2slot : Key2slot) (key : String) (slot : ℤ) : Key2slot :=
  if key ∈ key2slot.map Prod.fst then
    key2slot.map fun entry => if entry.1 = key then (key, slot) else entry
  else key2slot ++ [(key, slot)]

/-- The orders in which the map is gone through. -/
structure Order where
  entries : Key2slot → Key2slot
  perm : ∀ key2slot, (entries key2slot).Perm key2slot

/-- `text` of a number. -/
def intText (n : ℤ) : List Char :=
  if n < 0 then '-' :: Nat.toDigits 10 n.natAbs else Nat.toDigits 10 n.toNat

/-- A quoted name and a number, as they are written. The name is not escaped. -/
def row (name : List Char) (n : ℤ) : List Char :=
  '"' :: (name ++ ('"' :: ',' :: (intText n ++ ['\n'])))

/-- The text of the entries in an order. -/
def rows : Key2slot → List Char
  | [] => []
  | (name, slot) :: entries => row name.toList slot ++ rows entries

/-- The length of a text in bytes. -/
def bytes : List Char → ℕ
  | [] => 0
  | c :: cs => c.utf8Size + bytes cs

/-- A digit of `crcHexString`. -/
def hexDigit (d : ℕ) : Char := if d < 10 then Char.ofNat (48 + d) else Char.ofNat (55 + d)

/-- `crcHexString`. -/
def crcHexString (hash : BitVec 32) : List Char :=
  [28, 24, 20, 16, 12, 8, 4, 0].map fun shift => hexDigit (hash.toNat / 2 ^ shift % 16)

variable (crc : List Char → BitVec 32)

/-- What `store__key2slot` writes for `serialize_key2slot`'s text. -/
def fileText (data : List Char) : List Char := row (crcHexString (crc data)) (bytes data) ++ data

/-- What follows the first bytes of a text. Of a character that is cut, what is left is none. -/
def dropBytes : ℕ → List Char → List Char
  | _, [] => []
  | n, c :: cs =>
    if n = 0 then c :: cs
    else if n < c.utf8Size then Char.ofNat 0xfffd :: cs
    else dropBytes (n - c.utf8Size) cs

/-- `seek(0)` and a write. The file is not cut. -/
def overwrite (file text : List Char) : List Char := text ++ dropBytes (bytes text) file

/-- The loop of `deserialize_key2slot`. -/
def readRecords : ℕ → List Csv.Fields → Key2slot → Key2slot × Bool
  | _, [], key2slot => (key2slot, true)
  | idx, record :: records, key2slot =>
    match record with
    | [key, value] =>
      match toInt value with
      | some slot =>
        readRecords (idx + 1) records
          (if idx > 0 then assign key2slot (String.ofList key) slot else key2slot)
      | none => (key2slot, false)
    | _ => (key2slot, false)

/-- `deserialize_key2slot`: the map, and whether the result code is `Ok`. -/
def deserializeKey2slot (data : List Char) : Key2slot × Bool :=
  let (records, complete) := Csv.records data
  let (key2slot, ok) := readRecords 0 records []
  (key2slot, ok && complete)

/-! ## The writer and the reader -/

/-- The indexer's map, its file, and `last_size_key2slot`. -/
structure Writer where
  key2slot : Key2slot
  file : List Char
  lastSize : ℕ

section
variable (order : Order)

/-- `store__key2slot`. -/
def Writer.store (w : Writer) : Writer :=
  let data := rows (order.entries w.key2slot)
  if bytes data = w.lastSize then w
  else { w with file := overwrite w.file (fileText crc data), lastSize := bytes data }

/-- `get_slot_and_set_if_not_found`. -/
def Writer.getSlotAndSetIfNotFound (w : Writer) (field : String) : ℤ × Writer :=
  let slot := getSlot w.key2slot field
  if slot = -1 then
    let slot := Int.bmod (w.key2slot.length + 1) 4294967296
    (slot, Writer.store crc order { w with key2slot := assign w.key2slot field slot })
  else (slot, w)

/-- The file is read when the indexer starts. -/
def Writer.restart (w : Writer) : Writer :=
  let key2slot := (deserializeKey2slot w.file).1
  { w with key2slot := key2slot, lastSize := key2slot.length }

/-- `last_size_key2slot` and `old_key2slot` of the searcher. -/
structure Reader where
  lastSize : ℕ
  old : Key2slot

/-- `read_key2slot`: the map, and the searcher after it. -/
def Reader.readKey2slot (r : Reader) (file : List Char) : Key2slot × Reader :=
  let curSize := bytes file
  if curSize > r.lastSize then
    let key2slot := (deserializeKey2slot file).1
    (key2slot, ⟨curSize, key2slot⟩)
  else (r.old, r)

/-! ## Runs -/

structure System where
  writer : Writer
  reader : Reader

def System.new : System := ⟨⟨[], [], 0⟩, ⟨0, []⟩⟩

/-- A predicate is presented, the map is stored at a commit, the indexer starts again, the searcher
reads. -/
inductive SlotEvent where
  | present (field : String)
  | store
  | restart
  | read

def System.step (e : SlotEvent) (st : System) : System :=
  match e with
  | .present field =>
    { st with writer := (Writer.getSlotAndSetIfNotFound crc order st.writer field).2 }
  | .store =>
    if st.writer.key2slot.length > 0 then { st with writer := st.writer.store crc order } else st
  | .restart => { st with writer := st.writer.restart }
  | .read => { st with reader := (st.reader.readKey2slot st.writer.file).2 }

/-- The predicates that are presented, with the slots that they get. -/
def slots (st : System) : List SlotEvent → List (String × ℤ)
  | [] => []
  | e :: es =>
    let next := slots (System.step crc order e st) es
    match e with
    | .present field =>
      (field, (Writer.getSlotAndSetIfNotFound crc order st.writer field).1) :: next
    | _ => next

end

/-- Two maps are the same: they have the same entries. -/
def Same (m m' : Key2slot) : Prop := ∀ entry, entry ∈ m ↔ entry ∈ m'

/-- What the searcher reads now is the map of the writer. -/
def ReadsSame (st : System) : Prop :=
  Same (st.reader.readKey2slot st.writer.file).1 st.writer.key2slot

/-- A name that can be kept in the map and in the file. -/
def Keepable (field : String) : Prop :=
  field.toList.head?.any (· ≠ '#') ∧ '"' ∉ field.toList

/-- Every name that is presented can be kept, and the text of the map with it is not too long for
an `int`. -/
def Kept (e : SlotEvent) (st : System) : Prop :=
  match e with
  | .present field => Keepable field ∧ (field ∉ st.writer.key2slot.map Prod.fst →
    bytes (rows (st.writer.key2slot ++ [(field, (st.writer.key2slot.length : ℤ) + 1)])) ≤
      2147483647)
  | _ => True

/-! ## Sizes -/

theorem bytes_append (cs ds : List Char) : bytes (cs ++ ds) = bytes cs + bytes ds := by
  induction cs with
  | nil => simp [bytes]
  | cons c cs ih =>
    rw [List.cons_append, bytes, bytes, ih]
    omega

theorem rows_append (m m' : Key2slot) : rows (m ++ m') = rows m ++ rows m' := by
  induction m with
  | nil => rfl
  | cons entry m ih =>
    rw [List.cons_append, rows, rows, ih, List.append_assoc]

theorem bytes_rows_perm {m m' : Key2slot} (h : m.Perm m') : bytes (rows m) = bytes (rows m') := by
  induction h with
  | nil => rfl
  | cons entry _ ih => rw [rows, rows, bytes_append, bytes_append, ih]
  | swap entry entry' m =>
    simp only [rows, bytes_append]
    omega
  | trans _ _ ih ih' => exact ih.trans ih'

/-- A row takes at least five bytes. -/
theorem le_bytes_row (name : List Char) (n : ℤ) : 5 ≤ bytes (row name n) := by
  have hone (c : Char) : 1 ≤ c.utf8Size := Char.utf8Size_pos c
  have hint : 1 ≤ bytes (intText n) := by
    have hne : intText n ≠ [] := by
      unfold intText
      split
      · exact List.cons_ne_nil _ _
      · exact Nat.toDigits_ne_nil
    obtain ⟨c, cs, h⟩ := List.exists_cons_of_ne_nil hne
    rw [h, bytes]
    have := hone c
    omega
  have h := hone '"'
  have h' := hone ','
  have h'' := hone '\n'
  simp only [row, bytes, bytes_append]
  omega

theorem length_le_bytes_rows (m : Key2slot) : 5 * m.length ≤ bytes (rows m) := by
  induction m with
  | nil => simp
  | cons entry m ih =>
    have := le_bytes_row entry.1.toList entry.2
    rw [rows, bytes_append, List.length_cons]
    omega

theorem dropBytes_of_le {file : List Char} (h : bytes file ≤ n) : dropBytes n file = [] := by
  induction file generalizing n with
  | nil => rw [dropBytes]
  | cons c file ih =>
    rw [bytes] at h
    have := Char.utf8Size_pos c
    rw [dropBytes, if_neg (by omega), if_neg (by omega)]
    exact ih (by omega)

theorem overwrite_of_le {file text : List Char} (h : bytes file ≤ bytes text) :
    overwrite file text = text := by
  rw [overwrite, dropBytes_of_le h, List.append_nil]

/-! ## The file read back -/

theorem plain_of_isDigit (h : c.isDigit = true) : Csv.Plain c := by
  refine ⟨?_, ?_, ?_, ?_⟩ <;>
  · rintro rfl
    exact Bool.noConfusion h

theorem intText_of_nonneg {n : ℤ} (h : 0 ≤ n) : intText n = Nat.toDigits 10 n.toNat :=
  if_neg (by omega)

theorem toInt_intText {n : ℤ} (h : 0 ≤ n) (hle : n ≤ 2147483647) : toInt (intText n) = some n := by
  rw [intText_of_nonneg h]
  have hdigit : ∀ c ∈ Nat.toDigits 10 n.toNat, c.isDigit = true := fun c hc =>
    Nat.isDigit_of_mem_toDigits (by decide) (by decide) hc
  have hdigits : digits (Nat.toDigits 10 n.toNat) = some n.toNat := by
    rw [digits, if_pos ⟨Nat.toDigits_ne_nil, List.all_eq_true.mpr hdigit⟩]
    exact congrArg some (@Nat.ofDigitChars_ten_toDigits n.toNat)
  have hvalue : ∀ s : List Char, (∀ c ∈ s, c.isDigit = true) → toInt s =
      ((digits s).map fun (m : ℕ) => (m : ℤ)).filter
        fun n => -2147483648 ≤ n ∧ n ≤ 2147483647 := by
    intro s hs
    unfold toInt
    split
    next => exact absurd (hs '-' List.mem_cons_self) (by decide)
    next => exact absurd (hs '+' List.mem_cons_self) (by decide)
    next => cases digits s <;> rfl
  have hcast : ((n.toNat : ℕ) : ℤ) = n := Int.toNat_of_nonneg h
  rw [hvalue _ hdigit, hdigits, Option.map_some, hcast, Option.filter_some, if_pos]
  simp only [decide_eq_true_eq]
  omega

theorem records_row {name : List Char} (hname : '"' ∉ name) {n : ℤ} (h : 0 ≤ n)
    (rest : List Char) :
    Csv.records (row name n ++ rest) =
      ([name, intText n] :: (Csv.records rest).1, (Csv.records rest).2) := by
  have hrow : row name n ++ rest =
      '"' :: (name ++ ('"' :: ',' :: (intText n ++ '\n' :: rest))) := by
    simp [row]
  rw [hrow, Csv.records_line hname, intText_of_nonneg h]
  · intro c hc
    rw [intText_of_nonneg h] at hc
    exact plain_of_isDigit (Nat.isDigit_of_mem_toDigits (by decide) (by decide) hc)
  · rw [intText_of_nonneg h]
    exact Nat.toDigits_ne_nil

/-- The entries of a map that can be written and read. -/
def Readable (m : Key2slot) : Prop :=
  (m.map Prod.fst).Nodup ∧ ∀ entry ∈ m, Keepable entry.1 ∧ 0 ≤ entry.2 ∧ entry.2 ≤ 2147483647

theorem assign_of_notMem {m : Key2slot} (h : key ∉ m.map Prod.fst) :
    assign m key slot = m ++ [(key, slot)] := if_neg h

theorem records_rows {m : Key2slot} (h : ∀ entry ∈ m, Keepable entry.1 ∧ 0 ≤ entry.2) :
    Csv.records (rows m) = (m.map fun entry => [entry.1.toList, intText entry.2], true) := by
  induction m with
  | nil => rfl
  | cons entry m ih =>
    obtain ⟨⟨hname, hslot⟩, hm⟩ := List.forall_mem_cons.mp h
    rw [rows, records_row hname.2 hslot, ih hm, List.map_cons]

/-- The rows are read into the map one after the other. -/
theorem readRecords_rows {m acc : Key2slot} (h : Readable (acc ++ m)) (idx : ℕ) :
    readRecords (idx + 1) (m.map fun entry => [entry.1.toList, intText entry.2]) acc =
      (acc ++ m, true) := by
  induction m generalizing acc idx with
  | nil =>
    rw [List.append_nil]
    rfl
  | cons entry m ih =>
    obtain ⟨name, slot⟩ := entry
    obtain ⟨hnodup, hall⟩ := h
    obtain ⟨-, hpos, hle⟩ := hall (name, slot) (by simp)
    have hnew : name ∉ acc.map Prod.fst := by
      rw [List.map_append, List.map_cons, List.perm_middle.nodup_iff, List.nodup_cons] at hnodup
      exact fun hmem => hnodup.1 (List.mem_append_left _ hmem)
    have hacc : assign acc name slot = acc ++ [(name, slot)] := assign_of_notMem hnew
    rw [List.map_cons, readRecords, toInt_intText hpos hle]
    dsimp only
    rw [if_pos (Nat.succ_pos idx), String.ofList_toList, hacc, ih (by simpa using ⟨hnodup, hall⟩)]
    simp

theorem hexDigit_ne {d : ℕ} (h : d < 16) : hexDigit d ≠ '"' := by
  have hall : ∀ d < 16, hexDigit d ≠ '"' := by decide
  exact hall d h

theorem notMem_crcHexString (hash : BitVec 32) : '"' ∉ crcHexString hash := by
  intro h
  obtain ⟨shift, -, h⟩ := List.mem_map.mp h
  exact hexDigit_ne (Nat.mod_lt _ (by decide)) h

/-- What has been written is read back. -/
theorem deserialize_fileText {m : Key2slot} (h : Readable m)
    (hsize : bytes (rows m) ≤ 2147483647) :
    deserializeKey2slot (fileText crc (rows m)) = (m, true) := by
  have hpos : ∀ entry ∈ m, Keepable entry.1 ∧ 0 ≤ entry.2 := fun entry hentry =>
    ⟨(h.2 entry hentry).1, (h.2 entry hentry).2.1⟩
  have hlen : toInt (intText (bytes (rows m))) = some (bytes (rows m) : ℤ) :=
    toInt_intText (by omega) (by omega)
  unfold deserializeKey2slot fileText
  rw [records_row (notMem_crcHexString _) (by omega), records_rows hpos]
  dsimp only
  rw [readRecords, hlen]
  dsimp only
  have hrest := @readRecords_rows m [] h 0
  rw [if_neg (Nat.lt_irrefl 0), hrest]
  rfl

theorem bytes_of_ascii {cs : List Char} (h : ∀ c ∈ cs, c.utf8Size = 1) : bytes cs = cs.length := by
  induction cs with
  | nil => rfl
  | cons c cs ih =>
    obtain ⟨hc, hcs⟩ := List.forall_mem_cons.mp h
    rw [bytes, hc, ih hcs, List.length_cons, Nat.add_comm]

theorem utf8Size_of_isDigit {c : Char} (h : c.isDigit = true) : c.utf8Size = 1 := by
  rw [Char.utf8Size_eq_one_iff]
  simp only [Char.isDigit, Bool.and_eq_true, decide_eq_true_eq] at h
  exact Nat.le_trans (m := 57) h.2 (by decide)

theorem bytes_crcHexString (hash : BitVec 32) : bytes (crcHexString hash) = 8 := by
  have hall : ∀ d < 16, (hexDigit d).utf8Size = 1 := by decide
  rw [bytes_of_ascii]
  · rfl
  · intro c hc
    obtain ⟨shift, -, rfl⟩ := List.mem_map.mp hc
    exact hall _ (Nat.mod_lt _ (by decide))

/-- The size of the file. -/
theorem bytes_fileText (data : List Char) :
    bytes (fileText crc data) = 12 + (Nat.toDigits 10 (bytes data)).length + bytes data := by
  have hdigits : bytes (Nat.toDigits 10 (bytes data)) = (Nat.toDigits 10 (bytes data)).length :=
    bytes_of_ascii fun c hc =>
      utf8Size_of_isDigit (Nat.isDigit_of_mem_toDigits (by decide) (by decide) hc)
  have hmarks : bytes ['"'] = 1 ∧ bytes [','] = 1 ∧ bytes ['\n'] = 1 := by decide
  have hrow : fileText crc data = ['"'] ++ crcHexString (crc data) ++ ['"'] ++ [','] ++
      Nat.toDigits 10 (bytes data) ++ ['\n'] ++ data := by
    simp [fileText, row, intText_of_nonneg (n := (bytes data : ℤ)) (by omega)]
  rw [hrow]
  simp only [bytes_append, bytes_crcHexString, hmarks, hdigits]
  omega

theorem bytes_fileText_lt {data data' : List Char} (h : bytes data < bytes data') :
    bytes (fileText crc data) < bytes (fileText crc data') := by
  have hlen : (Nat.toDigits 10 (bytes data)).length ≤ (Nat.toDigits 10 (bytes data')).length :=
    (Nat.length_toDigits_le_iff (by decide) Nat.length_toDigits_pos).mpr
      (Nat.lt_trans h
        ((Nat.length_toDigits_le_iff (by decide) Nat.length_toDigits_pos).mp (Nat.le_refl _)))
  rw [bytes_fileText, bytes_fileText]
  omega

theorem bytes_fileText_congr {data data' : List Char} (h : bytes data = bytes data') :
    bytes (fileText crc data) = bytes (fileText crc data') := by
  rw [bytes_fileText, bytes_fileText, h]

/-! ## The invariant -/

/-- The file holds the entries of the map, in some order. -/
def Represents (file : List Char) (m : Key2slot) : Prop :=
  (m = [] ∧ file = []) ∨ m ≠ [] ∧ ∃ l, l.Perm m ∧ file = fileText crc (rows l)

/-- The names are distinct and so are the slots, which are the numbers up to the size of the map;
the file holds the map; the searcher has read it, or an older one that is shorter. -/
structure SlotInv (st : System) : Prop where
  names : (st.writer.key2slot.map Prod.fst).Nodup
  slots : (st.writer.key2slot.map Prod.snd).Nodup
  range : ∀ entry ∈ st.writer.key2slot,
    Keepable entry.1 ∧ 1 ≤ entry.2 ∧ entry.2 ≤ st.writer.key2slot.length
  size : bytes (rows st.writer.key2slot) ≤ 2147483647
  file : Represents crc st.writer.file st.writer.key2slot
  last : st.writer.lastSize ≤ bytes (rows st.writer.key2slot)
  reader : st.reader.lastSize ≤ bytes st.writer.file ∧
    (st.reader.lastSize = bytes st.writer.file → Same st.reader.old st.writer.key2slot)

variable {crc} {order : Order}

theorem SlotInv.new : SlotInv crc .new where
  names := List.nodup_nil
  slots := List.nodup_nil
  range := nofun
  size := by decide
  file := .inl ⟨rfl, rfl⟩
  last := by decide
  reader := ⟨Nat.le_refl _, fun _ _ => Iff.rfl⟩

theorem SlotInv.readable {st : System} (h : SlotInv crc st) {l : Key2slot}
    (hperm : l.Perm st.writer.key2slot) : Readable l := by
  refine ⟨(hperm.map Prod.fst).nodup_iff.mpr h.names, fun entry hentry => ?_⟩
  obtain ⟨hkeep, hpos, hle⟩ := h.range entry (hperm.mem_iff.mp hentry)
  have hlen := length_le_bytes_rows st.writer.key2slot
  have hsize := h.size
  exact ⟨hkeep, by omega, by omega⟩

/-- What is read from the file is the map, in some order. -/
theorem SlotInv.deserialize {st : System} (h : SlotInv crc st) :
    (deserializeKey2slot st.writer.file).1.Perm st.writer.key2slot := by
  obtain ⟨hm, hfile⟩ | ⟨-, l, hperm, hfile⟩ := h.file
  · rw [hm, hfile]
    exact .nil
  · have hsize : bytes (rows l) ≤ 2147483647 := bytes_rows_perm hperm ▸ h.size
    rw [hfile, deserialize_fileText crc (h.readable hperm) hsize]
    exact hperm

theorem Same.of_perm {m m' : Key2slot} (h : m.Perm m') : Same m m' := fun _ => h.mem_iff

/-- The searcher reads the map of the writer. -/
theorem SlotInv.readsSame {st : System} (h : SlotInv crc st) : ReadsSame st := by
  unfold ReadsSame Reader.readKey2slot
  dsimp only
  split
  next => exact .of_perm h.deserialize
  next hle => exact h.reader.2 (Nat.le_antisymm h.reader.1 (Nat.not_lt.mp hle))

/-! ## Steps -/

/-- A store of a map whose text is not shorter than what the file holds. -/
theorem store_eq {w : Writer} (hfile : bytes w.file ≤ bytes (fileText crc (rows w.key2slot)))
    (hlast : bytes (rows w.key2slot) ≠ w.lastSize) :
    w.store crc order = { w with
      file := fileText crc (rows (order.entries w.key2slot))
      lastSize := bytes (rows w.key2slot) } := by
  have hbytes := bytes_rows_perm (order.perm w.key2slot)
  have hover : overwrite w.file (fileText crc (rows (order.entries w.key2slot))) =
      fileText crc (rows (order.entries w.key2slot)) := by
    apply overwrite_of_le
    rw [bytes_fileText_congr crc hbytes]
    exact hfile
  unfold Writer.store
  dsimp only
  rw [hbytes, if_neg hlast, hover]

/-- The file is not longer than the text of the map. -/
theorem SlotInv.bytes_file {st : System} (h : SlotInv crc st) :
    bytes st.writer.file ≤ bytes (fileText crc (rows st.writer.key2slot)) := by
  obtain ⟨-, hfile⟩ | ⟨-, l, hperm, hfile⟩ := h.file
  · rw [hfile]
    exact Nat.zero_le _
  · rw [hfile]
    exact Nat.le_of_eq (bytes_fileText_congr crc (bytes_rows_perm hperm))

theorem SlotInv.store {st : System} (h : SlotInv crc st) :
    SlotInv crc (System.step crc order .store st) := by
  unfold System.step
  dsimp only
  split
  next hpos =>
    by_cases hlast : bytes (rows st.writer.key2slot) = st.writer.lastSize
    · have hsame : st.writer.store crc order = st.writer := by
        unfold Writer.store
        dsimp only
        rw [bytes_rows_perm (order.perm _), if_pos hlast]
      rw [hsame]
      exact h
    · rw [store_eq h.bytes_file hlast]
      have hbytes := bytes_fileText_congr crc (bytes_rows_perm (order.perm st.writer.key2slot))
      have hne : st.writer.key2slot ≠ [] := List.ne_nil_of_length_pos hpos
      have hold : bytes st.writer.file = bytes (fileText crc (rows st.writer.key2slot)) := by
        obtain ⟨hnil, -⟩ | ⟨-, l, hperm, hfile⟩ := h.file
        · exact absurd hnil hne
        · rw [hfile, bytes_fileText_congr crc (bytes_rows_perm hperm)]
      exact { h with
        file := .inr ⟨hne, _, order.perm _, rfl⟩
        last := Nat.le_refl _
        reader := by
          dsimp only
          rw [hbytes, ← hold]
          exact h.reader }
  next => exact h

theorem SlotInv.restart {st : System} (h : SlotInv crc st) :
    SlotInv crc (System.step crc order .restart st) := by
  have hperm := h.deserialize
  have hlen := length_le_bytes_rows (deserializeKey2slot st.writer.file).1
  refine ⟨(hperm.map Prod.fst).nodup_iff.mpr h.names, (hperm.map Prod.snd).nodup_iff.mpr h.slots,
    fun entry hentry => ?_, ?_, ?_, ?_, ?_⟩
  · have hrange := h.range entry (hperm.mem_iff.mp hentry)
    rw [← hperm.length_eq] at hrange
    exact hrange
  · exact bytes_rows_perm hperm ▸ h.size
  · obtain ⟨hm, hfile⟩ | ⟨hne, l, hl, hfile⟩ := h.file
    · exact .inl ⟨List.perm_nil.mp (hm ▸ hperm), hfile⟩
    · refine .inr ⟨fun hnil => hne ?_, l, hl.trans hperm.symm, hfile⟩
      exact List.perm_nil.mp (hnil ▸ hperm.symm)
  · change (deserializeKey2slot st.writer.file).1.length ≤ _
    exact Nat.le_trans (by omega) hlen
  · exact ⟨h.reader.1, fun hsize entry => (h.reader.2 hsize entry).trans hperm.mem_iff.symm⟩

theorem SlotInv.read {st : System} (h : SlotInv crc st) :
    SlotInv crc (System.step crc order .read st) := by
  have hsame := h.readsSame
  refine { h with reader := ?_ }
  unfold ReadsSame at hsame
  revert hsame
  unfold Reader.readKey2slot System.step Reader.readKey2slot
  dsimp only
  split
  next => exact fun hsame => ⟨Nat.le_refl _, fun _ => hsame⟩
  next => exact fun _ => h.reader

theorem getSlot_keepable (h : Keepable field) (m : Key2slot) :
    getSlot m field = (m.lookup field).getD (-1) := by
  obtain ⟨hhead, -⟩ := h
  unfold getSlot
  split
  next hnil => simp [hnil] at hhead
  next hsharp => simp [hsharp] at hhead
  next => rfl

theorem lookup_isSome {m : Key2slot} (h : field ∈ m.map Prod.fst) :
    ∃ slot, (field, slot) ∈ m ∧ m.lookup field = some slot := by
  induction m with
  | nil => exact absurd h List.not_mem_nil
  | cons entry m ih =>
    obtain ⟨name, slot⟩ := entry
    rcases eq_or_ne field name with rfl | hne
    · exact ⟨slot, List.mem_cons_self, by simp⟩
    · obtain hname | hmem := List.mem_cons.mp h
      · exact absurd hname hne
      · obtain ⟨slot', hslot, hlookup⟩ := ih hmem
        refine ⟨slot', List.mem_cons_of_mem _ hslot, ?_⟩
        rwa [List.lookup_cons, beq_false_of_ne hne]

theorem lookup_eq_none {m : Key2slot} (h : field ∉ m.map Prod.fst) : m.lookup field = none := by
  induction m with
  | nil => rfl
  | cons entry m ih =>
    rw [List.map_cons, List.mem_cons, not_or] at h
    rw [List.lookup_cons, beq_false_of_ne h.1]
    exact ih h.2

variable (order) in
/-- A predicate that is in the map gets its slot. -/
theorem SlotInv.present_known {st : System} (h : SlotInv crc st) (hkeep : Keepable field)
    (hmem : field ∈ st.writer.key2slot.map Prod.fst) :
    ∃ slot, (field, slot) ∈ st.writer.key2slot ∧
      Writer.getSlotAndSetIfNotFound crc order st.writer field = (slot, st.writer) := by
  obtain ⟨slot, hslot, hlookup⟩ := lookup_isSome hmem
  obtain ⟨-, hpos, -⟩ := h.range (field, slot) hslot
  have hget : getSlot st.writer.key2slot field = slot := by
    rw [getSlot_keepable hkeep, hlookup]
    rfl
  refine ⟨slot, hslot, ?_⟩
  unfold Writer.getSlotAndSetIfNotFound
  rw [hget]
  exact if_neg (by omega)

/-- A new predicate gets the next slot, and the map is written. -/
theorem present_new {st : System} (hkeep : Keepable field)
    (hnew : field ∉ st.writer.key2slot.map Prod.fst)
    (hsize : bytes (rows (st.writer.key2slot ++
      [(field, (st.writer.key2slot.length : ℤ) + 1)])) ≤ 2147483647) :
    Writer.getSlotAndSetIfNotFound crc order st.writer field =
      ((st.writer.key2slot.length : ℤ) + 1, Writer.store crc order { st.writer with
        key2slot := st.writer.key2slot ++ [(field, (st.writer.key2slot.length : ℤ) + 1)] }) := by
  have hlen := length_le_bytes_rows
    (st.writer.key2slot ++ [(field, (st.writer.key2slot.length : ℤ) + 1)])
  rw [List.length_append, List.length_singleton] at hlen
  have hmod : Int.bmod ((st.writer.key2slot.length : ℤ) + 1) 4294967296 =
      (st.writer.key2slot.length : ℤ) + 1 := by
    apply Int.bmod_eq_of_le <;> omega
  have hget : getSlot st.writer.key2slot field = -1 := by
    rw [getSlot_keepable hkeep, lookup_eq_none hnew]
    rfl
  unfold Writer.getSlotAndSetIfNotFound
  rw [hget, hmod]
  dsimp only
  rw [if_pos rfl, assign_of_notMem hnew]

/-- The map with one more entry, after it has been written. -/
theorem SlotInv.extend {st : System} (h : SlotInv crc st) (hkeep : Keepable field)
    (hnew : field ∉ st.writer.key2slot.map Prod.fst)
    (hsize : bytes (rows (st.writer.key2slot ++
      [(field, (st.writer.key2slot.length : ℤ) + 1)])) ≤ 2147483647)
    (hmore : bytes (rows st.writer.key2slot) < bytes (rows (st.writer.key2slot ++
      [(field, (st.writer.key2slot.length : ℤ) + 1)]))) :
    SlotInv crc { st with writer := ⟨st.writer.key2slot ++
        [(field, (st.writer.key2slot.length : ℤ) + 1)],
      fileText crc (rows (order.entries (st.writer.key2slot ++
        [(field, (st.writer.key2slot.length : ℤ) + 1)]))),
      bytes (rows (st.writer.key2slot ++ [(field, (st.writer.key2slot.length : ℤ) + 1)]))⟩ } := by
  refine ⟨?_, ?_, ?_, hsize, .inr ⟨by simp, _, order.perm _, rfl⟩, Nat.le_refl _, ?_⟩
  · rw [List.map_append, List.nodup_append]
    refine ⟨h.names, List.pairwise_singleton _ _, fun a ha b hb => ?_⟩
    cases List.mem_singleton.mp hb
    rintro rfl
    exact hnew ha
  · rw [List.map_append, List.nodup_append]
    refine ⟨h.slots, List.pairwise_singleton _ _, fun a ha b hb => ?_⟩
    cases List.mem_singleton.mp hb
    obtain ⟨entry, hentry, rfl⟩ := List.mem_map.mp ha
    obtain ⟨-, -, hle⟩ := h.range entry hentry
    dsimp only
    omega
  · intro entry hentry
    dsimp only at hentry ⊢
    rw [List.length_append, List.length_singleton]
    obtain hentry | hentry := List.mem_append.mp hentry
    · obtain ⟨hk, hpos, hle⟩ := h.range entry hentry
      exact ⟨hk, hpos, by omega⟩
    · cases List.mem_singleton.mp hentry
      exact ⟨hkeep, by dsimp only; omega, by dsimp only; omega⟩
  · have hlt : st.reader.lastSize < bytes (fileText crc (rows (order.entries
        (st.writer.key2slot ++ [(field, (st.writer.key2slot.length : ℤ) + 1)])))) := by
      rw [bytes_fileText_congr crc (bytes_rows_perm (order.perm _))]
      exact Nat.lt_of_le_of_lt (Nat.le_trans h.reader.1 h.bytes_file) (bytes_fileText_lt crc hmore)
    exact ⟨Nat.le_of_lt hlt, fun heq => absurd heq (Nat.ne_of_lt hlt)⟩

theorem SlotInv.present {st : System} (h : SlotInv crc st) (hkept : Kept (.present field) st) :
    SlotInv crc (System.step crc order (.present field) st) ∧
      (∀ entry ∈ st.writer.key2slot,
        entry ∈ (System.step crc order (.present field) st).writer.key2slot) ∧
      (field, (Writer.getSlotAndSetIfNotFound crc order st.writer field).1) ∈
        (System.step crc order (.present field) st).writer.key2slot := by
  obtain ⟨hkeep, hsize⟩ := hkept
  unfold System.step
  dsimp only
  rcases em (field ∈ st.writer.key2slot.map Prod.fst) with hmem | hnew
  · obtain ⟨slot, hslot, hget⟩ := h.present_known order hkeep hmem
    rw [hget]
    exact ⟨h, fun _ hentry => hentry, hslot⟩
  · have hsize := hsize hnew
    have hmore : bytes (rows st.writer.key2slot) < bytes (rows (st.writer.key2slot ++
        [(field, (st.writer.key2slot.length : ℤ) + 1)])) := by
      have hrow := le_bytes_row field.toList ((st.writer.key2slot.length : ℤ) + 1)
      simp only [rows_append, bytes_append, rows, bytes]
      omega
    have hfile := Nat.le_of_lt (Nat.lt_of_le_of_lt h.bytes_file (bytes_fileText_lt crc hmore))
    have hlast := h.last
    have hstore := @store_eq crc order ⟨st.writer.key2slot ++
      [(field, (st.writer.key2slot.length : ℤ) + 1)], st.writer.file, st.writer.lastSize⟩
      hfile (Nat.ne_of_gt (Nat.lt_of_le_of_lt hlast hmore))
    rw [present_new hkeep hnew hsize, hstore]
    refine ⟨h.extend hkeep hnew hsize hmore, fun entry hentry => List.mem_append_left _ hentry,
      List.mem_append_right _ (List.mem_singleton.mpr rfl)⟩

/-! ## Runs that keep the slots -/

variable (order) in
theorem SlotInv.step {st : System} (h : SlotInv crc st) (hkept : Kept e st) :
    SlotInv crc (System.step crc order e st) ∧
      ∀ entry ∈ st.writer.key2slot, entry ∈ (System.step crc order e st).writer.key2slot := by
  cases e with
  | present field => exact ⟨(h.present hkept).1, (h.present hkept).2.1⟩
  | store =>
    refine ⟨h.store, fun entry hentry => ?_⟩
    have hsame : (System.step crc order .store st).writer.key2slot = st.writer.key2slot := by
      unfold System.step Writer.store
      dsimp only
      split
      · split <;> rfl
      · rfl
    exact hsame ▸ hentry
  | restart => exact ⟨h.restart, fun _ hentry => h.deserialize.mem_iff.mpr hentry⟩
  | read => exact ⟨h.read, fun _ hentry => hentry⟩

/-- The slots that a run gives are entries of the map at its end, and so are those of the map at its
start. -/
theorem slots_mem {st : System} {es : List SlotEvent} (h : SlotInv crc st)
    (hkept : Along (System.step crc order) Kept st es) :
    SlotInv crc (run (System.step crc order) st es) ∧
      ∀ entry ∈ st.writer.key2slot ++ slots crc order st es,
        entry ∈ (run (System.step crc order) st es).writer.key2slot := by
  induction es generalizing st with
  | nil =>
    refine ⟨h, fun entry hentry => ?_⟩
    rwa [slots, List.append_nil] at hentry
  | cons e es ih =>
    obtain ⟨hnext, hstay⟩ := h.step order hkept.1
    obtain ⟨hend, hmem⟩ := ih hnext hkept.2
    refine ⟨hend, fun entry hentry => hmem entry ?_⟩
    obtain hentry | hentry := List.mem_append.mp hentry
    · exact List.mem_append_left _ (hstay entry hentry)
    · cases e with
      | present field =>
        obtain rfl | hentry := List.mem_cons.mp hentry
        · exact List.mem_append_left _ (h.present hkept.1).2.2
        · exact List.mem_append_right _ hentry
      | store | restart | read => exact List.mem_append_right _ hentry

/-- Two entries with one slot have one name. -/
theorem SlotInv.eq_of_slot {st : System} (h : SlotInv crc st) (hx : x ∈ st.writer.key2slot)
    (hy : y ∈ st.writer.key2slot) (heq : x.2 = y.2) : x.1 = y.1 :=
  congrArg Prod.fst (List.inj_on_of_nodup_map h.slots hx hy heq)

theorem SlotInv.eq_of_name {st : System} (h : SlotInv crc st) (hx : x ∈ st.writer.key2slot)
    (hy : y ∈ st.writer.key2slot) (heq : x.1 = y.1) : x.2 = y.2 :=
  congrArg Prod.snd (List.inj_on_of_nodup_map h.names hx hy heq)

/-- Where every name can be kept, a slot belongs to one predicate and a predicate has one slot, over
restarts of the indexer too, and the searcher always reads the map of the indexer. -/
theorem slots_stable (crc : List Char → BitVec 32) (order : Order) (es : List SlotEvent)
    (h : Along (System.step crc order) Kept .new es) :
    (∀ x ∈ slots crc order .new es, ∀ y ∈ slots crc order .new es, x.1 = y.1 ↔ x.2 = y.2) ∧
      Throughout (System.step crc order) ReadsSame .new es := by
  obtain ⟨hend, hmem⟩ := slots_mem SlotInv.new h
  refine ⟨fun x hx y hy => ?_, h.throughout SlotInv.new
    (fun _ _ hinv hkept => (hinv.step order hkept).1) fun _ hinv => hinv.readsSame⟩
  have hx := hmem x (List.mem_append_right _ hx)
  have hy := hmem y (List.mem_append_right _ hy)
  exact ⟨hend.eq_of_name hx hy, hend.eq_of_slot hx hy⟩

/-- The map is gone through in the order of insertion. -/
def inOrder : Order := ⟨id, fun _ => .refl _⟩

/-- Two predicates, with a restart between them. -/
theorem slots_stable_two :
    (∀ x ∈ slots (fun _ => 0) inOrder .new
        [.present "rdf:type", .restart, .present "v-s:deleted", .read],
      ∀ y ∈ slots (fun _ => 0) inOrder .new
        [.present "rdf:type", .restart, .present "v-s:deleted", .read], x.1 = y.1 ↔ x.2 = y.2) ∧
      Throughout (System.step (fun _ => 0) inOrder) ReadsSame .new
        [.present "rdf:type", .restart, .present "v-s:deleted", .read] :=
  slots_stable _ _ _ ⟨⟨⟨by decide, by decide⟩, fun _ => by decide⟩, trivial,
    ⟨⟨by decide, by decide⟩, fun _ => by decide⟩, trivial, trivial⟩

/-- A quotation mark in a name makes the file unreadable, and after a restart the slot is given
again. -/
theorem not_slots_stable :
    ¬∀ x ∈ slots (fun _ => 0) inOrder .new [.present "a\"b", .restart, .present "c"],
      ∀ y ∈ slots (fun _ => 0) inOrder .new [.present "a\"b", .restart, .present "c"],
      x.1 = y.1 ↔ x.2 = y.2 := by
  intro h
  have hclash := h ("a\"b", 1) (by decide) ("c", 1) (by decide)
  exact absurd (hclash.mpr rfl) (by decide)

end Veda.FtIndexer
