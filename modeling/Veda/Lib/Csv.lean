import Mathlib.Data.List.Basic

/-! # Comma separated values

A reader of records in the format of RFC 4180: a field stands between quotation marks, in which a
mark is doubled, or is a plain text without marks; lines end with `\n`, `\r` or both. -/

namespace Veda.Csv

/-- Where the reader stands: before a field, in a plain one, between the marks of a quoted one,
behind a mark that may close it, or behind a `\r`. -/
inductive Mode where
  | start
  | plain
  | quoted
  | closed
  | afterReturn

abbrev Fields := List (List Char)

/-- What has been read of a field, and the fields of the record before it. -/
structure State where
  mode : Mode
  token : List Char
  fields : Fields

def State.init : State := ⟨.start, [], []⟩

/-- What a character does. -/
inductive Outcome where
  | next (s : State)
  | record (fields : Fields) (s : State)
  | malformed

/-- A character that is not between marks. -/
def separate (s : State) (c : Char) : Outcome :=
  if c = ',' then .next ⟨.start, [], s.fields ++ [s.token]⟩
  else if c = '\n' then .record (s.fields ++ [s.token]) .init
  else if c = '\r' then .record (s.fields ++ [s.token]) ⟨.afterReturn, [], []⟩
  else
    match s.mode with
    | .closed => .malformed
    | _ => .next ⟨.plain, s.token ++ [c], s.fields⟩

def step (s : State) (c : Char) : Outcome :=
  match s.mode with
  | .start => if c = '"' then .next { s with mode := .quoted } else separate s c
  | .plain => if c = '"' then .malformed else separate s c
  | .quoted =>
    if c = '"' then .next { s with mode := .closed } else .next { s with token := s.token ++ [c] }
  | .closed =>
    if c = '"' then .next { s with mode := .quoted, token := s.token ++ [c] } else separate s c
  | .afterReturn =>
    if c = '\n' then .next .init
    else if c = '"' then .next { s with mode := .quoted }
    else separate s c

/-- What is left at the end of the text. -/
def finish (s : State) : List Fields × Bool :=
  match s.mode with
  | .start => if s.fields = [] then ([], true) else ([s.fields ++ [s.token]], true)
  | .afterReturn => ([], true)
  | .plain | .closed => ([s.fields ++ [s.token]], true)
  | .quoted => ([], false)

/-- The records up to the first malformed one, and whether there is none. -/
def read (s : State) : List Char → List Fields × Bool
  | [] => finish s
  | c :: cs =>
    match step s c with
    | .next s => read s cs
    | .record fields s => (fields :: (read s cs).1, (read s cs).2)
    | .malformed => ([], false)

def records (text : List Char) : List Fields × Bool := read .init text

/-- A character that can stand in a field without marks. -/
def Plain (c : Char) : Prop := c ≠ '"' ∧ c ≠ ',' ∧ c ≠ '\n' ∧ c ≠ '\r'

theorem read_quoted {name rest : List Char} (h : '"' ∉ name) :
    read ⟨.quoted, token, fields⟩ (name ++ rest) =
      read ⟨.quoted, token ++ name, fields⟩ rest := by
  induction name generalizing token with
  | nil => rw [List.append_nil, List.nil_append]
  | cons c name ih =>
    rw [List.mem_cons, not_or] at h
    have hstep : step ⟨.quoted, token, fields⟩ c = .next ⟨.quoted, token ++ [c], fields⟩ :=
      if_neg (Ne.symm h.1)
    rw [List.cons_append, read, hstep]
    dsimp only
    rw [ih h.2, List.append_assoc, List.singleton_append]

theorem separate_plain {s : State} (hc : Plain c) (hmode : s.mode ≠ .closed) :
    separate s c = .next ⟨.plain, s.token ++ [c], s.fields⟩ := by
  obtain ⟨-, hcomma, hn, hr⟩ := hc
  unfold separate
  rw [if_neg hcomma, if_neg hn, if_neg hr]
  cases hm : s.mode with
  | closed => exact absurd hm hmode
  | _ => rfl

theorem read_plain {digits rest : List Char} (h : ∀ c ∈ digits, Plain c) :
    read ⟨.plain, token, fields⟩ (digits ++ rest) =
      read ⟨.plain, token ++ digits, fields⟩ rest := by
  induction digits generalizing token with
  | nil => rw [List.append_nil, List.nil_append]
  | cons c digits ih =>
    obtain ⟨hc, hrest⟩ := List.forall_mem_cons.mp h
    have hstep : step ⟨.plain, token, fields⟩ c = .next ⟨.plain, token ++ [c], fields⟩ :=
      (if_neg hc.1).trans (separate_plain hc nofun)
    rw [List.cons_append, read, hstep]
    dsimp only
    rw [ih hrest, List.append_assoc, List.singleton_append]

/-- A line with a quoted field and a plain one. -/
theorem records_line {name digits rest : List Char} (hname : '"' ∉ name)
    (hdigits : ∀ c ∈ digits, Plain c) (hne : digits ≠ []) :
    records ('"' :: (name ++ ('"' :: ',' :: (digits ++ '\n' :: rest)))) =
      ([name, digits] :: (records rest).1, (records rest).2) := by
  obtain ⟨c, digits, rfl⟩ := List.exists_cons_of_ne_nil hne
  obtain ⟨hc, hrest⟩ := List.forall_mem_cons.mp hdigits
  have hopen : records ('"' :: (name ++ ('"' :: ',' :: (c :: digits ++ '\n' :: rest)))) =
      read ⟨.quoted, [], []⟩ (name ++ ('"' :: ',' :: (c :: digits ++ '\n' :: rest))) := rfl
  have hclose : read ⟨.quoted, name, []⟩ ('"' :: ',' :: (c :: digits ++ '\n' :: rest)) =
      read ⟨.start, [], [name]⟩ (c :: digits ++ '\n' :: rest) := rfl
  have hfirst : step ⟨.start, [], [name]⟩ c = .next ⟨.plain, [c], [name]⟩ :=
    (if_neg hc.1).trans (separate_plain hc nofun)
  rw [hopen, read_quoted hname, List.nil_append, hclose, List.cons_append, read, hfirst]
  dsimp only
  rw [read_plain hrest]
  rfl

end Veda.Csv
