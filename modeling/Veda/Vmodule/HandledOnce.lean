import Mathlib.Algebra.BigOperators.Group.Finset.Piecewise
import Mathlib.Algebra.GroupWithZero.Nat
import Mathlib.Algebra.Order.BigOperators.Group.List
import Veda.Vmodule.PrepareQueue

/-! # Every message is handled by one consumer

Each consumer of a module goes through the whole queue and prepares the messages that are its own.
What it has prepared is what is its own before the place where it stands, so that at the end of the
queue a message was prepared once for each consumer that takes it as its own. -/

namespace Veda.Vmodule

variable {Indv : Type}

/-! ## Places in a queue -/

namespace Consumer

/-- A place in a queue comes before another one. -/
def Before (a b : Consumer) : Prop := a.id < b.id ∨ a.id = b.id ∧ a.countPopped < b.countPopped

instance : DecidableRel Before := fun _ _ => inferInstanceAs (Decidable (_ ∨ _ ∧ _))

/-- The end of the queue. -/
structure AtEnd (parts : Parts) (cs : Consumer) : Prop where
  part : parts.length ≤ cs.id + 1
  next : cs.next parts = none

/-- What a consumer has in its part is there. -/
def Valid (parts : Parts) (cs : Consumer) : Prop :=
  cs.countPopped ≤ (parts[cs.id]?.getD []).length

/-- The messages and the ends of parts before a place. -/
def place (parts : Parts) (cs : Consumer) : ℕ :=
  ((parts.take cs.id).map (·.length + 1)).sum + cs.countPopped

end Consumer

/-- The messages and the ends of parts. -/
def total (parts : Parts) : ℕ := (parts.map (·.length + 1)).sum

/-! ## The property -/

namespace Call

/-- A call for the message at a place. -/
def isAt (pos : Consumer) : Call Indv → Bool
  | message _ cs .. => cs = pos
  | batch .. => false

/-- A call for the message at a place by one of the consumers. -/
def isFor (i : ℕ) (pos : Consumer) : Call Indv → Bool
  | message j cs .. => j = i && cs = pos
  | batch .. => false

/-- Of two messages of one priority, the first one is the one that comes before. -/
def InOrder (m : VedaModule Indv) : Call Indv → Call Indv → Prop
  | message _ cs msg .., message _ cs' msg' .. =>
    msg.userUri.map m.priority = msg'.userUri.map m.priority → cs.Before cs'
  | _, _ => True

end Call

namespace VedaModule

variable (m : VedaModule Indv) (parts : Parts)

/-- All the consumers are at the end of the queue. -/
def Drained (s : State Indv) : Prop := ∀ cs ∈ s.mainCs, cs.AtEnd parts

/-- The messages that are assigned to the subsystem were prepared once, the others were not, and
those of one priority were prepared in the order of the queue. -/
structure Handled (s : State Indv) : Prop where
  once : ∀ pos msg, pos.next parts = some (some msg) →
    s.calls.countP (·.isAt pos) = if m.skips msg then 0 else 1
  inOrder : s.calls.Pairwise (Call.InOrder m)

/-- Runs of `prepare_queue` one after the other. -/
inductive Runs : State Indv → State Indv → Prop
  | refl : Runs s s
  | run (h : m.prepareQueue parts fuel s = some s') (hrest : Runs s' s'') : Runs s s''

/-- Every run of `prepare_queue` ends, the queue is drained at some time, and once it is, its
messages were handled. -/
structure Handles (n : ℕ) (batch : Option (List String)) : Prop where
  ends : ∀ s, m.Runs parts (.init n batch) s → ∃ fuel s', m.prepareQueue parts fuel s = some s'
  drained : ∃ s, m.Runs parts (.init n batch) s ∧ Drained parts s
  handled : ∀ s, m.Runs parts (.init n batch) s → Drained parts s → m.Handled parts s

/-- The message has a user for whom the priority is asked. -/
def Addressed (msg : Message) : Prop := ∃ uri, msg.userUri = some uri ∧ 3 < uri.utf8ByteSize

/-- The consumer prepares the message. -/
def own (i : ℕ) (msg : Message) : Bool := !m.skips msg && !m.isOther i msg

end VedaModule

/-! ## Places -/

section
variable {parts : Parts} {cs pos : Consumer}

namespace Consumer

theorem lt_of_next (h : cs.next parts = some data) :
    cs.id < parts.length ∧ cs.countPopped < (parts[cs.id]?.getD []).length := by
  have hpopped := (List.getElem?_eq_some_iff.1 h).1
  refine ⟨?_, hpopped⟩
  by_contra hid
  rw [List.getElem?_eq_none (Nat.le_of_not_lt hid), Option.getD_none, List.length_nil] at hpopped
  exact Nat.not_lt_zero _ hpopped

theorem sum_take_le (parts : Parts) (k : ℕ) :
    ((parts.take k).map (·.length + 1)).sum ≤ total parts := by
  have h := congrArg (fun parts => (parts.map (·.length + 1)).sum) (List.take_append_drop k parts)
  simp only [List.map_append, List.sum_append] at h
  rw [total]
  omega

/-- The place after a part. -/
theorem sum_take_succ (h : k < parts.length) :
    ((parts.take (k + 1)).map (·.length + 1)).sum =
      ((parts.take k).map (·.length + 1)).sum + ((parts[k]?.getD []).length + 1) := by
  rw [List.take_succ_eq_append_getElem h, List.getElem?_eq_getElem h, List.map_append,
    List.sum_append]
  rfl

/-- A commit goes one place further. -/
theorem place_commitAndNext (h : cs.next parts = some data) :
    cs.commitAndNext.place parts = cs.place parts + 1 ∧ cs.place parts < total parts ∧
      cs.commitAndNext.Valid parts := by
  obtain ⟨hid, hpopped⟩ := lt_of_next h
  have htotal := sum_take_le parts (cs.id + 1)
  rw [sum_take_succ hid] at htotal
  refine ⟨rfl, ?_, hpopped⟩
  rw [place]
  omega

/-- So does a consumer that goes to the next part. -/
theorem place_pop (hvalid : cs.Valid parts) (h : cs.next parts = none) :
    (cs.pop parts).1 = none ∧ (cs.pop parts).2.Valid parts ∧
      ((cs.pop parts).2 = cs ∧ cs.AtEnd parts ∨
        (cs.pop parts).2.place parts = cs.place parts + 1 ∧ cs.place parts < total parts) := by
  have hpopped : cs.countPopped = (parts[cs.id]?.getD []).length :=
    Nat.le_antisymm hvalid (List.getElem?_eq_none_iff.1 h)
  simp only [pop, h]
  split
  next hid =>
    have hplace := sum_take_succ (Nat.lt_of_succ_lt hid)
    have htotal := sum_take_le parts (cs.id + 1)
    refine ⟨rfl, Nat.zero_le _, .inr ⟨?_, ?_⟩⟩
    · rw [place, place, hplace]
      dsimp only
      omega
    · rw [place]
      omega
  next hid => exact ⟨rfl, hvalid, .inl ⟨rfl, by omega, h⟩⟩

/-- A consumer that has no message does not pass one. -/
theorem before_pop (hpos : pos.next parts = some data) (hvalid : cs.Valid parts)
    (h : cs.next parts = none) : pos.Before (cs.pop parts).2 ↔ pos.Before cs := by
  have hpopped : cs.countPopped = (parts[cs.id]?.getD []).length :=
    Nat.le_antisymm hvalid (List.getElem?_eq_none_iff.1 h)
  obtain ⟨-, hlt⟩ := lt_of_next hpos
  simp only [pop, h]
  split
  · simp only [Before]
    constructor
    · intro hbefore
      rcases Nat.lt_or_ge pos.id cs.id with hid | hid
      · exact .inl hid
      · have heq : pos.id = cs.id := by omega
        rw [heq] at hlt
        exact .inr ⟨heq, by omega⟩
    · intro hbefore
      omega
  · exact Iff.rfl

/-- A commit passes the message. -/
theorem before_commitAndNext : pos.Before cs.commitAndNext ↔ pos.Before cs ∨ pos = cs := by
  have heq : pos = cs ↔ pos.id = cs.id ∧ pos.countPopped = cs.countPopped := by
    constructor
    · rintro rfl
      exact ⟨rfl, rfl⟩
    · obtain ⟨id, countPopped⟩ := pos
      rintro ⟨rfl, rfl⟩
      rfl
  rw [heq]
  simp only [Before, commitAndNext]
  omega

/-- At the end all the messages are passed. -/
theorem AtEnd.before (h : cs.AtEnd parts) (hpos : pos.next parts = some data) : pos.Before cs := by
  obtain ⟨hid, hlt⟩ := lt_of_next hpos
  have hpart := h.part
  have hpopped := List.getElem?_eq_none_iff.1 h.next
  rcases Nat.lt_or_ge pos.id cs.id with hid' | hid'
  · exact .inl hid'
  · have heq : pos.id = cs.id := by omega
    rw [heq] at hlt
    exact .inr ⟨heq, by omega⟩

end Consumer

end

/-! ## What a turn does -/

namespace VedaModule

variable {m : VedaModule Indv} {parts : Parts} {s s' s'' : State Indv} {cs pos : Consumer}

/-- What a turn does to the consumer whose turn it is, and the calls that it makes. -/
inductive Effect (m : VedaModule Indv) (parts : Parts) (s : State Indv) (cs : Consumer)
    (s' : State Indv) : Prop
  /-- It has no message. -/
  | empty (hnext : cs.next parts = none) (hmain : s'.mainCs = s.mainCs.set s.i (cs.pop parts).2)
      (hcalls : s'.calls = s.calls ++ calls) (hbatch : ∀ c ∈ calls, ∃ i cs uri indv count,
        c = .batch i cs uri indv count)
  | skipped (hnext : cs.next parts = some (some msg)) (hown : m.own s.i msg = false)
      (hmain : s'.mainCs = s.mainCs.set s.i cs.commitAndNext) (hcalls : s'.calls = s.calls)
  | handled (hnext : cs.next parts = some (some msg)) (hown : m.own s.i msg = true)
      (hmain : s'.mainCs = s.mainCs.set s.i cs.commitAndNext)
      (hcalls : s'.calls = s.calls ++ [.message s.i cs msg prev new count])

/-- What is left of the batch queue. -/
def batchSize (s : State Indv) : ℕ := (s.prepareBatch.map List.length).getD 0

/-- How a turn ends. -/
inductive Ends (parts : Parts) (s : State Indv) (cs : Consumer) (s' : State Indv) :
    Step (State Indv) Unit → Prop
  /-- The next consumer has its turn. -/
  | passed (hnext : cs.next parts = none) (hi : s'.i = s.i + 1) (hlt : s.i + 1 < s.mainCs.length)
      (hbatch : batchSize s' = batchSize s) : Ends parts s cs s' (.next s')
  /-- An individual of the batch queue was prepared. -/
  | individual (hi : s'.i = 0) (hbatch : batchSize s' < batchSize s) : Ends parts s cs s' (.next s')
  | committed (hnext : cs.next parts ≠ none) (hi : s'.i ≤ s.i)
      (hbatch : batchSize s' = batchSize s) : Ends parts s cs s' (.next s')
  | left (hnext : cs.next parts = none) (hlast : s.mainCs.length ≤ s.i + 1)
      (hbatch : batchSize s' = batchSize s) : Ends parts s cs s' (.done () s')

theorem mem_of_next (h : cs.next parts = some data) : ∃ part ∈ parts, data ∈ part := by
  obtain ⟨hid, -⟩ := Consumer.lt_of_next h
  rw [Consumer.next, List.getElem?_eq_getElem hid] at h
  exact ⟨_, List.getElem_mem hid, List.mem_of_getElem? h⟩

/-- An individual of the batch queue is committed. -/
theorem prepareIndividual_eq (hprepare : ∀ calls call, m.prepare calls call = some .Ok)
    (cs : Consumer) (uri : String) (rest : List String) (s : State Indv) :
    ∃ calls, (m.prepareIndividual cs uri rest s).calls = s.calls ++ calls ∧
      (∀ c ∈ calls, ∃ i cs uri indv count, c = .batch i cs uri indv count) ∧
      (m.prepareIndividual cs uri rest s).mainCs = s.mainCs ∧
      (m.prepareIndividual cs uri rest s).i = 0 ∧
      (m.prepareIndividual cs uri rest s).prepareBatch = some rest := by
  rw [prepareIndividual]
  cases m.getIndividual uri with
  | none => exact ⟨[], (List.append_nil _).symm, fun _ h => (nomatch h), rfl, rfl, rfl⟩
  | some indv =>
    dsimp only
    rw [hprepare, Option.getD_some, if_pos (by simp)]
    refine ⟨[.batch s.i cs uri indv s.countReaded], rfl, ?_, rfl, rfl, rfl⟩
    intro c hc
    exact ⟨_, _, _, _, _, List.mem_singleton.1 hc⟩

theorem turn_empty (hprepare : ∀ calls call, m.prepare calls call = some .Ok)
    (hcs : s.mainCs[s.i]? = some cs) (hnext : cs.next parts = none) :
    ∃ s', m.Effect parts s cs s' ∧ Ends parts s cs s' (m.turn parts s) := by
  have hpop : cs.pop parts = (none, (cs.pop parts).2) := by
    simp only [Consumer.pop, hnext]
    split
    · rfl
    · rfl
  generalize hcs' : (cs.pop parts).2 = cs' at hpop
  rw [turn, hcs]
  dsimp only
  rw [hpop]
  dsimp only
  rw [List.length_set]
  rcases Nat.lt_or_ge (s.i + 1) s.mainCs.length with hi | hi
  · rw [if_pos ⟨rfl, hi⟩]
    refine ⟨_, ?_, .passed hnext rfl hi rfl⟩
    exact .empty hnext (by rw [hcs']) (List.append_nil _).symm fun _ h => nomatch h
  · rw [if_neg (by omega)]
    cases hbatch : s.prepareBatch with
    | none =>
      refine ⟨_, ?_, .left hnext hi ?_⟩
      · exact .empty hnext (by rw [hcs']) (List.append_nil _).symm fun _ h => nomatch h
      · simp [batchSize, hbatch]
    | some uris =>
      cases uris with
      | nil =>
        refine ⟨_, ?_, .left hnext hi ?_⟩
        · exact .empty hnext (by rw [hcs']) (List.append_nil _).symm fun _ h => nomatch h
        · simp [batchSize, hbatch]
      | cons uri rest =>
        obtain ⟨calls, hcalls, hbatch', hmain, hi', hrest⟩ := prepareIndividual_eq hprepare cs' uri
          rest { s with
            mainCs := s.mainCs.set s.i cs'
            prepareBatch := some (uri :: rest)
            countReaded := s.countReaded + 1 }
        refine ⟨_, ?_, .individual hi' ?_⟩
        · exact .empty hnext (by rw [hmain, hcs']) hcalls hbatch'
        · simp [batchSize, hbatch, hrest]

/-- Nothing but what is in a message and assigned to another consumer or subsystem is passed. -/
theorem turn_effect (hparts : ∀ part ∈ parts, none ∉ part)
    (hprepare : ∀ calls call, m.prepare calls call = some .Ok) (hcs : s.mainCs[s.i]? = some cs) :
    ∃ s', m.Effect parts s cs s' ∧ Ends parts s cs s' (m.turn parts s) := by
  cases hnext : cs.next parts with
  | none => exact turn_empty hprepare hcs hnext
  | some data =>
    cases data with
    | none =>
      obtain ⟨part, hpart, hmem⟩ := mem_of_next hnext
      exact absurd hmem (hparts part hpart)
    | some msg =>
      have hpop : cs.pop parts = (some (some msg), cs) := by
        rw [Consumer.pop, hnext]
      have hne : cs.next parts ≠ none := by simp [hnext]
      rw [turn, hcs]
      dsimp only
      rw [hpop]
      dsimp only
      rw [if_neg (by simp)]
      cases hskips : m.skips msg with
      | true =>
        rw [if_pos rfl]
        refine ⟨_, ?_, .committed hne (Nat.le_refl _) rfl⟩
        exact .skipped hnext (by simp [own, hskips]) (by simp [commit]) rfl
      | false =>
        rw [if_neg Bool.false_ne_true]
        cases hother : m.isOther s.i msg with
        | true =>
          rw [if_pos rfl]
          refine ⟨_, ?_, .committed hne (Nat.zero_le _) rfl⟩
          exact .skipped hnext (by simp [own, hother]) (by simp [commit]) rfl
        | false =>
          rw [if_neg Bool.false_ne_true, prepareMessage]
          dsimp only
          rw [hprepare]
          refine ⟨_, ?_, .committed hne (Nat.zero_le _) rfl⟩
          exact .handled hnext (by simp [own, hskips, hother]) (by simp [commit, ResultCode.repeats])
            rfl

/-! ## The calls of a consumer -/

/-- The message at a place is the consumer's own, and the consumer has passed it. -/
def Due (m : VedaModule Indv) (parts : Parts) (i : ℕ) (cs pos : Consumer) : Prop :=
  pos.Before cs ∧ ∃ msg, pos.next parts = some (some msg) ∧ m.own i msg = true

/-- Of two calls of a consumer, the first one is for the message that comes before. -/
def Follows : Call Indv → Call Indv → Prop
  | .message i cs .., .message j cs' .. => i = j → cs.Before cs'
  | _, _ => True

/-- Every consumer has prepared what is due to it, in order. -/
structure Inv (m : VedaModule Indv) (parts : Parts) (n : ℕ) (s : State Indv) : Prop where
  length : s.mainCs.length = n
  valid : ∀ (i : ℕ) (cs : Consumer), s.mainCs[i]? = some cs → cs.Valid parts
  due : ∀ (i : ℕ) (cs : Consumer), s.mainCs[i]? = some cs → ∀ pos, m.Due parts i cs pos →
    s.calls.countP (·.isFor i pos) = 1
  notDue : ∀ (i : ℕ) (cs : Consumer), s.mainCs[i]? = some cs → ∀ pos, ¬ m.Due parts i cs pos →
    s.calls.countP (·.isFor i pos) = 0
  made : ∀ i cs msg prev new count, .message i cs msg prev new count ∈ s.calls →
    i < n ∧ cs.next parts = some (some msg) ∧ m.own i msg = true
  ordered : s.calls.Pairwise Follows

theorem Inv.init (m : VedaModule Indv) (parts : Parts) (n : ℕ) (batch : Option (List String)) :
    Inv m parts n (.init n batch) := by
  have hinit : ∀ (i : ℕ) (cs : Consumer),
      (State.init n batch : State Indv).mainCs[i]? = some cs → cs = .init := by
    intro i cs hcs
    exact (List.mem_replicate.1 (List.mem_of_getElem? hcs)).2
  refine ⟨List.length_replicate, ?_, ?_, ?_, ?_, .nil⟩
  · intro i cs hcs
    rw [hinit i cs hcs]
    exact Nat.zero_le _
  · intro i cs hcs pos hdue
    have hbefore := hdue.1
    rw [hinit i cs hcs] at hbefore
    simp [Consumer.Before, Consumer.init] at hbefore
  · intro i cs hcs pos hdue
    rfl
  · intro i cs msg prev new count hcall
    cases hcall

/-- The consumers after a turn. -/
theorem getElem?_set_cases {l : List Consumer} (h : (l.set i cs)[j]? = some cs') :
    j = i ∧ cs' = cs ∨ j ≠ i ∧ l[j]? = some cs' := by
  rw [List.getElem?_set] at h
  split at h
  next hij =>
    split at h
    · exact .inl ⟨hij.symm, (Option.some.inj h).symm⟩
    · cases h
  next hij => exact .inr ⟨fun hji => hij hji.symm, h⟩

theorem not_before_self (cs : Consumer) : ¬ cs.Before cs := by
  simp [Consumer.Before]

theorem due_pop (hvalid : cs.Valid parts) (hnext : cs.next parts = none) :
    m.Due parts i (cs.pop parts).2 pos ↔ m.Due parts i cs pos := by
  refine and_congr_left fun hmsg => ?_
  obtain ⟨msg, hmsg, -⟩ := hmsg
  exact Consumer.before_pop hmsg hvalid hnext

theorem due_commitAndNext (hnext : cs.next parts = some (some msg)) :
    m.Due parts i cs.commitAndNext pos ↔ m.Due parts i cs pos ∨ pos = cs ∧ m.own i msg = true := by
  simp only [Due, Consumer.before_commitAndNext]
  constructor
  · rintro ⟨hbefore | rfl, msg', hmsg', hown⟩
    · exact .inl ⟨hbefore, msg', hmsg', hown⟩
    · rw [hnext] at hmsg'
      cases hmsg'
      exact .inr ⟨rfl, hown⟩
  · rintro (⟨hbefore, hmsg'⟩ | ⟨rfl, hown⟩)
    · exact ⟨.inl hbefore, hmsg'⟩
    · exact ⟨.inr rfl, msg, hnext, hown⟩

/-- Where the calls of the consumers are the same and what is due is the same. -/
theorem Inv.congr (h : Inv m parts n s) (hcs : s.mainCs[s.i]? = some cs)
    (hmain : s'.mainCs = s.mainCs.set s.i cs') (hvalid : cs'.Valid parts)
    (hcalls : s'.calls = s.calls ++ calls) (hbatch : ∀ c ∈ calls, ∃ i cs uri indv count,
      c = .batch i cs uri indv count)
    (hdue : ∀ pos, m.Due parts s.i cs' pos ↔ m.Due parts s.i cs pos) : Inv m parts n s' := by
  have hcount : ∀ i pos, s'.calls.countP (·.isFor i pos) = s.calls.countP (·.isFor i pos) := by
    intro i pos
    have hzero : calls.countP (·.isFor i pos) = 0 := by
      rw [List.countP_eq_zero]
      intro c hc
      obtain ⟨_, _, _, _, _, rfl⟩ := hbatch c hc
      exact Bool.false_ne_true
    rw [hcalls, List.countP_append, hzero, Nat.add_zero]
  refine ⟨by rw [hmain, List.length_set, h.length], ?_, ?_, ?_, ?_, ?_⟩
  · intro i cs₁ hcs₁
    rw [hmain] at hcs₁
    obtain ⟨rfl, rfl⟩ | ⟨-, hcs₁⟩ := getElem?_set_cases hcs₁
    · exact hvalid
    · exact h.valid i cs₁ hcs₁
  · intro i cs₁ hcs₁ pos hdue₁
    rw [hmain] at hcs₁
    rw [hcount]
    obtain ⟨rfl, rfl⟩ | ⟨-, hcs₁⟩ := getElem?_set_cases hcs₁
    · exact h.due _ cs hcs pos ((hdue pos).1 hdue₁)
    · exact h.due i cs₁ hcs₁ pos hdue₁
  · intro i cs₁ hcs₁ pos hdue₁
    rw [hmain] at hcs₁
    rw [hcount]
    obtain ⟨rfl, rfl⟩ | ⟨-, hcs₁⟩ := getElem?_set_cases hcs₁
    · exact h.notDue _ cs hcs pos fun hdue₂ => hdue₁ ((hdue pos).2 hdue₂)
    · exact h.notDue i cs₁ hcs₁ pos hdue₁
  · intro i cs₁ msg prev new count hcall
    rw [hcalls, List.mem_append] at hcall
    obtain hcall | hcall := hcall
    · exact h.made i cs₁ msg prev new count hcall
    · obtain ⟨_, _, _, _, _, hcall⟩ := hbatch _ hcall
      cases hcall
  · rw [hcalls, List.pairwise_append]
    refine ⟨h.ordered, ?_, ?_⟩
    · apply List.pairwise_of_forall_mem_list
      intro a ha b hb
      obtain ⟨_, _, _, _, _, rfl⟩ := hbatch a ha
      trivial
    · intro a ha b hb
      obtain ⟨_, _, _, _, _, rfl⟩ := hbatch b hb
      cases a <;> trivial

theorem Inv.handled (h : Inv m parts n s) (hcs : s.mainCs[s.i]? = some cs)
    (hnext : cs.next parts = some (some msg)) (hown : m.own s.i msg = true)
    (hmain : s'.mainCs = s.mainCs.set s.i cs.commitAndNext)
    (hcalls : s'.calls = s.calls ++ [.message s.i cs msg prev new count]) : Inv m parts n s' := by
  have hnotDue : ¬ m.Due parts s.i cs cs := fun hdue => not_before_self cs hdue.1
  have hcount : ∀ i pos, s'.calls.countP (·.isFor i pos) =
      s.calls.countP (·.isFor i pos) + if s.i = i ∧ cs = pos then 1 else 0 := by
    intro i pos
    rw [hcalls, List.countP_append]
    congr 1
    by_cases hat : s.i = i ∧ cs = pos <;> simp [Call.isFor, hat]
  refine ⟨by rw [hmain, List.length_set, h.length], ?_, ?_, ?_, ?_, ?_⟩
  · intro i cs₁ hcs₁
    rw [hmain] at hcs₁
    obtain ⟨rfl, rfl⟩ | ⟨-, hcs₁⟩ := getElem?_set_cases hcs₁
    · exact (Consumer.place_commitAndNext hnext).2.2
    · exact h.valid i cs₁ hcs₁
  · intro i cs₁ hcs₁ pos hdue
    rw [hmain] at hcs₁
    rw [hcount]
    obtain ⟨rfl, rfl⟩ | ⟨hi, hcs₁⟩ := getElem?_set_cases hcs₁
    · by_cases hpos : cs = pos
      · subst hpos
        rw [h.notDue _ cs hcs cs hnotDue, if_pos ⟨rfl, rfl⟩]
      · have hold := ((due_commitAndNext hnext).1 hdue).resolve_right fun h => hpos h.1.symm
        rw [h.due _ cs hcs pos hold, if_neg fun h => hpos h.2]
    · rw [h.due i cs₁ hcs₁ pos hdue, if_neg fun h => hi h.1.symm]
  · intro i cs₁ hcs₁ pos hdue
    rw [hmain] at hcs₁
    rw [hcount]
    obtain ⟨rfl, rfl⟩ | ⟨hi, hcs₁⟩ := getElem?_set_cases hcs₁
    · have hpos : cs ≠ pos := fun hpos => hdue ((due_commitAndNext hnext).2 (.inr ⟨hpos.symm, hown⟩))
      rw [if_neg fun h => hpos h.2]
      exact h.notDue _ cs hcs pos fun hold => hdue ((due_commitAndNext hnext).2 (.inl hold))
    · rw [h.notDue i cs₁ hcs₁ pos hdue, if_neg fun h => hi h.1.symm]
  · intro i cs₁ msg₁ prev₁ new₁ count₁ hcall
    rw [hcalls, List.mem_append] at hcall
    obtain hcall | hcall := hcall
    · exact h.made i cs₁ msg₁ prev₁ new₁ count₁ hcall
    · cases List.mem_singleton.1 hcall
      exact ⟨h.length ▸ (List.getElem?_eq_some_iff.1 hcs).1, hnext, hown⟩
  · rw [hcalls, List.pairwise_append]
    refine ⟨h.ordered, List.pairwise_singleton _ _, ?_⟩
    intro a ha b hb
    rw [List.mem_singleton.1 hb]
    cases a with
    | batch => trivial
    | message j pos msg₁ prev₁ new₁ count₁ =>
      rintro rfl
      by_contra hbefore
      have hzero := h.notDue _ cs hcs pos fun hdue => hbefore hdue.1
      rw [List.countP_eq_zero] at hzero
      exact hzero _ ha (by simp [Call.isFor])

theorem Inv.effect (h : Inv m parts n s) (hcs : s.mainCs[s.i]? = some cs)
    (heffect : m.Effect parts s cs s') : Inv m parts n s' := by
  have hvalid := h.valid _ cs hcs
  cases heffect with
  | empty hnext hmain hcalls hbatch =>
    exact h.congr hcs hmain (Consumer.place_pop hvalid hnext).2.1 hcalls hbatch fun pos =>
      due_pop hvalid hnext
  | skipped hnext hown hmain hcalls =>
    refine h.congr hcs hmain (Consumer.place_commitAndNext hnext).2.2
      (hcalls.trans (List.append_nil _).symm) (fun _ h => nomatch h) fun pos => ?_
    rw [due_commitAndNext hnext]
    simp [hown]
  | handled hnext hown hmain hcalls => exact h.handled hcs hnext hown hmain hcalls

/-! ## What is left to do -/

/-- The places that the consumers have before them, and the batch queue. -/
def rest (parts : Parts) (s : State Indv) : ℕ :=
  (s.mainCs.map fun cs => total parts - cs.place parts).sum + batchSize s

theorem sum_map_set (f : Consumer → ℕ) {l : List Consumer} (h : l[i]? = some cs) (cs' : Consumer) :
    ((l.set i cs').map f).sum + f cs = (l.map f).sum + f cs' := by
  induction l generalizing i with
  | nil => cases h
  | cons a l ih =>
    cases i with
    | zero =>
      cases h
      simp only [List.set_cons_zero, List.map_cons, List.sum_cons]
      omega
    | succ i =>
      have ih := ih (i := i) h
      simp only [List.set_cons_succ, List.map_cons, List.sum_cons]
      omega

/-- A turn leaves less to do, or the consumer is at the end and the next one has its turn. -/
theorem rest_turn (hcs : s.mainCs[s.i]? = some cs) (hvalid : cs.Valid parts)
    (heffect : m.Effect parts s cs s') (hends : Ends parts s cs s' outcome) :
    rest parts s' < rest parts s ∨
      rest parts s' = rest parts s ∧ cs.AtEnd parts ∧ s'.mainCs = s.mainCs ∧
        (s'.i = s.i + 1 ∨ s.mainCs.length ≤ s.i + 1 ∧ outcome = .done () s') := by
  have hmoved : ∀ cs', s'.mainCs = s.mainCs.set s.i cs' → batchSize s' ≤ batchSize s →
      cs'.place parts = cs.place parts + 1 → cs.place parts < total parts →
      rest parts s' < rest parts s := by
    intro cs' hmain hbatch hplace hlt
    have hsum := sum_map_set (fun cs => total parts - cs.place parts) hcs cs'
    simp only [hplace] at hsum
    rw [rest, rest, hmain]
    omega
  have hbatch : batchSize s' ≤ batchSize s := by
    cases hends with
    | passed _ _ _ hbatch => exact Nat.le_of_eq hbatch
    | individual _ hbatch => exact Nat.le_of_lt hbatch
    | committed _ _ hbatch => exact Nat.le_of_eq hbatch
    | left _ _ hbatch => exact Nat.le_of_eq hbatch
  cases heffect with
  | skipped hnext hown hmain hcalls =>
    obtain ⟨hplace, hlt, -⟩ := Consumer.place_commitAndNext hnext
    exact .inl (hmoved _ hmain hbatch hplace hlt)
  | handled hnext hown hmain hcalls =>
    obtain ⟨hplace, hlt, -⟩ := Consumer.place_commitAndNext hnext
    exact .inl (hmoved _ hmain hbatch hplace hlt)
  | empty hnext hmain hcalls hcallsBatch =>
    obtain ⟨-, -, ⟨hcs', hend⟩ | ⟨hplace, hlt⟩⟩ := Consumer.place_pop hvalid hnext
    · have hmain' : s'.mainCs = s.mainCs := by
        rw [hmain, hcs']
        obtain ⟨hlt, rfl⟩ := List.getElem?_eq_some_iff.1 hcs
        exact List.set_getElem_self hlt
      cases hends with
      | passed _ hi _ hbatch =>
        exact .inr ⟨by rw [rest, rest, hmain', hbatch], hend, hmain', .inl hi⟩
      | individual _ hbatch =>
        rw [rest, rest, hmain']
        exact .inl (by omega)
      | committed hne _ _ => exact absurd hnext hne
      | left _ hlast hbatch =>
        exact .inr ⟨by rw [rest, rest, hmain', hbatch], hend, hmain', .inr ⟨hlast, rfl⟩⟩
    · exact .inl (hmoved _ hmain hbatch hplace hlt)

section
variable (hparts : ∀ part ∈ parts, none ∉ part)
  (hprepare : ∀ calls call, m.prepare calls call = some .Ok)

include hparts hprepare

omit hparts hprepare in
theorem Ends.lt (hends : Ends parts s cs s' (.next s'')) (hlt : s.i < s.mainCs.length) :
    s'' = s' ∧ s'.i < s.mainCs.length := by
  cases hends with
  | passed hnext hi hlast hbatch => exact ⟨rfl, by omega⟩
  | individual hi hbatch => exact ⟨rfl, by omega⟩
  | committed hnext hi hbatch => exact ⟨rfl, by omega⟩

/-- The loop ends. -/
theorem exists_turns (h : Inv m parts n s) (hi : s.i < n) :
    ∃ fuel s', m.turns parts fuel s = some s' := by
  induction hmeasure : rest parts s * (n + 1) + (n - s.i) using Nat.strong_induction_on
    generalizing s with
  | _ measure ih =>
    have hlt : s.i < s.mainCs.length := h.length ▸ hi
    have hcs := List.getElem?_eq_getElem hlt
    obtain ⟨s', heffect, hends⟩ := turn_effect hparts hprepare hcs
    have hrest := rest_turn hcs (h.valid _ _ hcs) heffect hends
    cases hturn : m.turn parts s with
    | done r s'' =>
      refine ⟨1, s'', ?_⟩
      simp only [turns, hturn]
    | next s'' =>
      rw [hturn] at hends hrest
      obtain ⟨rfl, hi'⟩ := hends.lt hlt
      rw [h.length] at hi'
      have hdecrease : rest parts s'' * (n + 1) + (n - s''.i) < measure := by
        obtain hless | ⟨heq, -, -, hi₁ | ⟨-, hdone⟩⟩ := hrest
        · have hmul : (rest parts s'' + 1) * (n + 1) ≤ rest parts s * (n + 1) :=
            Nat.mul_le_mul_right _ hless
          rw [Nat.succ_mul] at hmul
          omega
        · rw [heq]
          omega
        · cases hdone
      obtain ⟨fuel, s₁, hturns⟩ := ih _ hdecrease (h.effect hcs heffect) hi' rfl
      refine ⟨fuel + 1, s₁, ?_⟩
      simp only [turns, hturn]
      exact hturns

/-- When the loop ends there is less to do, or all the consumers are at the end. -/
theorem turns_spec (h : Inv m parts n s) (hi : s.i < n)
    (hturns : m.turns parts fuel s = some s') :
    Inv m parts n s' ∧ rest parts s' ≤ rest parts s ∧
      ((∀ (j : ℕ) (cs : Consumer), j < s.i → s.mainCs[j]? = some cs → cs.AtEnd parts) →
        rest parts s' < rest parts s ∨ Drained parts s') := by
  induction fuel generalizing s with
  | zero => cases hturns
  | succ fuel ih =>
    have hlt : s.i < s.mainCs.length := h.length ▸ hi
    have hcs := List.getElem?_eq_getElem hlt
    obtain ⟨s₁, heffect, hends⟩ := turn_effect hparts hprepare hcs
    have hinv := h.effect hcs heffect
    have hrest := rest_turn hcs (h.valid _ _ hcs) heffect hends
    rw [turns] at hturns
    cases hturn : m.turn parts s with
    | done r s₂ =>
      rw [hturn] at hturns hends hrest
      cases hturns
      cases hends with
      | left hnext hlast hbatch =>
        refine ⟨hinv, ?_, fun hend => ?_⟩
        · omega
        · refine hrest.imp_right fun ⟨_, hcsEnd, hmain, _⟩ => ?_
          intro cs hmem
          rw [hmain] at hmem
          obtain ⟨j, hj⟩ := List.mem_iff_getElem?.1 hmem
          have hjlt := (List.getElem?_eq_some_iff.1 hj).1
          rcases Nat.lt_or_ge j s.i with hji | hji
          · exact hend j cs hji hj
          · have heq : j = s.i := by omega
            rw [heq, hcs] at hj
            cases hj
            exact hcsEnd
    | next s₂ =>
      rw [hturn] at hturns hends hrest
      obtain ⟨rfl, hi'⟩ := hends.lt hlt
      rw [h.length] at hi'
      obtain ⟨hinv', hle, hdrained⟩ := ih hinv hi' hturns
      refine ⟨hinv', ?_, fun hend => ?_⟩
      · omega
      · obtain hless | ⟨heq, hcsEnd, hmain, hi₁ | ⟨-, hdone⟩⟩ := hrest
        · exact .inl (Nat.lt_of_le_of_lt hle hless)
        · rw [← heq]
          apply hdrained
          intro j cs hj hjcs
          rw [hmain] at hjcs
          rcases Nat.lt_or_ge j s.i with hji | hji
          · exact hend j cs hji hjcs
          · have heq : j = s.i := by omega
            rw [heq, hcs] at hjcs
            cases hjcs
            exact hcsEnd
        · cases hdone

/-! ## Runs -/

omit hparts hprepare in
theorem Inv.restart (h : Inv m parts n s) : Inv m parts n { s with i := 0 } :=
  ⟨h.length, h.valid, h.due, h.notDue, h.made, h.ordered⟩

theorem prepareQueue_spec (h : Inv m parts n s) (hn : 0 < n)
    (hrun : m.prepareQueue parts fuel s = some s') :
    Inv m parts n s' ∧ (rest parts s' < rest parts s ∨ Drained parts s') := by
  obtain ⟨hinv, -, hdrained⟩ := turns_spec hparts hprepare h.restart hn hrun
  exact ⟨hinv, hdrained fun j cs hj => absurd hj (Nat.not_lt_zero j)⟩

theorem Inv.runs (h : Inv m parts n s) (hn : 0 < n) (hruns : m.Runs parts s s') :
    Inv m parts n s' := by
  induction hruns with
  | refl => exact h
  | run hrun hrest ih => exact ih (prepareQueue_spec hparts hprepare h hn hrun).1

/-- The queue is drained at some time. -/
theorem exists_drained (h : Inv m parts n s) (hn : 0 < n) :
    ∃ s', m.Runs parts s s' ∧ Drained parts s' := by
  induction hmeasure : rest parts s using Nat.strong_induction_on generalizing s with
  | _ measure ih =>
    obtain ⟨fuel, s', hturns⟩ := exists_turns hparts hprepare h.restart hn
    obtain ⟨hinv, hless | hdrained⟩ := prepareQueue_spec hparts hprepare h hn hturns
    · obtain ⟨s'', hruns, hdrained⟩ := ih _ (hmeasure ▸ hless) hinv rfl
      exact ⟨s'', .run hturns hruns, hdrained⟩
    · exact ⟨s', .run hturns .refl, hdrained⟩

end

/-! ## The messages of a drained queue -/

/-- The consumers that take a message as their own. -/
theorem countP_isAt (h : Inv m parts n s) (pos : Consumer) :
    s.calls.countP (·.isAt pos) =
      ∑ i ∈ Finset.range n, s.calls.countP (·.isFor i pos) := by
  have hmade : ∀ i cs msg prev new count, .message i cs msg prev new count ∈ s.calls → i < n :=
    fun i cs msg prev new count hcall => (h.made i cs msg prev new count hcall).1
  generalize s.calls = calls at hmade
  induction calls with
  | nil => simp
  | cons c calls ih =>
    have ih := ih fun i cs msg prev new count hcall =>
      hmade i cs msg prev new count (List.mem_cons_of_mem _ hcall)
    simp only [List.countP_cons, Finset.sum_add_distrib, ih]
    congr 1
    cases c with
    | batch => simp [Call.isAt, Call.isFor]
    | message i cs msg prev new count =>
      have hi := hmade i cs msg prev new count List.mem_cons_self
      by_cases hpos : cs = pos
      · simp only [Call.isAt, Call.isFor, hpos, decide_true, Bool.and_true, decide_eq_true_eq,
          if_true]
        rw [Finset.sum_ite_eq, if_pos (Finset.mem_range.2 hi)]
      · simp [Call.isAt, Call.isFor, hpos]

theorem Inv.countP_drained (h : Inv m parts n s) (hdrained : Drained parts s)
    (hpos : pos.next parts = some (some msg)) :
    s.calls.countP (·.isAt pos) = ∑ i ∈ Finset.range n, if m.own i msg then 1 else 0 := by
  rw [countP_isAt h]
  refine Finset.sum_congr rfl fun i hi => ?_
  have hlt : i < s.mainCs.length := by
    rw [h.length]
    exact Finset.mem_range.1 hi
  have hcs := List.getElem?_eq_getElem hlt
  have hbefore := (hdrained _ (List.getElem_mem hlt)).before hpos
  split
  next hown => exact h.due i _ hcs pos ⟨hbefore, msg, hpos, hown⟩
  next hown =>
    refine h.notDue i _ hcs pos fun ⟨_, msg', hmsg', hown'⟩ => hown ?_
    rw [hpos] at hmsg'
    cases hmsg'
    exact hown'

theorem sum_own_skipped (n : ℕ) (h : m.skips msg = true) :
    (∑ i ∈ Finset.range n, if m.own i msg then 1 else 0) = 0 := by
  simp [own, h]

/-- A message with a user is taken by the consumer of the priority of the user. -/
theorem sum_own_addressed {n : ℕ} (h : m.skips msg = false) (haddressed : Addressed msg)
    (hpriority : ∀ uri, 0 ≤ m.priority uri ∧ m.priority uri < n) :
    (∑ i ∈ Finset.range n, if m.own i msg then 1 else 0) = 1 := by
  obtain ⟨uri, huri, hsize⟩ := haddressed
  obtain ⟨hnonneg, hlt⟩ := hpriority uri
  have hown : ∀ i, m.own i msg = true ↔ (m.priority uri).toNat = i := by
    intro i
    simp only [own, h, isOther, huri, hsize, Bool.not_false, decide_true, Bool.true_and,
      Bool.not_eq_true', bne_eq_false_iff_eq]
    omega
  simp only [hown]
  rw [Finset.sum_ite_eq, if_pos]
  rw [Finset.mem_range]
  omega

/-- A message without one is taken by all. -/
theorem sum_own_unaddressed (n : ℕ) (h : m.skips msg = false) (haddressed : ¬ Addressed msg) :
    (∑ i ∈ Finset.range n, if m.own i msg then 1 else 0) = n := by
  have hother : ∀ i, m.isOther i msg = false := by
    intro i
    rw [isOther]
    split
    · rfl
    next uri huri =>
      have hsize : ¬ 3 < uri.utf8ByteSize := fun hsize => haddressed ⟨uri, huri, hsize⟩
      simp [hsize]
  simp [own, h, hother]

theorem priority_of_own (hown : m.own i msg = true) (haddressed : Addressed msg) :
    msg.userUri.map m.priority = some (i : ℤ) := by
  obtain ⟨uri, huri, hsize⟩ := haddressed
  simp only [own, isOther, huri, hsize, decide_true, Bool.true_and, Bool.and_eq_true,
    Bool.not_eq_true', bne_eq_false_iff_eq] at hown
  rw [huri, Option.map_some, hown.2]

theorem addressed_of_own (hown : m.own i msg = true) (hnext : cs.next parts = some (some msg))
    (haddressed : ∀ part ∈ parts, ∀ msg, some msg ∈ part → m.skips msg = false → Addressed msg) :
    Addressed msg := by
  obtain ⟨part, hpart, hmsg⟩ := mem_of_next hnext
  rw [own, Bool.and_eq_true, Bool.not_eq_true'] at hown
  exact haddressed part hpart msg hmsg hown.1

/-- Messages of one priority are prepared by one consumer. -/
theorem Inv.inOrder (h : Inv m parts n s)
    (hpriority : ∀ uri, 0 ≤ m.priority uri ∧ m.priority uri < n)
    (haddressed : n = 1 ∨ ∀ part ∈ parts, ∀ msg, some msg ∈ part → m.skips msg = false →
      Addressed msg) : s.calls.Pairwise (Call.InOrder m) := by
  refine h.ordered.imp_of_mem fun {a b} ha hb hfollows => ?_
  cases a with
  | batch => trivial
  | message i cs msg prev new count =>
    cases b with
    | batch => trivial
    | message j cs' msg' prev' new' count' =>
      intro hsame
      apply hfollows
      obtain ⟨hi, hnext, hown⟩ := h.made _ _ _ _ _ _ ha
      obtain ⟨hj, hnext', hown'⟩ := h.made _ _ _ _ _ _ hb
      obtain rfl | haddressed := haddressed
      · omega
      · rw [priority_of_own hown (addressed_of_own hown hnext haddressed),
          priority_of_own hown' (addressed_of_own hown' hnext' haddressed)] at hsame
        exact Int.natCast_inj.1 (Option.some.inj hsame)

/-- A module with two consumers, one of them for a user with low priority. -/
def twoPriorities : VedaModule String where
  subsystemId := 8
  priority userUri := if userUri = "d:batch" then 1 else 0
  deserialize := some
  getIndividual := some
  prepare _ _ := some .Ok

/-- A message for all the subsystems. -/
def saved (userUri : Option String) : Message :=
  ⟨1, some "d:a", none, userUri, none, none, 0, 0, 1⟩

end VedaModule

end Veda.Vmodule
