import Mathlib.Data.List.Perm.Basic
import Veda.Vmodule.PrepareQueue

/-! # A message that cannot be read

When the loop of `prepare_queue` ends. The consumers take turns: one that is at the end of its part
hands over to the one after it, and with each message that it does not skip the consumers before it
are gone through again, which gets each of them to the end of one part more. So it is known from the
start which messages are come to (`reached`). The loop does not commit a message that cannot be
deserialized, and comes to it for ever. -/

namespace Veda.Vmodule

variable {Indv : Type}

namespace Consumer

/-- What a consumer has before it, part by part. -/
def left (parts : Parts) (cs : Consumer) : List (List (Option Message)) :=
  match parts.drop cs.id with
  | [] => []
  | part :: rest => part.drop cs.countPopped :: rest

/-- What a consumer comes to up to the end of its `n`-th part from here. -/
def comesTo (parts : Parts) (n : ℕ) (cs : Consumer) : List (Option Message) :=
  ((cs.left parts).take n).flatten

end Consumer

namespace VedaModule

variable (m : VedaModule Indv) (parts : Parts)

/-- The message is not skipped, so that the loop goes back to the first consumer. -/
def restarts (data : Option Message) : Bool := data.any (!m.skips ·)

/-- How many parts the consumers before some others get through while these get to the ends of
theirs, if the last one gets through `n`. -/
def rounds (n : ℕ) : List Consumer → ℕ
  | [] => n
  | cs :: rest => rounds n rest + (cs.comesTo parts (rounds n rest)).countP m.restarts

/-- The messages that the consumers come to. -/
def reached (n : ℕ) : List Consumer → List (Option Message)
  | [] => []
  | cs :: rest => cs.comesTo parts (m.rounds parts n rest) ++ reached n rest

/-- The messages that are still come to. The consumers before the present one were gone through
already. -/
def toCome (s : State Indv) : List (Option Message) :=
  m.reached parts (m.rounds parts 1 (s.mainCs.drop s.i) - 1) (s.mainCs.take s.i) ++
    m.reached parts 1 (s.mainCs.drop s.i)

end VedaModule

/-! ## Consumers -/

namespace Consumer

variable {parts : Parts} {cs : Consumer} {part : List (Option Message)}

theorem left_of_drop (h : parts.drop cs.id = part :: rest) :
    cs.left parts = part.drop cs.countPopped :: rest := by
  rw [left, h]

theorem left_of_le (h : parts.length ≤ cs.id) : cs.left parts = [] := by
  rw [left, List.drop_eq_nil_of_le h]

/-- The part that a consumer is in. -/
theorem next_of_drop (h : parts.drop cs.id = part :: rest) :
    cs.next parts = part[cs.countPopped]? := by
  have hpart : parts[cs.id]? = some part := by
    rw [← List.head?_drop, h, List.head?_cons]
  rw [next, hpart, Option.getD_some]

theorem next_of_le (h : parts.length ≤ cs.id) : cs.next parts = none := by
  rw [next, List.getElem?_eq_none h]
  rfl

theorem pop_message (h : cs.next parts = some data) : cs.pop parts = (some data, cs) := by
  rw [pop, h]

theorem comesTo_message (n : ℕ) (h : cs.next parts = some data) :
    cs.comesTo parts (n + 1) = data :: cs.commitAndNext.comesTo parts (n + 1) := by
  cases hdrop : parts.drop cs.id with
  | nil =>
    rw [next_of_le (List.drop_eq_nil_iff.1 hdrop)] at h
    cases h
  | cons part rest =>
    rw [next_of_drop hdrop] at h
    have hcons : part.drop cs.countPopped = data :: part.drop (cs.countPopped + 1) := by
      obtain ⟨hlt, hdata⟩ := List.getElem?_eq_some_iff.1 h
      rw [List.drop_eq_getElem_cons hlt, hdata]
    have hleft : cs.commitAndNext.left parts = part.drop (cs.countPopped + 1) :: rest :=
      left_of_drop hdrop
    rw [comesTo, comesTo, left_of_drop hdrop, hleft, hcons, List.take_succ_cons,
      List.take_succ_cons, List.flatten_cons, List.flatten_cons, List.cons_append]

/-- At the end of a part, what a consumer comes to is in the parts after it. -/
theorem comesTo_end (n : ℕ) (h : cs.next parts = none) :
    (cs.pop parts).1 = none ∧ cs.comesTo parts (n + 1) = (cs.pop parts).2.comesTo parts n := by
  cases hdrop : parts.drop cs.id with
  | nil =>
    have hle := List.drop_eq_nil_iff.1 hdrop
    have hpop : cs.pop parts = (none, cs) := by
      rw [pop, h]
      exact if_neg (by omega)
    rw [hpop, comesTo, comesTo, left_of_le hle, List.take_nil, List.take_nil]
    exact ⟨rfl, rfl⟩
  | cons part rest =>
    rw [next_of_drop hdrop, List.getElem?_eq_none_iff] at h
    have hleft := left_of_drop hdrop
    rw [List.drop_eq_nil_of_le h] at hleft
    have hrest : parts.drop (cs.id + 1) = rest := by
      rw [← List.tail_drop, hdrop, List.tail_cons]
    have hnext : cs.next parts = none := by
      rw [next_of_drop hdrop, List.getElem?_eq_none_iff]
      exact h
    cases rest with
    | nil =>
      have hle := List.drop_eq_nil_iff.1 hrest
      have hpop : cs.pop parts = (none, cs) := by
        rw [pop, hnext]
        exact if_neg (by omega)
      rw [hpop, comesTo, comesTo, hleft]
      refine ⟨rfl, ?_⟩
      cases n with
      | zero => rfl
      | succ n => rw [List.take_succ_cons, List.take_succ_cons, List.take_nil, List.take_nil]
    | cons part' rest' =>
      have hlt : cs.id + 1 < parts.length := by
        by_contra hle
        rw [List.drop_eq_nil_of_le (Nat.le_of_not_lt hle)] at hrest
        cases hrest
      have hpop : cs.pop parts = (none, ⟨cs.id + 1, 0⟩) := by
        rw [pop, hnext]
        exact if_pos hlt
      have hleft' : left parts ⟨cs.id + 1, 0⟩ = part' :: rest' := left_of_drop hrest
      rw [hpop, comesTo, comesTo, hleft, hleft', List.take_succ_cons, List.flatten_cons,
        List.nil_append]
      exact ⟨rfl, rfl⟩

end Consumer

/-! ## Consumers one after the other -/

namespace VedaModule

variable {m : VedaModule Indv} {parts : Parts} {n : ℕ}

theorem rounds_append (before after : List Consumer) :
    m.rounds parts n (before ++ after) = m.rounds parts (m.rounds parts n after) before := by
  induction before with
  | nil => rfl
  | cons cs before ih => rw [List.cons_append, rounds, ih, rounds]

theorem reached_append (before after : List Consumer) :
    m.reached parts n (before ++ after) =
      m.reached parts (m.rounds parts n after) before ++ m.reached parts n after := by
  induction before with
  | nil => rfl
  | cons cs before ih =>
    rw [List.cons_append, reached, ih, rounds_append, reached, List.append_assoc]

theorem le_rounds (l : List Consumer) : n ≤ m.rounds parts n l := by
  induction l with
  | nil => exact Nat.le_refl n
  | cons cs l ih => exact Nat.le_trans ih (Nat.le_add_right _ _)

theorem comesTo_zero (cs : Consumer) : cs.comesTo parts 0 = [] := rfl

theorem rounds_zero (l : List Consumer) : m.rounds parts 0 l = 0 := by
  induction l with
  | nil => rfl
  | cons cs l ih => rw [rounds, ih, comesTo_zero, List.countP_nil]

theorem reached_zero (l : List Consumer) : m.reached parts 0 l = [] := by
  induction l with
  | nil => rfl
  | cons cs l ih => rw [reached, rounds_zero, comesTo_zero, ih, List.nil_append]

/-! ## A turn of the loop -/

/-- The consumer whose turn it is, with the ones before and after it. -/
structure At (s : State Indv) (before : List Consumer) (cs : Consumer) (after : List Consumer) :
    Prop where
  mainCs : s.mainCs = before ++ cs :: after
  i : s.i = before.length
  batch : s.prepareBatch = none

theorem At.get {s : State Indv} (h : At s before cs after) : s.mainCs[s.i]? = some cs := by
  rw [h.mainCs, h.i, List.getElem?_append_right (Nat.le_refl _), Nat.sub_self]
  rfl

theorem At.set {s : State Indv} (h : At s before cs after) (cs' : Consumer) :
    s.mainCs.set s.i cs' = before ++ cs' :: after := by
  rw [h.mainCs, h.i, List.set_append_right _ _ (Nat.le_refl _), Nat.sub_self]
  rfl

theorem At.toCome {s : State Indv} (h : At s before cs after) :
    m.toCome parts s = m.reached parts (m.rounds parts 1 (cs :: after) - 1) before ++
      (cs.comesTo parts (m.rounds parts 1 after) ++ m.reached parts 1 after) := by
  rw [VedaModule.toCome, h.mainCs, h.i, List.take_left, List.drop_left]
  rfl

/-- Where the loop goes back to the first consumer. -/
theorem toCome_first {s : State Indv} (h : s.i = 0) :
    m.toCome parts s = m.reached parts 1 s.mainCs := by
  rw [toCome, h, List.take_zero, List.drop_zero]
  rfl

/-- There is a consumer whose turn it is. -/
theorem exists_at {s : State Indv} (h : s.i < s.mainCs.length) (hbatch : s.prepareBatch = none) :
    ∃ before cs after, At s before cs after := by
  refine ⟨s.mainCs.take s.i, s.mainCs[s.i], s.mainCs.drop (s.i + 1), ?_, ?_, hbatch⟩
  · rw [← List.drop_eq_getElem_cons h, List.take_append_drop]
  · rw [List.length_take, Nat.min_eq_left (Nat.le_of_lt h)]

theorem exists_rounds (m : VedaModule Indv) (parts : Parts) (after : List Consumer) :
    ∃ n, m.rounds parts 1 after = n + 1 :=
  ⟨m.rounds parts 1 after - 1, (Nat.sub_add_cancel (le_rounds after)).symm⟩

section
variable {s s' : State Indv} {before after : List Consumer} {cs : Consumer}

/-- A skipped message is committed. -/
theorem toCome_skip (h : At s before cs after) (hnext : cs.next parts = some data)
    (hdata : m.restarts data = false) (h' : At s' before cs.commitAndNext after) :
    (m.toCome parts s).Perm (data :: m.toCome parts s') := by
  obtain ⟨n, hn⟩ := exists_rounds m parts after
  have hrounds : m.rounds parts 1 (cs :: after) = m.rounds parts 1 (cs.commitAndNext :: after) := by
    rw [rounds, rounds, hn, Consumer.comesTo_message n hnext, List.countP_cons_of_neg]
    rw [hdata]
    exact Bool.false_ne_true
  rw [h.toCome, h'.toCome, hrounds, hn, Consumer.comesTo_message n hnext, List.cons_append]
  exact List.perm_middle

/-- Another message is committed, and the consumers before are gone through again. -/
theorem toCome_restart (h : At s before cs after) (hnext : cs.next parts = some data)
    (hdata : m.restarts data = true) (h' : s'.mainCs = before ++ cs.commitAndNext :: after)
    (hi : s'.i = 0) : (m.toCome parts s).Perm (data :: m.toCome parts s') := by
  obtain ⟨n, hn⟩ := exists_rounds m parts after
  have hrounds : m.rounds parts 1 (cs :: after) - 1 =
      m.rounds parts 1 (cs.commitAndNext :: after) := by
    rw [rounds, rounds, hn, Consumer.comesTo_message n hnext, List.countP_cons_of_pos hdata]
    rfl
  rw [h.toCome, toCome_first hi, h', reached_append, hrounds, reached, hn,
    Consumer.comesTo_message n hnext, List.cons_append]
  exact List.perm_middle

/-- The end of a part. -/
theorem toCome_handOver (h : At s before cs after) (hnext : cs.next parts = none)
    (h' : s'.mainCs = before ++ (cs.pop parts).2 :: after)
    (hi : s'.i = s.i + 1) : m.toCome parts s' = m.toCome parts s := by
  obtain ⟨n, hn⟩ := exists_rounds m parts after
  obtain ⟨-, hcomes⟩ := Consumer.comesTo_end n hnext
  have htake : s'.mainCs.take s'.i = before ++ [(cs.pop parts).2] := by
    rw [h', hi, h.i, List.append_cons]
    exact List.take_left' (by rw [List.length_append, List.length_singleton])
  have hdrop : s'.mainCs.drop s'.i = after := by
    rw [h', hi, h.i, List.append_cons]
    exact List.drop_left' (by rw [List.length_append, List.length_singleton])
  have hrounds : m.rounds parts 1 (cs :: after) - 1 = m.rounds parts n [(cs.pop parts).2] := by
    rw [rounds, hn, hcomes, rounds, rounds]
    omega
  rw [h.toCome, hrounds, hn, hcomes, toCome, htake, hdrop, hn, Nat.add_sub_cancel, reached_append,
    List.append_assoc, reached, reached, List.append_nil]
  rfl

/-- The end of the part of the last consumer. -/
theorem toCome_end (h : At s before cs []) (hnext : cs.next parts = none) :
    m.toCome parts s = [] := by
  have hcomes : cs.comesTo parts 1 = [] := (Consumer.comesTo_end 0 hnext).2
  have hrounds : m.rounds parts 1 [cs] = 1 := by
    rw [rounds, rounds, hcomes, List.countP_nil]
  rw [h.toCome, hrounds, reached_zero, rounds, hcomes]
  rfl

/-- A message that stays. -/
theorem mem_reached (hnext : cs.next parts = some data) :
    data ∈ m.reached parts 1 (before ++ cs :: after) := by
  obtain ⟨n, hn⟩ := exists_rounds m parts after
  rw [reached_append, reached, hn, Consumer.comesTo_message n hnext]
  exact List.mem_append_right _ (List.mem_append_left _ List.mem_cons_self)

theorem mem_toCome (h : At s before cs after) (hnext : cs.next parts = some data) :
    data ∈ m.toCome parts s := by
  obtain ⟨n, hn⟩ := exists_rounds m parts after
  rw [h.toCome, hn, Consumer.comesTo_message n hnext]
  exact List.mem_append_right _ (List.mem_append_left _ List.mem_cons_self)

end

/-- The loop goes on with as many consumers and without a batch queue. -/
structure GoesOn (s s' : State Indv) : Prop where
  length : s'.mainCs.length = s.mainCs.length
  lt : s'.i < s'.mainCs.length
  batch : s'.prepareBatch = none

/-- What a turn does. -/
inductive Goes (m : VedaModule Indv) (parts : Parts) (s : State Indv) :
    Step (State Indv) Unit → Prop
  /-- A message is committed. -/
  | message (hon : GoesOn s s') (h : (m.toCome parts s).Perm (some msg :: m.toCome parts s')) :
    Goes m parts s (.next s')
  /-- It is the turn of the next consumer. -/
  | handOver (hon : GoesOn s s') (h : m.toCome parts s' = m.toCome parts s) (hi : s'.i = s.i + 1) :
    Goes m parts s (.next s')
  /-- A message that cannot be deserialized is not committed. -/
  | bad (hon : GoesOn s s') (h : none ∈ m.toCome parts s) (h' : none ∈ m.toCome parts s') :
    Goes m parts s (.next s')
  | ends (h : m.toCome parts s = []) : Goes m parts s (.done () s')

/-- `prepare` answers, and not that the message is to be prepared again. -/
def Answers (m : VedaModule Indv) : Prop :=
  ∀ calls call, ∃ res, m.prepare calls call = some res ∧ res.repeats = false

theorem prepareMessage_eq (hprepare : m.Answers) (cs : Consumer) (msg : Message)
    (s : State Indv) :
    (m.prepareMessage cs msg s).mainCs = s.mainCs.set s.i cs.commitAndNext ∧
      (m.prepareMessage cs msg s).i = 0 ∧
      (m.prepareMessage cs msg s).prepareBatch = s.prepareBatch := by
  obtain ⟨res, hres, hrepeats⟩ := hprepare s.calls
    (.message s.i cs msg (m.prevIndv msg) (m.newIndv msg) s.countReaded)
  simp only [prepareMessage, hres, hrepeats]
  exact ⟨rfl, rfl, rfl⟩

section
variable {s s' : State Indv} {before after : List Consumer} {cs : Consumer}

theorem turn_goes (hprepare : m.Answers) (h : At s before cs after) :
    Goes m parts s (m.turn parts s) := by
  have hlength : s.mainCs.length = before.length + (after.length + 1) := by
    rw [h.mainCs, List.length_append, List.length_cons]
  cases hnext : cs.next parts with
  | none =>
    have hpop := (Consumer.comesTo_end 0 hnext).1
    simp only [turn, h.get, hpop, Option.isNone_none, true_and, List.length_set]
    by_cases hi : s.i + 1 < s.mainCs.length
    · rw [if_pos hi]
      refine .handOver ⟨List.length_set, ?_, h.batch⟩ (toCome_handOver h hnext (h.set _) rfl) rfl
      rw [List.length_set]
      exact hi
    · rw [if_neg hi, h.batch]
      have hafter : after = [] := List.length_eq_zero_iff.1 (by rw [h.i] at hi; omega)
      exact .ends (toCome_end (hafter ▸ h) hnext)
  | some data =>
    have hset : s.mainCs.set s.i cs = s.mainCs := (h.set cs).trans h.mainCs.symm
    simp only [turn, h.get, Consumer.pop_message hnext, Option.isNone_some, Bool.false_eq_true,
      false_and, if_false, hset]
    have hlt : 0 < s.mainCs.length := by omega
    cases data with
    | none =>
      refine .bad ⟨rfl, hlt, h.batch⟩ (mem_toCome h hnext) ?_
      rw [toCome_first rfl, h.mainCs]
      exact mem_reached hnext
    | some msg =>
      simp only [commit]
      by_cases hskips : m.skips msg = true
      · rw [if_pos hskips]
        refine .message ⟨List.length_set, ?_, h.batch⟩
          (toCome_skip h hnext ?_ ⟨h.set _, h.i, h.batch⟩)
        · rw [List.length_set, hlength, h.i]
          omega
        · rw [restarts, Option.any_some, hskips, Bool.not_true]
      · have hrestarts : m.restarts (some msg) = true := by
          rw [restarts, Option.any_some, Bool.eq_false_iff.2 hskips, Bool.not_false]
        rw [if_neg hskips]
        split
        · refine .message ⟨List.length_set, ?_, h.batch⟩
            (toCome_restart h hnext hrestarts (h.set _) rfl)
          rw [List.length_set]
          exact hlt
        · obtain ⟨hmain, hi, hbatch⟩ := prepareMessage_eq hprepare cs msg
            { s with countReaded := s.countReaded + 1 }
          refine .message ⟨?_, ?_, hbatch.trans h.batch⟩
            (toCome_restart h hnext hrestarts (hmain.trans (h.set _)) hi)
          · rw [hmain, List.length_set]
          · rw [hmain, hi, List.length_set]
            exact hlt

/-! ## The loop -/

/-- The loop comes to an end if there is no message that it stays at. -/
theorem turns_end (hprepare : m.Answers) (hi : s.i < s.mainCs.length)
    (hbatch : s.prepareBatch = none) (hnone : none ∉ m.toCome parts s) :
    ∃ fuel s', m.turns parts fuel s = some s' := by
  generalize hrest : (m.toCome parts s).length = rest
  generalize hlater : s.mainCs.length - s.i = later
  -- a turn leaves fewer messages, or as many with fewer consumers left
  induction rest using Nat.strongRecOn generalizing s later with
  | ind rest ihRest =>
  induction later using Nat.strongRecOn generalizing s with
  | ind later ihLater =>
    obtain ⟨before, cs, after, hat⟩ := exists_at hi hbatch
    have hgoes : Goes m parts s (m.turn parts s) := turn_goes hprepare hat
    cases hturn : m.turn parts s with
    | done _ s' => exact ⟨1, s', by rw [turns, hturn]⟩
    | next s' =>
      rw [hturn] at hgoes
      have hmore : ∃ fuel s'', m.turns parts fuel s' = some s'' := by
        cases hgoes with
        | message hon h =>
          have hlength := h.length_eq
          rw [List.length_cons] at hlength
          exact ihRest (m.toCome parts s').length (by omega) hon.lt hon.batch
            (fun hmem => hnone (h.mem_iff.2 (List.mem_cons_of_mem _ hmem))) rfl _ rfl
        | handOver hon h hnext =>
          have hlength := hon.length
          exact ihLater (s'.mainCs.length - s'.i) (by omega) hon.lt hon.batch (h ▸ hnone)
            (h ▸ hrest) rfl
        | bad _ h _ => exact absurd h hnone
      obtain ⟨fuel, s'', hturns⟩ := hmore
      exact ⟨fuel + 1, s'', by rw [turns, hturn]; exact hturns⟩

/-- It goes on for ever with a message that it stays at. -/
theorem turns_eq_none (hprepare : m.Answers) (hi : s.i < s.mainCs.length)
    (hbatch : s.prepareBatch = none) (hnone : none ∈ m.toCome parts s) (fuel : ℕ) :
    m.turns parts fuel s = none := by
  induction fuel generalizing s with
  | zero => rfl
  | succ fuel ih =>
    obtain ⟨before, cs, after, hat⟩ := exists_at hi hbatch
    have hgoes : Goes m parts s (m.turn parts s) := turn_goes hprepare hat
    cases hturn : m.turn parts s with
    | done _ s' =>
      rw [hturn] at hgoes
      cases hgoes with
      | ends h =>
        rw [h] at hnone
        cases hnone
    | next s' =>
      rw [hturn] at hgoes
      rw [turns, hturn]
      cases hgoes with
      | message hon h =>
        have hmem := (List.mem_cons.1 (h.mem_iff.1 hnone)).resolve_left (Option.some_ne_none _).symm
        exact ih hon.lt hon.batch hmem
      | handOver hon h _ => exact ih hon.lt hon.batch (h ▸ hnone)
      | bad hon _ h => exact ih hon.lt hon.batch h

end

/-- A module with one consumer, or with two of them for users with low priority. -/
def indexer : VedaModule String where
  subsystemId := 8
  priority userUri := if userUri = "d:batch" then 1 else 0
  deserialize := some
  getIndividual := some
  prepare _ _ := some .Ok

theorem answers_indexer : indexer.Answers := fun _ _ => ⟨.Ok, rfl, rfl⟩

/-- A message of a user, for all the subsystems. -/
def message (userUri : String) : Message :=
  ⟨1, some "d:a", none, some userUri, none, none, 0, 0, 1⟩

end VedaModule

end Veda.Vmodule
