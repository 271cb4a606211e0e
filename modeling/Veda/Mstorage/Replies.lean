import Veda.Mstorage.IndividualsManager

/-! # One reply for each request

Those who save match replies to requests by their order. So every request needs exactly one reply,
and a `PUT` that a frozen manager refuses must have no effect. -/

namespace Veda.Mstorage.IndividualsManager

open Run

variable {s : State} {r : SaveRequest} {ti : TransactionItem} {o : Outcome}

/-- A `PUT` that arrives between `FREEZE` and `UNFREEZE`. -/
def PutWhileFrozen (r : SaveRequest) (ti : TransactionItem) (s : State) : Prop :=
  r.optFreeze = .none ∧ s.isFreeze ∧ ti.cmd = .put

/-- One reply to a request to save, and none to anything else. -/
def AnsweredOnce : Message → State → Prop
  | .save r o, s => ∃ rc, (s.handleSave r o).replies = s.replies ++ [rc]
  | e, s => (step e s).replies = s.replies

/-- A refused `PUT` changes neither the storage, nor the operation id, nor the queue. -/
def NoEffectWhileFrozen : Message → State → Prop
  | .save r o, s => ∀ ti rest, r.tiz = ti :: rest → PutWhileFrozen r ti s →
      (s.handleSave r o).storage = s.storage ∧ (s.handleSave r o).opId = s.opId ∧
        (s.handleSave r o).flow = s.flow
  | _, _ => True

/-- What those who save rely on. -/
def Contract (e : Message) (s : State) : Prop := AnsweredOnce e s ∧ NoEffectWhileFrozen e s

/-- The first item of a request is one that the handler carries out, it is not one that a frozen
manager refuses, and no exception comes after the answer `Ok`. -/
def Sound : Message → State → Prop
  | .save r o, s => ∀ ti rest, r.tiz = ti :: rest →
      Writes ti ∧ ¬PutWhileFrozen r ti s ∧ ¬(Carried ti o ∧ o.push.raises)
  | _, _ => True

instance : Decidable (PutWhileFrozen r ti s) := inferInstanceAs (Decidable (_ ∧ _))

/-! ## When the manager is frozen -/

/-- The last of the messages `FREEZE` and `UNFREEZE` decides. -/
def frozenBy : Message → Bool → Bool
  | .freeze, _ => true
  | .unfreeze, _ => false
  | _, frozen => frozen

theorem handleSave_isFreeze (s : State) (r : SaveRequest) (o : Outcome) :
    (s.handleSave r o).isFreeze = s.isFreeze := by
  cases htiz : r.tiz with
  | nil => rw [State.handleSave, htiz, State.send]
  | cons ti rest =>
    obtain ⟨replies, hfrozen⟩ := s.answerFrozen_eq r ti
    rw [State.handleSave, htiz]
    dsimp only
    rw [State.execute_isFreeze, hfrozen]

theorem step_isFreeze (e : Message) (s : State) :
    (step e s).isFreeze = frozenBy e s.isFreeze := by
  cases e with
  | save r o => exact handleSave_isFreeze s r o
  | commit flushes written =>
    have hfreeze := congrArg State.isFreeze (s.commit_eq flushes written)
    exact hfreeze
  | commitAndReply flushes written =>
    have hfreeze := congrArg State.isFreeze (s.commitAndReply_eq flushes written)
    exact hfreeze
  | freeze => rfl
  | unfreeze => rfl
  | find uri => rfl

/-- The manager is frozen between `FREEZE` and `UNFREEZE`. -/
theorem run_isFreeze (s : State) (es : List Message) :
    (run step s es).isFreeze = es.foldl (fun frozen e => frozenBy e frozen) s.isFreeze := by
  induction es generalizing s with
  | nil => rfl
  | cons e es ih => rw [run_cons, ih, step_isFreeze, List.foldl_cons]

/-! ## The replies to a request -/

/-- How many replies the body of the `try` block sends. -/
def answers (ti : TransactionItem) (o : Outcome) : Nat :=
  if Writes ti then if Carried ti o ∧ o.push.raises then 2 else 1 else 0

theorem execute_replies (s : State) (r : SaveRequest) (ti : TransactionItem) (o : Outcome) :
    ∃ rcs, (s.execute r ti o).replies = s.replies ++ rcs ∧ rcs.length = answers ti o ∧
      (rcs.head? = some .ok ↔ Writes ti ∧ Carried ti o) := by
  by_cases hcmd : Writes ti
  · by_cases hc : Carried ti o
    · rw [State.execute_of_carried hcmd hc, State.succeed_eq]
      refine ⟨_, rfl, ?_, ?_⟩
      · cases hraises : o.push.raises <;> simp [answers, hcmd, hc, hraises]
      · exact iff_of_true rfl ⟨hcmd, hc⟩
    · obtain ⟨rc, hrc, heq⟩ := State.execute_of_not_carried (s := s) (r := r) hcmd hc
      refine ⟨[rc], ?_, ?_, ?_⟩
      · rw [heq, State.send]
      · simp [answers, hcmd, hc]
      · exact iff_of_false (fun h => hrc (Option.some.inj h)) fun h => hc h.2
  · refine ⟨[], ?_, ?_, ?_⟩
    · rw [State.execute_of_not_writes hcmd, List.append_nil]
    · simp [answers, hcmd]
    · exact iff_of_false (Option.some_ne_none _).symm fun h => hcmd h.1

/-- A refused `PUT` is answered before it is carried out. -/
theorem handleSave_replies (s : State) (o : Outcome) (htiz : r.tiz = ti :: rest) :
    ∃ rcs, (s.handleSave r o).replies = s.replies ++ rcs ∧
      rcs.length = (if PutWhileFrozen r ti s then 1 else 0) + answers ti o ∧
      (rcs.head? = some .ok ↔ Writes ti ∧ Carried ti o ∧ ¬PutWhileFrozen r ti s) := by
  obtain ⟨rcs, hrcs, hlen, hhead⟩ := execute_replies (s.answerFrozen r ti) r ti o
  rw [State.handleSave, htiz]
  by_cases h : PutWhileFrozen r ti s
  · have hfrozen : s.answerFrozen r ti = s.send .notReady := if_pos h
    refine ⟨.notReady :: rcs, ?_, ?_, ?_⟩
    · dsimp only
      rw [hrcs, hfrozen, State.send, List.append_assoc, List.singleton_append]
    · rw [if_pos h, List.length_cons, hlen, Nat.add_comm]
    · exact iff_of_false (fun hok => ResultCode.noConfusion (Option.some.inj hok))
        fun hok => hok.2.2 h
  · have hfrozen : s.answerFrozen r ti = s := if_neg h
    refine ⟨rcs, ?_, ?_, ?_⟩
    · dsimp only
      rw [hrcs, hfrozen]
    · rw [if_neg h, hlen, Nat.zero_add]
    · rw [hhead]
      exact ⟨fun hok => ⟨hok.1, hok.2, h⟩, fun hok => ⟨hok.1, hok.2.1⟩⟩

theorem answeredOnce_iff (htiz : r.tiz = ti :: rest) : AnsweredOnce (.save r o) s ↔
    Writes ti ∧ ¬PutWhileFrozen r ti s ∧ ¬(Carried ti o ∧ o.push.raises) := by
  obtain ⟨rcs, hrcs, hlen, _⟩ := handleSave_replies s o htiz
  have hone : AnsweredOnce (.save r o) s ↔ rcs.length = 1 := by
    rw [AnsweredOnce, hrcs, List.length_eq_one_iff]
    simp only [List.append_cancel_left_eq]
  rw [hone, hlen, answers]
  constructor
  · intro h
    have hwrites : Writes ti := by
      by_contra hcmd
      have hput : ¬PutWhileFrozen r ti s := fun hfrozen => hcmd (.inl hfrozen.2.2)
      simp [hcmd, hput] at h
    refine ⟨hwrites, ?_, ?_⟩
    · intro hfrozen
      rw [if_pos hfrozen, if_pos hwrites] at h
      split at h <;> omega
    · intro hraises
      rw [if_pos hwrites, if_pos hraises] at h
      omega
  · rintro ⟨hcmd, hfrozen, hraises⟩
    rw [if_neg hfrozen, if_pos hcmd, if_neg hraises]

/-! ## Runs -/

theorem contract_iff (e : Message) (s : State) : Contract e s ↔ Sound e s := by
  cases e with
  | save r o =>
    cases htiz : r.tiz with
    | nil =>
      have hsound : Sound (.save r o) s := fun ti rest h => by rw [htiz] at h; cases h
      refine iff_of_true ⟨?_, ?_⟩ hsound
      · exact ⟨.noContent, by rw [State.handleSave, htiz, State.send]⟩
      · intro ti rest h
        rw [htiz] at h
        cases h
    | cons ti rest =>
      have hsound : Sound (.save r o) s ↔
          Writes ti ∧ ¬PutWhileFrozen r ti s ∧ ¬(Carried ti o ∧ o.push.raises) := by
        constructor
        · intro h
          exact h ti rest htiz
        · intro h ti' rest' htiz'
          obtain ⟨rfl, rfl⟩ := List.cons.inj (htiz.symm.trans htiz')
          exact h
      rw [hsound]
      constructor
      · intro h
        exact (answeredOnce_iff htiz).mp h.1
      · intro h
        refine ⟨(answeredOnce_iff htiz).mpr h, ?_⟩
        intro ti' rest' htiz' hfrozen
        obtain ⟨rfl, rfl⟩ := List.cons.inj (htiz.symm.trans htiz')
        exact absurd hfrozen h.2.1
  | commit flushes written =>
    have hreplies := congrArg State.replies (s.commit_eq flushes written)
    exact iff_of_true ⟨hreplies, trivial⟩ trivial
  | commitAndReply flushes written =>
    have hreplies := congrArg State.replies (s.commitAndReply_eq flushes written)
    exact iff_of_true ⟨hreplies, trivial⟩ trivial
  | freeze => exact iff_of_true ⟨rfl, trivial⟩ trivial
  | unfreeze => exact iff_of_true ⟨rfl, trivial⟩ trivial
  | find uri => exact iff_of_true ⟨rfl, trivial⟩ trivial

/-- The contract is kept in every run whose messages are sound, and in no other. -/
theorem contract_iff_sound (s : State) (es : List Message) :
    Along step Contract s es ↔ Along step Sound s es :=
  along_congr contract_iff

/-- An item with nothing but a command, an address and a text. -/
def sampleItem (cmd : IndvOp) (uri : String) : TransactionItem where
  cmd := cmd
  userUri := "cfg:Administrator"
  uri := uri
  prevBinobj := none
  newBinobj := some (.invalid)
  updateCounter := 1
  eventId := ""
  isAclElement := false
  isOnto := false
  assignedSubsystems := allModules

/-- A frozen manager answers a `PUT` with `NotReady`, carries it out and answers `Ok`. -/
theorem not_contract_put_while_frozen :
    let s := State.start (fun _ => none) none []
    let put : SaveRequest := ⟨"?", [sampleItem .put "d:a"], -1, .none⟩
    let es : List Message := [.freeze, .save put .fine]
    ¬Along step Contract s es ∧ (run step s es).replies = [.notReady, .ok] ∧
      (run step s es).opId = 1 ∧ (run step s es).flow.length = 1 := by
  intro s put es
  refine ⟨?_, rfl, rfl, rfl⟩
  intro h
  have hsound := (contract_iff _ _).mp h.2.1
  exact (hsound _ _ rfl).2.1 ⟨rfl, rfl, rfl⟩

end Veda.Mstorage.IndividualsManager
