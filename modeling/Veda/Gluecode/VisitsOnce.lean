import Veda.Gluecode.LtrScripts
import Veda.Queue.Position

/-! # What a long-running script visits

A task handles the uris of the first part of its queue, in order. For the first uri that is handled
in the thread for a codelet the codelet is compiled, and it is run for all the others. -/

namespace Veda.Gluecode.Ltr

open Onto Queue
open Scripts (ScriptInfo prepareScript compiled? load isDisabled)

variable {Script : Type}

/-! ## The property -/

/-- The uris in a part that are counted. -/
def countedUris (l : Log) (p : ℕ) : List Bytes := ((l.appended p).take (l.count p)).map Message.body

/-- The uris in the parts from one on. -/
def urisFrom (l : Log) (p : ℕ) : List Bytes :=
  (List.range' p (l.parts - p)).flatMap (countedUris l)

def longUris (uris : List Bytes) : List Bytes := uris.filter (3 < ·.length)

/-- The codelet that is run for the uris of a task, if the task is one that `execute_script` does
not turn away. -/
def TaskInfo.codelet? (info : TaskInfo) : Option String :=
  info.codeletId.filter fun scriptUri =>
    ¬(scriptUri.utf8ByteSize ≤ 3 ∨ info.executedScriptBinobj.utf8ByteSize ≤ 3)

/-- What is handled for some uris of a task. -/
def TaskInfo.handles (info : TaskInfo) (number : ℕ) (uris : List Bytes) : List Handled :=
  match info.codelet? with
  | none => []
  | some codelet => (longUris uris).map (⟨number, codelet, ·⟩)

namespace LtrState

/-- What was handled for a task. -/
def handledOf (s : LtrState Script) (number : ℕ) : List Handled :=
  s.handled.filter (·.number = number)

/-- What was handled by a codelet. -/
def handledBy (s : LtrState Script) (codelet : String) : List Handled :=
  s.handled.filter (·.codeletId = codelet)

/-- What was run for a task. -/
def executedOf (s : LtrState Script) (number : ℕ) : List (Executed Script) :=
  s.executed.filter (·.handled.number = number)

/-- The first uri that was handled in the thread by the codelet is one of the task. -/
def First (s : LtrState Script) (number : ℕ) (codelet : String) : Prop :=
  (s.handledBy codelet).head?.map Handled.number = some number

instance (s : LtrState Script) (number : ℕ) (codelet : String) :
    Decidable (s.First number codelet) :=
  inferInstanceAs (Decidable (_ = _))

/-- The script was run once for every uri in the queue of a task that is longer than three bytes,
in order. -/
def VisitsOnce (s : LtrState Script) (l : Log) (number : ℕ) (codelet : String)
    (script : Script) : Prop :=
  s.executedOf number = (longUris (urisFrom l 0)).map (⟨⟨number, codelet, ·⟩, script⟩)

end LtrState

/-- A codelet that can be compiled, and what it is compiled to. -/
structure Compiles (env : Env Script) (codelet : String) (info : ScriptInfo Script)
    (script : Script) : Prop where
  uri : (env.getIndividual codelet).uri = codelet
  compiled : compiled? env.vm codeletSections (env.getIndividual codelet) = some info
  script : info.compiledScript = some script

/-- The queues are those of some logs, and an individual has the uri that it is asked for. -/
structure Serves (env : Env Script) (logs : String → Log) : Prop where
  files : ∀ queueId, env.queues queueId = (logs queueId).files env.crc32
  wf : ∀ queueId, (logs queueId).WF
  parts : ∀ queueId, 0 < (logs queueId).parts
  uri : ∀ uri, (env.getIndividual uri).uri = uri ∨ env.getIndividual uri = .init

/-! ## The tasks -/

section
variable {s : LtrState Script} {p p' : ℤ} {key key' : String} {t : Task}

namespace LtrState

theorem task?_setTask : (s.setTask p key t).task? p' key' =
    if p' = p ∧ key' = key then some t else s.task? p' key' := by
  rw [task?, setTask]
  by_cases hp : p' = p
  · subst hp
    rw [AList.lookup_insert, Option.bind_some]
    by_cases hkey : key' = key
    · rw [hkey, AList.lookup_insert, if_pos ⟨rfl, rfl⟩]
    · rw [AList.lookup_insert_ne hkey, if_neg fun h => hkey h.2, task?]
      cases s.tasks2Priority.lookup p' <;> rfl
  · rw [AList.lookup_insert_ne hp, if_neg fun h => hp h.1, task?]

/-- The tasks that are left. -/
theorem lookup_erase_tasks : AList.lookup key' (((s.tasks2Priority.lookup p).getD ∅).erase key) =
    if key' = key then none else s.task? p key' := by
  by_cases hkey : key' = key
  · rw [hkey, AList.lookup_erase, if_pos rfl]
  · rw [AList.lookup_erase_ne hkey, if_neg hkey, task?]
    cases s.tasks2Priority.lookup p <;> rfl

theorem lookup_removeTask (number : ℕ) : (s.removeTask p key number).tasks2Priority.lookup p' =
    if p' = p then
      if (((s.tasks2Priority.lookup p).getD ∅).erase key).keys = [] then none
      else some (((s.tasks2Priority.lookup p).getD ∅).erase key)
    else s.tasks2Priority.lookup p' := by
  rw [removeTask]
  dsimp only
  by_cases hp : p' = p
  · rw [if_pos hp, hp]
    split
    · exact AList.lookup_erase _ _
    · exact AList.lookup_insert _
  · rw [if_neg hp]
    split
    · rw [AList.lookup_erase_ne hp, AList.lookup_insert_ne hp]
    · exact AList.lookup_insert_ne hp

theorem task?_removeTask (number : ℕ) : (s.removeTask p key number).task? p' key' =
    if p' = p ∧ key' = key then none else s.task? p' key' := by
  rw [task?, lookup_removeTask]
  by_cases hp : p' = p
  · subst hp
    simp only [true_and, ↓reduceIte]
    rw [← lookup_erase_tasks]
    split
    · rename_i hkeys
      rw [Option.bind_none, eq_comm, AList.lookup_eq_none, AList.mem_keys, hkeys]
      exact List.not_mem_nil
    · rfl
  · rw [if_neg hp, if_neg fun h => hp h.1, task?]

end LtrState

end

/-! ## What is handled -/

theorem longUris_append (uris uris' : List Bytes) :
    longUris (uris ++ uris') = longUris uris ++ longUris uris' := List.filter_append ..

namespace TaskInfo

variable {info : TaskInfo} {number : ℕ}

theorem handles_nil : info.handles number [] = [] := by
  rw [handles]
  cases info.codelet? <;> rfl

theorem handles_append (uris uris' : List Bytes) :
    info.handles number (uris ++ uris') =
      info.handles number uris ++ info.handles number uris' := by
  rw [handles, handles, handles]
  cases info.codelet? with
  | none => rfl
  | some codelet => simp only [longUris_append, List.map_append]

theorem mem_handles {uris : List Bytes} {h : Handled} (hh : h ∈ info.handles number uris) :
    h.number = number ∧ info.codelet? = some h.codeletId := by
  rw [handles] at hh
  cases hcodelet : info.codelet? with
  | none =>
    rw [hcodelet] at hh
    exact absurd hh List.not_mem_nil
  | some codelet =>
    rw [hcodelet] at hh
    obtain ⟨uri, -, rfl⟩ := List.mem_map.mp hh
    exact ⟨rfl, rfl⟩

end TaskInfo

section
variable (env : Env Script) (t : Task) (uri : Bytes) (s : LtrState Script)

/-- A uri is turned away, or the script is run or prepared. -/
theorem executeScript_cases : executeScript env t uri s = s ∧ t.info.handles t.number [uri] = [] ∨
    ∃ h : Handled, t.info.handles t.number [uri] = [h] ∧ executeScript env t uri s =
      { s with
        handled := s.handled ++ [h]
        wpl :=
          match s.wpl.scripts.lookup h.codeletId with
          | none => prepareScript env.vm codeletSections s.wpl (env.getIndividual h.codeletId)
          | some _ => s.wpl
        executed := s.executed ++
          (((s.wpl.scripts.lookup h.codeletId).bind ScriptInfo.compiledScript).map
            (⟨h, ·⟩)).toList } := by
  rw [executeScript, TaskInfo.handles, TaskInfo.codelet?]
  cases t.info.codeletId with
  | none => exact .inl ⟨rfl, rfl⟩
  | some codelet =>
    dsimp only
    split
    · rename_i hshort
      refine .inl ⟨rfl, ?_⟩
      rw [Option.filter_some]
      rcases hshort with huri | hshort
      · split
        · rfl
        · simp_all [longUris]
      · rw [if_neg (by simpa [or_iff_not_imp_left] using hshort)]
    · rename_i hlong
      rw [not_or] at hlong
      refine .inr ⟨⟨t.number, codelet, uri⟩, ?_, ?_⟩
      · rw [Option.filter_some, if_pos (by simpa using hlong.2)]
        simp [longUris, Nat.lt_of_not_le hlong.1]
      · cases s.wpl.scripts.lookup codelet with
        | none => simp
        | some script =>
          simp only [Option.bind_some]
          cases script.compiledScript <;> simp

theorem executeScript_handled : (executeScript env t uri s).handled =
    s.handled ++ t.info.handles t.number [uri] := by
  rcases executeScript_cases env t uri s with h | ⟨h, heq, hs⟩
  · rw [h.1, h.2, List.append_nil]
  · rw [hs, heq]

end

/-! ## The codelets -/

section
variable {env : Env Script} {s : LtrState Script} {codelet : String} {info : ScriptInfo Script}
  {script : Script}

theorem compiled?_id {vm : Scripts.ScriptVM Script} {sections : Scripts.Sections}
    {ss : Individual} (h : compiled? vm sections ss = some info) : info.id = ss.uri := by
  rw [compiled?] at h
  split at h
  · cases h
  · dsimp only at h
    split at h
    · cases h
    · obtain ⟨script, -, rfl⟩ := Option.map_eq_some_iff.mp h
      rfl

theorem prepareScript_init (vm : Scripts.ScriptVM Script) (sections : Scripts.Sections)
    (wpl : Scripts.ScriptsWorkPlace Script) : prepareScript vm sections wpl .init = wpl := rfl

/-- A codelet that can be compiled is stored. -/
theorem Compiles.lookup_prepareScript (h : Compiles env codelet info script)
    (wpl : Scripts.ScriptsWorkPlace Script) :
    (prepareScript env.vm codeletSections wpl (env.getIndividual codelet)).scripts.lookup codelet =
      some info := by
  have hcompiled := h.compiled
  have hid : info.id = codelet := (compiled?_id hcompiled).trans h.uri
  have henabled : isDisabled (env.getIndividual codelet) = false := by
    by_contra hdisabled
    rw [compiled?, if_pos (by simpa using hdisabled)] at hcompiled
    cases hcompiled
  rw [prepareScript, if_neg (by simp [henabled]), hcompiled]
  simp only [load]
  rw [hid]
  exact AList.lookup_insert _

/-- The other scripts stay as they are. -/
theorem lookup_prepareScript_ne {vm : Scripts.ScriptVM Script} {sections : Scripts.Sections}
    {ss : Individual} (h : codelet ≠ ss.uri) (wpl : Scripts.ScriptsWorkPlace Script) :
    (prepareScript vm sections wpl ss).scripts.lookup codelet = wpl.scripts.lookup codelet := by
  rw [prepareScript]
  split
  · cases wpl.scripts.lookup ss.uri with
    | none => rfl
    | some script => exact AList.lookup_insert_ne h
  · cases hcompiled : compiled? vm sections ss with
    | none => rfl
    | some info =>
      simp only [load]
      rw [compiled?_id hcompiled]
      exact AList.lookup_insert_ne h

/-- What is known of the codelets: the first uri that is handled by a codelet compiles it. -/
structure Codelets (env : Env Script) (s : LtrState Script) : Prop where
  scripts : ∀ codelet info script, Compiles env codelet info script →
    s.wpl.scripts.lookup codelet = if s.handledBy codelet = [] then none else some info
  executed : ∀ codelet info script, Compiles env codelet info script →
    s.executed.filter (·.handled.codeletId = codelet) =
      (s.handledBy codelet).tail.map (⟨·, script⟩)

section
variable {handled : Handled}

theorem handledBy_append_self (l : List Handled) :
    (l ++ [handled]).filter (·.codeletId = handled.codeletId) =
      l.filter (·.codeletId = handled.codeletId) ++ [handled] := by
  simp [List.filter_append]

theorem handledBy_append_ne (h : handled.codeletId ≠ codelet) (l : List Handled) :
    (l ++ [handled]).filter (·.codeletId = codelet) = l.filter (·.codeletId = codelet) := by
  simp [List.filter_append, h]

end

theorem Codelets.executeScript (h : Codelets env s) {logs : String → Log}
    (hserves : Serves env logs) (t : Task) (uri : Bytes) :
    Codelets env (executeScript env t uri s) := by
  rcases executeScript_cases env t uri s with hs | ⟨handled, -, hs⟩
  · rw [hs.1]
    exact h
  rw [hs]
  constructor <;> intro codelet info script hcompiles <;>
    have hlookup := h.scripts codelet info script hcompiles <;>
    have hexecuted := h.executed codelet info script hcompiles <;>
    rw [LtrState.handledBy] <;>
    by_cases hc : handled.codeletId = codelet
  · -- the script of the uri is stored
    subst hc
    dsimp only
    rw [handledBy_append_self, if_neg (List.append_ne_nil_of_right_ne_nil _ (by simp)), hlookup]
    split
    · rename_i hnil
      split at hnil
      · exact hcompiles.lookup_prepareScript _
      · cases hnil
    · rename_i hsome
      split at hsome
      · cases hsome
      · rename_i hne
        rw [hlookup, if_neg hne]
  · dsimp only
    rw [handledBy_append_ne hc]
    refine Eq.trans ?_ hlookup
    split
    · rcases hserves.uri handled.codeletId with huri | hinit
      · exact lookup_prepareScript_ne (by rw [huri]; exact Ne.symm hc) _
      · rw [hinit, prepareScript_init]
    · rfl
  · -- it is run, unless it is stored only now
    subst hc
    dsimp only
    rw [handledBy_append_self, List.filter_append, hexecuted, hlookup]
    by_cases hnil : s.handledBy handled.codeletId = []
    · rw [if_pos hnil, ← LtrState.handledBy, hnil]
      rfl
    · rw [if_neg hnil, ← LtrState.handledBy, List.tail_append_of_ne_nil hnil, List.map_append,
        Option.bind_some, hcompiles.script]
      simp
  · dsimp only
    rw [handledBy_append_ne hc, List.filter_append, hexecuted]
    have hother : ∀ script? : Option Script,
        ((script?.map (⟨handled, ·⟩ : Script → Executed Script)).toList).filter
          (·.handled.codeletId = codelet) = [] := by
      intro script?
      cases script? <;> simp [hc]
    rw [hother, List.append_nil]
    rfl

end

/-! ## The tasks of a run -/

/-- The uris of the first messages of a queue. -/
def firstUris (l : Log) (k : ℕ) : List Bytes := ((l.appended 0).take k).map Message.body

/-- A task that was not removed stands in the first part of its queue. -/
structure Serving (logs : String → Log) (s : LtrState Script) (t : Task) : Prop where
  started : s.started[t.number]? = some t.info
  notCompleted : t.number ∉ s.completed
  stands : ∃ k, t.consumer.At (logs t.info.queueId) 0 k ∧
    s.handledOf t.number = t.info.handles t.number (firstUris (logs t.info.queueId) k)

/-- What holds in every state of a run. -/
structure Inv (env : Env Script) (logs : String → Log) (s : LtrState Script) : Prop where
  codelets : Codelets env s
  serving : ∀ p key t, s.task? p key = some t → Serving logs s t
  distinct : ∀ p key t p' key' t', s.task? p key = some t → s.task? p' key' = some t' →
    t'.number = t.number → p' = p ∧ key' = key
  completed : ∀ n ∈ s.completed, ∃ info, s.started[n]? = some info ∧
    s.handledOf n = info.handles n (countedUris (logs info.queueId) 0)
  handled : ∀ h ∈ s.handled, ∃ info, s.started[h.number]? = some info ∧
    info.codelet? = some h.codeletId
  executed : ∀ e ∈ s.executed, e.handled ∈ s.handled

section
variable {env : Env Script} {logs : String → Log} {s : LtrState Script} {p : ℤ} {key : String}
  {t : Task} {uri : Bytes}

/-- What a uri leaves unchanged. -/
theorem executeScript_frame (env : Env Script) (t : Task) (uri : Bytes) (s : LtrState Script) :
    (executeScript env t uri s).tasks2Priority = s.tasks2Priority ∧
      (executeScript env t uri s).started = s.started ∧
        (executeScript env t uri s).completed = s.completed := by
  rcases executeScript_cases env t uri s with h | ⟨h, -, hs⟩
  · rw [h.1]
    exact ⟨rfl, rfl, rfl⟩
  · rw [hs]
    exact ⟨rfl, rfl, rfl⟩

theorem handledOf_executeScript (n : ℕ) : (executeScript env t uri s).handledOf n =
    s.handledOf n ++ if t.number = n then t.info.handles t.number [uri] else [] := by
  have hnumber : ∀ h ∈ t.info.handles t.number [uri], h.number = t.number :=
    fun h hh => (TaskInfo.mem_handles hh).1
  rw [LtrState.handledOf, executeScript_handled, List.filter_append]
  refine congrArg _ ?_
  split
  · rename_i hn
    exact List.filter_eq_self.mpr fun h hh => decide_eq_true ((hnumber h hh).trans hn)
  · rename_i hn
    refine List.filter_eq_nil_iff.mpr fun h hh hmem => hn ?_
    rw [← hnumber h hh]
    exact of_decide_eq_true hmem

theorem executed_executeScript (h : ∀ e ∈ s.executed, e.handled ∈ s.handled) :
    ∀ e ∈ (executeScript env t uri s).executed,
      e.handled ∈ (executeScript env t uri s).handled := by
  rcases executeScript_cases env t uri s with hs | ⟨hd, -, hs⟩
  · rw [hs.1]
    exact h
  · rw [hs]
    intro e he
    rcases List.mem_append.mp he with he | he
    · exact List.mem_append_left _ (h e he)
    · obtain ⟨script, -, rfl⟩ := Option.map_eq_some_iff.mp (Option.mem_toList.mp he)
      exact List.mem_append_right _ (List.mem_singleton.mpr rfl)

namespace Inv

/-- A task goes on by a uri. -/
theorem visit (h : Inv env logs s) (hserves : Serves env logs) (ht : s.task? p key = some t)
    {k : ℕ} (hhandled : s.handledOf t.number =
      t.info.handles t.number (firstUris (logs t.info.queueId) k))
    (huri : firstUris (logs t.info.queueId) (k + 1) =
      firstUris (logs t.info.queueId) k ++ [uri])
    {c : Consumer} (hc : c.At (logs t.info.queueId) 0 (k + 1)) :
    Inv env logs ((executeScript env t uri s).setTask p key { t with consumer := c }) := by
  obtain ⟨htasks, hstarted, hcompleted⟩ := executeScript_frame env t uri s
  have hserving := h.serving p key t ht
  have htask : ∀ p' key', (executeScript env t uri s).task? p' key' = s.task? p' key' := by
    intro p' key'
    rw [LtrState.task?, htasks, LtrState.task?]
  have hother : ∀ n, n ≠ t.number →
      (executeScript env t uri s).handledOf n = s.handledOf n := by
    intro n hn
    rw [handledOf_executeScript, if_neg (Ne.symm hn), List.append_nil]
  have hcodelets := h.codelets.executeScript hserves t uri
  refine ⟨⟨hcodelets.scripts, hcodelets.executed⟩, ?_, ?_, ?_, ?_,
    executed_executeScript h.executed⟩
  · intro p' key' t' ht'
    rw [LtrState.task?_setTask, htask] at ht'
    split at ht'
    · cases ht'
      refine ⟨hstarted ▸ hserving.started, hcompleted ▸ hserving.notCompleted, k + 1, hc, ?_⟩
      refine (handledOf_executeScript _).trans ?_
      rw [if_pos rfl, hhandled, huri, TaskInfo.handles_append]
    · rename_i hne
      obtain ⟨hstarted', hopen', k', hc', hk'⟩ := h.serving p' key' t' ht'
      have hnumber : t'.number ≠ t.number := fun hn => hne (h.distinct _ _ _ _ _ _ ht ht' hn)
      exact ⟨hstarted ▸ hstarted', hcompleted ▸ hopen', k', hc', (hother _ hnumber).trans hk'⟩
  · have hnumber : ∀ p' key' t', ((executeScript env t uri s).setTask p key
        { t with consumer := c }).task? p' key' = some t' →
        ∃ t'', s.task? p' key' = some t'' ∧ t''.number = t'.number := by
      intro p' key' t' ht'
      rw [LtrState.task?_setTask, htask] at ht'
      split at ht'
      · rename_i heq
        cases ht'
        exact ⟨t, by rw [heq.1, heq.2, ht], rfl⟩
      · exact ⟨t', ht', rfl⟩
    intro p₁ key₁ t₁ p₂ key₂ t₂ h₁ h₂ heq
    obtain ⟨u₁, hu₁, hn₁⟩ := hnumber _ _ _ h₁
    obtain ⟨u₂, hu₂, hn₂⟩ := hnumber _ _ _ h₂
    exact h.distinct _ _ _ _ _ _ hu₁ hu₂ (hn₂.trans (heq.trans hn₁.symm))
  · intro n hn
    have hn : n ∈ s.completed := hcompleted ▸ hn
    obtain ⟨info, hinfo, heq⟩ := h.completed n hn
    refine ⟨info, hstarted ▸ hinfo, (hother n ?_).trans heq⟩
    rintro rfl
    exact hserving.notCompleted hn
  · intro hd hmem
    have hmem : hd ∈ s.handled ++ t.info.handles t.number [uri] :=
      executeScript_handled env t uri s ▸ hmem
    rcases List.mem_append.mp hmem with hmem | hmem
    · obtain ⟨info, hinfo, hcodelet⟩ := h.handled hd hmem
      exact ⟨info, hstarted ▸ hinfo, hcodelet⟩
    · obtain ⟨hnumber, hcodelet⟩ := TaskInfo.mem_handles hmem
      refine ⟨t.info, ?_, hcodelet⟩
      rw [hnumber]
      exact hstarted ▸ hserving.started

/-- A task that has gone through the first part is removed. -/
theorem remove (h : Inv env logs s) (ht : s.task? p key = some t)
    (hhandled : s.handledOf t.number =
      t.info.handles t.number (countedUris (logs t.info.queueId) 0)) :
    Inv env logs (s.removeTask p key t.number) := by
  have hserving := h.serving p key t ht
  have hleft : ∀ p' key' t', (s.removeTask p key t.number).task? p' key' = some t' →
      s.task? p' key' = some t' ∧ t'.number ≠ t.number := by
    intro p' key' t' ht'
    rw [LtrState.task?_removeTask] at ht'
    split at ht'
    · cases ht'
    · rename_i hne
      exact ⟨ht', fun hn => hne (h.distinct _ _ _ _ _ _ ht ht' hn)⟩
  refine ⟨⟨h.codelets.scripts, h.codelets.executed⟩, ?_, ?_, ?_, h.handled, h.executed⟩
  · intro p' key' t' ht'
    obtain ⟨ht', hne⟩ := hleft p' key' t' ht'
    obtain ⟨hstarted', hopen', hstands⟩ := h.serving p' key' t' ht'
    refine ⟨hstarted', ?_, hstands⟩
    show t'.number ∉ s.completed ++ [t.number]
    simp [hopen', hne]
  · intro p₁ key₁ t₁ p₂ key₂ t₂ h₁ h₂ heq
    exact h.distinct _ _ _ _ _ _ (hleft _ _ _ h₁).1 (hleft _ _ _ h₂).1 heq
  · intro n hn
    have hn : n ∈ s.completed ++ [t.number] := hn
    rcases List.mem_append.mp hn with hn | hn
    · exact h.completed n hn
    · rw [List.mem_singleton.mp hn]
      exact ⟨t.info, hserving.started, hhandled⟩

/-- A task is started. -/
theorem start (h : Inv env logs s) (info : TaskInfo) : Inv env logs
    { s.setTask p key ⟨info, s.started.length, .openNew⟩ with
      started := s.started ++ [info] } := by
  have hlt : ∀ n info', s.started[n]? = some info' →
      n < s.started.length ∧ (s.started ++ [info])[n]? = some info' := by
    intro n info' hn
    have hn' := (List.getElem?_eq_some_iff.mp hn).1
    exact ⟨hn', by rw [List.getElem?_append_left hn', hn]⟩
  have htask : ∀ p' key' t', ({ s.setTask p key ⟨info, s.started.length, .openNew⟩ with
      started := s.started ++ [info] } : LtrState Script).task? p' key' = some t' →
      (p' = p ∧ key' = key) ∧ t' = ⟨info, s.started.length, .openNew⟩ ∨
        s.task? p' key' = some t' := by
    intro p' key' t' ht'
    have ht' := (LtrState.task?_setTask (s := s)).symm.trans ht'
    split at ht'
    · rename_i heq
      cases ht'
      exact .inl ⟨heq, rfl⟩
    · exact .inr ht'
  refine ⟨⟨h.codelets.scripts, h.codelets.executed⟩, ?_, ?_, ?_, ?_, h.executed⟩
  · intro p' key' t' ht'
    rcases htask _ _ _ ht' with ⟨-, rfl⟩ | ht'
    · refine ⟨List.getElem?_concat_length, fun hmem => ?_, 0, .openNew _, ?_⟩
      · obtain ⟨info', hinfo', -⟩ := h.completed _ hmem
        exact Nat.lt_irrefl _ (hlt _ _ hinfo').1
      · rw [firstUris, List.take_zero, List.map_nil, TaskInfo.handles_nil]
        refine List.filter_eq_nil_iff.mpr fun hd hmem hnumber => ?_
        obtain ⟨info', hinfo', -⟩ := h.handled hd hmem
        exact Nat.ne_of_lt (hlt _ _ hinfo').1 (of_decide_eq_true hnumber)
    · obtain ⟨hstarted', hopen', hstands⟩ := h.serving p' key' t' ht'
      exact ⟨(hlt _ _ hstarted').2, hopen', hstands⟩
  · intro p₁ key₁ t₁ p₂ key₂ t₂ h₁ h₂ heq
    have hold : ∀ p' key' t', s.task? p' key' = some t' → t'.number ≠ s.started.length :=
      fun p' key' t' ht' => Nat.ne_of_lt (hlt _ _ (h.serving p' key' t' ht').started).1
    rcases htask _ _ _ h₁ with ⟨⟨rfl, rfl⟩, rfl⟩ | hold₁ <;>
      rcases htask _ _ _ h₂ with ⟨⟨rfl, rfl⟩, rfl⟩ | hold₂
    · exact ⟨rfl, rfl⟩
    · exact absurd heq (hold _ _ _ hold₂)
    · exact absurd heq.symm (hold _ _ _ hold₁)
    · exact h.distinct _ _ _ _ _ _ hold₁ hold₂ heq
  · intro n hn
    obtain ⟨info', hinfo', heq⟩ := h.completed n hn
    exact ⟨info', (hlt _ _ hinfo').2, heq⟩
  · intro hd hmem
    obtain ⟨info', hinfo', hcodelet⟩ := h.handled hd hmem
    exact ⟨info', (hlt _ _ hinfo').2, hcodelet⟩

end Inv

theorem task?_init (p : ℤ) (key : String) : (.init : LtrState Script).task? p key = none := rfl

theorem inv_init : Inv env logs .init where
  codelets := ⟨fun _ _ _ _ => rfl, fun _ _ _ _ => rfl⟩
  serving p key t ht := by
    rw [task?_init] at ht
    cases ht
  distinct p key t _ _ _ ht := by
    rw [task?_init] at ht
    cases ht
  completed _ hn := absurd hn List.not_mem_nil
  handled _ hmem := absurd hmem List.not_mem_nil
  executed _ he := absurd he List.not_mem_nil

/-- A turn of a task. No message is read where there is none, and none fails to be committed. -/
theorem inv_handleTask (hserves : Serves env logs) (p : ℤ) (key : String) (h : Inv env logs s) :
    (handleTask env p key s).Sat (Inv env logs) fun _ => Inv env logs := by
  rw [handleTask]
  cases ht : s.task? p key with
  | none => exact h
  | some t =>
    obtain ⟨k, hat, hhandled⟩ := (h.serving p key t ht).stands
    have hwf := hserves.wf t.info.queueId
    have hparts := hserves.parts t.info.queueId
    have hdone : (logs t.info.queueId).count 0 = k →
        Inv env logs (s.removeTask p key t.number) := by
      intro hcount
      refine h.remove ht ?_
      rw [countedUris, hcount]
      exact hhandled
    simp only [hserves.files]
    rcases hat.pop env.crc32 hwf hparts with ⟨c, hpop, hat', hread⟩ |
      ⟨-, hcount, c, hpop, -⟩ | ⟨-, hcount, c, hpop, -⟩
    · obtain ⟨c', hcommit, hat'', -⟩ := hat'.commit_read hwf hparts hread
      obtain ⟨hk, hmsg, -, -⟩ := hread
      rw [hpop]
      dsimp only
      rw [hcommit, if_pos rfl]
      refine h.visit hserves ht hhandled ?_ hat''
      rw [firstUris, List.take_succ_eq_append_getElem hk, List.map_append, hmsg]
      rfl
    · rw [hpop]
      exact hdone hcount
    · rw [hpop]
      exact hdone hcount

theorem inv_handlePriority (hserves : Serves env logs) (p : ℤ) (h : Inv env logs s) :
    (handlePriority env p s).Sat (Inv env logs) fun _ => Inv env logs := by
  rw [handlePriority]
  cases s.tasks2Priority.lookup p with
  | none => exact h
  | some tasks =>
    have hloop := Step.loop_sat (l := tasks.keys)
      (fun key _ s hs => inv_handleTask (s := s) hserves p key hs) h
    dsimp only
    split
    all_goals
      rename_i heq
      rw [heq] at hloop
      exact hloop

theorem inv_handleTasks (hserves : Serves env logs) (h : Inv env logs s) :
    Inv env logs (handleTasks env s) := by
  have hloop := Step.loop_sat (l := s.tasks2Priority.keys.mergeSort (· ≤ ·))
    (fun p _ s hs => inv_handlePriority (s := s) hserves p hs) h
  rw [handleTasks]
  split
  all_goals
    rename_i heq
    rw [heq] at hloop
    exact hloop

theorem inv_receive (instOfCodelet queueId : String) (h : Inv env logs s) :
    Inv env logs (receive env instOfCodelet queueId s) := by
  rw [receive]
  cases env.deserialize instOfCodelet with
  | none => exact h
  | some indv =>
    dsimp only
    split
    · exact h
    · exact h.start _

theorem inv_turn (hserves : Serves env logs) (message : Option (String × String))
    (h : Inv env logs s) : Inv env logs (turn env s message) := by
  unfold turn
  cases message with
  | none =>
    dsimp only
    split
    · exact inv_handleTasks hserves h
    · exact h
  | some message =>
    have hreceived := inv_receive message.1 message.2 h
    dsimp only
    split
    · exact inv_handleTasks hserves hreceived
    · exact hreceived

/-- The invariant holds after every run. -/
theorem inv_run (hserves : Serves env logs) (messages : List (Option (String × String))) :
    Inv env logs (run env messages) :=
  List.foldlRecOn messages (turn env) inv_init fun _ h message _ => inv_turn hserves message h

end

/-! ## What was run -/

theorem urisFrom_zero {l : Log} (h : 0 < l.parts) :
    urisFrom l 0 = countedUris l 0 ++ urisFrom l 1 := by
  obtain ⟨n, hn⟩ : ∃ n, l.parts = n + 1 := ⟨l.parts - 1, by omega⟩
  rw [urisFrom, urisFrom, hn]
  rfl

section
variable {env : Env Script} {logs : String → Log} {s : LtrState Script} {n : ℕ} {info : TaskInfo}
  {codelet : String} {codeletInfo : ScriptInfo Script} {script : Script}

theorem filter_tail (n : ℕ) (l : List Handled) : l.tail.filter (·.number = n) =
    if l.head?.map Handled.number = some n then (l.filter (·.number = n)).tail
    else l.filter (·.number = n) := by
  cases l with
  | nil => rfl
  | cons hd l => by_cases hn : hd.number = n <;> simp [hn]

namespace Inv

/-- Nothing is run for a task that is turned away. -/
theorem executedOf_none (h : Inv env logs s) (hinfo : s.started[n]? = some info)
    (hcodelet : info.codelet? = none) : s.executedOf n = [] := by
  refine List.filter_eq_nil_iff.mpr fun e he hnumber => ?_
  obtain ⟨info', hinfo', hsome⟩ := h.handled _ (h.executed e he)
  rw [of_decide_eq_true hnumber, hinfo] at hinfo'
  cases hinfo'
  rw [hcodelet] at hsome
  cases hsome

/-- What is run for a task was handled for it. The first uri of all is not run. -/
theorem executedOf_some (h : Inv env logs s) (hinfo : s.started[n]? = some info)
    (hcodelet : info.codelet? = some codelet)
    (hcompiles : Compiles env codelet codeletInfo script) : s.executedOf n =
      (if s.First n codelet then (s.handledOf n).tail else s.handledOf n).map (⟨·, script⟩) := by
  have hof : ∀ hd ∈ s.handled, hd.number = n → hd.codeletId = codelet := by
    intro hd hmem hnumber
    obtain ⟨info', hinfo', hsome⟩ := h.handled hd hmem
    rw [hnumber, hinfo] at hinfo'
    cases hinfo'
    rw [hcodelet] at hsome
    exact (Option.some.inj hsome).symm
  have hexecuted : s.executedOf n = (s.executed.filter (·.handled.codeletId = codelet)).filter
      (·.handled.number = n) := by
    rw [List.filter_filter, LtrState.executedOf]
    refine List.filter_congr fun e he => ?_
    have heq := hof _ (h.executed e he)
    simpa using heq
  have hhandled : s.handledOf n = (s.handledBy codelet).filter (·.number = n) := by
    rw [LtrState.handledBy, List.filter_filter, LtrState.handledOf]
    refine List.filter_congr fun hd hmem => ?_
    have heq := hof hd hmem
    simpa using heq
  have htail := filter_tail n (s.handledBy codelet)
  rw [hexecuted, h.codelets.executed _ _ _ hcompiles, hhandled, List.filter_map]
  refine congrArg _ (htail.trans ?_)
  by_cases hfirst : s.First n codelet
  · rw [if_pos hfirst]
    exact if_pos hfirst
  · rw [if_neg hfirst]
    exact if_neg hfirst

end Inv

theorem First.handledOf_ne_nil (h : s.First n codelet) : s.handledOf n ≠ [] := by
  obtain ⟨hd, hhead, hnumber⟩ := Option.map_eq_some_iff.mp h
  have hmem : hd ∈ s.handledBy codelet := List.mem_of_mem_head? hhead
  refine List.ne_nil_of_mem (a := hd) (List.mem_filter.mpr ⟨?_, decide_eq_true hnumber⟩)
  exact (List.mem_filter.mp hmem).1

/-- A task that was removed has visited every uri of its queue, unless the first of them compiled
the codelet or the queue has another part. -/
theorem visitsOnce_iff (env : Env Script) (logs : String → Log) (hserves : Serves env logs)
    (messages : List (Option (String × String))) (n : ℕ) (info : TaskInfo) (codelet : String)
    (codeletInfo : ScriptInfo Script) (script : Script)
    (hcompleted : n ∈ (run env messages).completed)
    (hinfo : (run env messages).started[n]? = some info) (hid : info.codeletId = some codelet)
    (hcompiles : Compiles env codelet codeletInfo script) :
    (run env messages).VisitsOnce (logs info.queueId) n codelet script ↔
      longUris (urisFrom (logs info.queueId) 0) = [] ∨
        info.codelet? = some codelet ∧ longUris (urisFrom (logs info.queueId) 1) = [] ∧
          ¬(run env messages).First n codelet := by
  have h := inv_run hserves messages
  obtain ⟨info', hinfo', hhandled⟩ := h.completed n hcompleted
  rw [hinfo] at hinfo'
  cases hinfo'
  rw [LtrState.VisitsOnce]
  cases hcodelet : info.codelet? with
  | none =>
    rw [h.executedOf_none hinfo hcodelet, eq_comm, List.map_eq_nil_iff]
    simp
  | some codelet' =>
    have heq : codelet' = codelet := by
      have hfilter := (Option.filter_eq_some_iff.mp hcodelet).1
      rw [hid] at hfilter
      exact (Option.some.inj hfilter).symm
    subst heq
    have hinj : Function.Injective (⟨⟨n, codelet', ·⟩, script⟩ : Bytes → Executed Script) := by
      rintro uri uri' huri
      cases huri
      rfl
    rw [h.executedOf_some hinfo hcodelet hcompiles, hhandled, TaskInfo.handles, hcodelet,
      urisFrom_zero (hserves.parts _), longUris_append]
    dsimp only
    by_cases hfirst : (run env messages).First n codelet'
    · have hne := First.handledOf_ne_nil hfirst
      rw [hhandled, TaskInfo.handles, hcodelet] at hne
      have hpos := List.length_pos_iff.mpr hne
      rw [List.length_map] at hpos
      refine iff_of_false (fun hall => ?_) ?_
      · have hlength := congrArg List.length hall
        rw [if_pos hfirst] at hlength
        simp only [List.length_map, List.length_tail, List.length_append] at hlength
        omega
      · rintro (hnil | ⟨-, -, hnot⟩)
        · rw [(List.append_eq_nil_iff.mp hnil).1] at hpos
          exact Nat.lt_irrefl _ hpos
        · exact hnot hfirst
    · rw [if_neg hfirst, List.map_map]
      refine (List.map_injective_iff.mpr hinj).eq_iff.trans (List.self_eq_append_right.trans ?_)
      exact ⟨fun hrest => .inr ⟨rfl, hrest, hfirst⟩, fun hcond =>
        hcond.elim (fun hnil => (List.append_eq_nil_iff.mp hnil).2) fun hcond => hcond.2.1⟩

end

/-! ## A codelet for two tasks -/

/-- Everything is compiled to itself. -/
def plainVM : Scripts.ScriptVM String := ⟨some⟩

def codeletIndividual : Individual :=
  ⟨"d:codelet", ([⟨"v-s:script", [.str "0"]⟩] : List (Sigma _)).toAList⟩

/-- The individual of a task. -/
def taskIndividual (uri : String) : Individual :=
  ⟨uri, ([⟨"v-s:useScript", [.uri "d:codelet"]⟩] : List (Sigma _)).toAList⟩

/-- A queue with one uri. -/
def oneUri : Log :=
  (Log.empty.restart.append ⟨.string, [0x64, 0x3a, 0x61, 0x61], by decide, by decide⟩).putInfoPush

def codeletEnv : Env String where
  vm := plainVM
  getIndividual uri := if uri = "d:codelet" then codeletIndividual else .init
  deserialize binobj := some (taskIndividual binobj)
  queues _ := oneUri.files crc32Ieee
  crc32 := crc32Ieee

theorem serves_codeletEnv : Serves codeletEnv fun _ => oneUri where
  files _ := rfl
  wf _ :=
    ((Log.WF.empty.restart (by decide)).append _ (by decide) (by decide)).putInfoPush (by decide)
  parts _ := by decide
  uri uri := by
    unfold codeletEnv
    dsimp only
    split
    · rename_i h
      exact .inl h.symm
    · exact .inr rfl

/-- What the codelet is compiled to. -/
def codeletScript : String := codeletSections.strScript "d:codelet" "0"

theorem compiles_codeletEnv : Compiles codeletEnv "d:codelet"
    (Scripts.scriptInfo codeletIndividual codeletScript codeletScript) codeletScript :=
  ⟨rfl, rfl, rfl⟩

def twoTasks : List (Option (String × String)) :=
  [some ("d:task1", "q"), some ("d:task2", "q"), none]

theorem visitsOnce_iff_second :
    (run codeletEnv twoTasks).VisitsOnce oneUri 1 "d:codelet" codeletScript ↔
      longUris (urisFrom oneUri 0) = [] ∨
        (TaskInfo.mk "q" "d:task2" (some "d:codelet")).codelet? = some "d:codelet" ∧
          longUris (urisFrom oneUri 1) = [] ∧ ¬(run codeletEnv twoTasks).First 1 "d:codelet" :=
  visitsOnce_iff codeletEnv (fun _ => oneUri) serves_codeletEnv twoTasks 1
    ⟨"q", "d:task2", some "d:codelet"⟩ "d:codelet" _ codeletScript (by decide +kernel)
    (by decide +kernel) rfl compiles_codeletEnv

/-- The uri for which the codelet is compiled is not visited. -/
theorem not_visitsOnce : ¬∀ (env : Env String) (logs : String → Log), Serves env logs →
    ∀ (messages : List (Option (String × String))) (n : ℕ) (info : TaskInfo) (codelet : String)
      (codeletInfo : ScriptInfo String) (script : String), n ∈ (run env messages).completed →
      (run env messages).started[n]? = some info → info.codeletId = some codelet →
      Compiles env codelet codeletInfo script →
      (run env messages).VisitsOnce (logs info.queueId) n codelet script := by
  intro h
  have hvisits := h codeletEnv (fun _ => oneUri) serves_codeletEnv twoTasks 0
    ⟨"q", "d:task1", some "d:codelet"⟩ "d:codelet" _ codeletScript (by decide +kernel)
    (by decide +kernel) rfl compiles_codeletEnv
  unfold LtrState.VisitsOnce at hvisits
  revert hvisits
  decide +kernel

end Veda.Gluecode.Ltr
