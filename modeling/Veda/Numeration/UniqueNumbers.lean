import Veda.Numeration.Committed
import Veda.Lib.Run

/-! # Unique numbers

What holds after every event of any run. The result of `commitValue` is not looked at, and a branch
of `numerate` does nothing for a number that it takes to be committed; the numbers are unique as
long as the events that come to these branches find them so. -/

namespace Veda.Numeration

open Veda.Run

/-- Where no event is pending, every individual that is not deleted has a committed number, which no
other one has. -/
def Unique (st : State) : Prop :=
  st.pending = [] → ∀ uri document, st.documents.lookup uri = some document →
    document.deleted = false → document.number ≠ 0 ∧ document.number ∈ st.registry.committed ∧
      ∀ uri' document', uri' ≠ uri → st.documents.lookup uri' = some document' →
        document'.deleted = false → document'.number ≠ document.number

/-! ## The condition -/

/-- No other individual that is not deleted has the number. -/
def NobodyElse (st : State) (uri : String) (number : ℤ) : Prop :=
  ∀ uri' ∈ st.documents.keys, uri' ≠ uri → ∀ document ∈ st.documents.lookup uri',
    document.deleted = false → document.number ≠ number

instance (st : State) (uri : String) (number : ℤ) : Decidable (NobodyElse st uri number) :=
  inferInstanceAs (Decidable (∀ uri' ∈ st.documents.keys, uri' ≠ uri →
    ∀ document ∈ st.documents.lookup uri', document.deleted = false → document.number ≠ number))

/-- What an event needs of the state in which it is handled: a number that is restored is committed
and nobody else's, a number that is given, changed or revoked is nobody else's, and so is a replaced
one; where nothing is done, either `numerate` has written the number itself, or it is committed and
nobody else's. -/
def Handled (st : State) (m : Message) (document : Document) : Prop :=
  if m.isUnchanged document then True
  else if document.number = 0 then
    m.prevNumber ≠ 0 → m.prevNumber ∈ st.registry.committed ∧ NobodyElse st m.uri m.prevNumber
  else if m.prevState = none ∨ document.deleted = true then NobodyElse st m.uri document.number
  else if m.prevNumber ≠ 0 ∧ document.number ≠ m.prevNumber then
    NobodyElse st m.uri document.number ∧ NobodyElse st m.uri m.prevNumber
  else m.isWriteBack = true ∧ m.newState.number ≠ 0 ∨
    document.number ∈ st.registry.committed ∧ NobodyElse st m.uri document.number

instance (st : State) (m : Message) (document : Document) : Decidable (Handled st m document) := by
  unfold Handled
  infer_instance

def Orderly (e : Event) (st : State) : Prop :=
  match e, st.pending with
  | .handle, m :: _ => ∀ document ∈ st.documents.lookup m.uri, Handled st m document
  | _, _ => True

instance (e : Event) (st : State) : Decidable (Orderly e st) := by
  unfold Orderly
  split <;> infer_instance

/-! ## The invariant -/

/-- The event leaves the number as it is, or `numerate` has written it. -/
def Message.Keeps (m : Message) (number : ℤ) : Prop :=
  (∃ document, m.prevState = some document ∧ document.deleted = false ∧ document.number = number) ∨
    m.isWriteBack = true ∧ m.newState.number = number

/-- An individual with a number that no pending event changes. -/
structure Holds (st : State) (uri : String) (document : Document) : Prop where
  lookup : st.documents.lookup uri = some document
  live : document.deleted = false
  number : document.number ≠ 0
  keeps : ∀ m ∈ st.pending, m.uri = uri → m.Keeps document.number

/-- The state of the individual before the first of some events, which come last. -/
def stateBefore (st : State) (ms : List Message) (uri : String) : Option Document :=
  match ms.find? (·.uri = uri) with
  | some m => m.prevState
  | none => st.documents.lookup uri

/-- What holds apart from some individuals. -/
structure InvBut (skip : Set String) (st : State) : Prop where
  wf : st.registry.WF
  chain : ∀ before m after, st.pending = before ++ m :: after →
    stateBefore st after m.uri = some m.newState
  writeBack : ∀ m ∈ st.pending, m.isWriteBack = true →
    ∃ document, m.prevState = some document ∧ document.number = 0
  zero : ∀ uri ∉ skip, ∀ document, st.documents.lookup uri = some document →
    document.number = 0 → ∃ m ∈ st.pending, m.uri = uri
  committed : ∀ uri ∉ skip, ∀ document, Holds st uri document →
    document.number ∈ st.registry.committed
  unique : ∀ uri ∉ skip, ∀ uri' ∉ skip, uri' ≠ uri → ∀ document document', Holds st uri document →
    Holds st uri' document' → document'.number ≠ document.number

/-- The invariant. -/
abbrev Inv (st : State) : Prop := InvBut ∅ st

/-- What the invariant says of one individual. -/
structure InOrder (st : State) (uri : String) : Prop where
  zero : ∀ document, st.documents.lookup uri = some document → document.number = 0 →
    ∃ m ∈ st.pending, m.uri = uri
  holds : ∀ document, Holds st uri document → document.number ∈ st.registry.committed ∧
    ∀ uri' document', uri' ≠ uri → Holds st uri' document' → document'.number ≠ document.number

theorem Inv.init : Inv .init where
  wf := wf_init
  chain _ _ _ h := absurd h (by simp [State.init])
  writeBack := nofun
  zero := nofun
  committed _ _ _ h := absurd h.lookup nofun
  unique _ _ _ _ _ _ _ h := absurd h.lookup nofun

section
variable {st : State} {skip : Set String} {uri u : String} {document new : Document} {m : Message}
  {rest : List Message} {r : Registry} {scope : Scope} {isWriteBack : Bool} {number FIRST_VALUE : ℤ}

theorem Inv.inOrder (h : Inv st) (uri : String) : InOrder st uri where
  zero := h.zero uri (Set.notMem_empty uri)
  holds document hu := ⟨h.committed uri (Set.notMem_empty uri) document hu,
    fun uri' document' hne hu' => h.unique uri (Set.notMem_empty uri) uri' (Set.notMem_empty uri')
      hne document document' hu hu'⟩

theorem Inv.but (h : Inv st) (skip : Set String) : InvBut skip st where
  wf := h.wf
  chain := h.chain
  writeBack := h.writeBack
  zero uri _ := (h.inOrder uri).zero
  committed uri _ document hu := ((h.inOrder uri).holds document hu).1
  unique uri _ uri' _ hne document document' hu :=
    ((h.inOrder uri).holds document hu).2 uri' document' hne

/-- Only one individual was left out. -/
theorem InvBut.inv (h : InvBut {uri} st) (hown : InOrder st uri) : Inv st where
  wf := h.wf
  chain := h.chain
  writeBack := h.writeBack
  zero u _ := by
    rcases eq_or_ne u uri with rfl | hne
    · exact hown.zero
    · exact h.zero u hne
  committed u _ document hu := by
    rcases eq_or_ne u uri with rfl | hne
    · exact (hown.holds document hu).1
    · exact h.committed u hne document hu
  unique u _ u' _ hne document document' hu hu' := by
    rcases eq_or_ne u uri with rfl | hu_ne
    · exact (hown.holds document hu).2 u' document' hne hu'
    · rcases eq_or_ne u' uri with rfl | hu_ne'
      · exact ((hown.holds document' hu').2 u document hne.symm hu).symm
      · exact h.unique u hu_ne u' hu_ne' hne document document' hu hu'

theorem NobodyElse.ne (h : NobodyElse st uri number) (hne : u ≠ uri)
    (hlookup : st.documents.lookup u = some document) (hlive : document.deleted = false) :
    document.number ≠ number :=
  h u (AList.mem_keys.mp (AList.lookup_isSome.mp (hlookup ▸ rfl))) hne document hlookup hlive

/-! ### Taking an event, and changing the registry -/

theorem Holds.of_rest (hpending : st.pending = m :: rest) (hne : u ≠ m.uri)
    (h : Holds { st with pending := rest } u document) : Holds st u document := by
  refine ⟨h.lookup, h.live, h.number, fun m' hmem huri => ?_⟩
  rw [hpending] at hmem
  rcases List.mem_cons.mp hmem with rfl | hmem
  · exact absurd huri.symm hne
  · exact h.keeps m' hmem huri

theorem Inv.take (h : Inv st) (hpending : st.pending = m :: rest) :
    InvBut {m.uri} { st with pending := rest } where
  wf := h.wf
  chain before m' after heq := h.chain (m :: before) m' after
    (hpending.trans (congrArg (m :: ·) heq))
  writeBack m' hmem := h.writeBack m' (hpending ▸ List.mem_cons_of_mem m hmem)
  zero u hne document hlookup hzero := by
    obtain ⟨m', hmem, huri⟩ := (h.inOrder u).zero document hlookup hzero
    rw [hpending] at hmem
    rcases List.mem_cons.mp hmem with rfl | hmem
    · exact absurd huri.symm hne
    · exact ⟨m', hmem, huri⟩
  committed u hne document hu :=
    ((h.inOrder u).holds document (hu.of_rest hpending hne)).1
  unique u hne u' hne' hdiff document document' hu hu' :=
    ((h.inOrder u).holds document (hu.of_rest hpending hne)).2 u' document' hdiff
      (hu'.of_rest hpending hne')

theorem Holds.of_registry (h : Holds { st with registry := r } u document) : Holds st u document :=
  ⟨h.lookup, h.live, h.number, h.keeps⟩

/-- The numbers of the others stay committed. -/
theorem InvBut.registry (h : InvBut {uri} st) (hr : r.WF)
    (hothers : ∀ u document, u ≠ uri → st.documents.lookup u = some document →
      document.deleted = false → document.number ∈ st.registry.committed →
        document.number ∈ r.committed) : InvBut {uri} { st with registry := r } where
  wf := hr
  chain := h.chain
  writeBack := h.writeBack
  zero := h.zero
  committed u hne document hu :=
    hothers u document hne hu.lookup hu.live (h.committed u hne document hu.of_registry)
  unique u hne u' hne' hdiff document document' hu hu' :=
    h.unique u hne u' hne' hdiff document document' hu.of_registry hu'.of_registry

/-! ### Writing an individual -/

@[simp] theorem documents_put :
    (st.put uri new isWriteBack).documents = st.documents.insert uri new := rfl

@[simp] theorem pending_put : (st.put uri new isWriteBack).pending =
    st.pending ++ [⟨uri, st.documents.lookup uri, new, isWriteBack⟩] := rfl

theorem Holds.of_put (hne : u ≠ uri) (h : Holds (st.put uri new isWriteBack) u document) :
    Holds st u document :=
  ⟨(AList.lookup_insert_ne hne).symm.trans h.lookup, h.live, h.number,
    fun m hmem => h.keeps m (List.mem_append_left _ hmem)⟩

theorem stateBefore_put (ms : List Message) : stateBefore (st.put uri new isWriteBack)
    (ms ++ [⟨uri, st.documents.lookup uri, new, isWriteBack⟩]) u = stateBefore st ms u := by
  rw [stateBefore, stateBefore, List.find?_append]
  cases ms.find? (·.uri = u) with
  | some m => rfl
  | none =>
    rcases eq_or_ne u uri with rfl | hne
    · simp
    · simp [hne.symm, AList.lookup_insert_ne hne]

theorem InvBut.put (h : InvBut {uri} st) (hback : isWriteBack = true →
      ∃ document, st.documents.lookup uri = some document ∧ document.number = 0) :
    InvBut {uri} (st.put uri new isWriteBack) where
  wf := h.wf
  chain before m after heq := by
    rcases List.eq_nil_or_concat after with rfl | ⟨after, last, rfl⟩
    · obtain ⟨-, hlast⟩ := List.append_inj' heq rfl
      cases hlast
      exact AList.lookup_insert _
    · rw [List.concat_eq_append, ← List.cons_append, ← List.append_assoc, pending_put] at heq
      obtain ⟨hinit, hlast⟩ := List.append_inj' heq rfl
      cases hlast
      rw [List.concat_eq_append, stateBefore_put]
      exact h.chain before m after hinit
  writeBack m hmem hm := by
    rcases List.mem_append.mp hmem with hmem | hmem
    · exact h.writeBack m hmem hm
    · obtain rfl := List.mem_singleton.mp hmem
      exact hback hm
  zero u hne document hlookup hzero := by
    rw [documents_put, AList.lookup_insert_ne hne] at hlookup
    obtain ⟨m, hmem, huri⟩ := h.zero u hne document hlookup hzero
    exact ⟨m, List.mem_append_left _ hmem, huri⟩
  committed u hne document hu := h.committed u hne document (hu.of_put hne)
  unique u hne u' hne' hdiff document document' hu hu' :=
    h.unique u hne u' hne' hdiff document document' (hu.of_put hne) (hu'.of_put hne')

/-- The individual that was written is in order, if what it may hold is. -/
theorem inOrder_put (h : Holds (st.put uri new isWriteBack) uri new →
      new.number ∈ st.registry.committed ∧
        ∀ uri' document', uri' ≠ uri → Holds st uri' document' →
          document'.number ≠ new.number) :
    InOrder (st.put uri new isWriteBack) uri where
  zero _ _ _ := ⟨_, List.mem_append_right _ List.mem_cons_self, rfl⟩
  holds document hu := by
    obtain rfl := Option.some.inj ((AList.lookup_insert _).symm.trans hu.lookup)
    obtain ⟨hmem, hothers⟩ := h hu
    exact ⟨hmem, fun uri' document' hne hu' => hothers uri' document' hne (hu'.of_put hne)⟩

/-- A user writes an individual. -/
theorem Inv.write (h : Inv st) (uri : String) (new : Document) : Inv (st.put uri new false) := by
  refine ((h.but {uri}).put fun hback => absurd hback Bool.false_ne_true).inv
    (inOrder_put fun hu => ?_)
  -- an event that keeps the number has the individual with this number before it
  rcases hu.keeps _ (List.mem_append_right _ List.mem_cons_self) rfl with
    ⟨old, hlookup, hlive, hnumber⟩ | ⟨hback, -⟩
  · have hold : Holds st uri old := ⟨hlookup, hlive, hnumber ▸ hu.number, fun m hmem huri =>
      hnumber ▸ hu.keeps m (List.mem_append_left _ hmem) huri⟩
    rw [← hnumber]
    exact (h.inOrder uri).holds old hold
  · exact absurd hback nofun

/-! ### Handling an event -/

theorem getOrCreateScope_spec (hr : r.WF) :
    (getOrCreateScope r).2.scope = some (getOrCreateScope r).1 ∧ (getOrCreateScope r).2.WF ∧
      (getOrCreateScope r).2.committed = r.committed := by
  unfold getOrCreateScope
  cases hscope : r.scope with
  | some scope => exact ⟨hscope, hr, rfl⟩
  | none =>
    have hnames : r.names = [] := by rw [Registry.names, hscope]; rfl
    have hr : Named r [] := hnames ▸ hr
    refine ⟨rfl, ⟨hr.nodup, hr.lt, hr.proper⟩, ?_⟩
    rw [Registry.committed, Registry.committed, hnames]
    rfl

/-- A number that nobody else has is in order once it is committed. -/
theorem NobodyElse.inOrder (h : NobodyElse st uri document.number)
    (hlookup : st.documents.lookup uri = some document) (hnumber : document.number ≠ 0)
    (hmem : document.number ∈ r.committed) : InOrder { st with registry := r } uri where
  zero document' hlookup' hzero := by
    cases hlookup.symm.trans hlookup'
    exact absurd hzero hnumber
  holds document' hu := by
    cases hlookup.symm.trans hu.lookup
    exact ⟨hmem, fun uri' document' hne hu' => h.ne hne hu'.lookup hu'.live⟩

/-- A deleted individual is in order. -/
theorem inOrder_of_deleted (hlookup : st.documents.lookup uri = some document)
    (hnumber : document.number ≠ 0) (hdeleted : document.deleted = true) : InOrder st uri where
  zero document' hlookup' hzero := by
    cases hlookup.symm.trans hlookup'
    exact absurd hzero hnumber
  holds document' hu := by
    cases hlookup.symm.trans hu.lookup
    exact absurd (hdeleted.symm.trans hu.live) nofun

/-- An event that keeps the number leaves the individual in order. -/
theorem Inv.keeps (h : Inv st) (hpending : st.pending = m :: rest)
    (hlookup : st.documents.lookup m.uri = some document) (hnumber : document.number ≠ 0)
    (hkeeps : Holds { st with pending := rest } m.uri document → m.Keeps document.number)
    (hr : r.committed = st.registry.committed) :
    InOrder { st with pending := rest, registry := r } m.uri where
  zero document' hlookup' hzero := by
    cases hlookup.symm.trans hlookup'
    exact absurd hzero hnumber
  holds document' hu := by
    have hu : Holds { st with pending := rest } m.uri document' := hu.of_registry
    cases hlookup.symm.trans hu.lookup
    have hbefore : Holds st m.uri document := by
      refine ⟨hlookup, hu.live, hnumber, fun m' hmem huri => ?_⟩
      rw [hpending] at hmem
      rcases List.mem_cons.mp hmem with rfl | hmem
      · exact hkeeps hu
      · exact hu.keeps m' hmem huri
    obtain ⟨hcommitted, hunique⟩ := (h.inOrder m.uri).holds document hbefore
    refine ⟨hr ▸ hcommitted, fun u d hne hd => ?_⟩
    have hd : Holds { st with pending := rest } u d := hd.of_registry
    exact hunique u d hne (hd.of_rest hpending hne)

/-- The write of a number back keeps it, where nothing after it changes the number. -/
theorem Inv.keeps_writeBack (h : Inv st) (hpending : st.pending = m :: rest)
    (hback : m.isWriteBack = true) (hnew : m.newState.number ≠ 0)
    (hu : Holds { st with pending := rest } m.uri document) : m.Keeps document.number := by
  refine .inr ⟨hback, ?_⟩
  have hchain := h.chain [] m rest hpending
  unfold stateBefore at hchain
  split at hchain
  next m' hfind =>
    -- the next event has this number before it
    have hmem := List.mem_of_find?_eq_some hfind
    have huri : m'.uri = m.uri := by simpa using List.find?_some hfind
    rcases hu.keeps m' hmem huri with ⟨old, hold, -, hnumber⟩ | ⟨hback', -⟩
    · cases hold.symm.trans hchain
      exact hnumber
    · obtain ⟨old, hold, hzero⟩ := h.writeBack m' (hpending ▸ List.mem_cons_of_mem m hmem) hback'
      cases hold.symm.trans hchain
      exact absurd hzero hnew
  next =>
    cases hchain.symm.trans hu.lookup
    rfl

/-- The individual gets the next value. -/
theorem InvBut.assign (h : InvBut {uri} st) (hr : r.WF) (hscope : r.scope = some scope)
    (hcommitted : r.committed = st.registry.committed)
    (hlookup : st.documents.lookup uri = some document) (hzero : document.number = 0) :
    ∃ v, getNextValueSimple r scope FIRST_VALUE = some v ∧
      Inv ({ st with registry := (commitValue r scope v).2 }.put uri
        { document with number := v.toInt } true) := by
  obtain ⟨v, hv, hfree, hcomparable⟩ := getNextValueSimple_spec hr hscope FIRST_VALUE
  obtain ⟨hr', hinsert⟩ := commitValue_spec hr hscope hcomparable
  rw [hcommitted] at hfree hinsert
  refine ⟨v, hv, ?_⟩
  have hothers := h.registry hr' fun u d _ _ _ hmem => hinsert ▸ Set.mem_insert_of_mem _ hmem
  refine (hothers.put fun _ => ⟨document, hlookup, hzero⟩).inv
    (inOrder_put fun _ => ⟨hinsert ▸ Set.mem_insert _ _, fun u d hne hd heq => hfree ?_⟩)
  have hd := h.committed u hne d hd.of_registry
  rw [heq] at hd
  exact hd

/-- The individual gets a number that is committed. -/
theorem InvBut.restore (h : InvBut {uri} st) (hr : r.WF)
    (hcommitted : r.committed = st.registry.committed)
    (hlookup : st.documents.lookup uri = some document) (hzero : document.number = 0)
    (hmem : number ∈ st.registry.committed) (hnobody : NobodyElse st uri number) :
    Inv ({ st with registry := r }.put uri { document with number := number } true) := by
  have hothers := h.registry hr fun u d _ _ _ hmem => hcommitted ▸ hmem
  refine (hothers.put fun _ => ⟨document, hlookup, hzero⟩).inv
    (inOrder_put fun _ => ⟨hcommitted ▸ hmem, fun u d hne hd => ?_⟩)
  exact hnobody.ne hne hd.lookup hd.live

/-- The number of the individual is committed. -/
theorem InvBut.commit (h : InvBut {uri} st) (hr : r.WF) (hscope : r.scope = some scope)
    (hcommitted : r.committed = st.registry.committed)
    (hlookup : st.documents.lookup uri = some document) (hnumber : document.number ≠ 0)
    (hnobody : NobodyElse st uri document.number) :
    Inv { st with registry := (commitValue r scope (.num document.number)).2 } := by
  obtain ⟨hr', hinsert⟩ := commitValue_spec hr hscope (comparable_num document.number)
  rw [hcommitted] at hinsert
  have hothers := h.registry hr' fun u d _ _ _ hmem => hinsert ▸ Set.mem_insert_of_mem _ hmem
  exact hothers.inv (hnobody.inOrder hlookup hnumber (hinsert ▸ Set.mem_insert _ _))

/-- A number that nobody else has is revoked. -/
theorem InvBut.revoke (h : InvBut {uri} st) (hr : r.WF) (hscope : r.scope = some scope)
    (hcommitted : ∀ n ∈ st.registry.committed, n ∈ r.committed)
    (hnobody : NobodyElse st uri number) :
    InvBut {uri} { st with registry := revokeValue r scope number } := by
  obtain ⟨hr', hdiff⟩ := revokeValue_spec hr hscope number
  refine h.registry hr' fun u d hne hd hlive hmem => ?_
  rw [hdiff]
  exact ⟨hcommitted _ hmem, hnobody.ne hne hd hlive⟩

/-- The number of the individual is committed, and the one that it replaces is revoked. -/
theorem InvBut.replace (h : InvBut {uri} st) (hr : r.WF) (hscope : r.scope = some scope)
    (hcommitted : r.committed = st.registry.committed)
    (hlookup : st.documents.lookup uri = some document) (hnumber : document.number ≠ 0)
    (hnobody : NobodyElse st uri document.number) (hprev : NobodyElse st uri number)
    (hne : document.number ≠ number) {prevScope : Scope}
    (hprevScope : (commitValue r scope (.num document.number)).2.scope = some prevScope) :
    Inv { st with
      registry :=
        revokeValue (commitValue r scope (.num document.number)).2 prevScope number } := by
  obtain ⟨hr', hinsert⟩ := commitValue_spec hr hscope (comparable_num document.number)
  obtain ⟨-, hdiff⟩ := revokeValue_spec hr' hprevScope number
  rw [hcommitted] at hinsert
  refine (h.revoke hr' hprevScope (fun n hn => ?_) hprev).inv
    (hnobody.inOrder hlookup hnumber ?_)
  · rw [hinsert]
    exact Set.mem_insert_of_mem _ hn
  · rw [hdiff, hinsert]
    exact ⟨Set.mem_insert _ _, hne⟩

theorem Inv.numerate (h : Inv st) (hpending : st.pending = m :: rest)
    (hhandled : ∀ document ∈ st.documents.lookup m.uri, Handled st m document) :
    Inv (numerate FIRST_VALUE m { st with pending := rest }) := by
  have hbut := h.take hpending
  unfold Numeration.numerate
  cases hlookup : st.documents.lookup m.uri with
  | none =>
    refine hbut.inv ⟨fun document hdocument => ?_, fun document hu => ?_⟩
    · exact absurd (hlookup.symm.trans hdocument) nofun
    · exact absurd (hlookup.symm.trans hu.lookup) nofun
  | some document =>
    have hhandled := hhandled document hlookup
    obtain ⟨hscope, hr, hcommitted⟩ := getOrCreateScope_spec h.wf
    dsimp only at hlookup ⊢
    generalize getOrCreateScope st.registry = scope at hscope hr hcommitted ⊢
    obtain ⟨scope, r⟩ := scope
    dsimp only at hscope hr hcommitted ⊢
    unfold Handled at hhandled
    split
    next hunchanged =>
      simp only [Message.isUnchanged, decide_eq_true_eq] at hunchanged
      obtain ⟨hnumber, -, hsame, hdeleted⟩ := hunchanged
      refine hbut.inv (h.keeps hpending hlookup hnumber (fun hu => .inl ?_) rfl)
      obtain ⟨old, hold, hlive⟩ := Option.map_eq_some_iff.mp hdeleted
      refine ⟨old, hold, hlive.trans hu.live, ?_⟩
      rw [hsame, Message.prevNumber, hold]
      rfl
    next hunchanged =>
      rw [if_neg hunchanged] at hhandled
      split
      next hzero =>
        obtain ⟨v, hv, hinv⟩ := hbut.assign hr hscope hcommitted hlookup hzero.1
        rw [hv]
        exact hinv
      next hnotzero =>
        split
        next hzero =>
          rw [if_pos hzero.1] at hhandled
          obtain ⟨hmem, hnobody⟩ := hhandled hzero.2
          exact hbut.restore hr hcommitted hlookup hzero.1 hmem hnobody
        next hnotrestored =>
          have hnumber : document.number ≠ 0 := fun hzero =>
            hnotrestored ⟨hzero, fun hprev => hnotzero ⟨hzero, hprev⟩⟩
          rw [if_neg hnumber] at hhandled
          split
          next hnew =>
            rw [if_pos (.inl hnew.2)] at hhandled
            exact hbut.commit hr hscope hcommitted hlookup hnumber hhandled
          next hnotnew =>
            have hprev : m.prevState ≠ none := fun hnone => hnotnew ⟨hnumber, hnone⟩
            split
            next hdeleted =>
              rw [if_pos (.inr hdeleted.2)] at hhandled
              exact (hbut.revoke hr hscope (fun n hn => hcommitted ▸ hn) hhandled).inv
                (inOrder_of_deleted hlookup hnumber hdeleted.2)
            next hnotdeleted =>
              rw [if_neg (not_or_intro hprev fun hdeleted => hnotdeleted ⟨hnumber, hdeleted⟩)]
                at hhandled
              split
              next hchanged =>
                rw [if_pos hchanged.2] at hhandled
                obtain ⟨hnobody, hprevNobody⟩ := hhandled
                split
                next => exact hbut.commit hr hscope hcommitted hlookup hnumber hnobody
                next prevScope hprevScope =>
                  exact hbut.replace hr hscope hcommitted hlookup hnumber hnobody hprevNobody
                    hchanged.2.2 hprevScope
              next hkept =>
                rw [if_neg fun hchanged => hkept ⟨hnumber, hchanged⟩] at hhandled
                have hothers := hbut.registry hr fun u d _ _ _ hmem => hcommitted ▸ hmem
                rcases hhandled with ⟨hback, hnew⟩ | ⟨hmem, hnobody⟩
                · exact hothers.inv (h.keeps hpending hlookup hnumber
                    (h.keeps_writeBack hpending hback hnew) hcommitted)
                · have hnobody : NobodyElse { st with pending := rest } m.uri document.number :=
                    hnobody
                  exact hothers.inv (hnobody.inOrder hlookup hnumber (hcommitted ▸ hmem))

theorem Inv.step {e : Event} (h : Inv st) (he : Orderly e st) : Inv (step FIRST_VALUE e st) := by
  cases e with
  | write uri new => exact h.write uri new
  | handle =>
    unfold Numeration.step
    cases hpending : st.pending with
    | nil => exact h
    | cons m rest =>
      simp only [Orderly, hpending] at he
      exact h.numerate hpending he

theorem Inv.unique_state (h : Inv st) : Unique st := by
  intro hpending uri document hlookup hlive
  have hholds : ∀ u d, st.documents.lookup u = some d → d.deleted = false → Holds st u d := by
    intro u d hd hlive
    refine ⟨hd, hlive, fun hzero => ?_, hpending ▸ nofun⟩
    obtain ⟨m, hmem, -⟩ := (h.inOrder u).zero d hd hzero
    exact List.not_mem_nil (hpending ▸ hmem)
  have hu := hholds uri document hlookup hlive
  obtain ⟨hcommitted, hunique⟩ := (h.inOrder uri).holds document hu
  exact ⟨hu.number, hcommitted, fun uri' document' hne hlookup' hlive' =>
    hunique uri' document' hne (hholds uri' document' hlookup' hlive')⟩

end

/-- Individuals are numbered, given a number, renumbered and deleted, and each event is handled
before the next change. -/
def oneByOne : List Event :=
  [.write "a" ⟨0, false⟩, .handle, .handle, .write "b" ⟨5, false⟩, .handle,
    .write "b" ⟨2, false⟩, .handle, .write "a" ⟨1, true⟩, .handle,
    .write "c" ⟨0, false⟩, .handle, .handle]

end Veda.Numeration
