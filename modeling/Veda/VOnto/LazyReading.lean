import Mathlib.Data.List.Perm.Subperm
import Veda.VOnto.ReadWritten

/-! # Reading as far as it is asked for

An individual that has been written by `msgpack8individual.d` is read predicate by predicate. What
is asked for is the same as if everything had been read before, as long as no search runs into the
end of the bytes. -/

namespace Veda.VOnto

open Bj8individual (Text)
open Bj8individual.Msgpack (packer writeResources written individual2msgpack writeIndividual
  mem_written length_written_eq length_written_le)

/-! ## Searches -/

section
variable {rmp : Rmp} {utf8 : Text → Bool} {predicate : Text} {n : ℕ}
  {front back entries : List Entry}

theorem scan_eq_some (h : scan rmp utf8 predicate n entries = some (front, back)) :
    entries = front ++ back ∧
      (predicate ∈ front.map (fun entry => textOf rmp utf8 entry.1) ∨ front.length = n) := by
  induction n generalizing entries front with
  | zero =>
    cases h
    exact ⟨rfl, .inr rfl⟩
  | succ n ih =>
    cases entries with
    | nil => cases h
    | cons entry entries =>
      rw [scan] at h
      split at h
      · split at h
        · next hkey =>
          cases h
          exact ⟨rfl, .inl (List.mem_singleton.mpr hkey.symm)⟩
        · obtain ⟨⟨front', back'⟩, hscan, heq⟩ := Option.map_eq_some_iff.mp h
          cases heq
          obtain ⟨rfl, hfound⟩ := ih hscan
          refine ⟨rfl, hfound.imp (fun hmem => ?_) fun hlength => ?_⟩
          · exact List.mem_cons_of_mem _ hmem
          · rw [List.length_cons, hlength]
      · cases h

/-- The predicate is among those that can be read, before the turns are used up. -/
def Findable (rmp : Rmp) (utf8 : Text → Bool) (predicate : Text) (n : ℕ) (entries : List Entry) :
    Prop :=
  ∃ before entry after, entries = before ++ entry :: after ∧
    textOf rmp utf8 entry.1 = predicate ∧ (∀ e ∈ before ++ [entry], Sound e) ∧ before.length < n

/-- A search succeeds if the predicate is there or the turns are used up, and all is read until
then. -/
theorem isSome_scan_iff : (scan rmp utf8 predicate n entries).isSome ↔
    Findable rmp utf8 predicate n entries ∨
      n ≤ entries.length ∧ ∀ e ∈ entries.take n, Sound e := by
  induction n generalizing entries with
  | zero => exact iff_of_true rfl (.inr ⟨Nat.zero_le _, fun e he => nomatch he⟩)
  | succ n ih =>
    cases entries with
    | nil =>
      refine iff_of_false (Bool.false_ne_true) ?_
      rintro (⟨before, entry, after, heq, -⟩ | ⟨hle, -⟩)
      · exact List.append_ne_nil_of_right_ne_nil _ (List.cons_ne_nil _ _) heq.symm
      · exact Nat.not_succ_le_zero n hle
    | cons e entries =>
      rw [scan]
      by_cases hsound : Sound e
      · rw [if_pos hsound]
        by_cases hkey : textOf rmp utf8 e.1 = predicate
        · rw [if_pos hkey]
          refine iff_of_true rfl (.inl ⟨[], e, entries, rfl, hkey, ?_, Nat.succ_pos n⟩)
          exact List.forall_mem_singleton.mpr hsound
        · rw [if_neg hkey, Option.isSome_map, ih, List.length_cons, Nat.succ_le_succ_iff,
            List.take_succ_cons, List.forall_mem_cons, and_iff_right hsound]
          refine or_congr_left ⟨?_, ?_⟩
          · rintro ⟨before, entry, after, rfl, hentry, hall, hlt⟩
            exact ⟨e :: before, entry, after, rfl, hentry,
              List.forall_mem_cons.mpr ⟨hsound, hall⟩, Nat.succ_lt_succ hlt⟩
          · rintro ⟨before, entry, after, heq, hentry, hall, hlt⟩
            cases before with
            | nil =>
              cases heq
              exact absurd hentry hkey
            | cons _ before =>
              cases heq
              exact ⟨before, entry, after, rfl, hentry, (List.forall_mem_cons.mp hall).2,
                Nat.lt_of_succ_lt_succ hlt⟩
      · rw [if_neg hsound]
        refine iff_of_false Bool.false_ne_true ?_
        rintro (⟨before, entry, after, heq, -, hall, -⟩ | ⟨-, hall⟩)
        · refine hsound (hall e ?_)
          cases before with
          | nil =>
            cases heq
            exact List.mem_singleton_self _
          | cons _ before =>
            cases heq
            exact List.mem_cons_self
        · exact hsound (hall e List.mem_cons_self)

/-! ## The values of a predicate -/

/-- The values that some predicates have under a text. -/
def valuesAt (rmp : Rmp) (utf8 : Text → Bool) (predicate : Text) (entries : List Entry) :
    List Resource :=
  (entries.filter fun entry => textOf rmp utf8 entry.1 = predicate).flatMap
    fun entry => valuesOf rmp utf8 0 entry.2

theorem valuesAt_append (front back : List Entry) :
    valuesAt rmp utf8 predicate (front ++ back) =
      valuesAt rmp utf8 predicate front ++ valuesAt rmp utf8 predicate back := by
  rw [valuesAt, List.filter_append, List.flatMap_append]
  rfl

theorem valuesAt_ne_nil (hvalued : ∀ entry ∈ entries, entry.2 ≠ [])
    (h : predicate ∈ entries.map fun entry => textOf rmp utf8 entry.1) :
    valuesAt rmp utf8 predicate entries ≠ [] := by
  obtain ⟨entry, hentry, hkey⟩ := List.mem_map.mp h
  intro hnil
  have hmem : entry ∈ entries.filter fun entry => textOf rmp utf8 entry.1 = predicate :=
    List.mem_filter.mpr ⟨hentry, decide_eq_true hkey⟩
  have hvalues := List.flatMap_eq_nil_iff.mp hnil entry hmem
  obtain ⟨r, rs, hrs⟩ := List.exists_cons_of_ne_nil (hvalued entry hentry)
  rw [hrs] at hvalues
  cases hvalues

theorem valuesAt_of_notMem (h : predicate ∉ entries.map fun entry => textOf rmp utf8 entry.1) :
    valuesAt rmp utf8 predicate entries = [] := by
  have hnil : entries.filter (fun entry => textOf rmp utf8 entry.1 = predicate) = [] := by
    rw [List.filter_eq_nil_iff]
    intro entry hentry hkey
    exact h (List.mem_map.mpr ⟨entry, hentry, of_decide_eq_true hkey⟩)
  rw [valuesAt, hnil]
  rfl

/-- What is found once some predicates are among the resources. -/
theorem lookup_pushAll (resources : Resources) :
    (pushAll rmp utf8 resources entries).lookup predicate =
      if predicate ∈ entries.map fun entry => textOf rmp utf8 entry.1 then
        some ((resources.lookup predicate).getD [] ++ valuesAt rmp utf8 predicate entries)
      else resources.lookup predicate := by
  induction entries generalizing resources with
  | nil => rfl
  | cons entry entries ih =>
    have hcons := @valuesAt_append rmp utf8 predicate [entry] entries
    rw [List.singleton_append] at hcons
    change (pushAll rmp utf8 (push rmp utf8 resources entry) entries).lookup predicate = _
    rw [ih, hcons]
    by_cases hkey : predicate = textOf rmp utf8 entry.1
    · have hone : valuesAt rmp utf8 predicate [entry] = valuesOf rmp utf8 0 entry.2 := by
        simp [valuesAt, hkey]
      have hpush : (push rmp utf8 resources entry).lookup predicate =
          some ((resources.lookup predicate).getD [] ++ valuesOf rmp utf8 0 entry.2) := by
        rw [push, ← hkey, AList.lookup_insert]
      refine Eq.trans ?_ (if_pos (List.mem_cons.mpr (.inl hkey))).symm
      rw [hone, hpush]
      split
      · rw [Option.getD_some, List.append_assoc]
      · next hnot => rw [valuesAt_of_notMem hnot, List.append_nil]
    · have hone : valuesAt rmp utf8 predicate [entry] = [] :=
        valuesAt_of_notMem fun hmem => hkey (List.mem_singleton.mp hmem)
      have hpush : (push rmp utf8 resources entry).lookup predicate =
          resources.lookup predicate := by
        rw [push, AList.lookup_insert_ne hkey]
      rw [hone, hpush, List.nil_append]
      simp only [List.map_cons, List.mem_cons, hkey, false_or]

end

/-! ## The property -/

section
variable (lib : Bj8individual.Msgpack.Library) (rmp : Rmp) (utf8 : Text → Bool)
  (ii : Bj8individual.Individual)

/-- The individual when all predicates have been read. -/
def readWhole : Individual where
  binobj := individual2msgpack lib ii
  uri := textOf rmp utf8 ii.uri
  resources := pushAll rmp utf8 ∅ (written ii)
  cur := (individual2msgpack lib ii).length
  lenPredicates := ii.resources.entries.length
  curPredicates := 0

/-- No value is among the resources more often than the individual has it. -/
def NoDouble (indv : Individual) : Prop :=
  ∀ predicate values, indv.resources.lookup predicate = some values →
    values.Subperm (((readWhole lib rmp utf8 ii).resources.lookup predicate).getD [])

/-- Each call returns what it returns when all predicates have been read, and no value is doubled
before or after it. -/
def Faithful : Individual → List Call → Prop
  | indv, [] => NoDouble lib rmp utf8 ii indv
  | indv, call :: calls => NoDouble lib rmp utf8 ii indv ∧
      (∃ answer, (call.run rmp indv).1 = some answer ∧
        (call.run rmp (readWhole lib rmp utf8 ii)).1 = some answer) ∧
      Faithful (call.run rmp indv).2 calls

/-- The predicate that is asked for. -/
def Call.predicate : Call → Text
  | .literal predicate | .integer predicate | .binobj predicate => predicate

/-- The search of a call does not run into the end of the bytes, nor into an empty binary value:
the predicate is among those that have been read, or all have been, or it is one of the next that
can be read, or it is nowhere, nothing has been read and every predicate has values. -/
def Meets (indv : Individual) (call : Call) : Prop :=
  ∃ front back, written ii = front ++ back ∧ indv.unread = bytesOf lib back ∧
    (call.predicate ∈ front.map (fun entry => textOf rmp utf8 entry.1) ∨ back = [] ∨
      (∃ before entry after, back = before ++ entry :: after ∧
        textOf rmp utf8 entry.1 = call.predicate ∧ ∀ e ∈ before ++ [entry], Sound e) ∨
      front = [] ∧ (∀ entry ∈ ii.resources.entries, entry.2 ≠ []) ∧ ∀ e ∈ back, Sound e)

/-- All calls meet the condition, each where it is made. -/
def AllMeet : Individual → List Call → Prop
  | _, [] => True
  | indv, call :: calls =>
    Meets lib rmp utf8 ii indv call ∧ AllMeet (call.run rmp indv).2 calls

/-- A state of an individual of which the first predicates have been read. -/
structure At (front back : List Entry) (indv : Individual) : Prop where
  split : written ii = front ++ back
  binobj : indv.binobj = individual2msgpack lib ii
  resources : indv.resources = pushAll rmp utf8 ∅ front
  cur : indv.cur = (individual2msgpack lib ii).length - (bytesOf lib back).length
  lenPredicates : indv.lenPredicates = ii.resources.entries.length
  curPredicates : indv.curPredicates = 0

end

/-! ## Calls -/

/-- What a call makes of a value. -/
def Call.ofValue : Call → Value → Answer
  | .literal _ => literalOf
  | .integer _ => integerOf
  | .binobj _ => binobjOf

def Call.failed : Call → Answer
  | .literal _ => .literal (.error (-3))
  | .integer _ => .integer (-1)
  | .binobj _ => .binobj []

def Call.absent : Call → Answer
  | .literal _ => .literal (.ok [])
  | .integer _ => .integer (-1)
  | .binobj _ => .binobj []

section
variable {rmp : Rmp} {indv : Individual} {call : Call}

theorem run_eq (call : Call) (indv : Individual) : call.run rmp indv =
    getFirst rmp call.ofValue call.failed call.absent call.predicate indv.fuel indv := by
  cases call <;> rfl

theorem getFirst_of_lookup {A : Type} {ofValue : Value → A} {failed absent : A} {predicate : Text}
    {r : Resource} {values : List Resource} (fuel : ℕ)
    (h : indv.resources.lookup predicate = some (r :: values)) :
    getFirst rmp ofValue failed absent predicate fuel indv = (some (ofValue r.value), indv) := by
  cases fuel with
  | zero => rw [getFirst, h]
  | succ fuel => rw [getFirst, h]

theorem getFirst_of_end {A : Type} {ofValue : Value → A} {failed absent : A} {predicate : Text}
    (fuel : ℕ) (h : indv.resources.lookup predicate = none)
    (hend : indv.binobj.length ≤ indv.cur) :
    getFirst rmp ofValue failed absent predicate fuel indv = (some absent, indv) := by
  cases fuel with
  | zero =>
    rw [getFirst, h]
    exact if_neg (Nat.not_lt.mpr hend)
  | succ fuel =>
    rw [getFirst, h]
    exact if_neg (Nat.not_lt.mpr hend)

/-- A call that has to read on. -/
theorem run_of_lookup_none (h : indv.resources.lookup call.predicate = none)
    (hcur : indv.cur < indv.binobj.length) :
    call.run rmp indv =
      match parseToPredicate rmp call.predicate indv with
      | (true, indv') => getFirst rmp call.ofValue call.failed call.absent call.predicate
          indv.binobj.length indv'
      | (false, indv') => (some call.failed, indv') := by
  rw [run_eq, Individual.fuel, getFirst, h]
  exact if_pos hcur

end

/-! ## States -/

section
variable {lib : Bj8individual.Msgpack.Library}

theorem bytesOf_append (front back : List Entry) :
    bytesOf lib (front ++ back) = bytesOf lib front ++ bytesOf lib back := by
  rw [bytesOf, List.flatMap_append, List.flatMap_append]
  rfl

theorem individual2msgpack_eq_append (ii : Bj8individual.Individual) :
    individual2msgpack lib ii = lib.encode (.array 2) ++ (lib.encode (lib.packText ii.uri) ++
      (lib.encode (.map ii.resources.entries.length) ++ bytesOf lib (written ii))) := by
  rw [individual2msgpack, writeIndividual, List.flatMap_cons, List.flatMap_cons,
    List.flatMap_cons]
  rfl

/-- What a call returns when all predicates have been read: something of the first value, or that
there is none. -/
def Call.expected (rmp : Rmp) (utf8 : Text → Bool) (ii : Bj8individual.Individual) (call : Call) :
    Answer :=
  match valuesAt rmp utf8 call.predicate (written ii) with
  | r :: _ => call.ofValue r.value
  | [] => call.absent

variable {rmp : Rmp} {utf8 : Text → Bool} {ii : Bj8individual.Individual}
  {front back : List Entry} {indv : Individual} {call : Call}

theorem valued_written : ∀ entry ∈ written ii, entry.2 ≠ [] := fun _ hentry =>
  (mem_written.mp hentry).2

namespace At
variable (h : At lib rmp utf8 ii front back indv)
include h

theorem unread : indv.unread = bytesOf lib back := by
  have hsuffix : bytesOf lib back <:+ individual2msgpack lib ii := by
    rw [individual2msgpack_eq_append, h.split, bytesOf_append]
    exact ⟨_, by rw [List.append_assoc, List.append_assoc, List.append_assoc]⟩
  rw [Individual.unread, h.binobj, h.cur]
  exact (List.suffix_iff_eq_drop.mp hsuffix).symm

theorem length_le : (bytesOf lib back).length ≤ (individual2msgpack lib ii).length := by
  rw [individual2msgpack_eq_append, h.split, bytesOf_append]
  simp only [List.length_append]
  omega

theorem lookup (predicate : Text) : indv.resources.lookup predicate =
    if predicate ∈ front.map fun entry => textOf rmp utf8 entry.1 then
      some (valuesAt rmp utf8 predicate front)
    else none := by
  rw [h.resources, lookup_pushAll]
  rfl

theorem noDouble : NoDouble lib rmp utf8 ii indv := by
  intro predicate values hlookup
  have hwhole : (readWhole lib rmp utf8 ii).resources.lookup predicate = _ := lookup_pushAll ∅
  rw [h.lookup] at hlookup
  split at hlookup
  · next hmem =>
    cases hlookup
    have hmem' : predicate ∈ (written ii).map fun entry => textOf rmp utf8 entry.1 := by
      rw [h.split, List.map_append]
      exact List.mem_append_left _ hmem
    rw [hwhole, if_pos hmem', Option.getD_some, h.split, valuesAt_append]
    exact (List.sublist_append_left _ _).subperm
  · cases hlookup

/-- The predicate has been read. -/
theorem getFirst_of_mem (fuel : ℕ)
    (hmem : call.predicate ∈ front.map fun entry => textOf rmp utf8 entry.1) :
    getFirst rmp call.ofValue call.failed call.absent call.predicate fuel indv =
      (some (call.expected rmp utf8 ii), indv) := by
  have hvalued : ∀ entry ∈ front, entry.2 ≠ [] := fun entry hentry =>
    valued_written entry (h.split ▸ List.mem_append_left _ hentry)
  obtain ⟨r, values, hvalues⟩ := List.exists_cons_of_ne_nil (valuesAt_ne_nil hvalued hmem)
  have hlookup := h.lookup call.predicate
  rw [if_pos hmem, hvalues] at hlookup
  have hexpected : call.expected rmp utf8 ii = call.ofValue r.value := by
    rw [Call.expected, h.split, valuesAt_append, hvalues]
    rfl
  rw [getFirst_of_lookup fuel hlookup, hexpected]

theorem cur_lt_iff (hpos : ∀ token, lib.encode token ≠ []) :
    indv.cur < indv.binobj.length ↔ back ≠ [] := by
  have hle := h.length_le
  rw [h.binobj, h.cur]
  constructor
  · rintro hlt rfl
    have hnil : (bytesOf lib []).length = 0 := rfl
    omega
  · intro hne
    obtain ⟨entry, entries, rfl⟩ := List.exists_cons_of_ne_nil hne
    have hkey := List.length_pos_iff.mpr (hpos (lib.packText entry.1))
    have hbytes : 0 < (bytesOf lib (entry :: entries)).length := by
      rw [bytesOf_cons, writeResources, List.flatMap_cons]
      simp only [List.length_append]
      omega
    omega

/-- Everything has been read. -/
theorem getFirst_of_done (hpos : ∀ token, lib.encode token ≠ []) (hback : back = []) (fuel : ℕ) :
    getFirst rmp call.ofValue call.failed call.absent call.predicate fuel indv =
      (some (call.expected rmp utf8 ii), indv) := by
  by_cases hmem : call.predicate ∈ front.map fun entry => textOf rmp utf8 entry.1
  · exact h.getFirst_of_mem fuel hmem
  · have hlookup := h.lookup call.predicate
    rw [if_neg hmem] at hlookup
    have hend : indv.binobj.length ≤ indv.cur :=
      Nat.not_lt.mp fun hlt => (h.cur_lt_iff hpos).mp hlt hback
    have hexpected : call.expected rmp utf8 ii = call.absent := by
      rw [Call.expected, h.split, hback, List.append_nil, valuesAt_of_notMem hmem]
    rw [getFirst_of_end fuel hlookup hend, hexpected]

end At

end

/-! ## Steps -/

section
variable {lib : Bj8individual.Msgpack.Library} {rmp : Rmp} {utf8 : Text → Bool}
  {ii : Bj8individual.Individual} {front back : List Entry} {indv : Individual} {call : Call}
  (hdoc : Documented lib rmp utf8) (hfits : ∀ token ∈ writeIndividual lib ii, Fits token)

include hdoc hfits

/-- The search of a call, by the predicates. -/
theorem At.parseToPredicate (h : At lib rmp utf8 ii front back indv) (hback : back ≠ [])
    (predicate : Text) :
    match scan rmp utf8 predicate ii.resources.entries.length back with
    | some (front', back') => ∃ indv', VOnto.parseToPredicate rmp predicate indv = (true, indv') ∧
        indv'.binobj = indv.binobj ∧ At lib rmp utf8 ii (front ++ front') back' indv'
    | none => (VOnto.parseToPredicate rmp predicate indv).1 = false := by
  have hcur := (h.cur_lt_iff hdoc.encode_pos).mpr hback
  have hentries : ∀ entry ∈ back, ∀ token ∈ writeResources lib entry.1 entry.2, Fits token := by
    intro entry hentry token htoken
    refine hfits token ?_
    rw [writeIndividual, List.mem_cons, List.mem_cons, List.mem_cons]
    refine .inr (.inr (.inr (List.mem_flatMap.mpr ⟨entry, ?_, htoken⟩)))
    exact h.split ▸ List.mem_append_right _ hentry
  have hloop :=
    parseLoop_bytesOf hdoc predicate ii.resources.entries.length indv.resources hentries
  unfold VOnto.parseToPredicate
  rw [if_neg (Nat.not_le.mpr hcur), h.lenPredicates, h.curPredicates, Nat.sub_zero, h.unread]
  cases hscan : scan rmp utf8 predicate ii.resources.entries.length back with
  | none =>
    rw [hscan] at hloop
    dsimp only at hloop ⊢
    split
    · next hsome =>
      rw [hsome] at hloop
      cases hloop
    · rfl
  | some found =>
    obtain ⟨front', back'⟩ := found
    rw [hscan] at hloop
    dsimp only at hloop ⊢
    rw [hloop]
    obtain ⟨rfl, -⟩ := scan_eq_some hscan
    refine ⟨_, rfl, rfl, ?_, h.binobj, ?_, ?_, rfl, rfl⟩
    · rw [h.split, List.append_assoc]
    · change pushAll rmp utf8 indv.resources front' = _
      rw [h.resources, pushAll, pushAll, pushAll, List.foldl_append]
    · change indv.binobj.length - _ = _
      rw [h.binobj]

omit hdoc hfits in
/-- A predicate that has not been read is to be found, or nowhere. -/
theorem At.isSome_scan_iff (h : At lib rmp utf8 ii front back indv) (predicate : Text) :
    (scan rmp utf8 predicate ii.resources.entries.length back).isSome ↔
      (∃ before entry after, back = before ++ entry :: after ∧
        textOf rmp utf8 entry.1 = predicate ∧ ∀ e ∈ before ++ [entry], Sound e) ∨
      front = [] ∧ (∀ entry ∈ ii.resources.entries, entry.2 ≠ []) ∧ ∀ e ∈ back, Sound e := by
  have hle := length_written_le ii
  have hlength : (written ii).length = front.length + back.length := by
    rw [h.split, List.length_append]
  rw [VOnto.isSome_scan_iff]
  refine or_congr ⟨?_, ?_⟩ ⟨?_, ?_⟩
  · rintro ⟨before, entry, after, heq, hkey, hall, -⟩
    exact ⟨before, entry, after, heq, hkey, hall⟩
  · rintro ⟨before, entry, after, heq, hkey, hall⟩
    refine ⟨before, entry, after, heq, hkey, hall, ?_⟩
    rw [heq, List.length_append, List.length_cons] at hlength
    omega
  · rintro ⟨hmany, hall⟩
    rw [List.take_of_length_le (by omega)] at hall
    refine ⟨List.length_eq_zero_iff.mp (by omega), length_written_eq.mp (by omega), hall⟩
  · rintro ⟨rfl, hvalued, hall⟩
    have heq := length_written_eq.mpr hvalued
    rw [List.length_nil] at hlength
    exact ⟨by omega, fun e he => hall e (List.mem_of_mem_take he)⟩

omit hfits in
/-- How far an individual has been read is told by the bytes that are left. -/
theorem At.unique (h : At lib rmp utf8 ii front back indv) {front' back' : List Entry}
    (hsplit : written ii = front' ++ back') (hunread : indv.unread = bytesOf lib back') :
    front = front' ∧ back = back' := by
  have hlonger : ∀ {xs ys zs : List Entry}, bytesOf lib (xs ++ zs) = bytesOf lib zs →
      ys = xs ++ zs → xs = [] := by
    intro xs ys zs hbytes _
    by_contra hne
    obtain ⟨entry, entries, rfl⟩ := List.exists_cons_of_ne_nil hne
    have hkey := List.length_pos_iff.mpr (hdoc.encode_pos (lib.packText entry.1))
    have hlength := congrArg List.length hbytes
    rw [List.cons_append, bytesOf_cons, writeResources, List.flatMap_cons,
      bytesOf_append] at hlength
    simp only [List.length_append] at hlength
    omega
  rw [h.unread] at hunread
  rw [h.split] at hsplit
  rcases List.append_eq_append_iff.mp hsplit with ⟨mid, hfront, hback⟩ | ⟨mid, hfront, hback⟩
  · rw [hback] at hunread
    obtain rfl := hlonger hunread hback
    exact ⟨by rw [hfront, List.append_nil], hback⟩
  · rw [hback] at hunread
    obtain rfl := hlonger hunread.symm hback
    exact ⟨by rw [hfront, List.append_nil], hback.symm⟩

/-- A call that meets the condition returns what is expected, and leaves a state of that kind. -/
theorem At.run_of_meets (h : At lib rmp utf8 ii front back indv)
    (hmeets : Meets lib rmp utf8 ii indv call) :
    ∃ front' back', (call.run rmp indv).1 = some (call.expected rmp utf8 ii) ∧
      At lib rmp utf8 ii front' back' (call.run rmp indv).2 := by
  obtain ⟨_, _, hsplit, hunread, hmeets⟩ := hmeets
  obtain ⟨rfl, rfl⟩ := h.unique hdoc hsplit hunread
  by_cases hmem : call.predicate ∈ front.map fun entry => textOf rmp utf8 entry.1
  · refine ⟨front, back, ?_, ?_⟩
    · rw [run_eq, h.getFirst_of_mem _ hmem]
    · rw [run_eq, h.getFirst_of_mem _ hmem]
      exact h
  by_cases hback : back = []
  · refine ⟨front, back, ?_, ?_⟩
    · rw [run_eq, h.getFirst_of_done hdoc.encode_pos hback]
    · rw [run_eq, h.getFirst_of_done hdoc.encode_pos hback]
      exact h
  have hlookup := h.lookup call.predicate
  rw [if_neg hmem] at hlookup
  have hcur := (h.cur_lt_iff hdoc.encode_pos).mpr hback
  have hsome := (h.isSome_scan_iff call.predicate).mpr
    ((hmeets.resolve_left hmem).resolve_left hback)
  have hparse := h.parseToPredicate hdoc hfits hback call.predicate
  rw [run_of_lookup_none hlookup hcur]
  cases hscan : scan rmp utf8 call.predicate ii.resources.entries.length back with
  | none =>
    rw [hscan] at hsome
    cases hsome
  | some found =>
    obtain ⟨front', back'⟩ := found
    rw [hscan] at hparse
    obtain ⟨indv', hparse, -, hat⟩ := hparse
    rw [hparse]
    have hanswer : getFirst rmp call.ofValue call.failed call.absent call.predicate
        indv.binobj.length indv' = (some (call.expected rmp utf8 ii), indv') := by
      rcases (scan_eq_some hscan).2 with hfound | hlength
      · refine hat.getFirst_of_mem _ ?_
        rw [List.map_append]
        exact List.mem_append_right _ hfound
      · refine hat.getFirst_of_done hdoc.encode_pos ?_ _
        have hle := length_written_le ii
        rw [hat.split, List.length_append, List.length_append] at hle
        exact List.length_eq_zero_iff.mp (by omega)
    dsimp only
    rw [hanswer]
    exact ⟨front ++ front', back', rfl, hat⟩

/-- A call for a text that does not meet the condition fails. -/
theorem At.literal_of_not_meets (h : At lib rmp utf8 ii front back indv) {predicate : Text}
    (hmeets : ¬Meets lib rmp utf8 ii indv (.literal predicate)) :
    ((Call.literal predicate).run rmp indv).1 = some (.literal (.error (-3))) := by
  have hnot : ¬(predicate ∈ front.map (fun entry => textOf rmp utf8 entry.1) ∨ back = [] ∨
      (scan rmp utf8 predicate ii.resources.entries.length back).isSome) := by
    rw [h.isSome_scan_iff]
    exact fun hall => hmeets ⟨front, back, h.split, h.unread, hall⟩
  rw [not_or, not_or] at hnot
  obtain ⟨hmem, hback, hscan⟩ := hnot
  have hlookup : indv.resources.lookup (Call.literal predicate).predicate = none :=
    (h.lookup predicate).trans (if_neg hmem)
  have hcur := (h.cur_lt_iff hdoc.encode_pos).mpr hback
  have hparse := h.parseToPredicate hdoc hfits hback predicate
  rw [Option.not_isSome_iff_eq_none.mp hscan] at hparse
  rw [run_of_lookup_none hlookup hcur]
  dsimp only at hparse
  split
  · next htrue =>
    rw [Call.predicate] at htrue
    rw [htrue] at hparse
    cases hparse
  · rfl

end

/-! ## Runs -/

section
variable {lib : Bj8individual.Msgpack.Library} {rmp : Rmp} {utf8 : Text → Bool}
  {ii : Bj8individual.Individual}

theorem at_readWhole :
    At lib rmp utf8 ii (written ii) [] (readWhole lib rmp utf8 ii) where
  split := (List.append_nil _).symm
  binobj := rfl
  resources := rfl
  cur := rfl
  lenPredicates := rfl
  curPredicates := rfl

/-- What is expected of a call is not that it fails. -/
theorem expected_literal_ne (predicate : Text) :
    (Call.literal predicate).expected rmp utf8 ii ≠ .literal (.error (-3)) := by
  unfold Call.expected
  split
  · next r _ _ =>
    change literalOf r.value ≠ _
    cases r.value with
    | str s lang => exact fun h => nomatch h
    | _ => exact fun h => absurd (Except.error.inj (Answer.literal.inj h)) (by decide)
  · exact fun h => nomatch h

variable (hdoc : Documented lib rmp utf8) (hfits : ∀ token ∈ writeIndividual lib ii, Fits token)
include hdoc hfits

/-- What has been written is opened. -/
theorem exists_msgpack2individual : ∃ indv,
    msgpack2individual rmp (.new (individual2msgpack lib ii)) = some indv ∧
      At lib rmp utf8 ii [] (written ii) indv := by
  rw [writeIndividual, List.forall_mem_cons, List.forall_mem_cons, List.forall_mem_cons] at hfits
  obtain ⟨-, huri, hmap, -⟩ := hfits
  have hbytes := @individual2msgpack_eq_append lib ii
  have hhead : (individual2msgpack lib ii).head? = some magicHeader := by
    rw [hbytes, hdoc.encode_array]
    rfl
  refine ⟨({ Individual.new (individual2msgpack lib ii) with
    uri := textOf rmp utf8 ii.uri
    lenPredicates := ii.resources.entries.length } : Individual).setCur
      (bytesOf lib (written ii)), ?_, rfl, rfl, rfl, rfl, rfl, rfl⟩
  unfold msgpack2individual
  change (if (individual2msgpack lib ii).head? ≠ some magicHeader then none else _) = _
  rw [if_neg (not_not.mpr hhead)]
  change ((rmp.readMarker (individual2msgpack lib ii)) >>= _) = _
  rw [hbytes, hdoc.marker_array 2 (by decide)]
  simp only [Option.bind_eq_bind, Option.bind_some]
  rw [if_neg (by decide), readStringFromMsgpack_packText hdoc huri]
  simp only [Option.bind_some]
  rw [hdoc.mapLen _ hmap]
  rfl

/-- The calls of a run return what is expected and double nothing if all of them meet the
condition; among calls for texts alone no other run does so. -/
theorem At.faithful_iff {front back : List Entry} {indv : Individual}
    (h : At lib rmp utf8 ii front back indv) (calls : List Call) :
    (AllMeet lib rmp utf8 ii indv calls → Faithful lib rmp utf8 ii indv calls) ∧
      ((∀ call ∈ calls, ∃ predicate, call = .literal predicate) →
        Faithful lib rmp utf8 ii indv calls → AllMeet lib rmp utf8 ii indv calls) := by
  induction calls generalizing front back indv with
  | nil => exact ⟨fun _ => h.noDouble, fun _ _ => trivial⟩
  | cons call calls ih =>
    have hwhole : (call.run rmp (readWhole lib rmp utf8 ii)).1 =
        some (call.expected rmp utf8 ii) := by
      rw [run_eq, at_readWhole.getFirst_of_done hdoc.encode_pos rfl]
    constructor
    · rintro ⟨hmeets, hall⟩
      obtain ⟨front', back', hanswer, hat⟩ := h.run_of_meets hdoc hfits hmeets
      exact ⟨h.noDouble, ⟨_, hanswer, hwhole⟩, (ih hat).1 hall⟩
    · intro hliterals hfaithful
      obtain ⟨-, ⟨answer, hanswer, hanswer'⟩, hrest⟩ := hfaithful
      obtain ⟨⟨predicate, rfl⟩, hrests⟩ := List.forall_mem_cons.mp hliterals
      have hmeets : Meets lib rmp utf8 ii indv (.literal predicate) := by
        by_contra hnot
        have hfailed := h.literal_of_not_meets hdoc hfits hnot
        rw [hfailed] at hanswer
        rw [hwhole, ← hanswer] at hanswer'
        exact expected_literal_ne predicate (Option.some_inj.mp hanswer')
      obtain ⟨front', back', -, hat⟩ := h.run_of_meets hdoc hfits hmeets
      exact ⟨hmeets, (ih hat).2 hrests hrest⟩

/-- Reading as far as it is asked for is the same as reading everything before, in every run whose
searches do not run into the end of the bytes. -/
theorem lazyReading_faithful (calls : List Call) : ∃ indv,
    msgpack2individual rmp (.new (individual2msgpack lib ii)) = some indv ∧
      (AllMeet lib rmp utf8 ii indv calls → Faithful lib rmp utf8 ii indv calls) ∧
      ((∀ call ∈ calls, ∃ predicate, call = .literal predicate) →
        Faithful lib rmp utf8 ii indv calls → AllMeet lib rmp utf8 ii indv calls) := by
  obtain ⟨indv, hopen, hat⟩ := exists_msgpack2individual hdoc hfits
  exact ⟨indv, hopen, hat.faithful_iff hdoc hfits calls⟩

end

/-- `p` with a text and `q` with a number. -/
def twoPredicates : Bj8individual.Individual :=
  ⟨[0x61], AList.insert [0x70] [.str [0x78] .none] (AList.insert [0x71] [.integer 1] ∅)⟩

instance : DecidablePred Fits
  | .raw s => inferInstanceAs (Decidable (s.length < 2 ^ 32))
  | .array n => inferInstanceAs (Decidable (n < 2 ^ 32))
  | .map n => inferInstanceAs (Decidable (n < 2 ^ 32))
  | .nil | .bool _ | .uint _ | .int _ => .isTrue trivial

theorem fits_twoPredicates : ∀ token ∈ writeIndividual packer twoPredicates, Fits token := by
  decide

theorem lazyReading_faithful_twoPredicates : ∃ indv,
    msgpack2individual reader (.new (individual2msgpack packer twoPredicates)) = some indv ∧
      (AllMeet packer reader isAscii twoPredicates indv [.literal [0x70], .integer [0x71]] →
        Faithful packer reader isAscii twoPredicates indv [.literal [0x70], .integer [0x71]]) ∧
      ((∀ call ∈ [Call.literal [0x70], .integer [0x71]], ∃ predicate, call = .literal predicate) →
        Faithful packer reader isAscii twoPredicates indv [.literal [0x70], .integer [0x71]] →
        AllMeet packer reader isAscii twoPredicates indv [.literal [0x70], .integer [0x71]]) :=
  lazyReading_faithful documented_reader fits_twoPredicates _

/-- Once `p` has been read, a predicate that is nowhere is an error. -/
theorem not_lazyReading_faithful : ¬∀ {lib : Bj8individual.Msgpack.Library} {rmp : Rmp}
    {utf8 : Text → Bool}, Documented lib rmp utf8 → ∀ ii : Bj8individual.Individual,
      (∀ token ∈ writeIndividual lib ii, Fits token) → ∀ calls : List Call, ∃ indv,
        msgpack2individual rmp (.new (individual2msgpack lib ii)) = some indv ∧
          Faithful lib rmp utf8 ii indv calls := by
  intro h
  obtain ⟨indv, hopen, -, -, -, ⟨answer, hlazy, hwhole⟩, -⟩ :=
    h documented_reader twoPredicates fits_twoPredicates [.literal [0x70], .literal [0x7A]]
  have hfailed : (msgpack2individual reader (.new (individual2msgpack packer twoPredicates))).bind
      (fun indv =>
        ((Call.literal [0x7A]).run reader ((Call.literal [0x70]).run reader indv).2).1) =
      some (.literal (.error (-3))) := by rfl
  have habsent : ((Call.literal [0x7A]).run reader
      (readWhole packer reader isAscii twoPredicates)).1 = some (.literal (.ok [])) := by rfl
  rw [hopen, Option.bind_some, hlazy] at hfailed
  rw [habsent, hfailed] at hwhole
  cases hwhole

end Veda.VOnto
