import Mathlib.Data.List.AList
import Mathlib.Data.List.Induction
import Mathlib.Logic.Equiv.Basic
import Veda.Lib.Run

/-! # The MRU cache

`Cache` holds its elements by their keys in `key2element`, and in `MRU` in the order in which they
are evicted, last slot first. An element knows its slot. The two stay in step as long as a new
element gets the slot after those of all others: a key that is put again while it is held leaves
its old element in `MRU`. -/

namespace Veda.Util

open Veda.Run

variable {T : Type}

/-- An element. A pointer to it is its place in `Cache.elements`. -/
structure CacheElement (T : Type) where
  data : T
  key : String
  useCount : ℕ := 0
  mruPos : ℕ := 0

/-- The cache, with every element that was ever made. -/
structure Cache (T : Type) where
  maxSize : ℕ
  key2element : AList fun _ : String => ℕ
  elements : List (CacheElement T)
  MRU : List (Option ℕ)

namespace Cache

def new (maxSize : ℕ) : Cache T := ⟨maxSize, ∅, [], List.replicate maxSize none⟩

/-- The number of keys that are held. -/
def length (c : Cache T) : ℕ := c.key2element.keys.length

/-! ## put -/

/-- A new element, in the slot that has the number of held keys. -/
def add (c : Cache T) (key : String) (src : T) : Cache T where
  maxSize := c.maxSize
  key2element := c.key2element.insert key c.elements.length
  elements := c.elements ++ [{ data := src, key, mruPos := c.length }]
  MRU := c.MRU.set c.length (some c.elements.length)

def remove (c : Cache T) (key : String) : Cache T :=
  { c with key2element := c.key2element.erase key }

/-- The element in the last used slot from `pp` down. Slot 0 is not looked at. -/
def oldest (MRU : List (Option ℕ)) : ℕ → Option ℕ
  | 0 => none
  | pp + 1 => MRU[pp + 1]?.join <|> oldest MRU pp

/-- `put` with a bound on its recursion, `none` where it goes deeper. -/
def putLevel : ℕ → Cache T → String → T → Option (Cache T)
  | 0, _, _, _ => none
  | fuel + 1, c, key, src =>
    if key = "" then some c
    else if c.length < c.maxSize then some (c.add key src)
    else match oldest c.MRU (c.length - 1) with
      | none => some c
      | some ce => c.elements[ce]?.bind fun e => putLevel fuel (c.remove e.key) key src

/-- `none` where the recursion does not end. -/
def put (c : Cache T) (key : String) (src : T) : Option (Cache T) :=
  putLevel (c.length + 1) c key src

/-! ## get -/

/-- The element and the one before it swap slots unless that one is used more. -/
def moveUp (c : Cache T) (element : ℕ) (e : CacheElement T) : Option (Cache T) := do
  let prevPos := e.mruPos - 1
  let prevElement ← c.MRU[prevPos]?.join
  let prev ← c.elements[prevElement]?
  if prev.useCount ≤ e.useCount then
    some { c with
      elements := (c.elements.modify element ({ · with mruPos := prevPos })).modify prevElement
        ({ · with mruPos := e.mruPos })
      MRU := (c.MRU.set prevPos (some element)).set e.mruPos (some prevElement) }
  else some c

/-- `element.use_count++` -/
def use (c : Cache T) (element : ℕ) : Cache T :=
  { c with elements := c.elements.modify element fun e => { e with useCount := e.useCount + 1 } }

/-- The value and the cache after the call, `none` where a null pointer is followed. -/
def get [Inhabited T] (c : Cache T) (key : String) : Option (T × Cache T) :=
  match c.key2element.lookup key with
  | none => some (default, c)
  | some element => do
    let e ← c.elements[element]?
    let c ← if 0 < e.mruPos then c.moveUp element e else some c
    some (e.data, c.use element)

end Cache

/-! ## Calls -/

inductive Call (T : Type) where
  | put (key : String) (src : T)
  | get (key : String)

namespace Call

def key : Call T → String
  | .put key _ => key
  | .get key => key

/-- The cache after the call, `none` once a call did not return. -/
def step [Inhabited T] (call : Call T) (c : Option (Cache T)) : Option (Cache T) :=
  c.bind fun c =>
    match call with
    | .put key src => c.put key src
    | .get key => (c.get key).map Prod.snd

/-- What the call puts under the key. -/
def src? (key : String) : Call T → Option T
  | .put k src => if k = key then some src else none
  | .get _ => none

end Call

/-- The value of the last put of the key. -/
def lastPut (calls : List (Call T)) (key : String) : Option T :=
  (calls.filterMap (Call.src? key)).getLast?

/-! ## The property -/

/-- The element that is held under the key. -/
def Cache.Holds (c : Cache T) (key : String) (element : ℕ) (e : CacheElement T) : Prop :=
  c.key2element.lookup key = some element ∧ c.elements[element]? = some e

/-- The value that is held under the key. -/
def Cache.value (c : Cache T) (key : String) : Option T :=
  (c.key2element.lookup key).bind fun element => c.elements[element]?.map CacheElement.data

/-- The element under the key is in the last used slot. -/
def Cache.IsLast (c : Cache T) (key : String) : Prop :=
  ∃ element ∈ c.key2element.lookup key, ∃ e ∈ c.elements[element]?, e.mruPos + 1 = c.length

/-- The key is not held, or its element is the one that is evicted. Where nothing can be evicted,
the value is the one that is held. -/
def Cache.MayPut (c : Cache T) (key : String) (src : T) : Prop :=
  if c.length < c.maxSize then key ∉ c.key2element
  else if c.maxSize = 1 then c.value key = some src
  else key ∈ c.key2element → c.IsLast key

def Call.Permitted (call : Call T) (c : Option (Cache T)) : Prop :=
  match call with
  | .put key src => ∀ cache ∈ c, Cache.MayPut cache key src
  | .get _ => True

instance (c : Cache T) (key : String) : Decidable (c.IsLast key) :=
  inferInstanceAs (Decidable (∃ element ∈ c.key2element.lookup key,
    ∃ e ∈ c.elements[element]?, e.mruPos + 1 = c.length))

instance [DecidableEq T] (c : Cache T) (key : String) (src : T) : Decidable (c.MayPut key src) :=
  inferInstanceAs (Decidable (if c.length < c.maxSize then key ∉ c.key2element
    else if c.maxSize = 1 then c.value key = some src else key ∈ c.key2element → c.IsLast key))

instance [DecidableEq T] : ∀ (call : Call T) (c : Option (Cache T)), Decidable (call.Permitted c)
  | .put key src, c => inferInstanceAs (Decidable (∀ cache ∈ c, Cache.MayPut cache key src))
  | .get _, _ => .isTrue trivial

/-- What is said of the cache after the calls. -/
structure Cache.IsCache [Inhabited T] (c : Cache T) (calls : List (Call T)) : Prop where
  length_le : c.length ≤ c.maxSize
  refers : ∀ key element e, c.Holds key element e → c.MRU[e.mruPos]? = some (some element)
  get_held : ∀ key ∈ c.key2element, ∃ data c', c.get key = some (data, c') ∧
    lastPut calls key = some data
  get_put : ∀ before key src, calls = before ++ [.put key src] → ∃ c', c.get key = some (src, c')

/-- Every call returns, and leaves a cache. -/
def Behaves [Inhabited T] (maxSize : ℕ) (calls : List (Call T)) : Prop :=
  ∀ before, before <+: calls → ∃ c : Cache T,
    run Call.step (some (.new maxSize)) before = some c ∧ c.maxSize = maxSize ∧ c.IsCache before

/-! ## The bound on the recursion -/

namespace Cache

section
variable {c c' : Cache T} {key k : String} {src : T} {fuel fuel' p q i pp : ℕ}
  {e f : CacheElement T}

theorem length_remove (h : key ∈ c.key2element) : (c.remove key).length + 1 = c.length := by
  have hmem := AList.mem_keys.mp h
  rw [length, remove, AList.keys_erase, List.length_erase_of_mem hmem, length]
  exact Nat.sub_add_cancel (List.length_pos_of_mem hmem)

theorem remove_of_notMem (h : key ∉ c.key2element) : c.remove key = c := by
  have herase : c.key2element.erase key = c.key2element :=
    AList.ext (List.kerase_of_notMem_keys (AList.mem_keys.not.mp h))
  rw [remove, herase]

/-- What is evicted is not there, so that the call is repeated as it was. -/
theorem putLevel_of_notMem (hkey : key ≠ "") (hfull : ¬ c.length < c.maxSize)
    (holdest : oldest c.MRU (c.length - 1) = some p) (he : c.elements[p]? = some e)
    (hmem : e.key ∉ c.key2element) : putLevel fuel c key src = none := by
  induction fuel with
  | zero => rfl
  | succ fuel ih =>
    rw [putLevel, if_neg hkey, if_neg hfull, holdest]
    simp only [he, Option.bind_some, remove_of_notMem hmem, ih]

/-- A bound above the number of keys changes nothing. -/
theorem putLevel_congr (h : c.length < fuel) (h' : c.length < fuel') :
    putLevel fuel c key src = putLevel fuel' c key src := by
  induction fuel generalizing c fuel' with
  | zero => exact absurd h (Nat.not_lt_zero _)
  | succ fuel ih =>
    obtain ⟨fuel', rfl⟩ := Nat.exists_eq_succ_of_ne_zero (Nat.ne_of_gt (Nat.zero_lt_of_lt h'))
    by_cases hkey : key = ""
    · simp [putLevel, hkey]
    by_cases hfull : c.length < c.maxSize
    · simp [putLevel, hkey, hfull]
    rw [putLevel, putLevel, if_neg hkey, if_neg hkey, if_neg hfull, if_neg hfull]
    cases holdest : oldest c.MRU (c.length - 1) with
    | none => rfl
    | some p =>
      cases he : c.elements[p]? with
      | none => simp only [he, Option.bind_none]
      | some e =>
        simp only [he, Option.bind_some]
        by_cases hmem : e.key ∈ c.key2element
        · have hlength := length_remove hmem
          exact ih (by omega) (by omega)
        · rw [remove_of_notMem hmem, putLevel_of_notMem hkey hfull holdest he hmem,
            putLevel_of_notMem hkey hfull holdest he hmem]

theorem putLevel_of_le (h : fuel ≤ fuel') (hput : putLevel fuel c key src = some c') :
    putLevel fuel' c key src = some c' := by
  induction fuel generalizing c fuel' with
  | zero => contradiction
  | succ fuel ih =>
    obtain ⟨fuel', rfl⟩ := Nat.exists_eq_add_of_le' (Nat.one_le_of_lt h)
    rw [putLevel] at hput ⊢
    split at hput
    next hkey => rwa [if_pos hkey]
    next hkey =>
      rw [if_neg hkey]
      split at hput
      next hfull => rwa [if_pos hfull]
      next hfull =>
        rw [if_neg hfull]
        split at hput
        next => exact hput
        next p holdest =>
          obtain ⟨e, he, hput⟩ := Option.bind_eq_some_iff.mp hput
          simp only [he, Option.bind_some]
          exact ih (Nat.le_of_succ_le_succ h) hput

/-- A call that `put` does not return from has no bound. -/
theorem put_eq_none : c.put key src = none ↔ ∀ fuel, putLevel fuel c key src = none := by
  refine ⟨fun h fuel => ?_, fun h => h _⟩
  cases hput : putLevel fuel c key src with
  | none => rfl
  | some c' =>
    have hput := putLevel_of_le (Nat.le_max_left fuel (c.length + 1)) hput
    rw [putLevel_congr (Nat.le_max_right _ _) (Nat.lt_succ_self _)] at hput
    cases h.symm.trans hput

/-! ## The slots -/

/-- The held elements are those of the first slots, one each. -/
structure Inv (c : Cache T) : Prop where
  length_MRU : c.MRU.length = c.maxSize
  length_le : c.length ≤ c.maxSize
  held : ∀ key ∈ c.key2element, ∃ p e, c.Holds key p e
  slot : ∀ key p e, c.Holds key p e →
    e.key = key ∧ e.mruPos < c.length ∧ c.MRU[e.mruPos]? = some (some p)
  used : ∀ i < c.length, ∃ p e, c.MRU[i]? = some (some p) ∧ c.Holds e.key p e ∧ e.mruPos = i

theorem inv_new (maxSize : ℕ) : Inv (new maxSize : Cache T) where
  length_MRU := List.length_replicate
  length_le := Nat.zero_le _
  held key h := absurd h (AList.notMem_empty key)
  slot key p e h := by
    have hlookup := h.1
    rw [new, AList.lookup_empty] at hlookup
    contradiction
  used i h := absurd h (Nat.not_lt_zero i)

theorem Holds.mem (h : c.Holds key p e) : key ∈ c.key2element :=
  AList.lookup_isSome.mp (Option.isSome_of_eq_some h.1)

theorem Inv.holds (hc : c.Inv) (h : c.key2element.lookup key = some p) : ∃ e, c.Holds key p e := by
  obtain ⟨q, e, hq⟩ := hc.held key (AList.lookup_isSome.mp (Option.isSome_of_eq_some h))
  cases h.symm.trans hq.1
  exact ⟨e, hq⟩

/-- Two keys have different slots. -/
theorem Inv.eq_of_mruPos (hc : c.Inv) (he : c.Holds key p e) (hf : c.Holds k q f)
    (h : e.mruPos = f.mruPos) : key = k ∧ p = q ∧ e = f := by
  obtain ⟨hkey, -, hslot⟩ := hc.slot key p e he
  obtain ⟨hk, -, hslot'⟩ := hc.slot k q f hf
  rw [h, hslot'] at hslot
  cases hslot
  cases he.2.symm.trans hf.2
  exact ⟨hkey.symm.trans hk, rfl, rfl⟩

/-! ### A new element -/

theorem length_add (h : key ∉ c.key2element) : (c.add key src).length = c.length + 1 := by
  rw [length, add, AList.keys_insert, List.length_cons,
    List.erase_of_not_mem (AList.mem_keys.not.mp h), length]

theorem holds_add_self : (c.add key src).Holds key c.elements.length
    { data := src, key, mruPos := c.length } :=
  ⟨AList.lookup_insert _, List.getElem?_concat_length⟩

theorem Holds.add (h : c.Holds k p e) (hne : k ≠ key) : (c.add key src).Holds k p e := by
  refine ⟨(AList.lookup_insert_ne hne).trans h.1, ?_⟩
  exact (List.getElem?_append_left (List.getElem?_eq_some_iff.mp h.2).1).trans h.2

theorem Inv.of_holds_add (hc : c.Inv) (h : (c.add key src).Holds k p e) (hne : k ≠ key) :
    c.Holds k p e := by
  obtain ⟨f, hf⟩ := hc.holds ((AList.lookup_insert_ne hne).symm.trans h.1)
  have hadd : (c.add key src).Holds k p f := hf.add hne
  cases h.2.symm.trans hadd.2
  exact hf

theorem Inv.add (hc : c.Inv) (hlt : c.length < c.maxSize) (hkey : key ∉ c.key2element) :
    (c.add key src).Inv := by
  have hlength : (c.add key src).length = c.length + 1 := length_add hkey
  have hnew : (c.add key src).MRU[c.length]? = some (some c.elements.length) :=
    List.getElem?_set_self (hc.length_MRU.symm ▸ hlt)
  have hold {i : ℕ} (hi : i < c.length) : (c.add key src).MRU[i]? = c.MRU[i]? :=
    List.getElem?_set_ne (Nat.ne_of_gt hi)
  constructor
  case length_MRU => exact List.length_set.trans hc.length_MRU
  case length_le => exact hlength ▸ hlt
  case held =>
    intro k hk
    rcases (AList.mem_insert _).mp hk with rfl | hk
    · exact ⟨_, _, holds_add_self⟩
    · obtain ⟨p, e, h⟩ := hc.held k hk
      exact ⟨p, e, h.add (ne_of_mem_of_not_mem hk hkey)⟩
  case slot =>
    intro k p e h
    rw [hlength]
    by_cases hk : k = key
    · subst hk
      cases h.1.symm.trans holds_add_self.1
      cases h.2.symm.trans holds_add_self.2
      exact ⟨rfl, Nat.lt_succ_self _, hnew⟩
    · obtain ⟨hekey, hpos, hslot⟩ := hc.slot k p e (hc.of_holds_add h hk)
      exact ⟨hekey, Nat.lt_succ_of_lt hpos, (hold hpos).trans hslot⟩
  case used =>
    intro i hi
    rw [hlength] at hi
    rcases Nat.lt_succ_iff_lt_or_eq.mp hi with hi | rfl
    · obtain ⟨p, e, hslot, h, rfl⟩ := hc.used i hi
      exact ⟨p, e, (hold hi).trans hslot, h.add (ne_of_mem_of_not_mem h.mem hkey), rfl⟩
    · exact ⟨_, { data := src, key, mruPos := c.length }, hnew, holds_add_self, rfl⟩

/-! ### The last element is taken away -/

theorem holds_remove : (c.remove key).Holds k p e ↔ k ≠ key ∧ c.Holds k p e := by
  by_cases hk : k = key
  · subst hk
    refine iff_of_false (fun h => ?_) fun h => h.1 rfl
    cases (AList.lookup_erase k c.key2element).symm.trans h.1
  · rw [Holds, remove, AList.lookup_erase_ne hk]
    exact (and_iff_right hk).symm

theorem Inv.remove (hc : c.Inv) (h : c.Holds key p e) (hlast : e.mruPos + 1 = c.length) :
    (c.remove key).Inv := by
  have hlength := length_remove h.mem
  constructor
  case length_MRU => exact hc.length_MRU
  case length_le =>
    have hle : c.length ≤ (c.remove key).maxSize := hc.length_le
    omega
  case held =>
    intro k hk
    obtain ⟨hne, hk⟩ := AList.mem_erase.mp hk
    obtain ⟨q, f, hf⟩ := hc.held k hk
    exact ⟨q, f, holds_remove.mpr ⟨hne, hf⟩⟩
  case slot =>
    intro k q f hf
    obtain ⟨hne, hf⟩ := holds_remove.mp hf
    obtain ⟨hfkey, hpos, hslot⟩ := hc.slot k q f hf
    have hapart : f.mruPos ≠ e.mruPos := fun heq => hne (hc.eq_of_mruPos hf h heq).1
    exact ⟨hfkey, by omega, hslot⟩
  case used =>
    intro i hi
    obtain ⟨q, f, hslot, hf, rfl⟩ := hc.used i (by omega)
    refine ⟨q, f, hslot, holds_remove.mpr ⟨fun heq => ?_, hf⟩, rfl⟩
    subst heq
    cases h.1.symm.trans hf.1
    cases h.2.symm.trans hf.2
    omega

/-! ### Elements that change places -/

/-- The held elements are in other slots. -/
structure Moved (σ : Equiv.Perm ℕ) (c c' : Cache T) : Prop where
  maxSize : c'.maxSize = c.maxSize
  key2element : c'.key2element = c.key2element
  length_MRU : c'.MRU.length = c.MRU.length
  lt_iff : ∀ i, σ i < c.length ↔ i < c.length
  slot : ∀ i < c.length, c'.MRU[σ i]? = c.MRU[i]?
  holds : ∀ key p e, c.Holds key p e →
    ∃ f, c'.elements[p]? = some f ∧ f.data = e.data ∧ f.key = e.key ∧ f.mruPos = σ e.mruPos

variable {σ : Equiv.Perm ℕ}

theorem Moved.length (h : Moved σ c c') : c'.length = c.length := by
  rw [Cache.length, h.key2element, Cache.length]

theorem Inv.of_holds_moved (hc : c.Inv) (h : Moved σ c c') (hf : c'.Holds key p f) :
    ∃ e, c.Holds key p e ∧ f.data = e.data ∧ f.key = e.key ∧ f.mruPos = σ e.mruPos := by
  obtain ⟨e, he⟩ := hc.holds (h.key2element ▸ hf.1)
  obtain ⟨g, hg, hdata, hkey, hpos⟩ := h.holds key p e he
  cases hf.2.symm.trans hg
  exact ⟨e, he, hdata, hkey, hpos⟩

theorem Inv.moved (hc : c.Inv) (h : Moved σ c c') : c'.Inv := by
  have hlength := h.length
  constructor
  case length_MRU => rw [h.length_MRU, h.maxSize, hc.length_MRU]
  case length_le => rw [hlength, h.maxSize]; exact hc.length_le
  case held =>
    intro k hk
    obtain ⟨p, e, he⟩ := hc.held k (h.key2element ▸ hk)
    obtain ⟨f, hf, -⟩ := h.holds k p e he
    exact ⟨p, f, h.key2element ▸ he.1, hf⟩
  case slot =>
    intro k p f hf
    obtain ⟨e, he, -, hkey, hpos⟩ := hc.of_holds_moved h hf
    obtain ⟨hekey, hlt, hslot⟩ := hc.slot k p e he
    rw [hkey, hpos, hlength, h.lt_iff, h.slot _ hlt]
    exact ⟨hekey, hlt, hslot⟩
  case used =>
    intro i hi
    have hlt : σ.symm i < c.length := by
      rw [← h.lt_iff, Equiv.apply_symm_apply, ← hlength]
      exact hi
    obtain ⟨p, e, hslot, he, hpos⟩ := hc.used _ hlt
    obtain ⟨f, hf, -, hfkey, hfpos⟩ := h.holds _ p e he
    refine ⟨p, f, ?_, ⟨h.key2element ▸ hfkey ▸ he.1, hf⟩, ?_⟩
    · rw [← hslot, ← h.slot _ hlt, Equiv.apply_symm_apply]
    · rw [hfpos, hpos, Equiv.apply_symm_apply]

theorem value_of_holds (h : c.Holds key p e) : c.value key = some e.data := by
  rw [value, h.1, Option.bind_some, h.2, Option.map_some]

theorem Inv.value_moved (hc : c.Inv) (h : Moved σ c c') : c'.value = c.value := by
  funext key
  cases hlookup : c.key2element.lookup key with
  | none => rw [value, value, h.key2element, hlookup, Option.bind_none, Option.bind_none]
  | some p =>
    obtain ⟨e, he⟩ := hc.holds hlookup
    obtain ⟨f, hf, hdata, -⟩ := h.holds key p e he
    rw [value, value, h.key2element, hlookup, Option.bind_some, Option.bind_some, hf, he.2,
      Option.map_some, Option.map_some, hdata]

theorem moved_self : Moved (Equiv.refl ℕ) c c where
  maxSize := rfl
  key2element := rfl
  length_MRU := rfl
  lt_iff _ := Iff.rfl
  slot _ _ := rfl
  holds _ _ e h := ⟨e, h.2, rfl, rfl, rfl⟩

theorem moved_use : Moved (Equiv.refl ℕ) c (c.use p) where
  maxSize := rfl
  key2element := rfl
  length_MRU := rfl
  lt_iff _ := Iff.rfl
  slot _ _ := rfl
  holds key q e h := by
    rw [use, List.getElem?_modify, h.2]
    refine ⟨_, rfl, ?_⟩
    split <;> exact ⟨rfl, rfl, rfl⟩

theorem Inv.moveUp (hc : c.Inv) (h : c.Holds key p e) (hpos : 0 < e.mruPos) :
    ∃ c' σ, c.moveUp p e = some c' ∧ Moved σ c c' := by
  obtain ⟨-, hlt, hslot⟩ := hc.slot key p e h
  obtain ⟨q, f, hprev, hf, hfpos⟩ := hc.used (e.mruPos - 1) (by omega)
  have hne : p ≠ q := by
    intro heq
    subst heq
    cases h.2.symm.trans hf.2
    omega
  simp only [Cache.moveUp, hprev, Option.join_some, Option.bind_eq_bind, Option.bind_some, hf.2]
  split
  case isFalse => exact ⟨c, Equiv.refl ℕ, rfl, moved_self⟩
  case isTrue =>
    have hcur : e.mruPos - 1 ≠ e.mruPos := by omega
    refine ⟨_, Equiv.swap (e.mruPos - 1) e.mruPos, rfl, rfl, rfl, ?_, ?_, ?_, ?_⟩
    · simp only [List.length_set]
    · intro i
      rw [Equiv.swap_apply_def]
      split_ifs <;> omega
    · intro i hi
      have hlen := hc.length_MRU.symm ▸ hc.length_le
      rcases eq_or_ne i e.mruPos with rfl | hicur
      · rw [Equiv.swap_apply_right, List.getElem?_set_ne hcur.symm,
          List.getElem?_set_self (by omega), hslot]
      · rcases eq_or_ne i (e.mruPos - 1) with rfl | hiprev
        · rw [Equiv.swap_apply_left, List.getElem?_set_self (by rw [List.length_set]; omega), hprev]
        · rw [Equiv.swap_apply_of_ne_of_ne hiprev hicur, List.getElem?_set_ne hicur.symm,
            List.getElem?_set_ne hiprev.symm]
    · intro k r g hg
      simp only [List.getElem?_modify, hg.2, Option.map_eq_map, Option.map_some]
      refine ⟨_, rfl, ?_⟩
      rcases eq_or_ne r p with rfl | hrp
      · cases hg.2.symm.trans h.2
        rw [if_pos rfl, if_neg hne.symm]
        exact ⟨rfl, rfl, (Equiv.swap_apply_right _ _).symm⟩
      · rcases eq_or_ne r q with rfl | hrq
        · cases hg.2.symm.trans hf.2
          rw [if_neg hne, if_pos rfl, hfpos, Equiv.swap_apply_left]
          exact ⟨rfl, rfl, rfl⟩
        · rw [if_neg hrp.symm, if_neg hrq.symm, Equiv.swap_apply_of_ne_of_ne]
          · exact ⟨rfl, rfl, rfl⟩
          · exact fun heq => hrq (hc.eq_of_mruPos hg hf (heq.trans hfpos.symm)).2.1
          · exact fun heq => hrp (hc.eq_of_mruPos hg h heq).2.1

/-- A read of a held key gives its value, and leaves the keys and values. -/
theorem Inv.get_spec [Inhabited T] (hc : c.Inv) (h : c.Holds key p e) : ∃ c',
    c.get key = some (e.data, c') ∧ c'.Inv ∧ c'.maxSize = c.maxSize ∧ c'.value = c.value := by
  have hget : ∃ c' σ, c.get key = some (e.data, c'.use p) ∧ Moved σ c c' := by
    rw [Cache.get, h.1]
    simp only [h.2, Option.bind_eq_bind, Option.bind_some]
    split
    case isTrue hpos =>
      obtain ⟨c', σ, hmove, hmoved⟩ := hc.moveUp h hpos
      exact ⟨c', σ, by rw [hmove, Option.bind_some], hmoved⟩
    case isFalse => exact ⟨c, Equiv.refl ℕ, rfl, moved_self⟩
  obtain ⟨c', σ, hget, hmoved⟩ := hget
  have hc' := hc.moved hmoved
  refine ⟨c'.use p, hget, hc'.moved moved_use, hmoved.maxSize, ?_⟩
  rw [hc'.value_moved moved_use, hc.value_moved hmoved]

theorem get_of_notMem [Inhabited T] (h : key ∉ c.key2element) :
    c.get key = some (default, c) := by
  rw [Cache.get, AList.lookup_eq_none.mpr h]

/-! ### Permitted puts -/

theorem Inv.exists_holds (hc : c.Inv) (h : c.value key = some src) :
    ∃ p e, c.Holds key p e ∧ e.data = src := by
  obtain ⟨p, hlookup, -⟩ := Option.bind_eq_some_iff.mp h
  obtain ⟨e, he⟩ := hc.holds hlookup
  rw [value_of_holds he] at h
  exact ⟨p, e, he, Option.some.inj h⟩

theorem value_add_self : (c.add key src).value key = some src :=
  value_of_holds holds_add_self

theorem Inv.value_add (hc : c.Inv) (hne : k ≠ key) : (c.add key src).value k = c.value k := by
  cases hlookup : c.key2element.lookup k with
  | none =>
    have hadd : (c.add key src).key2element.lookup k = none :=
      (AList.lookup_insert_ne hne).trans hlookup
    rw [value, value, hadd, hlookup, Option.bind_none, Option.bind_none]
  | some p =>
    obtain ⟨e, he⟩ := hc.holds hlookup
    rw [value_of_holds he, value_of_holds (he.add hne)]

theorem value_remove {data : T} (h : (c.remove key).value k = some data) :
    c.value k = some data := by
  by_cases hk : k = key
  · subst hk
    rw [value, remove, AList.lookup_erase] at h
    contradiction
  · rwa [value, remove, AList.lookup_erase_ne hk] at h

/-- The last slot is used when every key is held. -/
theorem Inv.oldest (hc : c.Inv) (h : 2 ≤ c.length) : ∃ p e,
    oldest c.MRU (c.length - 1) = some p ∧ c.Holds e.key p e ∧ e.mruPos + 1 = c.length := by
  obtain ⟨p, e, hslot, he, hpos⟩ := hc.used (c.length - 1) (by omega)
  obtain ⟨n, hn⟩ := Nat.exists_eq_add_of_le' h
  refine ⟨p, e, ?_, he, by omega⟩
  rw [hn] at hslot ⊢
  rw [Nat.add_sub_assoc (by decide), Cache.oldest]
  rw [Nat.add_sub_assoc (by decide)] at hslot
  rw [hslot]
  rfl

/-- A put that is permitted is done. -/
theorem Inv.put_spec (hc : c.Inv) (hmax : 1 ≤ c.maxSize) (hkey : key ≠ "")
    (h : c.MayPut key src) : ∃ c', c.put key src = some c' ∧ c'.Inv ∧ c'.maxSize = c.maxSize ∧
      c'.value key = some src ∧
      ∀ k ≠ key, ∀ data, c'.value k = some data → c.value k = some data := by
  unfold MayPut at h
  rw [put, putLevel, if_neg hkey]
  split at h
  case isTrue hlt =>
    rw [if_pos hlt]
    refine ⟨_, rfl, hc.add hlt h, rfl, value_add_self, fun k hk data hdata => ?_⟩
    rwa [hc.value_add hk] at hdata
  case isFalse hfull =>
    rw [if_neg hfull]
    split at h
    case isTrue hone =>
      have hlength : c.length = 1 := by
        have hle := hc.length_le
        omega
      rw [hlength]
      exact ⟨c, rfl, hc, rfl, h, fun _ _ _ => id⟩
    case isFalse hone =>
      have hle := hc.length_le
      obtain ⟨p, e, holdest, he, hlast⟩ := hc.oldest (by omega)
      have hc' := hc.remove he hlast
      have hlength := length_remove he.mem
      have hnot : key ∉ (c.remove e.key).key2element := by
        intro hmem
        obtain ⟨hne, hmem⟩ := AList.mem_erase.mp hmem
        obtain ⟨q, hq, f, hf, hpos⟩ := h hmem
        exact hne (hc.eq_of_mruPos ⟨hq, hf⟩ he (by omega)).1
      have hlt : (c.remove e.key).length < (c.remove e.key).maxSize := by
        have hmaxSize : (c.remove e.key).maxSize = c.maxSize := rfl
        omega
      simp only [holdest, he.2, Option.bind_some]
      rw [← hlength, putLevel, if_neg hkey, if_pos hlt]
      refine ⟨_, rfl, hc'.add hlt hnot, rfl, value_add_self, fun k hk data hdata => ?_⟩
      rw [hc'.value_add hk] at hdata
      exact value_remove hdata

end

end Cache

/-! ## Runs -/

section
variable {calls : List (Call T)} {key k : String} {src : T} {maxSize : ℕ}

theorem lastPut_put (hne : k ≠ key) : lastPut (calls ++ [.put key src]) k = lastPut calls k := by
  simp [lastPut, Call.src?, hne.symm]

theorem lastPut_put_self : lastPut (calls ++ [.put key src]) key = some src := by
  simp [lastPut, Call.src?]

theorem lastPut_get : lastPut (calls ++ [.get key]) k = lastPut calls k := by
  simp [lastPut, Call.src?]

variable [Inhabited T]

theorem run_concat (s : Option (Cache T)) (call : Call T) :
    run Call.step s (calls ++ [call]) = call.step (run Call.step s calls) :=
  run_append calls [call]

/-- What a run that is permitted keeps: the slots, and the values that were put last. -/
structure Cache.Kept (c : Cache T) (maxSize : ℕ) (calls : List (Call T)) : Prop where
  inv : c.Inv
  maxSize : c.maxSize = maxSize
  last : ∀ key data, c.value key = some data → lastPut calls key = some data
  put : ∀ before key src, calls = before ++ [.put key src] → c.value key = some src

theorem Cache.Kept.step {c : Cache T} {call : Call T} (hc : c.Kept maxSize calls)
    (hmax : 1 ≤ maxSize) (hkey : call.key ≠ "") (h : call.Permitted (some c)) :
    ∃ c', call.step (some c) = some c' ∧ c'.Kept maxSize (calls ++ [call]) := by
  cases call with
  | put key src =>
    change key ≠ "" at hkey
    obtain ⟨c', hput, hc', hsize, hself, hother⟩ :=
      hc.inv.put_spec (hc.maxSize.symm ▸ hmax) hkey (h c rfl)
    refine ⟨c', hput, hc', hsize.trans hc.maxSize, fun k data hdata => ?_,
      fun before k v hcalls => ?_⟩
    · by_cases hk : k = key
      · subst hk
        rw [lastPut_put_self, ← hself, hdata]
      · rw [lastPut_put hk, hc.last k data (hother k hk data hdata)]
    · cases List.append_inj_right' hcalls rfl
      exact hself
  | get key =>
    have hget : ∃ data c', c.get key = some (data, c') ∧ c'.Inv ∧ c'.maxSize = c.maxSize ∧
        c'.value = c.value := by
      by_cases hmem : key ∈ c.key2element
      · obtain ⟨p, e, he⟩ := hc.inv.held key hmem
        obtain ⟨c', hget⟩ := hc.inv.get_spec he
        exact ⟨e.data, c', hget⟩
      · exact ⟨default, c, Cache.get_of_notMem hmem, hc.inv, rfl, rfl⟩
    obtain ⟨data, c', hget, hc', hsize, hvalue⟩ := hget
    refine ⟨c', congrArg (Option.map Prod.snd) hget, hc', hsize.trans hc.maxSize,
      fun k data hdata => ?_, fun before k v hcalls => ?_⟩
    · rw [lastPut_get]
      exact hc.last k data (hvalue ▸ hdata)
    · cases List.append_inj_right' hcalls rfl

theorem kept_run (hmax : 1 ≤ maxSize) (hkeys : ∀ call ∈ calls, call.key ≠ "")
    (h : Along Call.step Call.Permitted (some (.new maxSize : Cache T)) calls) :
    ∃ c : Cache T, run Call.step (some (.new maxSize)) calls = some c ∧ c.Kept maxSize calls := by
  induction calls using List.reverseRecOn with
  | nil =>
    refine ⟨.new maxSize, rfl, Cache.inv_new maxSize, rfl, fun key data hdata => ?_,
      fun before key src hcalls => ?_⟩
    · rw [Cache.value, Cache.new, AList.lookup_empty] at hdata
      contradiction
    · exact absurd hcalls.symm (List.append_ne_nil_of_right_ne_nil _ (List.cons_ne_nil _ _))
  | append_singleton calls call ih =>
    obtain ⟨hcalls, hcall, -⟩ := along_append.mp h
    obtain ⟨c, hrun, hc⟩ := ih (fun call hmem => hkeys call (List.mem_append_left _ hmem)) hcalls
    rw [hrun] at hcall
    rw [run_concat, hrun]
    exact hc.step hmax (hkeys call (List.mem_append_right _ List.mem_cons_self)) hcall

theorem Cache.Kept.isCache {c : Cache T} (hc : c.Kept maxSize calls) : c.IsCache calls where
  length_le := hc.inv.length_le
  refers key p e h := (hc.inv.slot key p e h).2.2
  get_held key hmem := by
    obtain ⟨p, e, he⟩ := hc.inv.held key hmem
    obtain ⟨c', hget, -⟩ := hc.inv.get_spec he
    exact ⟨e.data, c', hget, hc.last key _ (Cache.value_of_holds he)⟩
  get_put before key src hcalls := by
    obtain ⟨p, e, he, rfl⟩ := hc.inv.exists_holds (hc.put before key src hcalls)
    obtain ⟨c', hget, -⟩ := hc.inv.get_spec he
    exact ⟨c', hget⟩

/-- **The cache is a cache** in the runs whose puts are of new keys or of the key that is
evicted. -/
theorem behaves (hmax : 1 ≤ maxSize) (hkeys : ∀ call ∈ calls, call.key ≠ "")
    (h : Along Call.step Call.Permitted (some (.new maxSize : Cache T)) calls) :
    Behaves maxSize calls := by
  rintro before ⟨after, rfl⟩
  obtain ⟨c, hrun, hc⟩ := kept_run hmax
    (fun call hmem => hkeys call (List.mem_append_left _ hmem)) (along_append.mp h).1
  exact ⟨c, hrun, hc.maxSize, hc.isCache⟩

end

/-- A full cache that evicts the last key, after reads that swapped it with the one before. -/
theorem behaves_evicted : Behaves 2 [.put "a" 1, .put "b" 2, .get "b", .put "c" 3, .put "c" 4,
    .get "a"] :=
  behaves (by decide) (by decide) (by decide)

/-- A held key that is put again is lost, or leaves a slot that the next key gets as well, or lets
the recursion go on for ever. -/
theorem not_behaves : ¬ Behaves 1 [.put "a" 1, .put "b" 2] ∧
    ¬ Behaves 3 [.put "a" 1, .put "a" 2, .put "b" 3] ∧
    ¬ Behaves 2 [.put "a" 1, .put "a" 2, .put "b" 3, .get "a", .put "c" 4, .get "b", .get "b",
      .put "d" 5] := by
  refine ⟨fun h => ?_, fun h => ?_, fun h => ?_⟩ <;>
    obtain ⟨c, hrun, -, hc⟩ := h _ List.prefix_rfl
  · obtain ⟨c', hget⟩ := hc.get_put [.put "a" 1] "b" 2 rfl
    cases hrun
    exact absurd (show _ = some 2 from congrArg (Option.map Prod.fst) hget) (by decide)
  · cases hrun
    exact absurd (hc.refers "a" 1 ⟨2, "a", 0, 1⟩ ⟨by decide, rfl⟩) (by decide)
  · exact absurd (show _ = true from congrArg Option.isSome hrun) (by decide)

end Veda.Util
