import Mathlib.Data.String.Basic
import Veda.Authorization.AzServer

/-! # Requests for several rights

The reply to a request with many items. The buffer for it has the length of the request, which has
more characters for every item than the reply. -/

namespace Veda.Authorization

open Json (Dialect Value)

/-- A request of a user for an access to several uris, as it is read. -/
def batch (user : List Char) (items : List (List Char × List Char)) : Value :=
  .arr (.str user :: items.map fun item => .arr [.str item.1, .str item.2])

/-- What the library grants for an item. -/
def Library.granted (lib : Library) (user : List Char) (item : List Char × List Char) : Access :=
  lib.authorizeR (String.ofList item.1) (String.ofList user) (accessFromPrettyString item.2)

/-- The name of a right in the reply to an item. -/
def Library.name (lib : Library) (user : List Char) (item : List Char × List Char) : List Char :=
  accessToShortString (lib.granted user item)

/-! ## The letters of an answer -/

theorem length_filter_or_le {α : Type} (p q : α → Bool) (l : List α) :
    (l.filter fun x => p x || q x).length ≤ (l.filter p).length + (l.filter q).length := by
  induction l with
  | nil => exact Nat.le_refl _
  | cons x l ih =>
    simp only [List.filter_cons]
    cases p x <;> cases q x <;> simp <;> omega

theorem accessToShortString_or_le (a b : Access) :
    (accessToShortString (a ||| b)).length ≤
      (accessToShortString a).length + (accessToShortString b).length := by
  unfold accessToShortString
  simp only [List.length_map]
  refine le_trans (le_of_eq ?_) (length_filter_or_le _ _ accessLetters)
  refine congrArg List.length (List.filter_congr fun e _ => ?_)
  rw [← Bool.decide_or, decide_eq_decide, BitVec.and_or_distrib_right]
  exact (not_congr BitVec.or_eq_zero_iff).trans not_and_or

/-- A part of the rights has no more letters. -/
theorem accessToShortString_le {a b : Access} (h : a &&& b = a) :
    (accessToShortString a).length ≤ (accessToShortString b).length := by
  unfold accessToShortString
  simp only [List.length_map]
  refine (List.monotone_filter_right _ fun e => ?_).length_le
  simp only [decide_eq_true_eq]
  intro ha hb
  refine ha ?_
  rw [← h, BitVec.and_assoc, hb]
  exact BitVec.and_zero

/-- Every letter asks for one right at most. -/
theorem accessFromPrettyString_length (access : List Char) :
    (accessToShortString (accessFromPrettyString access)).length ≤ access.length := by
  have hfold : ∀ res : Access, (accessToShortString (access.foldl
      (fun res c => res ||| accessOfLetter c) res)).length ≤
        (accessToShortString res).length + access.length := by
    induction access with
    | nil => exact fun res => le_refl _
    | cons c access ih =>
      intro res
      have hor := accessToShortString_or_le res (accessOfLetter c)
      have hletter : (accessToShortString (accessOfLetter c)).length ≤ 1 := by
        unfold accessOfLetter
        split_ifs <;> decide
      have hrest := ih (res ||| accessOfLetter c)
      simp only [List.foldl_cons, List.length_cons]
      omega
  exact (hfold 0).trans (by simp [accessToShortString, accessLetters])

theorem Library.name_length (lib : Library) (user : List Char) (item : List Char × List Char) :
    (lib.name user item).length ≤ item.2.length := by
  have hle := lib.authorizeR_le (String.ofList item.1) (String.ofList user)
    (accessFromPrettyString item.2)
  have hreq : (accessFromPrettyString item.2 &&& 15) &&& accessFromPrettyString item.2 =
      accessFromPrettyString item.2 &&& 15 := by
    rw [BitVec.and_comm, ← BitVec.and_assoc, BitVec.and_self]
  have hpart : lib.granted user item &&& accessFromPrettyString item.2 =
      lib.granted user item := by
    unfold Library.granted
    rw [← hle, BitVec.and_assoc, hreq]
  exact (accessToShortString_le hpart).trans (accessFromPrettyString_length item.2)

/-! ## The reply -/

/-- The reply to the items: the names of the rights between quotes. -/
def joined (names : List (List Char)) : List Char :=
  match names with
  | [] => []
  | name :: names =>
    '"' :: (name ++ '"' :: names.flatMap fun name => ',' :: '"' :: (name ++ ['"']))

theorem parseJSON_joined (d : Dialect) (names : List (List Char))
    (h : ∀ name ∈ names, ∀ c ∈ name, ¬d.Special c) :
    Json.parseJSON d ('[' :: (joined names ++ [']'])) = some (.arr (names.map .str)) := by
  unfold Json.parseJSON
  cases names with
  | nil =>
    simp [joined, Json.parseValue, Json.skipWhite_cons, d.ends_nil]
  | cons name names =>
    have hflat : names.length ≤
        (names.flatMap fun name => ',' :: '"' :: (name ++ ['"'])).length := by
      clear h
      induction names with
      | nil => exact le_refl _
      | cons name names ih =>
        simp only [List.flatMap_cons, List.length_append, List.length_cons, List.length_nil]
        omega
    have hfuel : names.length + 3 ≤ 2 * ('[' :: (joined (name :: names) ++ [']'])).length + 1 := by
      simp only [joined, List.length_cons, List.length_append, List.length_nil]
      omega
    obtain ⟨n, hn⟩ := Nat.exists_eq_add_of_le' hfuel
    have hread := Json.parseValue_arr (by decide) (by decide)
      (@Json.parseElements_strings d [] names name h n)
    rw [hn]
    simp only [joined, List.cons_append, List.append_assoc]
    rw [show n + (names.length + 3) = n + names.length + 2 + 1 by omega, hread]
    simp [d.ends_nil]

/-- What the walk adds to the response for the items from the index `idx` on. -/
def added (lib : Library) (user : List Char) :
    List (List Char × List Char) → ℕ → List Char
  | [], _ => []
  | item :: items, idx =>
    (if idx > 1 then [',', '"'] else ['"']) ++ (lib.name user item ++ '"' ::
      added lib user items (idx + 1))

theorem added_of_gt (lib : Library) (user : List Char) (items : List (List Char × List Char))
    {idx : ℕ} (h : 1 < idx) :
    added lib user items idx =
      (items.map (lib.name user)).flatMap fun name => ',' :: '"' :: (name ++ ['"']) := by
  induction items generalizing idx with
  | nil => rfl
  | cons item items ih =>
    rw [added, if_pos h, ih (by omega)]
    simp

theorem added_one (lib : Library) (user : List Char) (items : List (List Char × List Char)) :
    added lib user items 1 = joined (items.map (lib.name user)) := by
  cases items with
  | nil => rfl
  | cons item items =>
    rw [added, if_neg (by omega), added_of_gt lib user items (by omega)]
    rfl

/-- What an item adds has less characters than the item. -/
theorem length_added_le (lib : Library) (user : List Char)
    (items : List (List Char × List Char)) (idx : ℕ) :
    (added lib user items idx).length ≤
      Json.sizes (items.map fun item => .arr [.str item.1, .str item.2]) := by
  induction items generalizing idx with
  | nil => exact le_refl _
  | cons item items ih =>
    have hname := lib.name_length user item
    have hrest := ih (idx + 1)
    have hhead : (if idx > 1 then [',', '"'] else ['"']).length ≤ 2 := by split <;> decide
    simp only [added, List.length_append, List.length_cons, List.map_cons, Json.sizes,
      Json.Value.size]
    omega

/-- The walk over the items, in a buffer that has room for what it adds. -/
theorem serveElements_batch (lib : Library) (user : List Char) (size : ℕ)
    (items : List (List Char × List Char)) (idx : ℕ) (st : AzPrepare)
    (htrace : st.trace = fun _ => none)
    (hsize : st.response.length + (added lib user items idx).length ≤ size) :
    serveElements lib (String.ofList user) size
        ((items.map fun item => .arr [.str item.1, .str item.2]).zipIdx idx) st =
      .ok { st with response := st.response ++ added lib user items idx } := by
  induction items generalizing idx st with
  | nil => simp [serveElements, added]
  | cons item items ih =>
    simp only [added, List.length_append, List.length_cons] at hsize
    have hnext := ih (idx + 1) { st with response := st.response ++
      ((if idx > 1 then [',', '"'] else ['"']) ++ (lib.name user item ++ ['"'])) } htrace (by
        simp only [List.length_append, List.length_cons, List.length_nil]
        omega)
    rw [List.map_cons, List.zipIdx_cons, serveElements]
    simp only [serveArray, strOf, orderTraces, List.zipIdx_nil, Library.authorize, htrace, bind,
      Except.bind, List.length_nil, Nat.zero_le, if_true, Option.isSome_none, Bool.or_self,
      Bool.false_eq_true, if_false]
    rw [if_neg]
    · rw [← htrace]
      simpa [added, Library.name, Library.granted] using hnext
    · simp only [Library.name, Library.granted] at hsize
      simp only [List.length_append, List.length_cons, List.length_nil]
      omega

theorem finishResponse_plain (d : Dialect) (undef : Undefined) {size : ℕ} {st : AzPrepare}
    (htrace : st.trace = fun _ => none) (hsize : st.response.length + 2 ≤ size) :
    finishResponse d undef size st = st.response ++ [']', Char.ofNat 0] := by
  unfold finishResponse
  simp only [htrace, Option.isSome_none, Bool.or_self, Bool.false_eq_true, if_false]
  rw [if_neg]
  simp only [List.length_append, List.length_cons, List.length_nil]
  omega

/-- Every character takes a byte. -/
theorem length_le_utf8ByteSize (s : String) : s.toList.length ≤ s.utf8ByteSize := by
  obtain ⟨l, rfl⟩ : ∃ l, s = String.ofList l := ⟨s.toList, (String.ofList_toList).symm⟩
  rw [String.toList_ofList, String.utf8ByteSize_ofList]
  induction l with
  | nil => exact le_refl _
  | cons c l ih =>
    have := c.utf8Size_pos
    rw [String.utf8Len_cons, List.length_cons]
    omega

/-- **A request for several rights is answered** with the rights that the library grants for each
item, within the buffer, whatever the code leaves undefined. -/
theorem azPrepare_batch (d : Dialect) (lib : Library) (request : String) (user : List Char)
    (items : List (List Char × List Char))
    (hrequest : Json.parseJSON d request.toList = some (batch user items)) :
    ∃ reply, (∀ undef, azPrepare d lib undef request = reply ++ [Char.ofNat 0]) ∧
      reply.length + 1 ≤ request.utf8ByteSize ∧
      Json.parseJSON d reply = some (.arr (items.map fun item => .str (lib.name user item))) ∧
      ∀ item ∈ items, accessFromPrettyString (lib.name user item) = lib.granted user item := by
  have hsize := Json.size_le_of_parseJSON hrequest
  have hbytes := length_le_utf8ByteSize request
  have hadded := length_added_le lib user items 1
  simp only [batch, Json.Value.size, Json.sizes] at hsize
  have hserve := serveElements_batch lib user request.utf8ByteSize items 1 .init rfl (by
    simp only [AzPrepare.init, List.length_cons, List.length_nil]
    omega)
  refine ⟨'[' :: (joined (items.map (lib.name user)) ++ [']']), fun undef => ?_, ?_, ?_, ?_⟩
  · unfold azPrepare
    rw [hrequest]
    simp only [batch, serve, hserve]
    rw [finishResponse_plain d undef rfl, added_one]
    · simp [AzPrepare.init]
    · simp only [AzPrepare.init, List.length_append, List.length_cons, List.length_nil]
      omega
  · rw [← added_one]
    simp only [List.length_append, List.length_cons, List.length_nil]
    omega
  · rw [parseJSON_joined, List.map_map]
    · rfl
    · intro name hname c hc
      obtain ⟨item, -, rfl⟩ := List.mem_map.1 hname
      exact not_special_short hc
  · intro item _
    have hle := lib.authorizeR_le (String.ofList item.1) (String.ofList user)
      (accessFromPrettyString item.2)
    rw [Library.name, accessFromPrettyString_short]
    unfold Library.granted
    rw [← hle, BitVec.and_assoc, BitVec.and_assoc, BitVec.and_self]

theorem azPrepare_batch_single :
    ∃ reply, (∀ undef, azPrepare .ascii (grantingLibrary fun _ _ => true) undef
        (azRequest "d:a" "u" 3) = reply ++ [Char.ofNat 0]) ∧
      reply.length + 1 ≤ (azRequest "d:a" "u" 3).utf8ByteSize ∧
      Json.parseJSON .ascii reply = some (.arr [.str ['C', 'R']]) := by
  have hplain : ∀ s ∈ ["d:a", "u"], Plain .ascii s := by
    intro s hs c hc
    refine not_special ?_
    have hc' : c ∈ ['d', ':', 'a', 'u'] := by
      simp only [List.mem_cons, List.not_mem_nil, or_false] at hs
      obtain rfl | rfl := hs
      · exact List.mem_append_left ['u'] hc
      · exact List.mem_append_right ['d', ':', 'a'] hc
    simp only [List.mem_cons, List.not_mem_nil, or_false] at hc'
    obtain rfl | rfl | rfl | rfl := hc' <;> decide
  obtain ⟨reply, hreply, hsize, hparse, -⟩ := azPrepare_batch .ascii
    (grantingLibrary fun _ _ => true) (azRequest "d:a" "u" 3) "u".toList
    [("d:a".toList, accessToShortString 3)]
    (parseJSON_azRequest (hplain _ (by simp)) (hplain _ (by simp)) 3)
  have hname : (grantingLibrary fun _ _ => true).name "u".toList
      ("d:a".toList, accessToShortString 3) = ['C', 'R'] := by
    decide
  rw [List.map_singleton, hname] at hparse
  exact ⟨reply, hreply, hsize, hparse⟩

end Veda.Authorization
