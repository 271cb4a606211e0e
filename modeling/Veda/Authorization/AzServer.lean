import Veda.Lib.Json
import Veda.Authorization.Decision

/-! # Authorization as a service

The model of `az_server.d` and `az_client.d`: a client asks for rights with a JSON text that it
puts together itself, and reads the answer from the letters of the reply. The texts are lists of
characters, and both ends see all of a message. -/

namespace Veda.Authorization

open Json (Dialect Value)

/-- The trace buffers, by what they collect. -/
inductive TraceMode where
  | acl
  | group
  | info
  deriving DecidableEq

abbrev TraceBuffers := TraceMode → Option String

/-- The functions `authorize_r` and `get_trace` of the library. What it grants is a part of what
was asked for, and it knows four rights. -/
structure Library where
  authorizeR : String → String → Access → Access
  getTrace : TraceMode → String → String → Access → String
  authorizeR_low : ∀ uri user request,
    authorizeR uri user request = authorizeR uri user (request &&& 15)
  authorizeR_le : ∀ uri user request,
    authorizeR uri user request &&& (request &&& 15) = authorizeR uri user request

/-- `AuthorizationUseLib.authorize`: with a trace buffer there is no answer. -/
def Library.authorize (lib : Library) (uri user : String) (request : Access)
    (trace : TraceBuffers) : Access × TraceBuffers :=
  if (trace .acl).isSome || (trace .group).isSome || (trace .info).isSome then
    (0, fun mode => (trace mode).map (· ++ lib.getTrace mode uri user request))
  else (lib.authorizeR uri user request, trace)

/-- The letters of the four rights. -/
def accessLetters : List (Access × Char) := [(1, 'C'), (2, 'R'), (4, 'U'), (8, 'D')]

/-- `access_to_short_string`. -/
def accessToShortString (src : Access) : List Char :=
  (accessLetters.filter fun e => src &&& e.1 ≠ 0).map (·.2)

/-- The right of a letter in `access_from_pretty_string`. -/
def accessOfLetter (c : Char) : Access :=
  if c = 'c' ∨ c = 'C' then 1
  else if c = 'r' ∨ c = 'R' then 2
  else if c = 'u' ∨ c = 'U' then 4
  else if c = 'd' ∨ c = 'D' then 8
  else 0

/-- `access_from_pretty_string`. -/
def accessFromPrettyString (access : List Char) : Access :=
  access.foldl (fun res c => res ||| accessOfLetter c) 0

/-! ## The server -/

/-- The variables of `az_prepare` while it walks over the request. -/
structure AzPrepare where
  response : List Char
  orderTrace : List (Option TraceMode)
  trace : TraceBuffers

/-- How the walk can break off. -/
inductive ServeError where
  /-- `JSONValue.str` of a value that is not a string. -/
  | notString
  /-- The response does not fit into its buffer. -/
  | overrun

/-- What the code leaves undefined: the reply after the buffer is overrun, and the memory behind
a message. -/
structure Undefined where
  overrun : List Char
  behind : List Char

def strOf : Value → Except ServeError (List Char)
  | .str s => .ok s
  | _ => .error .notString

def traceOfName (name : List Char) : Option TraceMode :=
  if name = "TRACE-ACL".toList then some .acl
  else if name = "TRACE-GROUP".toList then some .group
  else if name = "TRACE-INFO".toList then some .info
  else none

/-- The loop over the names of the traces; a trace that is named gets a new buffer. -/
def orderTraces : List (Value × Nat) → AzPrepare → Except ServeError AzPrepare
  | [], st => .ok st
  | (v, ii) :: names, st => do
    let name ← strOf v
    match traceOfName name with
    | some mode =>
      orderTraces names { st with
        orderTrace := st.orderTrace.set ii (some mode)
        trace := Function.update st.trace mode (some "") }
    | none => orderTraces names st

/-- An element `[uri, access, trace...]`. -/
def serveArray (lib : Library) (userUri : String) (el : List Value) (st : AzPrepare) :
    Except ServeError AzPrepare :=
  match el with
  | uri :: access :: names =>
    if names.length ≤ 3 then do
      let uri ← strOf uri
      let sAccess ← strOf access
      let st ← orderTraces names.zipIdx st
      let (res, trace) := lib.authorize (String.ofList uri) userUri
        (accessFromPrettyString sAccess) st.trace
      .ok { st with response := st.response ++ accessToShortString res, trace := trace }
    else .ok st
  | _ => .ok st

/-- The elements after the user, with their indices. -/
def serveElements (lib : Library) (userUri : String) (size : Nat) :
    List (Value × Nat) → AzPrepare → Except ServeError AzPrepare
  | [], st => .ok st
  | (el, idx) :: els, st => do
    let st := { st with response := st.response ++ (if idx > 1 then [',', '"'] else ['"']) }
    let st ← match el with
      | .arr l => serveArray lib userUri l st
      | _ => .ok st
    let st := { st with response := st.response ++ ['"'] }
    if size < st.response.length then .error .overrun
    else serveElements lib userUri size els st

def AzPrepare.init : AzPrepare where
  response := ['[']
  orderTrace := [none, none, none]
  trace := fun _ => none

/-- The walk over the array of the request. -/
def serve (lib : Library) (size : Nat) (els : List Value) : Except ServeError AzPrepare :=
  match els with
  | .str userUri :: els => serveElements lib (String.ofList userUri) size (els.zipIdx 1) .init
  | _ => .ok .init

/-- The end of the response. With traces the whole is written anew. -/
def finishResponse (d : Dialect) (undef : Undefined) (size : Nat) (st : AzPrepare) : List Char :=
  if (st.trace .acl).isSome || (st.trace .group).isSome || (st.trace .info).isSome then
    Json.encodeStrings d ((st.response.drop 2).dropLast ::
      st.orderTrace.filterMap fun mode => mode.map fun mode => ((st.trace mode).getD "").toList)
  else
    let response := st.response ++ [']', Char.ofNat 0]
    if size < response.length then undef.overrun else response

/-- `az_prepare`. -/
def azPrepare (d : Dialect) (lib : Library) (undef : Undefined) (request : String) : List Char :=
  match Json.parseJSON d request.toList with
  | none => "[\"err:invalid request\"]".toList
  | some (.arr els) =>
    match serve lib request.utf8ByteSize els with
    | .ok st => finishResponse d undef request.utf8ByteSize st
    | .error .overrun => undef.overrun
    | .error .notString => "[\"err:exception:JSONValue is not a string\"]".toList
  | some _ => "[\"err:unknown json\"]".toList

/-! ## The client -/

/-- The request of a client without trace buffers. -/
def azRequest (uri userUri : String) (requestAccess : Access) : String :=
  "[\"" ++ userUri ++ "\",[\"" ++ uri ++ "\",\"" ++
    String.ofList (accessToShortString requestAccess) ++ "\"]]"

/-- What the client reads from a reply, up to the first NUL. -/
def readReply (undef : Undefined) (reply : List Char) : Access :=
  let rep := (reply ++ undef.behind).takeWhile (· ≠ Char.ofNat 0)
  if rep.length > 4 ∧ rep.take 2 = ['[', '"'] then
    accessFromPrettyString ((rep.drop 2).take (rep.length - 4))
  else 0

/-- `ClientAuthorization.authorize` without trace buffers, with the server behind it. -/
def clientAuthorize (d : Dialect) (lib : Library) (undef : Undefined) (uri userUri : String)
    (requestAccess : Access) : Access :=
  readReply undef (azPrepare d lib undef (azRequest uri userUri requestAccess))

/-! ## Strings without special characters -/

theorem accessFromPrettyString_short (a : Access) :
    accessFromPrettyString (accessToShortString a) = a &&& 15 := by
  revert a
  decide +kernel

theorem accessToShortString_length (a : Access) : (accessToShortString a).length ≤ 4 := by
  unfold accessToShortString
  rw [List.length_map]
  exact List.length_filter_le _ _

theorem mem_accessToShortString (h : c ∈ accessToShortString a) : c ∈ ['C', 'R', 'U', 'D'] := by
  obtain ⟨e, he, rfl⟩ := List.mem_map.mp h
  exact List.mem_map_of_mem (List.mem_filter.mp he).1

/-- The text can stand in a JSON string as it is. -/
def Plain (d : Dialect) (s : String) : Prop := ∀ c ∈ s.toList, ¬d.Special c

section
variable {d : Dialect} {lib lib' : Library} {undef : Undefined} {uri user : String}

/-- A visible character other than the quote and the backslash is not special. -/
theorem not_special (h : 0x20 ≤ c.toNat ∧ c.toNat < 0x7F ∧ c ≠ '"' ∧ c ≠ '\\') :
    ¬d.Special c := by
  rintro (hc | hc | hc)
  · exact h.2.2.1 hc
  · exact h.2.2.2 hc
  · have := d.isControl_lt c hc
    omega

theorem not_special_short (h : c ∈ accessToShortString a) : ¬d.Special c := by
  have hmem := mem_accessToShortString h
  simp only [List.mem_cons, List.not_mem_nil, or_false] at hmem
  rcases hmem with rfl | rfl | rfl | rfl <;> exact not_special (by decide)

theorem azRequest_toList (uri user : String) (request : Access) :
    (azRequest uri user request).toList =
      '[' :: '"' :: (user.toList ++ '"' :: ([',', '['] ++ '"' :: (uri.toList ++ '"' :: ([','] ++
        '"' :: (accessToShortString request ++ ['"', ']', ']']))))) := by
  simp [azRequest]

/-- The request is understood as it was meant. -/
theorem parseJSON_azRequest (huri : Plain d uri) (huser : Plain d user) (request : Access) :
    Json.parseJSON d (azRequest uri user request).toList =
      some (.arr [.str user.toList, .arr [.str uri.toList, .str (accessToShortString request)]]) := by
  have hfuel : 7 ≤ 2 * (azRequest uri user request).toList.length + 1 := by
    rw [azRequest_toList]
    simp only [List.length_cons, List.length_append]
    omega
  obtain ⟨n, hn⟩ := Nat.exists_eq_add_of_le' hfuel
  unfold Json.parseJSON
  rw [hn, azRequest_toList]
  have hshort : Json.parseElements d (n + 2)
      ('"' :: (accessToShortString request ++ ['"', ']', ']'])) =
        some ([.str (accessToShortString request)], [']']) :=
    Json.parseElements_singleton (Json.parseValue_str fun c hc => not_special_short hc)
  have hinner := Json.parseValue_arr (by decide) (by decide)
    (Json.parseElements_cons (Json.parseValue_str huri) hshort)
  have houter := Json.parseValue_arr (by decide) (by decide)
    (Json.parseElements_cons (Json.parseValue_str huser) (Json.parseElements_singleton hinner))
  simp only [List.cons_append, List.nil_append] at houter ⊢
  rw [houter]
  simp [d.ends_nil]

theorem azPrepare_plain (huri : Plain d uri) (huser : Plain d user) (request : Access) :
    azPrepare d lib undef (azRequest uri user request) =
      '[' :: '"' :: (accessToShortString (lib.authorizeR uri user request) ++
        ['"', ']', Char.ofNat 0]) := by
  have hsize : 12 ≤ (azRequest uri user request).utf8ByteSize := by
    have h₁ : "[\"".utf8ByteSize = 2 := by decide
    have h₂ : "\",[\"".utf8ByteSize = 4 := by decide
    have h₃ : "\",\"".utf8ByteSize = 3 := by decide
    have h₄ : "\"]]".utf8ByteSize = 3 := by decide
    simp only [azRequest, String.utf8ByteSize_append]
    omega
  have hlen := accessToShortString_length (lib.authorizeR uri user request)
  unfold azPrepare
  rw [parseJSON_azRequest huri huser]
  dsimp only
  generalize (azRequest uri user request).utf8ByteSize = size at hsize
  have hserve : serve lib size
      [.str user.toList, .arr [.str uri.toList, .str (accessToShortString request)]] =
        .ok { AzPrepare.init with
          response := '[' :: '"' :: (accessToShortString (lib.authorizeR uri user request) ++
            ['"']) } := by
    simp only [serve, List.zipIdx, serveElements, serveArray, strOf, orderTraces,
      Library.authorize, AzPrepare.init, bind, Except.bind, List.length_nil, String.ofList_toList,
      accessFromPrettyString_short, ← lib.authorizeR_low, Option.isSome_none, Bool.or_self,
      Bool.false_eq_true, if_false, Nat.zero_le, if_true, gt_iff_lt, lt_irrefl, List.cons_append,
      List.nil_append]
    rw [if_neg (by simp only [List.length_cons, List.length_append, List.length_nil]; omega)]
  rw [hserve]
  simp only [finishResponse, AzPrepare.init, Option.isSome_none, Bool.or_self, Bool.false_eq_true,
    if_false, List.cons_append, List.append_assoc, List.nil_append]
  rw [if_neg (by simp only [List.length_cons, List.length_append, List.length_nil]; omega)]

/-- The letters of a reply are read back. -/
theorem readReply_letters (a : Access) :
    readReply undef ('[' :: '"' :: (accessToShortString a ++ ['"', ']', Char.ofNat 0])) =
      a &&& 15 := by
  have hrep : ('[' :: '"' :: (accessToShortString a ++ ['"', ']', Char.ofNat 0]) ++
      undef.behind).takeWhile (· ≠ Char.ofNat 0) =
        '[' :: '"' :: (accessToShortString a ++ ['"', ']']) := by
    have hletters : ∀ c ∈ '[' :: '"' :: (accessToShortString a ++ ['"', ']']),
        decide (c ≠ Char.ofNat 0) = true := by
      intro c hc
      rw [decide_eq_true_eq]
      simp only [List.mem_cons, List.mem_append, List.not_mem_nil, or_false] at hc
      rcases hc with rfl | rfl | hc | rfl | rfl
      · decide
      · decide
      · have hmem := mem_accessToShortString hc
        simp only [List.mem_cons, List.not_mem_nil, or_false] at hmem
        rcases hmem with rfl | rfl | rfl | rfl <;> decide
      · decide
      · decide
    have happ : '[' :: '"' :: (accessToShortString a ++ ['"', ']', Char.ofNat 0]) ++ undef.behind =
        ('[' :: '"' :: (accessToShortString a ++ ['"', ']'])) ++ Char.ofNat 0 :: undef.behind := by
      simp
    rw [happ, List.takeWhile_append_of_pos hletters]
    simp
  unfold readReply
  rw [hrep]
  simp only [List.length_cons, List.length_append, List.length_nil, List.take_succ_cons,
    List.take_zero, and_true, List.drop_succ_cons, List.drop_zero]
  by_cases hempty : accessToShortString a = []
  · have hzero := accessFromPrettyString_short a
    rw [hempty] at hzero ⊢
    simpa [accessFromPrettyString] using hzero
  · have hlen := List.length_pos_iff.mpr hempty
    rw [if_pos (by omega)]
    have htake : (accessToShortString a ++ ['"', ']']).take
        ((accessToShortString a).length + (0 + 1 + 1) + 1 + 1 - 4) = accessToShortString a := by
      rw [show (accessToShortString a).length + (0 + 1 + 1) + 1 + 1 - 4 =
        (accessToShortString a).length by omega, List.take_left]
    rw [htake, accessFromPrettyString_short]

/-! ## Strings that break the request -/

/-- The answer to a walk depends only on what the library says of the uris in it. -/
theorem serveArray_congr (h : ∀ s, (Value.arr el).Has s → ∀ request trace,
      lib.authorize (String.ofList s) user request trace =
        lib'.authorize (String.ofList s) user request trace) (st : AzPrepare) :
    serveArray lib user el st = serveArray lib' user el st := by
  match el with
  | [] | [_] => rfl
  | v :: access :: names =>
    cases v with
    | str s =>
      unfold serveArray
      simp only [strOf, bind, Except.bind, h s (.arr List.mem_cons_self .str)]
    | arr l => rfl
    | other => rfl

theorem serveElements_congr (size : Nat) (els : List (Value × Nat))
    (h : ∀ e ∈ els, ∀ s, e.1.Has s → ∀ request trace,
      lib.authorize (String.ofList s) user request trace =
        lib'.authorize (String.ofList s) user request trace) (st : AzPrepare) :
    serveElements lib user size els st = serveElements lib' user size els st := by
  induction els generalizing st with
  | nil => rfl
  | cons e els ih =>
    obtain ⟨el, idx⟩ := e
    rw [List.forall_mem_cons] at h
    unfold serveElements
    simp only [ih h.2]
    cases el with
    | str s => rfl
    | arr l => simp only [serveArray_congr h.1]
    | other => rfl

/-- A library that is never asked about `uri` and `user` makes no difference there. -/
theorem azPrepare_congr (h : ∀ u v, ¬(u = uri ∧ v = user) →
      ∀ request trace, lib.authorize u v request trace = lib'.authorize u v request trace)
    (hspecial : ¬(Plain d uri ∧ Plain d user)) (request : Access) :
    azPrepare d lib undef (azRequest uri user request) =
      azPrepare d lib' undef (azRequest uri user request) := by
  have hserve : ∀ els size, Json.parseJSON d (azRequest uri user request).toList =
      some (.arr els) → serve lib size els = serve lib' size els := by
    intro els size hparse
    unfold Json.parseJSON at hparse
    split at hparse
    · next v rest hv =>
      split at hparse
      · cases hparse
        rw [azRequest_toList] at hv
        obtain ⟨s, rest', l, hs, heq, hquoted⟩ := Json.parseValue_string_array hv
        cases heq
        refine serveElements_congr _ _ (fun e he s' hhas => h _ _ fun ⟨huri, huser⟩ => ?_) _
        have hs' : s' = uri.toList := by rw [← huri, String.toList_ofList]
        have hsuser : s = user.toList := by rw [← huser, String.toList_ofList]
        by_cases hplain : Plain d user
        · -- the uri would stand behind the user, where it is broken
          rw [Json.readString_append hplain] at hs
          cases hs
          have huriSpecial : ∃ c ∈ uri.toList, d.Special c := by
            simpa [Plain] using fun hplain' => hspecial ⟨hplain', hplain⟩
          have hback : '\\' ∉ accessToShortString request ++ ['"', ']', ']'] := fun hmem => by
            rcases List.mem_append.mp hmem with hmem | hmem
            · exact absurd (mem_accessToShortString hmem) (by decide)
            · exact absurd hmem (by decide)
          have hq := ((hquoted _ (List.fst_mem_of_mem_zipIdx he) s' hhas).of_cons (by decide)).of_cons
            (by decide)
          exact hq.ne_of_special huriSpecial (by simp [not_special]) (by simp) hback hs'
        · obtain ⟨raw, hraw, hdec⟩ := Json.parseString_decodes hs
          exact hdec.ne_of_special (s := user.toList) (by simpa [Plain] using hplain)
            (List.suffix_refl _) (by simp [not_special]) (by simp) hraw.symm hsuser
      · cases hparse
    · cases hparse
  unfold azPrepare
  split
  · rfl
  · next els hels => rw [hserve els _ hels]
  · rfl

end

/-! ## The client and the library -/

/-- A C string ends at the first NUL. -/
def cString (s : String) : String := String.ofList (s.toList.takeWhile (· ≠ Char.ofNat 0))

/-- `authorize_r`. The attempts after an error end like the first one. -/
def authorizeR (db : Database) (uri userUri : String) (requestAccess : Access) : Access :=
  match (authorize (cString uri) (cString userUri) requestAccess {} db).1 with
  | .ok res => res
  | .error _ => 0

/-- `get_trace`. -/
def getTrace (db : Database) (mode : TraceMode) (uri userUri : String) (requestAccess : Access) :
    String :=
  let trace : Trace :=
    { isAcl := mode = .acl, isGroup := mode = .group, isInfo := mode = .info }
  let trace := (authorize (cString uri) (cString userUri) requestAccess trace db).2.trace
  match mode with
  | .acl => trace.acl
  | .group => trace.group
  | .info => trace.info

/-- The library over an index. -/
def indexLibrary (m : AclIndex) : Library where
  authorizeR := authorizeR m.db
  getTrace := getTrace m.db
  authorizeR_low uri user request := by
    obtain ⟨answer, heq, hbit⟩ := authorize_bits m (cString uri) (cString user) {} rfl
    simp only [authorizeR, heq]
    refine BitVec.eq_of_getLsbD_eq fun i _ => Bool.eq_iff_iff.mpr ?_
    rw [hbit request, hbit (request &&& 15), BitVec.getLsbD_and, Bool.and_eq_true]
    exact ⟨fun ⟨hi, hr, ha⟩ => ⟨hi, ⟨hr, getLsbD_fifteen hi⟩, ha⟩,
      fun ⟨hi, hr, ha⟩ => ⟨hi, hr.1, ha⟩⟩
  authorizeR_le uri user request := by
    obtain ⟨answer, heq, hbit⟩ := authorize_bits m (cString uri) (cString user) {} rfl
    simp only [authorizeR, heq]
    refine BitVec.eq_of_getLsbD_eq fun i _ => Bool.eq_iff_iff.mpr ?_
    rw [BitVec.getLsbD_and, BitVec.getLsbD_and, Bool.and_eq_true, Bool.and_eq_true, hbit request]
    exact ⟨And.left, fun h => ⟨h, h.2.1, getLsbD_fifteen h.1⟩⟩

/-- A library that grants everything on `granted`, and nothing else. -/
def grantingLibrary (granted : String → String → Bool) : Library where
  authorizeR uri user request := if granted uri user then request &&& 15 else 0
  getTrace _ _ _ _ := ""
  authorizeR_low uri user request := by
    split
    · rw [BitVec.and_assoc, BitVec.and_self]
    · rfl
  authorizeR_le uri user request := by
    split
    · rw [BitVec.and_self]
    · exact BitVec.zero_and

/-- The strings for which the client always answers as the library does. -/
theorem clientAuthorize_eq_iff (d : Dialect) (uri user : String) :
    (∀ lib undef request, clientAuthorize d lib undef uri user request =
      (lib.authorize uri user request fun _ => none).1) ↔ Plain d uri ∧ Plain d user := by
  constructor
  · -- two libraries that differ for the two strings only, about which the server does not ask
    intro hall
    by_contra hspecial
    have h₁ := hall (grantingLibrary fun u v => u = uri ∧ v = user) ⟨[], []⟩ 15
    have h₂ := hall (grantingLibrary fun _ _ => false) ⟨[], []⟩ 15
    have hsame : clientAuthorize d (grantingLibrary fun u v => u = uri ∧ v = user) ⟨[], []⟩ uri
        user 15 = clientAuthorize d (grantingLibrary fun _ _ => false) ⟨[], []⟩ uri user 15 := by
      refine congrArg (readReply _) (azPrepare_congr (fun u v huv request trace => ?_) hspecial 15)
      simp [Library.authorize, grantingLibrary, huv]
    rw [h₁, h₂] at hsame
    simp [Library.authorize, grantingLibrary] at hsame
  · rintro ⟨huri, huser⟩ lib undef request
    rw [clientAuthorize, azPrepare_plain huri huser, readReply_letters]
    have hle := lib.authorizeR_le uri user request
    have hlow : lib.authorizeR uri user request &&& 15 = lib.authorizeR uri user request := by
      rw [← hle, BitVec.and_assoc, BitVec.and_assoc, BitVec.and_self]
    simpa [Library.authorize] using hlow

/-- A quote in the uri: the letters of the error are taken for rights that nobody has. -/
theorem clientAuthorize_quote :
    clientAuthorize .ascii (indexLibrary fun _ => none) ⟨[], []⟩ "d:\"a" "u" 15 = 14 ∧
      ((indexLibrary fun _ => none).authorize "d:\"a" "u" 15 fun _ => none).1 = 0 := by
  decide +kernel

end Veda.Authorization
