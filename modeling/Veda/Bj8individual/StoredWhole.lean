import Mathlib.Data.List.Forall2
import Mathlib.Data.List.TakeWhile
import Veda.Bj8individual.JsonIndividual

/-! # Whole individuals

A request in JSON is to store an individual whole or not at all. -/

namespace Veda.Bj8individual.Json

/-! ## The property -/

section
variable {F : Type} (lib : Library F)

/-- The data type that a field of a type names, where it can. A name that is not there stands for a
text. -/
def namedType : JSONValue F → Option DataType
  | .integer n => if n ∈ DataType.all.map (·.setWidth 64) then some (n.setWidth 8) else none
  | .string s => some ((resourceType.lookup s).getD .string)
  | _ => none

/-- The data are of the type that the data type asks for. -/
def isData (type : DataType) : JSONValue F → Bool
  | .true | .false => type = .boolean
  | .floating _ => type = .decimal
  | .integer _ => type = .decimal ∨ type = .integer
  | .string s =>
    if type = .decimal then (decimalParts s).length ∈ [1, 2]
    else type ∈ [DataType.string, .uri, .binary, .datetime]
  | _ => false

/-- The language of a text is absent, a name or a number of one. -/
def isLang : Except Failure (JSONValue F) → Bool
  | .error _ | .ok .null | .ok (.string _) => true
  | .ok (.integer n) => n ∈ [0, 1, 2]
  | .ok _ => false

/-- No field of a value is missing or has a wrong type. -/
def wellTyped (json : JSONValue F) : Bool :=
  match json.get (ascii "type"), json.get (ascii "data") with
  | .ok type, .ok data =>
    match namedType type with
    | some type => isData type data && (type ≠ .string || isLang (json.get (ascii "lang")))
    | none => false
  | _, _ => false

/-- A value can be converted. -/
def converts (json : JSONValue F) : Bool := wellTyped json && (jsonToResource lib json).isOk

/-- The text of the uri is one, and all values of a predicate can be converted. -/
def propertyConverts (property : Entry F) : Bool :=
  if property.1 = ascii "@" then property.2.str.isOk
  else match property.2 with
    | .array values => values.all (converts lib)
    | _ => false

/-- The entries of an object; of anything else there are none. -/
def JSONValue.properties : JSONValue F → List (Entry F)
  | .object properties => properties
  | _ => []

/-- All values of an individual can be converted. -/
def convertible : JSONValue F → Bool
  | .object properties => properties.all (propertyConverts lib)
  | _ => false

/-- Exactly the predicates and values that the entries of an object name. -/
structure Individual.Says (individual : Individual) (properties : List (Entry F)) : Prop where
  uri : individual.uri = ((properties.lookup (ascii "@")).bind (·.str.toOption)).getD []
  predicates : ∀ p, p ∈ individual.resources ↔ p ≠ ascii "@" ∧ p ∈ properties.map Prod.fst
  values : ∀ p values, p ≠ ascii "@" → (p, .array values) ∈ properties →
    ∃ rs, individual.resources.lookup p = some rs ∧
      List.Forall₂ (fun value r => jsonToResource lib value = .ok r) values rs

theorem bind_ok {A B : Type} {m : Except Failure A} {k : A → Except Failure B} {r : B}
    (h : (m >>= k) = .ok r) : ∃ a, m = .ok a ∧ k a = .ok r := by
  cases m with
  | error failure => cases h
  | ok a => exact ⟨a, rfl, h⟩

/-- The type that a value names is the one it is converted to. -/
theorem typeOf_of_namedType {json type : JSONValue F} {t : DataType}
    (h : json.get (ascii "type") = .ok type) (ht : namedType type = some t) :
    typeOf json = .ok t := by
  rw [typeOf, getLong, getString, h]
  cases type with
  | integer n =>
    rw [namedType] at ht
    split at ht
    · cases ht
      rfl
    · cases ht
  | string s =>
    cases ht
    rfl
  | _ => cases ht

theorem data_ne_null_of_bind {A : Type} {m : Except Failure A} {f : A → Content}
    {resource : Resource}
    (h : (m >>= fun a => pure { Resource.init with data := f a }) = .ok resource)
    (hf : ∀ a, f a ≠ .null) : resource.data ≠ .null := by
  obtain ⟨a, -, ha⟩ := bind_ok h
  cases ha
  exact hf a

/-- Data of the type that the data type asks for leave data. -/
theorem convert_data_ne_null {json data : JSONValue F} {t : DataType} {resource : Resource}
    (hisData : isData t data = true) (hdata : json.get (ascii "data") = .ok data)
    (hresource : convert lib json t data = .ok resource) : resource.data ≠ .null := by
  unfold convert at hresource
  cases data with
  | true | false =>
    obtain rfl : t = .boolean := of_decide_eq_true hisData
    rw [if_neg (by decide), if_pos rfl] at hresource
    exact data_ne_null_of_bind hresource fun _ h => nomatch h
  | floating x =>
    obtain rfl : t = .decimal := of_decide_eq_true hisData
    rw [if_neg (by decide), if_neg (by decide), if_neg (by decide), if_pos rfl] at hresource
    exact data_ne_null_of_bind hresource fun _ h => nomatch h
  | integer n =>
    obtain rfl | rfl : t = .decimal ∨ t = .integer := of_decide_eq_true hisData
    · rw [if_neg (by decide), if_neg (by decide), if_neg (by decide), if_pos rfl] at hresource
      obtain ⟨m, -, hm⟩ := bind_ok hresource
      exact data_ne_null_of_bind hm fun _ h => nomatch h
    · rw [if_neg (by decide), if_neg (by decide), if_neg (by decide), if_neg (by decide),
        if_pos rfl] at hresource
      exact data_ne_null_of_bind hresource fun _ h => nomatch h
  | string s =>
    have hs : getString json (ascii "data") = .ok (some s) := by rw [getString, hdata]; rfl
    rw [isData] at hisData
    split at hisData
    · rename_i htd
      subst htd
      rw [if_neg (by decide), if_neg (by decide), if_neg (by decide), if_pos rfl] at hresource
      obtain ⟨num, -, hnum⟩ := bind_ok hresource
      exact data_ne_null_of_bind hnum fun _ h => nomatch h
    · have hset : ∀ resource' : Resource, resource'.setData (some s) = resource →
          resource.data ≠ .null := by
        rintro resource' rfl
        exact fun h => nomatch h
      obtain rfl | rfl | rfl | rfl : t = .string ∨ t = .uri ∨ t = .binary ∨ t = .datetime := by
        simpa using of_decide_eq_true hisData
      · rw [if_pos rfl, hs] at hresource
        exact hset _ (Except.ok.inj hresource)
      · rw [if_neg (by decide), if_neg (by decide), if_pos (.inl rfl), hs] at hresource
        exact hset _ (Except.ok.inj hresource)
      · rw [if_neg (by decide), if_neg (by decide), if_pos (.inr rfl), hs] at hresource
        exact hset _ (Except.ok.inj hresource)
      · rw [if_neg (by decide), if_neg (by decide), if_neg (by decide), if_neg (by decide),
          if_neg (by decide), if_pos rfl] at hresource
        obtain ⟨val, -, hval⟩ := bind_ok hresource
        exact data_ne_null_of_bind hval fun _ h => nomatch h
  | _ => cases hisData

/-- A value without a missing field or a field of a wrong type has data once it is converted. -/
theorem data_ne_null {json : JSONValue F} {r : Resource} (hw : wellTyped json = true)
    (hr : jsonToResource lib json = .ok r) : r.data ≠ .null := by
  rw [wellTyped] at hw
  split at hw
  · rename_i type data htype hdata
    split at hw
    · rename_i t ht
      rw [jsonToResource, typeOf_of_namedType htype ht, hdata] at hr
      have hr : (convert lib json t data >>= fun resource => pure { resource with type := t }) =
          .ok r := hr
      obtain ⟨resource, hresource, hr⟩ := bind_ok hr
      cases hr
      have hne := convert_data_ne_null lib (Bool.and_eq_true_iff.mp hw).1 hdata hresource
      exact hne
    · cases hw
  · cases hw

/-! ## What is left of an individual -/

/-- A property that is read without an exception. -/
def readable (property : Entry F) : Bool :=
  if property.1 = ascii "@" then property.2.str.isOk
  else match property.2 with
    | .array values => values.all fun value => (jsonToResource lib value).isOk
    | _ => false

/-- The uri that a property sets. -/
def uriOf (property : Entry F) : Option Text :=
  if property.1 = ascii "@" then property.2.str.toOption else none

/-- The values that a property has. -/
def resourcesOf (property : Entry F) : List Resource :=
  if property.1 = ascii "@" then []
  else match property.2 with
    | .array values => values.filterMap fun value => (jsonToResource lib value).toOption
    | _ => []

/-- An individual with a property that can be read. -/
def Individual.with (individual : Individual) (property : Entry F) : Individual where
  uri := (uriOf property).getD individual.uri
  resources :=
    match resourcesOf lib property with
    | [] => individual.resources
    | resources => individual.resources.insert property.1 resources

/-- The individual of some properties. -/
def Individual.of (properties : List (Entry F)) : Individual :=
  properties.foldl (Individual.with lib) .init

/-- The properties before the first one that cannot be read. -/
def survivors (json : JSONValue F) : List (Entry F) := json.properties.takeWhile (readable lib)

/-- The reading of the first property that cannot be read never ends. -/
def Hangs (json : JSONValue F) : Prop :=
  ∃ property, (json.properties.dropWhile (readable lib)).head? = some property ∧
    addProperty lib .init property = .error .endless

end

section
variable {F S T : Type} (lib : Library F) (server : Server S T)

/-- The turn of an individual of a request. -/
structure Turn (state : S) (jsn : JSONValue F) where
  request : Request F
  read : Request.read jsn = .ok (some request)
  before : List (JSONValue F)
  individual : JSONValue F
  after : List (JSONValue F)
  individuals : request.individuals = before ++ individual :: after
  /-- An associative array has one entry for a name. -/
  distinct : (individual.properties.map Prod.fst).Nodup
  stateNow : S
  progress : Progress
  reached : storeIndividuals lib server (server.getTicket state request.ticket) request state .init
    before = (stateNow, .ok progress)

namespace Turn

variable {lib server} {state : S} {jsn : JSONValue F} (t : Turn lib server state jsn)

def ticket : T := server.getTicket state t.request.ticket

/-- What is stored after the turn. -/
def stateAfter : S :=
  (storeIndividual lib server t.ticket t.request t.stateNow t.progress t.individual).1

/-- Nothing is stored for an individual with a value that cannot be converted, and any other is
handed over with exactly the predicates and values of the request. -/
def StoredWhole : Prop :=
  (convertible lib t.individual = false → t.stateAfter = t.stateNow) ∧
    (convertible lib t.individual = true → ∃ individual,
      jsonToIndividual lib t.individual = .ok individual ∧
        individual.Says lib t.individual.properties)

/-- An individual whose values can be converted has a value for each of its predicates; and of any
other one, unless its reading never ends or there is no event to store it for, what stands before
the first property that cannot be read is refused. -/
structure WholeOrRefused : Prop where
  valued : convertible lib t.individual = true →
    ∀ p, p ≠ ascii "@" → (p, .array []) ∉ t.individual.properties
  refused : convertible lib t.individual = false → ¬Hangs lib t.individual →
    ∀ eventId, t.request.eventId = .string eventId →
      (server.addToTransaction t.stateNow (arguments t.ticket t.request t.progress
        (.of lib (survivors lib t.individual)) eventId)).1 = t.stateNow

end Turn

end

/-! ## What is read -/

section
variable {F : Type} {lib : Library F} {individual : Individual} {property : Entry F}
  {properties : List (Entry F)}

theorem mapM_ok_iff {A B : Type} {f : A → Except Failure B} {values : List A} {rs : List B} :
    values.mapM f = .ok rs ↔ List.Forall₂ (fun value r => f value = .ok r) values rs := by
  induction values generalizing rs with
  | nil =>
    rw [List.mapM_nil, List.forall₂_nil_left_iff]
    exact ⟨fun h => (Except.ok.inj h).symm, fun h => by rw [h]; rfl⟩
  | cons value values ih =>
    rw [List.mapM_cons, List.forall₂_cons_left_iff]
    cases hv : f value with
    | error failure =>
      refine iff_of_false (fun h => ?_) ?_
      · cases h
      · rintro ⟨r, rs', h, -⟩
        cases h
    | ok r =>
      cases hvs : values.mapM f with
      | error failure =>
        refine iff_of_false (fun h => ?_) ?_
        · cases h
        · rintro ⟨r', rs', -, hrs, -⟩
          rw [ih.mpr hrs] at hvs
          cases hvs
      | ok rs' =>
        constructor
        · intro h
          cases h
          exact ⟨r, rs', rfl, ih.mp hvs, rfl⟩
        · rintro ⟨r', rs'', hr, hrs, rfl⟩
          cases hr
          rw [ih.mpr hrs] at hvs
          cases hvs
          rfl

/-- Values that are all converted have the resources that they are converted to. -/
theorem forall₂_resources {values : List (JSONValue F)}
    (h : values.all (fun value => (jsonToResource lib value).isOk) = true) :
    List.Forall₂ (fun value r => jsonToResource lib value = .ok r) values
      (values.filterMap fun value => (jsonToResource lib value).toOption) := by
  induction values with
  | nil => exact .nil
  | cons value values ih =>
    rw [List.all_cons, Bool.and_eq_true] at h
    cases hv : jsonToResource lib value with
    | error failure =>
      rw [hv] at h
      cases h.1
    | ok r =>
      rw [List.filterMap_cons_some (by rw [hv]; rfl)]
      exact .cons hv (ih h.2)

theorem isOk_of_forall₂ {values : List (JSONValue F)} {rs : List Resource}
    (h : List.Forall₂ (fun value r => jsonToResource lib value = .ok r) values rs) :
    values.all (fun value => (jsonToResource lib value).isOk) = true := by
  induction h with
  | nil => rfl
  | cons hv _ ih =>
    rw [List.all_cons, hv, ih]
    rfl

/-- A property that can be read is added. -/
theorem addProperty_of_readable (h : readable lib property = true) (individual : Individual) :
    addProperty lib individual property = .ok (individual.with lib property) := by
  obtain ⟨p, value⟩ := property
  by_cases hp : p = ascii "@"
  · simp only [readable, hp, if_true] at h
    cases value with
    | string s => simp [addProperty, Individual.with, uriOf, resourcesOf, hp, JSONValue.str, pure,
        Except.pure, bind, Except.bind, Except.toOption]
    | _ => cases h
  · simp only [readable, hp, if_false] at h
    cases value with
    | array values =>
      have hread := mapM_ok_iff.mpr (forall₂_resources h)
      simp only [addProperty, hp, if_false, JSONValue.values, bind, Except.bind, hread,
        Individual.with, uriOf, resourcesOf, Option.getD_none, pure, Except.pure]
      cases values.filterMap fun value => (jsonToResource lib value).toOption with
      | nil => rfl
      | cons r rs => rfl
    | _ => cases h

/-- Whether and how a property fails to be read does not depend on what was read before. -/
theorem addProperty_of_not_readable (h : readable lib property = false) (individual : Individual) :
    ∃ failure, addProperty lib individual property = .error failure ∧
      addProperty lib .init property = .error failure := by
  obtain ⟨p, value⟩ := property
  by_cases hp : p = ascii "@"
  · simp only [readable, hp, if_true] at h
    cases value with
    | string s => cases h
    | _ =>
      refine ⟨.exception, ?_, ?_⟩ <;>
        simp only [addProperty, hp, if_true, JSONValue.str, bind, Except.bind]
  · simp only [readable, hp, if_false] at h
    cases value with
    | array values =>
      cases hm : values.mapM (jsonToResource lib) with
      | error failure =>
        refine ⟨failure, ?_, ?_⟩ <;>
          simp only [addProperty, hp, if_false, JSONValue.values, bind, Except.bind, hm]
      | ok rs =>
        cases h.symm.trans (isOk_of_forall₂ (mapM_ok_iff.mp hm))
    | _ =>
      refine ⟨.exception, ?_, ?_⟩ <;>
        simp only [addProperty, hp, if_false, JSONValue.values, bind, Except.bind]

theorem addProperties_eq (individual : Individual) (properties : List (Entry F)) :
    addProperties lib individual properties =
      match (properties.dropWhile (readable lib)).head? with
      | none => .ok (properties.foldl (Individual.with lib) individual)
      | some property =>
        match addProperty lib .init property with
        | .error .endless => .error .endless
        | _ => .ok <|
          (properties.takeWhile (readable lib)).foldl (Individual.with lib) individual := by
  induction properties generalizing individual with
  | nil => rfl
  | cons property properties ih =>
    rw [addProperties]
    cases hr : readable lib property with
    | true =>
      rw [addProperty_of_readable hr]
      simp only [List.dropWhile_cons_of_pos hr, List.takeWhile_cons_of_pos hr, List.foldl_cons]
      exact ih _
    | false =>
      have hr' : ¬readable lib property = true := by rw [hr]; exact Bool.false_ne_true
      obtain ⟨failure, hf, hf'⟩ := addProperty_of_not_readable hr individual
      rw [hf, List.dropWhile_cons_of_neg hr', List.takeWhile_cons_of_neg hr', List.head?_cons]
      simp only [hf']
      cases failure <;> rfl

/-- What is handed over, where the reading ends. -/
theorem jsonToIndividual_of_not_hangs {json : JSONValue F} (h : ¬Hangs lib json) :
    jsonToIndividual lib json = .ok (.of lib (survivors lib json)) := by
  cases json with
  | object properties =>
    rw [jsonToIndividual]
    simp only [JSONValue.entries]
    rw [addProperties_eq]
    split
    · rename_i hnone
      have hall := List.dropWhile_eq_nil_iff.mp (List.head?_eq_none_iff.mp hnone)
      rw [Individual.of, survivors, JSONValue.properties, List.takeWhile_eq_self_iff.mpr hall]
    · rename_i property hsome
      split
      · rename_i hendless
        exact absurd ⟨property, hsome, hendless⟩ h
      · rfl
  | _ => rfl

theorem jsonToIndividual_of_hangs {json : JSONValue F} (h : Hangs lib json) :
    jsonToIndividual lib json = .error .endless := by
  obtain ⟨property, hsome, hendless⟩ := h
  cases json with
  | object properties =>
    rw [jsonToIndividual]
    simp only [JSONValue.entries]
    rw [addProperties_eq]
    rw [JSONValue.properties] at hsome
    simp only [hsome, hendless]
  | _ => cases hsome

/-! ## What an individual says -/

theorem with_uri (individual : Individual) (property : Entry F) :
    (individual.with lib property).uri = (uriOf property).getD individual.uri := rfl

theorem lookup_with_ne {p : Text} (h : property.1 ≠ p) :
    (individual.with lib property).resources.lookup p = individual.resources.lookup p := by
  rw [Individual.with]
  dsimp only
  split
  · rfl
  · exact AList.lookup_insert_ne h.symm

theorem lookup_with_self : (individual.with lib property).resources.lookup property.1 =
    match resourcesOf lib property with
    | [] => individual.resources.lookup property.1
    | resources => some resources := by
  rw [Individual.with]
  dsimp only
  split
  · rfl
  · rename_i hne
    rw [AList.lookup_insert]

theorem foldl_uri_of_notMem (h : ascii "@" ∉ properties.map Prod.fst) :
    (properties.foldl (Individual.with lib) individual).uri = individual.uri := by
  induction properties generalizing individual with
  | nil => rfl
  | cons property properties ih =>
    rw [List.map_cons, List.mem_cons, not_or] at h
    rw [List.foldl_cons, ih h.2, with_uri, uriOf, if_neg (Ne.symm h.1)]
    rfl

theorem foldl_uri (h : (properties.map Prod.fst).Nodup) :
    (properties.foldl (Individual.with lib) individual).uri =
      ((properties.lookup (ascii "@")).bind (·.str.toOption)).getD individual.uri := by
  induction properties generalizing individual with
  | nil => rfl
  | cons property properties ih =>
    obtain ⟨p, value⟩ := property
    rw [List.map_cons, List.nodup_cons] at h
    rw [List.foldl_cons]
    by_cases hp : p = ascii "@"
    · subst hp
      rw [foldl_uri_of_notMem h.1, with_uri, List.lookup_cons_self]
      rfl
    · have hlookup : List.lookup (ascii "@") ((p, value) :: properties) =
          properties.lookup (ascii "@") := by
        rw [List.lookup_cons, beq_false_of_ne (Ne.symm hp)]
      rw [ih h.2, with_uri, hlookup, uriOf, if_neg hp]
      rfl

theorem lookup_foldl_of_notMem {p : Text} (h : p ∉ properties.map Prod.fst) :
    (properties.foldl (Individual.with lib) individual).resources.lookup p =
      individual.resources.lookup p := by
  induction properties generalizing individual with
  | nil => rfl
  | cons property properties ih =>
    rw [List.map_cons, List.mem_cons, not_or] at h
    rw [List.foldl_cons, ih h.2, lookup_with_ne (Ne.symm h.1)]

/-- What is found under the predicate of a property. -/
theorem lookup_foldl (h : (properties.map Prod.fst).Nodup) (hmem : property ∈ properties) :
    (properties.foldl (Individual.with lib) individual).resources.lookup property.1 =
      match resourcesOf lib property with
      | [] => individual.resources.lookup property.1
      | resources => some resources := by
  induction properties generalizing individual with
  | nil => cases hmem
  | cons first properties ih =>
    rw [List.map_cons, List.nodup_cons] at h
    rw [List.foldl_cons]
    cases hmem with
    | head => rw [lookup_foldl_of_notMem h.1, lookup_with_self]
    | tail _ hmem =>
      have hne : first.1 ≠ property.1 := fun he => h.1 (he ▸ List.mem_map_of_mem hmem)
      rw [ih h.2 hmem, lookup_with_ne hne]

theorem resourcesOf_eq_nil_of_uri (h : property.1 = ascii "@") : resourcesOf lib property = [] := by
  rw [resourcesOf, if_pos h]

/-- A property whose values can be converted can be read. -/
theorem readable_of_converts (h : propertyConverts lib property = true) :
    readable lib property = true := by
  rw [propertyConverts] at h
  rw [readable]
  split at h
  · rename_i hp
    rw [if_pos hp, h]
  · rename_i hp
    rw [if_neg hp]
    split at h
    · rename_i values hvalues
      rw [List.all_eq_true] at h
      exact List.all_eq_true.mpr fun value hv => (Bool.and_eq_true_iff.mp (h value hv)).2
    · cases h

theorem lookup_of_eq_none (h : (properties.map Prod.fst).Nodup) (hmem : property ∈ properties)
    (hnil : resourcesOf lib property = []) :
    (Individual.of lib properties).resources.lookup property.1 = none := by
  rw [Individual.of, lookup_foldl h hmem, hnil]
  exact AList.lookup_empty _

/-- The values of a predicate that has one, where they can all be converted. -/
theorem lookup_of_array (h : (properties.map Prod.fst).Nodup)
    (hc : properties.all (propertyConverts lib) = true) {p : Text} {values : List (JSONValue F)}
    (hp : p ≠ ascii "@") (hmem : (p, .array values) ∈ properties) (hne : values ≠ []) :
    ∃ rs, (Individual.of lib properties).resources.lookup p = some rs ∧
      List.Forall₂ (fun value r => jsonToResource lib value = .ok r) values rs := by
  have hread := readable_of_converts (List.all_eq_true.mp hc _ hmem)
  rw [readable, if_neg hp] at hread
  have hall := forall₂_resources hread
  have hlookup := @lookup_foldl F lib .init _ properties h hmem
  have hresources : resourcesOf lib (p, .array values) =
      values.filterMap fun value => (jsonToResource lib value).toOption := by
    rw [resourcesOf, if_neg hp]
  rw [hresources] at hlookup
  refine ⟨_, ?_, hall⟩
  rw [Individual.of, hlookup]
  split
  · rename_i hnil
    rw [hnil, List.forall₂_nil_right_iff] at hall
    exact absurd hall hne
  · rfl

/-- The individual of properties that can all be converted says exactly them just if each of its
predicates has a value. -/
theorem says_of_iff (h : (properties.map Prod.fst).Nodup)
    (hc : properties.all (propertyConverts lib) = true) :
    (Individual.of lib properties).Says lib properties ↔
      ∀ p, p ≠ ascii "@" → (p, .array []) ∉ properties := by
  constructor
  · intro hexact p hp hmem
    have hin := (hexact.predicates p).mpr ⟨hp, List.mem_map_of_mem hmem⟩
    have hnil : resourcesOf lib (p, .array []) = [] := by rw [resourcesOf, if_neg hp]; rfl
    exact AList.lookup_eq_none.mp (lookup_of_eq_none h hmem hnil) hin
  · intro hvalued
    refine ⟨foldl_uri h, fun p => ?_, fun p values hp hmem => ?_⟩
    · by_cases hin : p ∈ properties.map Prod.fst
      · obtain ⟨⟨p, value⟩, hmem, rfl⟩ := List.mem_map.mp hin
        by_cases hp : p = ascii "@"
        · refine iff_of_false ?_ fun h => h.1 hp
          exact AList.lookup_eq_none.mp
            (lookup_of_eq_none h hmem (resourcesOf_eq_nil_of_uri hp))
        · have hconverts := List.all_eq_true.mp hc _ hmem
          rw [propertyConverts, if_neg hp] at hconverts
          cases value with
          | array values =>
            have hne : values ≠ [] := fun he => hvalued p hp (he ▸ hmem)
            obtain ⟨rs, hlookup, -⟩ := lookup_of_array h hc hp hmem hne
            refine iff_of_true ?_ ⟨hp, hin⟩
            rw [← AList.lookup_isSome, hlookup]
            rfl
          | _ => cases hconverts
      · refine iff_of_false ?_ fun h => hin h.2
        refine AList.lookup_eq_none.mp ?_
        rw [Individual.of, lookup_foldl_of_notMem hin]
        exact AList.lookup_empty _
    · exact lookup_of_array h hc hp hmem fun he => hvalued p hp (he ▸ hmem)

end

/-! ## The turn of an individual -/

section
variable {F S T : Type} {lib : Library F} {server : Server S T} {state : S} {jsn : JSONValue F}
  {ticket : T} {request : Request F} {stateNow : S} {progress : Progress} {json : JSONValue F}

theorem convertible_eq_true (h : convertible lib json = true) :
    json.properties.all (propertyConverts lib) = true := by
  cases json with
  | object properties => exact h
  | _ => cases h

/-- Of properties that can all be read everything is left. -/
theorem jsonToIndividual_of_readable
    (hall : ∀ property ∈ json.properties, readable lib property = true) :
    jsonToIndividual lib json = .ok (.of lib json.properties) := by
  have hsurvivors : survivors lib json = json.properties := List.takeWhile_eq_self_iff.mpr hall
  rw [jsonToIndividual_of_not_hangs, hsurvivors]
  rintro ⟨property, hsome, -⟩
  have hmem := List.mem_of_mem_head? hsome
  rw [List.dropWhile_eq_nil_iff.mpr hall] at hmem
  cases hmem

/-- Of an individual whose values can be converted everything is left. -/
theorem jsonToIndividual_of_convertible (h : convertible lib json = true) :
    jsonToIndividual lib json = .ok (.of lib json.properties) :=
  jsonToIndividual_of_readable fun property hmem =>
    readable_of_converts (List.all_eq_true.mp (convertible_eq_true h) property hmem)

/-- What is stored after the turn of an individual whose reading ends. -/
theorem storeIndividual_of_not_hangs (h : ¬Hangs lib json) :
    storeIndividual lib server ticket request stateNow progress json =
      handOver server ticket request stateNow progress (.of lib (survivors lib json)) := by
  rw [storeIndividual, jsonToIndividual_of_not_hangs h]

theorem storeIndividual_of_hangs (h : Hangs lib json) :
    storeIndividual lib server ticket request stateNow progress json =
      (stateNow, .error .endless) := by
  rw [storeIndividual, jsonToIndividual_of_hangs h]

/-- Nothing changes when an individual is handed over just if there is no event for it or it is
refused. -/
theorem handOver_fst_iff {individual : Individual} :
    (handOver server ticket request stateNow progress individual).1 = stateNow ↔
      ∀ eventId, request.eventId = .string eventId →
        (server.addToTransaction stateNow
          (arguments ticket request progress individual eventId)).1 = stateNow := by
  rw [handOver]
  cases he : request.eventId with
  | string eventId =>
    constructor
    · intro h eventId' heq
      cases heq
      exact h
    · intro h
      exact h eventId rfl
  | _ => exact iff_of_true rfl fun eventId h => by cases h

theorem storeIndividuals_append (before after : List (JSONValue F)) (state : S)
    (progress : Progress) :
    storeIndividuals lib server ticket request state progress (before ++ after) =
      match storeIndividuals lib server ticket request state progress before with
      | (state, .ok progress) => storeIndividuals lib server ticket request state progress after
      | (state, .error failure) => (state, .error failure) := by
  induction before generalizing state progress with
  | nil => rfl
  | cons json before ih =>
    rw [List.cons_append, storeIndividuals, storeIndividuals]
    rcases storeIndividual lib server ticket request state progress json with ⟨state', result⟩
    cases result with
    | error failure => rfl
    | ok progress' => exact ih state' progress'

namespace Turn

/-- What `execute_json` does from a turn on. -/
theorem executeJson_eq (t : Turn lib server state jsn) :
    executeJson lib server state t.request =
      ((storeIndividuals lib server t.ticket t.request t.stateNow t.progress
          (t.individual :: t.after)).1,
        (storeIndividuals lib server t.ticket t.request t.stateNow t.progress
          (t.individual :: t.after)).2.map (·.rc)) := by
  rw [executeJson]
  dsimp only
  rw [t.individuals, storeIndividuals_append, t.reached]
  rfl

theorem stateAfter_iff (t : Turn lib server state jsn) :
    t.stateAfter = t.stateNow ↔ (¬Hangs lib t.individual →
      ∀ eventId, t.request.eventId = .string eventId →
        (server.addToTransaction t.stateNow (arguments t.ticket t.request t.progress
          (.of lib (survivors lib t.individual)) eventId)).1 = t.stateNow) := by
  rw [stateAfter]
  by_cases h : Hangs lib t.individual
  · rw [storeIndividual_of_hangs h]
    exact iff_of_true rfl fun hnot => absurd h hnot
  · rw [storeIndividual_of_not_hangs h, handOver_fst_iff]
    exact ⟨fun hrefused _ => hrefused, fun hrefused => hrefused h⟩

end Turn

end

/-- Numbers and dates that are never read. -/
def noLibrary : Library Unit where
  toFloat x := x
  ofLong _ := ()
  decimal _ := none
  fromISOExtString _ := none

/-- A server that stores whatever it is handed over under a uri. -/
def storing : Server (List Individual) Unit where
  getTicket _ _ := ()
  addToTransaction stored args :=
    if args.individual.uri.length < 2 then (stored, .ok ⟨904, 0⟩)
    else (args.individual :: stored, .ok ⟨200, 1⟩)

/-- The first predicate has a value, and that of the second one has no data. -/
def missingData : JSONValue Unit :=
  .object [(ascii "@", .string (ascii "d:a")),
    (ascii "rdf:type", .array [.object [(ascii "type", .string (ascii "Uri")),
      (ascii "data", .string (ascii "v-s:A"))]]),
    (ascii "v-s:n", .array [.object [(ascii "type", .string (ascii "Integer"))]])]

def putMissingData : JSONValue Unit :=
  .object [(ascii "function", .string (ascii "put")), (ascii "ticket", .string []),
    (ascii "assigned_subsystems", .integer 0), (ascii "event_id", .string []),
    (ascii "individuals", .array [missingData])]

/-- The turn of the individual. -/
def missingDataTurn : Turn noLibrary storing [] putMissingData where
  request := ⟨.put, [], 0, .string [], none, [missingData]⟩
  read := by rfl
  before := []
  individual := missingData
  after := []
  individuals := rfl
  distinct := by decide
  stateNow := []
  progress := .init
  reached := rfl

end Veda.Bj8individual.Json
