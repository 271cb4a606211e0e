import Mathlib.Data.List.Perm.Subperm
import Mathlib.Data.List.Nodup
import Veda.Input.FileReader
import Veda.Lib.Run

/-! # A recorded file is a loaded file

The reader is called for files that change, and started again. The record of a file is stored before
its individuals, so that it tells what is stored only while every store is made. -/

namespace Veda.Input.FileReader

open Veda.Run

variable {η : Type}

/-! ## Runs -/

/-- The files, the tables of the running reader and the storage. -/
structure Reader (η : Type) where
  files : String → Option Content
  tables : Tables
  store : Store η

inductive FileEvent where
  /-- A file gets another content, or is removed. -/
  | change (fname : String) (content : Option Content)
  | processed (changes : List String) (isCheck : Bool) (course : Course)
  | restart

/-- The reader is started with empty tables, also after it was stopped. -/
def Reader.step [DecidableEq η] (md5 : Content → η) (fullUrl : String → String) (e : FileEvent)
    (r : Reader η) : Reader η :=
  match e with
  | .change fname content => { r with files := Function.update r.files fname content }
  | .processed changes isCheck course =>
    let result := processed md5 fullUrl r.files course changes isCheck r.tables r.store
    { r with store := result.1, tables := result.2.getD .init }
  | .restart => { r with tables := .init }

/-- Nothing was read. -/
def Reader.init (individuals : String → Option Individual) : Reader η :=
  ⟨fun _ => none, .init, ⟨fun _ => none, individuals⟩⟩

/-- What is stored agrees with what a file says, apart from what the storage and the reader add. -/
def Agrees (ss stored : Individual) : Prop :=
  ∀ key, key ≠ "v-s:updateCounter" → key ≠ "v-s:previousVersion" → key ≠ "v-s:actualVersion" →
    key ≠ "v-s:fullUrl" → (key = "rdfs:isDefinedBy" → key ∈ ss.resources) →
      ∀ rs, rs ∈ stored.get key ↔ rs ∈ ss.get key

/-- The individual of the uri is in no other file. -/
def OnlyIn (files : String → Option Content) (fname uri : String) : Prop :=
  ∀ other content, other ≠ fname → files other = some content → ∀ ss ∈ content, ss.uri ≠ uri

/-- Where the record of a file has the hash of the file, every individual with a type that is only
in the file is stored as the file says. -/
def RecordedLoaded (md5 : Content → η) (r : Reader η) : Prop :=
  ∀ fname content, r.files fname = some content →
    r.store.records (baseName fname) = some (md5 content) →
      ∀ ss ∈ content, ss.get "rdf:type" ≠ [] → OnlyIn r.files fname ss.uri →
        ∃ stored, r.store.individuals ss.uri = some stored ∧ Agrees ss stored

/-! ## The condition -/

/-- No resource of an individual is repeated. -/
def Clean (indv : Individual) : Prop :=
  ∀ key ∈ indv.resources, indv.get key ≠ [] ∧ (indv.get key).Nodup

instance (indv : Individual) : Decidable (Clean indv) :=
  inferInstanceAs (Decidable (∀ key ∈ indv.resources.keys, indv.get key ≠ [] ∧
    (indv.get key).Nodup))

/-- A file describes every individual once, without repeating a resource, and its ontologies have
priorities below 100. -/
structure Proper (content : Content) : Prop where
  uris : (content.map (·.uri)).Nodup
  clean : ∀ ss ∈ content, Clean ss
  priority : ∀ ss ∈ content, ss.getFirstInteger "v-s:loadPriority" (-1) < 100

/-- Every individual belongs to one file and is only there, or to none and is in several. -/
def Owned (owner : String → Option String) (files : String → Option Content) : Prop :=
  ∀ fname content ss, files fname = some content → ss ∈ content →
    owner ss.uri = some fname ∨ owner ss.uri = none ∧ ¬ OnlyIn files fname ss.uri

/-- Files are proper and individuals stay in their files; every store is accepted, and the reader is
stopped before the first store of a call or between two calls. -/
def Undisturbed (owner : String → Option String) (e : FileEvent) (r : Reader η) : Prop :=
  match e with
  | .change fname content => (∀ c, content = some c → Proper c) ∧
    Owned owner (Function.update r.files fname content)
  | .processed _ _ course => (∀ i, course.accepted i = true) ∧
    (course.crash = none ∨ course.crash = some 0)
  | .restart => True

/-! ## Individuals -/

section
variable {ss stored indv : Individual} {key predicate : String}

@[simp] theorem get_set_self (rss : List Resource) : (indv.set key rss).get key = rss := by
  simp [Individual.get, Individual.set, Resources.get, AList.lookup_insert]

theorem get_set_of_ne (rss : List Resource) (h : key ≠ predicate) :
    (indv.set predicate rss).get key = indv.get key := by
  simp [Individual.get, Individual.set, Resources.get, AList.lookup_insert_ne h]

theorem get_removeResource_of_ne (h : key ≠ predicate) :
    (indv.removeResource predicate).get key = indv.get key := by
  simp [Individual.get, Individual.removeResource, Resources.get, AList.lookup_erase_ne h]

theorem get_strip (h1 : key ≠ "v-s:updateCounter") (h2 : key ≠ "v-s:previousVersion")
    (h3 : key ≠ "v-s:actualVersion") : (strip indv).get key = indv.get key := by
  rw [strip, get_removeResource_of_ne h3, get_removeResource_of_ne h2, get_removeResource_of_ne h1]

@[simp] theorem uri_strip : (strip indv).uri = indv.uri := rfl

@[simp] theorem uri_prepareIndividual (fullUrl : String → String) (onto : String) :
    (prepareIndividual fullUrl onto ss).uri = ss.uri := by
  unfold prepareIndividual withIsDefinedBy withFullUrl
  split <;> split <;> rfl

theorem get_eq_nil (h : key ∉ indv.resources) : indv.get key = [] := by
  rw [Individual.get, Resources.get, AList.lookup_eq_none.mpr h]
  rfl

theorem mem_resources (h : indv.get key ≠ []) : key ∈ indv.resources :=
  not_not.mp fun hnot => h (get_eq_nil hnot)

theorem mem_resources_set : key ∈ (indv.set predicate rss).resources ↔
    key = predicate ∨ key ∈ indv.resources := AList.mem_insert _

theorem get_withFullUrl (fullUrl : String → String) (h : key ≠ "v-s:fullUrl") :
    (withFullUrl fullUrl ss).get key = ss.get key := by
  unfold withFullUrl
  split
  next => exact get_set_of_ne _ h
  next => rfl

theorem mem_withFullUrl (fullUrl : String → String) (h : key ∈ ss.resources) :
    key ∈ (withFullUrl fullUrl ss).resources := by
  unfold withFullUrl
  split
  next => exact mem_resources_set.mpr (.inr h)
  next => exact h

/-- A prepared individual says the same as the file, apart from what is added. -/
theorem get_prepareIndividual (fullUrl : String → String) (onto : String)
    (hurl : key ≠ "v-s:fullUrl") (hdefined : key = "rdfs:isDefinedBy" → key ∈ ss.resources) :
    (prepareIndividual fullUrl onto ss).get key = ss.get key := by
  rw [prepareIndividual, withIsDefinedBy]
  split
  next => exact get_withFullUrl fullUrl hurl
  next hnot =>
    rcases eq_or_ne key "rdfs:isDefinedBy" with rfl | hne
    · exact absurd (mem_withFullUrl fullUrl (hdefined rfl)) hnot
    · rw [get_set_of_ne _ hne, get_withFullUrl fullUrl hurl]

theorem Clean.set (h : Clean indv) (rs : Resource) : Clean (indv.set predicate [rs]) := by
  intro key hkey
  rcases eq_or_ne key predicate with rfl | hne
  · rw [get_set_self]
    exact ⟨List.cons_ne_nil _ _, List.nodup_singleton rs⟩
  · rw [get_set_of_ne _ hne]
    exact h key ((mem_resources_set.mp hkey).resolve_left hne)

theorem Clean.prepareIndividual (h : Clean ss) (fullUrl : String → String) (onto : String) :
    Clean (prepareIndividual fullUrl onto ss) := by
  have hurl : Clean (withFullUrl fullUrl ss) := by
    unfold withFullUrl
    split
    next => exact h.set _
    next => exact h
  rw [FileReader.prepareIndividual, withIsDefinedBy]
  split
  next => exact hurl
  next => exact hurl.set _

theorem Clean.removeResource (h : Clean indv) : Clean (indv.removeResource predicate) := by
  intro key hkey
  obtain ⟨hne, hmem⟩ := AList.mem_erase.mp hkey
  rw [get_removeResource_of_ne hne]
  exact h key hmem

theorem Clean.strip (h : Clean indv) : Clean (strip indv) :=
  h.removeResource.removeResource.removeResource

/-- Individuals that compare as equal have the same resources, where none is repeated. -/
theorem mem_get_of_compare (h : indv.compare stored = true)
    (hclean : Clean indv) (key : String) (rs : Resource) :
    rs ∈ stored.get key ↔ rs ∈ indv.get key := by
  simp only [Individual.compare, Bool.and_eq_true, decide_eq_true_eq, List.all_eq_true] at h
  obtain ⟨hlength, hall⟩ := h
  have hsub : indv.resources.keys ⊆ stored.resources.keys := by
    intro key' hkey
    obtain ⟨hlen, -⟩ := hall key' hkey
    refine AList.mem_keys.mp (mem_resources fun hnil => (hclean key' hkey).1 ?_)
    exact List.eq_nil_of_length_eq_zero (hlen.trans (congrArg List.length hnil))
  have hperm : indv.resources.keys.Perm stored.resources.keys :=
    (List.subperm_of_subset indv.resources.keys_nodup hsub).perm_of_length_le (Nat.le_of_eq hlength)
  by_cases hkey : key ∈ indv.resources.keys
  · obtain ⟨hlen, hmem⟩ := hall key hkey
    have hsub : indv.get key ⊆ stored.get key := fun rs hrs => hmem rs hrs
    have hperm := (List.subperm_of_subset (hclean key hkey).2 hsub).perm_of_length_le
      (Nat.le_of_eq hlen.symm)
    exact hperm.mem_iff.symm
  · rw [get_eq_nil hkey, get_eq_nil fun hstored => hkey (hperm.mem_iff.mpr hstored)]

/-! ## Storing an individual -/

/-- The resources are the same, apart from what the storage keeps. -/
def Same (indv stored : Individual) : Prop :=
  ∀ key, key ≠ "v-s:updateCounter" → key ≠ "v-s:previousVersion" → key ≠ "v-s:actualVersion" →
    ∀ rs, rs ∈ stored.get key ↔ rs ∈ indv.get key

theorem Same.agrees {fullUrl : String → String} {onto : String}
    (h : Same (prepareIndividual fullUrl onto ss) stored) : Agrees ss stored := by
  intro key h1 h2 h3 hurl hdefined rs
  rw [h key h1 h2 h3 rs, get_prepareIndividual fullUrl onto hurl hdefined]

theorem same_strip : Same indv (strip indv) := fun _ h1 h2 h3 _ => by rw [get_strip h1 h2 h3]

/-- What is not stored is there already. -/
theorem same_of_toStore_eq_none {isCheck : Bool} {s : Store η} (hclean : Clean indv)
    (h : toStore isCheck s indv = none) :
    ∃ stored, s.individuals indv.uri = some stored ∧ Same indv stored := by
  unfold toStore at h
  split at h
  next => exact absurd h nofun
  next stored hstored =>
    split at h
    next hcompare =>
      have hcompare := (Bool.and_eq_true_iff.mp hcompare).2
      refine ⟨stored, hstored, fun key h1 h2 h3 rs => ?_⟩
      have hmem := mem_get_of_compare hcompare hclean.strip key rs
      rwa [get_strip h1 h2 h3, get_strip h1 h2 h3] at hmem
    next => split at h <;> exact absurd h nofun

theorem same_of_toStore_eq_some {isCheck : Bool} {s : Store η} {new : Individual}
    (h : toStore isCheck s indv = some new) : new.uri = indv.uri ∧ Same indv new := by
  unfold toStore at h
  split at h
  next =>
    cases h
    exact ⟨rfl, same_strip⟩
  next =>
    split at h
    next => exact absurd h nofun
    next =>
      split at h
      next =>
        cases h
        refine ⟨rfl, fun key h1 h2 h3 rs => ?_⟩
        rw [get_set_of_ne _ h1]
        exact same_strip key h1 h2 h3 rs
      next =>
        cases h
        exact ⟨rfl, same_strip⟩

end

/-! ## Collecting -/

section
variable {fullUrl : String → String} {onto : String} {content : Content}
  {indvs : List Individual} {indv ss : Individual}

/-- One individual of a file. -/
def collectOne (fullUrl : String → String) (onto : String) (indvs : List Individual)
    (ss : Individual) : List Individual :=
  if ss.get "rdf:type" = [] ∨ indvs.any (·.uri = ss.uri) then indvs
  else indvs ++ [prepareIndividual fullUrl onto ss]

theorem collect_cons : collect fullUrl onto (ss :: content) indvs =
    collect fullUrl onto content (collectOne fullUrl onto indvs ss) := rfl

theorem subset_collect : indvs ⊆ collect fullUrl onto content indvs := by
  induction content generalizing indvs with
  | nil => exact List.Subset.refl indvs
  | cons ss content ih =>
    rw [collect_cons]
    refine List.Subset.trans ?_ ih
    unfold collectOne
    split
    next => exact List.Subset.refl indvs
    next => exact List.subset_append_left _ _

theorem nodup_collect (h : (indvs.map (·.uri)).Nodup) :
    ((collect fullUrl onto content indvs).map (·.uri)).Nodup := by
  induction content generalizing indvs with
  | nil => exact h
  | cons ss content ih =>
    rw [collect_cons]
    refine ih ?_
    unfold collectOne
    split
    next => exact h
    next hnot =>
      rw [List.map_append, List.map_singleton, uri_prepareIndividual]
      refine List.nodup_append.mpr ⟨h, List.nodup_singleton _, fun uri huri uri' huri' => ?_⟩
      obtain ⟨indv, hindv, rfl⟩ := List.mem_map.mp huri
      rintro rfl
      exact hnot (.inr (List.any_eq_true.mpr
        ⟨indv, hindv, decide_eq_true (List.mem_singleton.mp huri')⟩))

/-- What is collected was there or is prepared from the file. -/
theorem mem_collect (h : indv ∈ collect fullUrl onto content indvs) :
    indv ∈ indvs ∨ ∃ ss ∈ content, indv = prepareIndividual fullUrl onto ss := by
  induction content generalizing indvs with
  | nil => exact .inl h
  | cons ss content ih =>
    rw [collect_cons] at h
    rcases ih h with h | ⟨ss', hmem, heq⟩
    · unfold collectOne at h
      split at h
      next => exact .inl h
      next =>
        rcases List.mem_append.mp h with h | h
        · exact .inl h
        · exact .inr ⟨ss, List.mem_cons_self, List.mem_singleton.mp h⟩
    · exact .inr ⟨ss', List.mem_cons_of_mem _ hmem, heq⟩

/-- Every individual with a type is collected, from this file or from one before. -/
theorem exists_mem_collect (hmem : ss ∈ content) (htype : ss.get "rdf:type" ≠ []) :
    ∃ indv ∈ collect fullUrl onto content indvs, indv.uri = ss.uri := by
  induction content generalizing indvs with
  | nil => exact absurd hmem List.not_mem_nil
  | cons ss' content ih =>
    rw [collect_cons]
    rcases List.mem_cons.mp hmem with rfl | hmem
    · have hone : ∃ indv ∈ collectOne fullUrl onto indvs ss, indv.uri = ss.uri := by
        unfold collectOne
        split
        next hskip =>
          obtain ⟨indv, hindv, heq⟩ := List.any_eq_true.mp (hskip.resolve_left htype)
          exact ⟨indv, hindv, of_decide_eq_true heq⟩
        next =>
          exact ⟨_, List.mem_append_right _ List.mem_cons_self, uri_prepareIndividual fullUrl onto⟩
      obtain ⟨indv, hindv, heq⟩ := hone
      exact ⟨indv, subset_collect hindv, heq⟩
    · exact ih hmem

end

/-! ## A call -/

section
variable {md5 : Content → η} {fullUrl : String → String} {files : String → Option Content}
  {c : Course} {loaded : List String}

theorem put_eq_some (haccepted : ∀ i, c.accepted i = true) (hcrash : c.crash = none)
    (f : Store η → Store η) (p : Progress η) : p.put c f = some ⟨f p.store, p.count + 1⟩ := by
  rw [Progress.put, hcrash, if_neg nofun, haccepted, if_pos rfl]

/-- What a file that is loaded contains. -/
def contentOf (files : String → Option Content) (loaded : List String) (fname : String) :
    Option Content :=
  if fname ∈ loaded then files fname else none

/-- The first phase of a call: the records of the prepared files are stored, and their individuals
are collected. -/
structure PreparedLists (md5 : Content → η) (fullUrl : String → String)
    (contents : String → Option Content) (entries : List (String × String))
    (indvs : List Individual) (s : Store η) (indvs' : List Individual) (s' : Store η) : Prop where
  individuals : s'.individuals = s.individuals
  records : ∀ base, (s'.records base = s.records base ∧
      ∀ e ∈ entries, contents e.2 ≠ none → baseName e.2 ≠ base) ∨
    ∃ e ∈ entries, ∃ content, contents e.2 = some content ∧ baseName e.2 = base ∧
      s'.records base = some (md5 content)
  subset : indvs ⊆ indvs'
  nodup : (indvs.map (·.uri)).Nodup → (indvs'.map (·.uri)).Nodup
  source : ∀ indv ∈ indvs', indv ∈ indvs ∨ ∃ e ∈ entries, ∃ content, contents e.2 = some content ∧
    ∃ ss ∈ content, indv = prepareIndividual fullUrl e.1 ss
  complete : ∀ e ∈ entries, ∀ content, contents e.2 = some content → ∀ ss ∈ content,
    ss.get "rdf:type" ≠ [] → ∃ indv ∈ indvs', indv.uri = ss.uri

theorem preparedLists (haccepted : ∀ i, c.accepted i = true) (hcrash : c.crash = none)
    (entries : List (String × String)) (indvs : List Individual) (p : Progress η) :
    ∃ p' indvs', prepareLists md5 fullUrl files c loaded entries indvs p = (p', some indvs') ∧
      PreparedLists md5 fullUrl (contentOf files loaded) entries indvs p.store indvs' p'.store := by
  induction entries generalizing indvs p with
  | nil =>
    exact ⟨p, indvs, rfl, rfl, fun _ => .inl ⟨rfl, nofun⟩, List.Subset.refl _, id,
      fun _ h => .inl h, nofun⟩
  | cons e entries ih =>
    obtain ⟨onto, filename⟩ := e
    simp only [prepareLists]
    split
    next hnone =>
      obtain ⟨p', indvs', heq, h⟩ := ih indvs p
      refine ⟨p', indvs', heq, h.individuals, fun base => ?_, h.subset, h.nodup,
        fun indv hindv => ?_, fun e he content hcontent => ?_⟩
      · rcases h.records base with ⟨hsame, hother⟩ | ⟨e, he, hrecord⟩
        · refine .inl ⟨hsame, fun e he hsome => ?_⟩
          rcases List.mem_cons.mp he with rfl | he
          · exact absurd hnone hsome
          · exact hother e he hsome
        · exact .inr ⟨e, List.mem_cons_of_mem _ he, hrecord⟩
      · exact (h.source indv hindv).imp_right fun ⟨e, he, hs⟩ => ⟨e, List.mem_cons_of_mem _ he, hs⟩
      · rcases List.mem_cons.mp he with rfl | he
        · exact absurd (hnone.symm.trans hcontent) nofun
        · exact h.complete e he content hcontent
    next content hcontent =>
      rw [put_eq_some haccepted hcrash]
      obtain ⟨p', indvs', heq, h⟩ := ih (collect fullUrl onto content indvs)
        ⟨Store.putRecord filename (md5 content) p.store, p.count + 1⟩
      refine ⟨p', indvs', heq, h.individuals, fun base => ?_,
        List.Subset.trans subset_collect h.subset, fun hnodup => h.nodup (nodup_collect hnodup),
        fun indv hindv => ?_, fun e he content' hcontent' ss hss htype => ?_⟩
      · rcases h.records base with ⟨hsame, hother⟩ | ⟨e, he, hrecord⟩
        · rcases eq_or_ne base (baseName filename) with rfl | hne
          · refine .inr ⟨_, List.mem_cons_self, content, hcontent, rfl, hsame.trans ?_⟩
            exact Function.update_self ..
          · refine .inl ⟨hsame.trans (Function.update_of_ne hne ..), fun e he hsome => ?_⟩
            rcases List.mem_cons.mp he with rfl | he
            · exact hne.symm
            · exact hother e he hsome
        · exact .inr ⟨e, List.mem_cons_of_mem _ he, hrecord⟩
      · rcases h.source indv hindv with hindv | ⟨e, he, hs⟩
        · rcases mem_collect hindv with hindv | hfrom
          · exact .inl hindv
          · exact .inr ⟨_, List.mem_cons_self, content, hcontent, hfrom⟩
        · exact .inr ⟨e, List.mem_cons_of_mem _ he, hs⟩
      · rcases List.mem_cons.mp he with rfl | he
        · cases hcontent.symm.trans hcontent'
          obtain ⟨indv, hindv, huri⟩ := @exists_mem_collect fullUrl onto _ indvs _ hss htype
          exact ⟨indv, h.subset hindv, huri⟩
        · exact h.complete e he content' hcontent' ss hss htype

/-- A reader that is stopped before the first store has stored nothing. -/
theorem prepareLists_crash (hcrash : c.crash = some 0) (entries : List (String × String))
    (indvs : List Individual) {p : Progress η} (hcount : p.count = 0) :
    prepareLists md5 fullUrl files c loaded entries indvs p = (p, none) ∨
      prepareLists md5 fullUrl files c loaded entries indvs p = (p, some indvs) := by
  induction entries with
  | nil => exact .inr rfl
  | cons e entries ih =>
    simp only [prepareLists]
    split
    next => exact ih
    next =>
      rw [Progress.put, hcrash, hcount, if_pos rfl]
      exact .inl rfl

/-- The second phase: what was collected is in the storage afterwards. -/
theorem storeIndividuals_spec (haccepted : ∀ i, c.accepted i = true) (hcrash : c.crash = none)
    (isCheck : Bool) {indvs : List Individual} (hclean : ∀ indv ∈ indvs, Clean indv)
    (hnodup : (indvs.map (·.uri)).Nodup) (p : Progress η) :
    ∃ p', storeIndividuals c isCheck indvs p = (p', true) ∧ p'.store.records = p.store.records ∧
      (∀ uri, (∀ indv ∈ indvs, indv.uri ≠ uri) →
        p'.store.individuals uri = p.store.individuals uri) ∧
      ∀ indv ∈ indvs, ∃ stored, p'.store.individuals indv.uri = some stored ∧ Same indv stored := by
  induction indvs generalizing p with
  | nil => exact ⟨p, rfl, rfl, fun _ _ => rfl, nofun⟩
  | cons indv indvs ih =>
    obtain ⟨hfresh, hnodup⟩ := List.nodup_cons.mp hnodup
    have hother : ∀ indv' ∈ indvs, indv'.uri ≠ indv.uri := fun indv' hmem heq =>
      hfresh (List.mem_map.mpr ⟨indv', hmem, heq⟩)
    have ih := ih (fun indv' hmem => hclean indv' (List.mem_cons_of_mem _ hmem)) hnodup
    simp only [storeIndividuals]
    split
    next hnone =>
      obtain ⟨stored, hstored, hsame⟩ :=
        same_of_toStore_eq_none (hclean indv List.mem_cons_self) hnone
      obtain ⟨p', heq, hrecords, hframe, hall⟩ := ih p
      refine ⟨p', heq, hrecords, fun uri huri => ?_, fun indv' hmem => ?_⟩
      · exact hframe uri fun indv' hmem => huri indv' (List.mem_cons_of_mem _ hmem)
      · rcases List.mem_cons.mp hmem with rfl | hmem
        · exact ⟨stored, (hframe indv'.uri hother).trans hstored, hsame⟩
        · exact hall indv' hmem
    next new hnew =>
      obtain ⟨huri, hsame⟩ := same_of_toStore_eq_some hnew
      rw [put_eq_some haccepted hcrash]
      obtain ⟨p', heq, hrecords, hframe, hall⟩ := ih ⟨Store.putIndividual new p.store, p.count + 1⟩
      refine ⟨p', heq, hrecords, fun uri hne => ?_, fun indv' hmem => ?_⟩
      · rw [hframe uri fun indv' hmem => hne indv' (List.mem_cons_of_mem _ hmem)]
        refine Function.update_of_ne ?_ ..
        rw [huri]
        exact (hne indv List.mem_cons_self).symm
      · rcases List.mem_cons.mp hmem with rfl | hmem
        · refine ⟨new, (hframe indv'.uri hother).trans ?_, hsame⟩
          rw [← huri]
          exact Function.update_self ..
        · exact hall indv' hmem

/-! ## The tables -/

/-- Every priority is one of the rounds. -/
def Tables.InRange (t : Tables) : Prop :=
  ∀ key priority, t.prefix2priority key = some priority → 0 ≤ priority ∧ priority < 100

theorem Tables.InRange.priority {t : Tables} (h : t.InRange) (key : Option String) :
    0 ≤ t.priority key ∧ t.priority key < 100 := by
  unfold Tables.priority
  cases hkey : key.bind t.prefix2priority with
  | none => exact ⟨by decide, by decide⟩
  | some priority =>
    obtain ⟨key, -, hpriority⟩ := Option.bind_eq_some_iff.mp hkey
    exact h key priority hpriority

theorem Tables.InRange.prioritize {t : Tables} (h : t.InRange) {priority : ℤ} (hpos : 0 ≤ priority)
    (hlt : priority < 100) (key : String) : (t.prioritize key priority).InRange := by
  intro key' priority' hkey
  simp only [Tables.prioritize, Function.update_apply] at hkey
  split at hkey
  next =>
    obtain rfl := Option.some.inj hkey
    exact ⟨hpos, hlt⟩
  next => exact h key' priority' hkey

theorem Tables.InRange.load {t : Tables} (h : t.InRange) {content : Content}
    (hproper : ∀ ss ∈ content, ss.getFirstInteger "v-s:loadPriority" (-1) < 100)
    (filename : String) : (t.load filename content).InRange := by
  unfold Tables.load
  split
  next indv hindv =>
    dsimp only
    split
    next hpos =>
      have hdefine : (t.define indv.uri filename).InRange := h
      exact hdefine.prioritize hpos (hproper indv (List.mem_of_find?_eq_some hindv)) indv.uri
    next => exact h
  next =>
    have hdefine : (t.define filename filename).InRange := h
    exact hdefine.prioritize (by decide) (by decide) filename

theorem Tables.InRange.foldl {t : Tables} (h : t.InRange) {files : String → Option Content}
    (hproper : ∀ fname content, files fname = some content → Proper content)
    (fnames : List String) :
    (fnames.foldl (fun t fname => t.load fname ((files fname).getD [])) t).InRange := by
  induction fnames generalizing t with
  | nil => exact h
  | cons fname fnames ih =>
    refine ih (h.load (fun ss hss => ?_) fname)
    cases hfile : files fname with
    | none =>
      rw [hfile] at hss
      exact absurd hss List.not_mem_nil
    | some content =>
      rw [hfile] at hss
      exact (hproper fname content hfile).priority ss hss

/-- The rounds go through all individuals. -/
theorem mem_inOrder {t : Tables} (h : t.InRange) {indvs : List Individual} {indv : Individual} :
    indv ∈ inOrder t indvs ↔ indv ∈ indvs := by
  simp only [inOrder, List.mem_flatMap, List.mem_range, List.mem_filter, decide_eq_true_eq]
  constructor
  · rintro ⟨_, -, hmem, -⟩
    exact hmem
  · intro hmem
    obtain ⟨hpos, hlt⟩ := h.priority (indv.getFirstLiteral "rdfs:isDefinedBy")
    exact ⟨(t.priority (indv.getFirstLiteral "rdfs:isDefinedBy")).toNat, by omega, hmem, by omega⟩

theorem nodup_inOrder {t : Tables} {indvs : List Individual} (h : (indvs.map (·.uri)).Nodup) :
    ((inOrder t indvs).map (·.uri)).Nodup := by
  have hinj : ∀ a ∈ inOrder t indvs, ∀ b ∈ inOrder t indvs, a.uri = b.uri → a = b := by
    intro a ha b hb heq
    simp only [inOrder, List.mem_flatMap, List.mem_filter] at ha hb
    obtain ⟨_, -, ha, -⟩ := ha
    obtain ⟨_, -, hb, -⟩ := hb
    exact List.inj_on_of_nodup_map h ha hb heq
  refine List.Nodup.map_on hinj (List.nodup_flatMap.mpr ⟨fun _ _ => h.of_map.filter _, ?_⟩)
  refine List.nodup_range.imp fun {first second} hne indv hfirst hsecond => hne ?_
  have hfirst := of_decide_eq_true (List.mem_filter.mp hfirst).2
  have hsecond := of_decide_eq_true (List.mem_filter.mp hsecond).2
  omega

/-! ## What a call does -/

/-- A call has prepared some files: it has stored their hashes and their individuals, and nothing
else. -/
structure Effect (md5 : Content → η) (files : String → Option Content) (prepared : String → Prop)
    (s s' : Store η) : Prop where
  records : ∀ base, (s'.records base = s.records base ∧
      ∀ fname, prepared fname → baseName fname ≠ base) ∨
    ∃ fname content, prepared fname ∧ files fname = some content ∧ baseName fname = base ∧
      s'.records base = some (md5 content)
  frame : ∀ uri, (∀ fname content, prepared fname → files fname = some content →
    ∀ ss ∈ content, ss.uri ≠ uri) → s'.individuals uri = s.individuals uri
  stored : ∀ fname content, prepared fname → files fname = some content → ∀ ss ∈ content,
    ss.get "rdf:type" ≠ [] → ∃ other content', files other = some content' ∧ ∃ ss' ∈ content',
      ss'.uri = ss.uri ∧ ∃ stored, s'.individuals ss.uri = some stored ∧ Agrees ss' stored

theorem Effect.refl (s : Store η) : Effect md5 files (fun _ => False) s s :=
  ⟨fun _ => .inl ⟨rfl, nofun⟩, fun _ _ => rfl, nofun⟩

theorem contentOf_eq_some {content : Content} {fname : String} :
    contentOf files loaded fname = some content ↔ fname ∈ loaded ∧ files fname = some content := by
  unfold contentOf
  split
  next h => simp [h]
  next h => simp [h]

/-- Both phases of a call without a refused store. -/
theorem effect_storeIndividuals (hproper : ∀ fname content, files fname = some content →
      Proper content) {t : Tables} (ht : t.InRange) (haccepted : ∀ i, c.accepted i = true)
    (hcrash : c.crash = none) (isCheck : Bool) {entries : List (String × String)} {s : Store η}
    {p : Progress η} {indvs : List Individual}
    (h : PreparedLists md5 fullUrl (contentOf files loaded) entries [] s indvs p.store) :
    ∃ p', storeIndividuals c isCheck (inOrder t indvs) p = (p', true) ∧
      Effect md5 files
        (fun fname => ∃ e ∈ entries, e.2 = fname ∧ contentOf files loaded fname ≠ none)
        s p'.store := by
  have hsource : ∀ indv ∈ indvs, ∃ e ∈ entries, ∃ content,
      contentOf files loaded e.2 = some content ∧
        ∃ ss ∈ content, indv = prepareIndividual fullUrl e.1 ss := fun indv hindv =>
    (h.source indv hindv).resolve_left List.not_mem_nil
  have hclean : ∀ indv ∈ inOrder t indvs, Clean indv := by
    intro indv hindv
    obtain ⟨e, -, content, hcontent, ss, hss, rfl⟩ := hsource indv ((mem_inOrder ht).mp hindv)
    have hfile := (contentOf_eq_some.mp hcontent).2
    exact ((hproper e.2 content hfile).clean ss hss).prepareIndividual fullUrl e.1
  obtain ⟨p', heq, hrecords, hframe, hstored⟩ := storeIndividuals_spec haccepted hcrash isCheck
    hclean (nodup_inOrder (h.nodup List.nodup_nil)) p
  refine ⟨p', heq, fun base => ?_, fun uri hother => ?_,
    fun fname content hprepared hfile ss hss htype => ?_⟩
  · rw [hrecords]
    rcases h.records base with ⟨hsame, hother⟩ | ⟨e, he, content, hcontent, hbase, hrecord⟩
    · refine .inl ⟨hsame, ?_⟩
      rintro _ ⟨e, he, rfl, hsome⟩
      exact hother e he hsome
    · have hfile := (contentOf_eq_some.mp hcontent).2
      exact .inr ⟨e.2, content, ⟨e, he, rfl, hcontent ▸ nofun⟩, hfile, hbase, hrecord⟩
  · rw [hframe uri fun indv hindv => ?_, h.individuals]
    obtain ⟨e, he, content, hcontent, ss, hss, rfl⟩ := hsource indv ((mem_inOrder ht).mp hindv)
    rw [uri_prepareIndividual]
    exact hother e.2 content ⟨e, he, rfl, hcontent ▸ nofun⟩ (contentOf_eq_some.mp hcontent).2 ss hss
  · obtain ⟨e, he, rfl, hsome⟩ := hprepared
    obtain ⟨content', hcontent'⟩ := Option.ne_none_iff_exists'.mp hsome
    cases (contentOf_eq_some.mp hcontent').2.symm.trans hfile
    obtain ⟨indv, hindv, huri⟩ := h.complete e he content hcontent' ss hss htype
    obtain ⟨stored, hin, hsame⟩ := hstored indv ((mem_inOrder ht).mpr hindv)
    obtain ⟨e', -, content', hcontent', ss', hss', rfl⟩ := hsource indv hindv
    rw [uri_prepareIndividual] at huri
    rw [uri_prepareIndividual, huri] at hin
    exact ⟨e'.2, content', (contentOf_eq_some.mp hcontent').2, ss', hss', huri, stored, hin,
      hsame.agrees⟩

/-- A call without a refused store. -/
theorem effect_processed [DecidableEq η] (hproper : ∀ fname content, files fname = some content →
      Proper content) {t : Tables} (ht : t.InRange) (haccepted : ∀ i, c.accepted i = true)
    (hcrash : c.crash = none ∨ c.crash = some 0) (changes : List String) (isCheck : Bool)
    (s : Store η) :
    ∃ prepared, Effect md5 files prepared s
        (processed md5 fullUrl files c changes isCheck t s).1 ∧
      ∀ t', (processed md5 fullUrl files c changes isCheck t s).2 = some t' → t'.InRange := by
  unfold processed
  split
  next => exact ⟨_, .refl s, fun t' h => Option.some.inj h ▸ ht⟩
  next => exact ⟨_, .refl s, fun t' h => Option.some.inj h ▸ ht⟩
  next toLoad _ _ =>
    have ht := ht.foldl hproper toLoad
    dsimp only
    generalize toLoad.foldl (fun t fname => t.load fname ((files fname).getD [])) t = t at ht ⊢
    have hrest (rest : List (String × String)) :
      Tables.InRange { t with filename2prefix := rest } := ht
    generalize rounds t (List.range 100) t.filename2prefix = entries
    generalize remaining t (List.range 100) t.filename2prefix = rest
    rcases hcrash with hcrash | hcrash
    · obtain ⟨p, indvs, heq, h⟩ :=
        @preparedLists _ md5 fullUrl files c toLoad haccepted hcrash entries [] ⟨s, 0⟩
      obtain ⟨p', heq', heffect⟩ := effect_storeIndividuals hproper ht haccepted hcrash isCheck h
      rw [heq]
      dsimp only
      rw [heq']
      exact ⟨_, heffect, fun t' h => Option.some.inj h ▸ hrest rest⟩
    · rcases @prepareLists_crash _ md5 fullUrl files c toLoad hcrash entries [] ⟨s, 0⟩ rfl with
        heq | heq
      · rw [heq]
        exact ⟨_, .refl s, nofun⟩
      · have hnone : inOrder t [] = [] := by
          rw [List.eq_nil_iff_forall_not_mem]
          exact fun indv hindv => List.not_mem_nil ((mem_inOrder ht).mp hindv)
        rw [heq]
        dsimp only
        rw [hnone]
        exact ⟨_, .refl s, fun t' h => Option.some.inj h ▸ hrest rest⟩

end

/-! ## The invariant -/

section
variable {md5 : Content → η} {fullUrl : String → String} {owner : String → Option String}
  {r : Reader η}

/-- A record is the one of a content whose own individuals are stored. -/
def HasContent (md5 : Content → η) (owner : String → Option String)
    (individuals : String → Option Individual) (base : String) (hash : η) : Prop :=
  ∃ fname content, baseName fname = base ∧ md5 content = hash ∧
    (∀ ss ∈ content, owner ss.uri = some fname ∨ owner ss.uri = none) ∧
    ∀ ss ∈ content, ss.get "rdf:type" ≠ [] → owner ss.uri = some fname →
      ∃ stored, individuals ss.uri = some stored ∧ Agrees ss stored

structure Inv (md5 : Content → η) (owner : String → Option String) (r : Reader η) : Prop where
  owned : Owned owner r.files
  proper : ∀ fname content, r.files fname = some content → Proper content
  inRange : r.tables.InRange
  records : ∀ base hash, r.store.records base = some hash →
    HasContent md5 owner r.store.individuals base hash

theorem inRange_init : Tables.init.InRange := nofun

theorem Inv.init (individuals : String → Option Individual) :
    Inv md5 owner (Reader.init individuals) :=
  ⟨nofun, nofun, inRange_init, nofun⟩

/-- An individual of an owner is in no other file. -/
theorem Owned.eq {files : String → Option Content} (h : Owned owner files)
    {fname other : String} {content : Content} {ss : Individual}
    (hfile : files other = some content) (hss : ss ∈ content)
    (howner : owner ss.uri = some fname) : other = fname := by
  rcases h other content ss hfile hss with hother | ⟨hnone, -⟩
  · exact Option.some.inj (hother.symm.trans howner)
  · exact absurd (hnone.symm.trans howner) nofun

/-- After a call every record is that of a content whose own individuals are stored. -/
theorem Inv.effect (h : Inv md5 owner r) {prepared : String → Prop} {store : Store η}
    (heffect : Effect md5 r.files prepared r.store store) {base : String} {hash : η}
    (hrecord : store.records base = some hash) :
    HasContent md5 owner store.individuals base hash := by
  rcases heffect.records base with ⟨hsame, hother⟩ | ⟨fname, content, hprepared, hfile, hbase, hnew⟩
  · obtain ⟨fname, content, hbase, hhash, howner, hstored⟩ :=
      h.records base hash (hsame.symm.trans hrecord)
    refine ⟨fname, content, hbase, hhash, howner, fun ss hss htype hown => ?_⟩
    rw [heffect.frame ss.uri]
    · exact hstored ss hss htype hown
    · -- the individual is in no file that was prepared, as its own file was not
      intro other content' hprepared hfile ss' hss' huri
      obtain rfl := h.owned.eq hfile hss' (huri ▸ hown)
      exact hother other hprepared hbase
  · refine ⟨fname, content, hbase, Option.some.inj (hnew.symm.trans hrecord),
      fun ss hss => (h.owned fname content ss hfile hss).imp_right And.left,
      fun ss hss htype hown => ?_⟩
    obtain ⟨other, content', hfile', ss', hss', huri, hstored⟩ :=
      heffect.stored fname content hprepared hfile ss hss htype
    obtain rfl := h.owned.eq hfile' hss' (huri ▸ hown)
    cases hfile.symm.trans hfile'
    obtain rfl := List.inj_on_of_nodup_map (h.proper other content hfile).uris hss' hss huri
    exact hstored

theorem Inv.step [DecidableEq η] (h : Inv md5 owner r) (e : FileEvent)
    (he : Undisturbed owner e r) : Inv md5 owner (Reader.step md5 fullUrl e r) := by
  cases e with
  | change fname content =>
    obtain ⟨hproper, howned⟩ := he
    refine ⟨howned, fun fname' content' hfile => ?_, h.inRange, h.records⟩
    simp only [Reader.step, Function.update_apply] at hfile
    split at hfile
    next => exact hproper content' hfile
    next => exact h.proper fname' content' hfile
  | processed changes isCheck course =>
    obtain ⟨haccepted, hcrash⟩ := he
    obtain ⟨prepared, heffect, htables⟩ := @effect_processed _ md5 fullUrl _ _ _ h.proper _
      h.inRange haccepted hcrash changes isCheck r.store
    refine ⟨h.owned, h.proper, ?_, fun _ _ hrecord => h.effect heffect hrecord⟩
    simp only [Reader.step]
    cases htable : (processed md5 fullUrl r.files course changes isCheck r.tables r.store).2 with
    | none => exact inRange_init
    | some t => exact htables t htable
  | restart => exact ⟨h.owned, h.proper, inRange_init, h.records⟩

theorem Inv.recordedLoaded (hmd5 : Function.Injective md5) (h : Inv md5 owner r) :
    RecordedLoaded md5 r := by
  intro fname content hfile hrecord ss hss htype honly
  obtain ⟨fname', content', -, hhash, howner, hstored⟩ := h.records _ _ hrecord
  obtain rfl := hmd5 hhash
  have hown : owner ss.uri = some fname :=
    (h.owned fname content' ss hfile hss).resolve_right fun hnone => hnone.2 honly
  rcases howner ss hss with hown' | hnone
  · obtain rfl := Option.some.inj (hown.symm.trans hown')
    exact hstored ss hss htype hown
  · exact absurd (hown.symm.trans hnone) nofun

end

/-- A file with an ontology and a class of it. -/
def person : Content :=
  [⟨"v-s:", [⟨"rdf:type", [.uri "owl:Ontology"]⟩].toAList⟩,
    ⟨"v-s:Person", [⟨"rdf:type", [.uri "owl:Class"]⟩].toAList⟩]

theorem proper_person : Proper person := ⟨by decide, by decide, by decide⟩

def personOwner (uri : String) : Option String :=
  if uri = "v-s:" ∨ uri = "v-s:Person" then some "ontology/person.ttl" else none

theorem owned_person :
    Owned personOwner (Function.update (fun _ => none) "ontology/person.ttl" (some person)) := by
  intro fname content ss hfile hss
  rw [Function.update_apply] at hfile
  split at hfile
  next hfname =>
    obtain rfl := Option.some.inj hfile
    rw [hfname]
    exact .inl ((by decide : ∀ ss ∈ person, personOwner ss.uri = some "ontology/person.ttl") ss hss)
  next => exact absurd hfile nofun

/-- The text of a file in place of its hash. -/
def text (content : Content) : List (String × List (Sigma fun _ : String => List Resource)) :=
  content.map fun indv => (indv.uri, indv.resources.entries)

theorem text_injective : Function.Injective text := by
  refine List.map_injective_iff.mpr fun a b h => ?_
  obtain ⟨huri, hentries⟩ := Prod.mk.inj h
  cases a
  cases b
  exact congrArg₂ Individual.mk huri (AList.ext hentries)

/-- A call for the file, with every store accepted. -/
def loadPerson (crash : Option ℕ) : FileEvent :=
  .processed ["ontology/person.ttl"] true ⟨fun _ => true, crash⟩

/-- The file is loaded after the reader was stopped before the first store, and checked again after
a restart. -/
def personLoaded : List FileEvent :=
  [.change "ontology/person.ttl" (some person), loadPerson (some 0), loadPerson none, .restart,
    loadPerson none]

/-- The reader is stopped between the record of the file and its individuals, and started again. -/
def personStopped : List FileEvent :=
  [.change "ontology/person.ttl" (some person), loadPerson (some 1), .restart, loadPerson none]

end Veda.Input.FileReader
