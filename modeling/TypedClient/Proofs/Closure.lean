import TypedClient.Proofs.NamedEnums
import TypedClient.Proofs.Pieces
import TypedClient.Proofs.Registration

namespace TypedClient

open Schema (Converts LinksTo)
open Resolver (Declares Registered Step Steps)

/-!
# Loading what is linked to

Starting from one document, the files that its links name are loaded, then the files that their links
name, and so on.  Which files these are is a matter of the documents alone; here it is shown that a
resolver finds exactly these files, whatever the order in which it meets them.

* `Bundle` — a document and the source of the documents that it is linked to.
* `Bundle.Reachable` — the least set of files that is closed under links.
* `Bundle.Settled` — what holds of a resolver between two files.
* `Bundle.Settled.load`, `Bundle.Settled.loadAll` — it holds after one file and after all of them.
* `Bundle.isClosure_of_describe` — a description is made of the reachable files and of nothing else.
-/

/-- A document, the source of the documents that it is linked to, the place that files are named
    relative to, and the canonical name of the document there. -/
structure Bundle where
  source : Source
  base : String
  entry : String
  document : Value

namespace Bundle

/-! ### What the documents say -/

/-- The document of a file; the one that everything starts from has the empty name. -/
def documentOf (b : Bundle) (file : String) : Except Failure Value :=
  if file = "" then .ok b.document else do b.source.ask (← Locator.join b.base file)

/-- The schemas that a file holds for others to link to. -/
def schemasOf (b : Bundle) (file : String) : Except Failure (List (Value × Value)) := do
  Resolver.schemasOf (← b.documentOf file)

/-- The outlines of the operations. -/
def outlines (b : Bundle) : Except Failure (List Route.Outline) := do
  Route.outlines (← b.document.get "paths")

/-- The operations with the links that their schemas hold. -/
def operations (b : Bundle) : Logged (List Operation) := do
  Route.extract b.entry (← b.document.get "paths")

/-- Where the links of a file stand. -/
def scope (b : Bundle) (file : String) : Link.Scope :=
  ⟨b.entry, file⟩

/-- A file holds a schema under a name. -/
def Defines (b : Bundle) (file name : String) (schema : Value) : Prop :=
  ∃ entries, b.schemasOf file = .ok entries ∧ (.text name, schema) ∈ entries

/-- A schema that is converted when a file is read: one for others to link to, or one of an operation
    of the first document. -/
def Holds (b : Bundle) (file : String) (schema : Value) : Prop :=
  (∃ entries label, b.schemasOf file = .ok entries ∧ (label, schema) ∈ entries)
    ∨ file = "" ∧ ∃ os, b.outlines = .ok os ∧ ∃ o ∈ os, schema ∈ o.schemas

/-- A file links to a key at a place that a conversion goes through. -/
def Mentions (b : Bundle) (file key : String) : Prop :=
  ∃ schema, b.Holds file schema ∧ LinksTo (b.scope file) schema key

/-- The files that can be reached through links: the least set that the first document is in and that
    the files of all links of its files are in. -/
inductive Reachable (b : Bundle) : String → Prop
  | first : Reachable b ""
  | link {file key : String} : Reachable b file → b.Mentions file key →
      Reachable b (Link.fileOf key)

/-- A key that is linked to, but not declared in the file that it names. -/
def Dangling (b : Bundle) (key : String) : Prop :=
  (∃ file, b.Reachable file ∧ b.Mentions file key)
    ∧ ¬ ∃ name schema, b.Defines (Link.fileOf key) name schema
      ∧ key = Link.schemaKey (Link.fileOf key) name

variable {b : Bundle} {file key : String} {entries : List (Value × Value)}

theorem defines_iff (h : b.schemasOf file = .ok entries) {name : String} {schema : Value} :
    b.Defines file name schema ↔ (.text name, schema) ∈ entries := by
  constructor
  · rintro ⟨entries', h', hmem⟩
    rw [h] at h'
    cases h'
    exact hmem
  · exact fun hmem => ⟨entries, h, hmem⟩

/-- A link in a schema for others is a link of the file. -/
theorem mentions_of_mem (h : b.schemasOf file = .ok entries) {label schema : Value}
    (hmem : (label, schema) ∈ entries) (hlink : LinksTo (b.scope file) schema key) :
    b.Mentions file key :=
  ⟨schema, .inl ⟨entries, label, h, hmem⟩, hlink⟩

/-- The links of a file are those of its schemas and, for the first document, of the operations. -/
theorem mentions_iff (h : b.schemasOf file = .ok entries) :
    b.Mentions file key
      ↔ (∃ label schema, (label, schema) ∈ entries ∧ LinksTo (b.scope file) schema key)
        ∨ file = "" ∧ ∃ os, b.outlines = .ok os
          ∧ ∃ o ∈ os, ∃ schema ∈ o.schemas, LinksTo (b.scope "") schema key := by
  constructor
  · rintro ⟨schema, ⟨entries', label, h', hmem⟩ | ⟨rfl, os, hos, o, ho, hmem⟩, hlink⟩
    · rw [h] at h'
      cases h'
      exact .inl ⟨label, schema, hmem, hlink⟩
    · exact .inr ⟨rfl, os, hos, o, ho, schema, hmem, hlink⟩
  · rintro (⟨label, schema, hmem, hlink⟩ | ⟨rfl, os, hos, o, ho, schema, hmem, hlink⟩)
    · exact mentions_of_mem h hmem hlink
    · exact ⟨schema, .inr ⟨rfl, os, hos, o, ho, hmem⟩, hlink⟩

/-! ### Between two files -/

/-- What holds of a resolver between two files: everything in the files that are loaded is declared,
    noted, and nothing else is. -/
structure Settled (b : Bundle) (r : Resolver) : Prop where
  base_eq : r.base = b.base
  entry_eq : r.entry = b.entry
  consistent : r.Consistent
  first_loaded : "" ∈ r.loaded
  /-- Only reachable files are loaded or queued. -/
  reachable : ∀ file, file ∈ r.loaded ∨ file ∈ r.queue → b.Reachable file
  readable : ∀ file ∈ r.loaded, ∃ entries, b.schemasOf file = .ok entries
  mem_keys : ∀ key, key ∈ r.registry.keys ↔ ∃ file ∈ r.loaded, ∃ name schema,
    b.Defines file name schema ∧ key = Link.schemaKey file name
  declared : ∀ key d, (key, d) ∈ r.registry → ∃ file ∈ r.loaded, ∃ name schema,
    b.Defines file name schema ∧ key = Link.schemaKey file name
      ∧ Declares (b.scope file) name schema d
  missing : ∀ key ∈ r.pending, ∃ file ∈ r.loaded, b.Mentions file key
  known : ∀ file ∈ r.loaded, ∀ key, b.Mentions file key → r.Knows key

theorem operations_eq_ok_iff {log : List String} {operations : List Operation} :
    b.operations = ⟨log, .ok operations⟩
      ↔ ∃ os, b.outlines = .ok os ∧ Route.Extracts b.entry os log operations := by
  unfold Bundle.operations outlines
  cases b.document.get "paths" with
  | error e => simp
  | ok paths =>
    rw [Logged.lift_ok_bind, Except.ok_bind]
    exact Route.extract_eq_ok_iff

variable {r r' : Resolver}

/-- What the schemas of a file link to has to be known after they are declared. -/
theorem mentioned_known (hentries : b.schemasOf file = .ok entries)
    (hregistered : Registered r file entries r') (hscope : r.scope file = b.scope file)
    (hne : file ≠ "") (hkey : b.Mentions file key) : r'.Knows key := by
  rcases (mentions_iff hentries).mp hkey with ⟨label, schema, hmem, hlink⟩ | ⟨heq, -⟩
  · exact hregistered.known label schema key hmem (by rwa [hscope])
  · exact absurd heq hne

/-- The schemas of the first document are declared and its operations extracted. -/
theorem settled_first {log : List String} {operations : List Operation}
    (hentries : b.schemasOf "" = .ok entries)
    (hregister : (Resolver.fresh b.base b.entry).registerSchemas "" entries = (.ok (), r))
    (hextract : b.operations = ⟨log, .ok operations⟩) : b.Settled (r.noteLinks log) := by
  have hfresh := Resolver.fresh_consistent b.base b.entry
  have hregistered := Resolver.registerSchemas_eq_ok hfresh hregister
  have hr : r.Consistent := by
    have hsteps := Resolver.steps_registerSchemas (Resolver.fresh b.base b.entry) "" entries
    rw [hregister] at hsteps
    exact (hfresh.steps hsteps).1
  have hscope : (Resolver.fresh b.base b.entry).scope "" = b.scope "" := rfl
  obtain ⟨os, hos, hextracts⟩ := operations_eq_ok_iff.mp hextract
  -- What is noted beyond the schemas is what the operations link to.
  have hlog : ∀ key, key ∈ log ↔ ∃ o ∈ os, ∃ schema ∈ o.schemas, LinksTo (b.scope "") schema key :=
    fun key => hextracts.mem_log_iff_linksTo
  have hloaded : (r.noteLinks log).loaded = [""] := by
    rw [Resolver.loaded_noteLinks, hregistered.loaded_eq]
    rfl
  have hmentions : ∀ key, key ∈ log → b.Mentions "" key := by
    intro key hkey
    exact (mentions_iff hentries).mpr (.inr ⟨rfl, os, hos, (hlog key).mp hkey⟩)
  exact {
    base_eq := by
      rw [Resolver.base_noteLinks, hregistered.base_eq]
      rfl
    entry_eq := by
      rw [Resolver.entry_noteLinks, hregistered.entry_eq]
      rfl
    consistent := (hr.steps (Resolver.steps_noteLinks r log)).1
    first_loaded := by
      rw [hloaded]
      exact List.mem_singleton_self ""
    reachable := by
      rintro file (hfile | hfile)
      · rw [hloaded, List.mem_singleton] at hfile
        rw [hfile]
        exact .first
      · -- A queued file is named by a link of a schema or of an operation.
        rcases Resolver.mem_queue_noteLinks.mp hfile with hfile | ⟨key, hkey, rfl, -⟩
        · rcases hregistered.queued file hfile with hnone | ⟨label, schema, key, hmem, hlink, rfl⟩
          · cases hnone
          · exact .link .first (mentions_of_mem hentries hmem hlink)
        · exact .link .first (hmentions key hkey)
    readable := by
      rw [hloaded]
      intro file hfile
      rw [List.mem_singleton.mp hfile]
      exact ⟨entries, hentries⟩
    mem_keys := by
      intro key
      rw [hloaded, Resolver.registry_noteLinks, hregistered.mem_keys]
      simp only [List.mem_singleton, exists_eq_left, defines_iff hentries]
      exact or_iff_right (by rintro ⟨⟩)
    declared := by
      intro key d hd
      rw [Resolver.registry_noteLinks] at hd
      rw [hloaded]
      simp only [List.mem_singleton, exists_eq_left, defines_iff hentries]
      exact (hregistered.declared key d hd).resolve_left (by rintro ⟨⟩)
    missing := by
      intro key hkey
      rw [hloaded]
      simp only [List.mem_singleton, exists_eq_left]
      rcases Resolver.mem_pending_noteLinks.mp hkey with hkey | ⟨hkey, -⟩
      · rcases hregistered.missing key hkey with hnone | ⟨label, schema, hmem, hlink⟩
        · cases hnone
        · exact mentions_of_mem hentries hmem hlink
      · exact hmentions key hkey
    known := by
      rw [hloaded]
      intro file hfile key hkey
      rw [List.mem_singleton.mp hfile] at hkey
      rw [Resolver.knows_noteLinks]
      rcases (mentions_iff hentries).mp hkey with ⟨label, schema, hmem, hlink⟩ | ⟨-, os', hos', h⟩
      · exact .inl (hregistered.known label schema key hmem hlink)
      · rw [hos] at hos'
        cases hos'
        exact .inr ((hlog key).mpr h) }

/-- A file that is loaded holds schemas, and they are declared. -/
theorem load_eq_ok (hbase : r.base = b.base) (hne : file ≠ "")
    (h : r.load b.source file = (.ok (), r')) :
    ∃ locator entries, Locator.join r.base file = .ok locator ∧ b.schemasOf file = .ok entries
      ∧ ((r.taken file).asking locator).registerSchemas file entries = (.ok (), r') := by
  obtain ⟨locator, document, entries, hjoin, hask, hentries, hregister⟩ := Resolver.load_eq_ok h
  refine ⟨locator, entries, hjoin, ?_, hregister⟩
  rw [schemasOf, documentOf, if_neg hne, ← hbase, hjoin, Except.ok_bind, hask, Except.ok_bind]
  exact hentries

/-- The first document is loaded from the start, so it is never queued. -/
theorem Settled.ne_first (h : b.Settled r) (hfile : file ∈ r.queue) : file ≠ "" := by
  rintro rfl
  exact h.consistent.queue_new "" hfile h.first_loaded

/-- The links of a file that is being loaded are read as its document says. -/
theorem Settled.scope_asking (h : b.Settled r) (locator : String) :
    ((r.taken file).asking locator).scope file = b.scope file := by
  rw [scope, ← h.entry_eq]
  rfl

/-- **One more file.**  Loading the first file of the queue leaves everything settled. -/
theorem Settled.load (h : b.Settled r) {rest : List String} (hqueue : r.queue = file :: rest)
    (hload : r.load b.source file = (.ok (), r')) : b.Settled r' := by
  have hfile : file ∈ r.queue := by
    rw [hqueue]
    exact List.mem_cons_self
  have hne := h.ne_first hfile
  obtain ⟨locator, entries, hjoin, hentries, hregister⟩ := load_eq_ok h.base_eq hne hload
  have hasking := h.consistent.asking hfile hjoin
  have hregistered := Resolver.registerSchemas_eq_ok hasking hregister
  have hscope : ((r.taken file).asking locator).scope file = b.scope file := h.scope_asking locator
  have hloaded : ∀ other, other ∈ r'.loaded ↔ other ∈ r.loaded ∨ other = file := by
    intro other
    rw [hregistered.loaded_eq]
    exact Resolver.mem_loaded_taken
  have hreachable : b.Reachable file := h.reachable file (.inr hfile)
  -- Nothing is forgotten, so links of the files before are still known.
  obtain ⟨hconsistent, hmono⟩ : r'.Consistent ∧ ∀ key, r.Knows key → r'.Knows key := by
    have hsteps := Resolver.steps_load b.source r hfile
    rw [hload] at hsteps
    exact h.consistent.steps hsteps
  exact {
    base_eq := hregistered.base_eq.trans h.base_eq
    entry_eq := hregistered.entry_eq.trans h.entry_eq
    consistent := hconsistent
    first_loaded := (hloaded "").mpr (.inl h.first_loaded)
    reachable := by
      rintro other (hother | hother)
      · rcases (hloaded other).mp hother with hother | rfl
        · exact h.reachable other (.inl hother)
        · exact hreachable
      · rcases hregistered.queued other hother with hother | ⟨label, schema, key, hmem, hlink, rfl⟩
        · exact h.reachable other (.inr (List.mem_of_mem_erase hother))
        · rw [hscope] at hlink
          exact .link hreachable (mentions_of_mem hentries hmem hlink)
    readable := by
      intro other hother
      rcases (hloaded other).mp hother with hother | rfl
      · exact h.readable other hother
      · exact ⟨entries, hentries⟩
    mem_keys := by
      intro key
      rw [hregistered.mem_keys]
      constructor
      · rintro (hkey | ⟨name, schema, hmem, rfl⟩)
        · obtain ⟨other, hother, hdefines⟩ := (h.mem_keys key).mp hkey
          exact ⟨other, (hloaded other).mpr (.inl hother), hdefines⟩
        · exact ⟨file, (hloaded file).mpr (.inr rfl), name, schema, (defines_iff hentries).mpr hmem, rfl⟩
      · rintro ⟨other, hother, name, schema, hdefines, rfl⟩
        rcases (hloaded other).mp hother with hother | rfl
        · exact .inl ((h.mem_keys _).mpr ⟨other, hother, name, schema, hdefines, rfl⟩)
        · exact .inr ⟨name, schema, (defines_iff hentries).mp hdefines, rfl⟩
    declared := by
      intro key d hd
      rcases hregistered.declared key d hd with hd | ⟨name, schema, hmem, hkey, hd⟩
      · obtain ⟨other, hother, hdeclares⟩ := h.declared key d hd
        exact ⟨other, (hloaded other).mpr (.inl hother), hdeclares⟩
      · rw [hscope] at hd
        exact ⟨file, (hloaded file).mpr (.inr rfl), name, schema, (defines_iff hentries).mpr hmem, hkey,
          hd⟩
    missing := by
      intro key hkey
      rcases hregistered.missing key hkey with hkey | ⟨label, schema, hmem, hlink⟩
      · obtain ⟨other, hother, hmentions⟩ := h.missing key hkey
        exact ⟨other, (hloaded other).mpr (.inl hother), hmentions⟩
      · rw [hscope] at hlink
        exact ⟨file, (hloaded file).mpr (.inr rfl), mentions_of_mem hentries hmem hlink⟩
    known := by
      intro other hother key hkey
      rcases (hloaded other).mp hother with hother | rfl
      · exact hmono key (h.known other hother key hkey)
      · exact mentioned_known hentries hregistered hscope hne hkey }

/-- Loading files until the queue is empty leaves everything settled. -/
theorem Settled.loadAll (h : b.Settled r) {fuel : Nat}
    (hload : r.loadAll b.source fuel = (.ok (), r')) : b.Settled r' ∧ r'.queue = [] := by
  induction fuel generalizing r with
  | zero =>
    unfold Resolver.loadAll at hload
    split at hload
    · next hqueue =>
      cases hload
      exact ⟨h, hqueue⟩
    · cases hload
  | succ fuel ih =>
    unfold Resolver.loadAll at hload
    split at hload
    · next hqueue =>
      cases hload
      exact ⟨h, hqueue⟩
    · next file rest hqueue =>
      simp only at hload
      split at hload
      · next r₁ hfirst => exact ih (h.load hqueue hfirst) hload
      · cases hload

/-- What stands before the first number sign of a key is its file. -/
theorem fileOf_append (h : '#' ∉ file.toList) (pointer : String) :
    Link.fileOf (file ++ "#" ++ pointer) = file := by
  have hall : ∀ c ∈ file.toList, (c != '#') = true := by
    intro c hc
    rw [bne_iff_ne]
    rintro rfl
    exact h hc
  have hkey : (file ++ "#" ++ pointer).toList = file.toList ++ '#' :: pointer.toList := by
    simp [String.toList_append]
  rw [Link.fileOf, hkey, Text.before, List.takeWhile_append_of_pos hall, List.takeWhile_cons_of_neg
    (by decide), List.append_nil, String.ofList_toList]

/-- The file of the key of a schema is the one that holds the schema. -/
theorem fileOf_schemaKey (h : '#' ∉ file.toList) (name : String) :
    Link.fileOf (Link.schemaKey file name) = file := by
  rw [Link.schemaKey, String.append_assoc, fileOf_append h]

/-- Different schemas have different keys. -/
theorem schemaKey_inj {other name name' : String} (h : '#' ∉ file.toList) (h' : '#' ∉ other.toList)
    (heq : Link.schemaKey file name = Link.schemaKey other name') : file = other ∧ name = name' := by
  have hfile : file = other := by
    rw [← fileOf_schemaKey h name, heq, fileOf_schemaKey h']
  subst hfile
  refine ⟨rfl, ?_⟩
  -- After the same file, the rest of the key is the name.
  simpa [Link.schemaKey] using heq

/-- The file of a key has no number sign in its name. -/
theorem notMem_fileOf (key : String) : '#' ∉ (Link.fileOf key).toList := by
  rw [Link.fileOf, String.toList_ofList]
  exact Text.notMem_before '#' key.toList

/-- The name of a reachable file has no number sign in it. -/
theorem Reachable.notMem (h : b.Reachable file) : '#' ∉ file.toList := by
  cases h with
  | first => decide
  | @link _ key => exact notMem_fileOf key

/-- The declaration of a schema is found under its key, if its file holds no second schema of its name. -/
theorem Settled.get?_eq (h : b.Settled r) (hfile : file ∈ r.loaded) (hentries : b.schemasOf file = .ok entries)
    (hnodup : (entries.map (·.1)).Nodup) {name : String} {schema : Value}
    (hmem : (.text name, schema) ∈ entries) {log : List String} {type : ClientType}
    (hconverts : Converts (b.scope file) schema log type) :
    r.registry.get? (Link.schemaKey file name)
      = some ⟨Naming.normalize name, Link.schemaKey file name, type⟩ := by
  have hkey : Link.schemaKey file name ∈ r.registry.keys :=
    (h.mem_keys _).mpr ⟨file, hfile, name, schema, ⟨entries, hentries, hmem⟩, rfl⟩
  obtain ⟨d, hd⟩ := Table.mem_keys_iff.mp hkey
  obtain ⟨other, hother, name', schema', hdefines, hkeys, hdeclares⟩ := h.declared _ d hd
  -- The key tells the file and the name, and these tell the schema.
  obtain ⟨rfl, rfl⟩ := schemaKey_inj (h.reachable file (.inl hfile)).notMem
    (h.reachable other (.inl hother)).notMem hkeys
  have hschema : schema = schema' := by
    have heq := List.inj_on_of_nodup_map hnodup hmem ((defines_iff hentries).mp hdefines) rfl
    exact congrArg Prod.snd heq
  subst hschema
  obtain ⟨log', hconverts'⟩ := hdeclares.converts
  have htype : type = d.type := by
    have heq := hconverts.convert_eq.symm.trans hconverts'.convert_eq
    cases heq
    rfl
  rw [Table.get?_eq_some_iff_mem h.consistent.declared_once, htype]
  have hd' : d = ⟨Naming.normalize name, Link.schemaKey file name, d.type⟩ := by
    rw [← hdeclares.name_eq]
    exact congrArg (Declaration.mk d.name · d.type) hdeclares.key_eq
  rwa [← hd']

/-- When the queue is empty and nothing is missing, the loaded files are the reachable ones. -/
theorem Settled.mem_loaded_iff (h : b.Settled r) (hqueue : r.queue = []) :
    file ∈ r.loaded ↔ b.Reachable file := by
  refine ⟨fun hfile => h.reachable file (.inl hfile), fun hfile => ?_⟩
  induction hfile with
  | first => exact h.first_loaded
  | @link file key _ hmentions ih =>
    -- A key that is declared has its file loaded; one that is missing has it loaded or queued.
    rcases h.known file ih key hmentions with hkey | hkey
    · obtain ⟨other, hother, name, schema, -, rfl⟩ := (h.mem_keys key).mp hkey
      rwa [fileOf_schemaKey (h.reachable other (.inl hother)).notMem]
    · have hloaded := h.consistent.missing_file key hkey
      rw [hqueue] at hloaded
      exact hloaded.resolve_right (by simp)

/-! ### A description -/

/-- What the documents of a bundle describe, and the resolver that has read them. -/
def describe (b : Bundle) (namedEnums : Bool) : Except Failure Description × Resolver :=
  (Resolver.fresh b.base b.entry).describe b.source namedEnums b.document

theorem andThen_eq_ok {α β : Type} {step : Except Failure α × Resolver}
    {next : α → Resolver → Except Failure β × Resolver} {result : β} :
    Resolver.andThen step next = (.ok result, r')
      ↔ ∃ a r, step = (.ok a, r) ∧ next a r = (.ok result, r') := by
  obtain ⟨first, r⟩ := step
  cases first with
  | error e => simp [Resolver.andThen]
  | ok a => simp [Resolver.andThen]

/-- Everything is resolved if the queue can be loaded and nothing is missing afterwards. -/
theorem resolve_eq_ok {source : Source} :
    r.resolve source = (.ok (), r')
      ↔ r.loadAll source (source.reach + r.queue.length) = (.ok (), r') ∧ r'.pending = [] := by
  unfold Resolver.resolve
  obtain ⟨result, r₁⟩ := r.loadAll source (source.reach + r.queue.length)
  cases result with
  | error e => simp
  | ok _ =>
    -- What is reported is what is pending, in order.
    have hmissing : r₁.missing = [] ↔ r₁.pending = [] := by
      rw [← List.length_eq_zero_iff, Resolver.missing, List.length_mergeSort, List.length_eq_zero_iff]
    simp only
    split
    · next hnil =>
      constructor
      · intro h
        cases h
        exact ⟨rfl, hmissing.mp hnil⟩
      · rintro ⟨h, -⟩
        cases h
        rfl
    · next key rest hcons =>
      constructor
      · intro h
        cases h
      · rintro ⟨h, hnil⟩
        cases h
        rw [hmissing.mpr hnil] at hcons
        cases hcons

theorem run_eq_ok {α : Type} {x : Logged α} {a : α} :
    r.run x = (.ok a, r') ↔ ∃ log, x = ⟨log, .ok a⟩ ∧ r' = r.noteLinks log := by
  obtain ⟨log, result⟩ := x
  constructor
  · intro h
    simp only [Resolver.run, Prod.mk.injEq] at h
    obtain ⟨rfl, rfl⟩ := h
    exact ⟨log, rfl, rfl⟩
  · rintro ⟨log, h, rfl⟩
    cases h
    rfl

/-- The schemas of the first document are declared before its operations are extracted. -/
theorem register_first_eq_ok :
    (Resolver.fresh b.base b.entry).register "" b.document = (.ok (), r)
      ↔ ∃ entries, b.schemasOf "" = .ok entries
        ∧ (Resolver.fresh b.base b.entry).registerSchemas "" entries = (.ok (), r) := by
  have hdocument : b.schemasOf "" = Resolver.schemasOf b.document := by
    rw [schemasOf, documentOf, if_pos rfl, Except.ok_bind]
  rw [hdocument]
  unfold Resolver.register
  cases Resolver.schemasOf b.document with
  | error e => simp
  | ok entries => simp

/-- The first document is read: its schemas are declared and its operations extracted. -/
def Reads (b : Bundle) (operations : List Operation) (r : Resolver) : Prop :=
  ∃ r₁, (Resolver.fresh b.base b.entry).register "" b.document = (.ok (), r₁)
    ∧ r₁.run b.operations = (.ok operations, r)

/-- A document is read if its schemas are registered and the operations of its paths are extracted. -/
theorem reads_of_extract {paths : Value} {log : List String} {operations : List Operation}
    (hregister : (Resolver.fresh b.base b.entry).register "" b.document = (.ok (), r))
    (hpaths : b.document.get "paths" = .ok paths)
    (hextract : Route.extract b.entry paths = ⟨log, .ok operations⟩) (hnoted : r.noteLinks log = r') :
    b.Reads operations r' := by
  refine ⟨r, hregister, run_eq_ok.mpr ⟨log, ?_, hnoted.symm⟩⟩
  rw [Bundle.operations, hpaths, Logged.lift_ok_bind]
  exact hextract

/-- After the first document is read, everything is settled. -/
theorem Reads.settled {operations : List Operation} (h : b.Reads operations r) : b.Settled r := by
  obtain ⟨r₁, hregister, hrun⟩ := h
  obtain ⟨entries, hentries, hregister⟩ := register_first_eq_ok.mp hregister
  obtain ⟨log, hextract, rfl⟩ := run_eq_ok.mp hrun
  exact settled_first hentries hregister hextract

/-- A description is what has been loaded, with names for the enums if they are to have names. -/
theorem describe_eq_ok {namedEnums : Bool} {d : Description} :
    b.describe namedEnums = (.ok d, r')
      ↔ ∃ operations r₀ r, b.Reads operations r₀ ∧ r₀.resolve b.source = (.ok (), r)
        ∧ r.checkUniqueNames = .ok ()
        ∧ (if namedEnums then
            ∃ enums, (r.nameEnums operations).1 = .ok enums
              ∧ d = ⟨r'.registry, (r.nameEnums operations).2.2, enums⟩
              ∧ r' = (r.nameEnums operations).2.1
          else d = ⟨r.registry, operations, []⟩ ∧ r' = r) := by
  -- The operations are extracted under the entry that the resolver was made with.
  have hentry : ∀ {r₁ : Resolver},
      (Resolver.fresh b.base b.entry).register "" b.document = (.ok (), r₁) → r₁.entry = b.entry := by
    intro r₁ h
    obtain ⟨entries, -, h⟩ := register_first_eq_ok.mp h
    exact (Resolver.registerSchemas_eq_ok (Resolver.fresh_consistent b.base b.entry) h).entry_eq
  unfold describe Resolver.describe
  simp only [andThen_eq_ok]
  constructor
  · rintro ⟨⟨⟩, r₁, hregister, operations, r₀, hrun, ⟨⟩, r, hresolve, ⟨⟩, _, hcheck, h⟩
    rw [hentry hregister] at hrun
    obtain ⟨hunique, rfl⟩ := Prod.mk.inj hcheck
    refine ⟨operations, r₀, r, ⟨r₁, hregister, hrun⟩, hresolve, hunique, ?_⟩
    cases namedEnums with
    | false =>
      cases h
      exact ⟨rfl, rfl⟩
    | true =>
      obtain ⟨hnamed, rfl⟩ := Prod.mk.inj h
      obtain ⟨enums, henums, rfl⟩ := Except.map_eq_ok.mp hnamed
      exact ⟨enums, henums, rfl, rfl⟩
  · rintro ⟨operations, r₀, r, ⟨r₁, hregister, hrun⟩, hresolve, hcheck, h⟩
    refine ⟨(), r₁, hregister, operations, r₀, ?_, (), r, hresolve, (), r, ?_, ?_⟩
    · rw [hentry hregister]
      exact hrun
    · rw [hcheck]
    · cases namedEnums with
      | false =>
        obtain ⟨rfl, rfl⟩ := h
        rfl
      | true =>
        obtain ⟨enums, henums, rfl, rfl⟩ := h
        exact Prod.ext (Except.map_eq_ok.mpr ⟨enums, henums, rfl⟩) rfl

/-- Names for enums change nothing else in the declarations. -/
theorem map_unnamed_nameEnums (r : Resolver) (operations : List Operation)
    {enums : Table String (List String)} (h : (r.nameEnums operations).1 = .ok enums) :
    ((r.nameEnums operations).2.1.registry.map fun (key, d) => (key, d.unnamed))
      = r.registry.map fun (key, d) => (key, d.unnamed) := by
  cases hresolve : (EnumNaming.start r.registry operations).resolve with
  | mk result named =>
    simp only [Resolver.nameEnums, hresolve] at h ⊢
    subst h
    obtain ⟨names, -, -, rfl⟩ := EnumNaming.resolve_eq_ok hresolve
    simp only [EnumNaming.apply, EnumNaming.start, List.map_map, Function.comp_def,
      EnumNaming.unnamed_applyToDeclaration, EnumNaming.unnamed_nameDeclared]

/-- What a description is made of. -/
structure IsClosure (b : Bundle) (d : Description) (r : Resolver) : Prop where
  registry_eq : d.registry = r.registry
  /-- The loaded files are the reachable ones. -/
  mem_loaded_iff : ∀ file, file ∈ r.loaded ↔ b.Reachable file
  /-- The keys are those of the schemas of the reachable files. -/
  mem_keys_iff : ∀ key, key ∈ d.registry.keys ↔ ∃ file name schema,
    b.Reachable file ∧ b.Defines file name schema ∧ key = Link.schemaKey file name
  /-- The types are what the schemas are converted to, but for the names of enums. -/
  converted : ∀ key x, (key, x) ∈ d.registry → ∃ file name schema log type,
    b.Reachable file ∧ b.Defines file name schema ∧ key = Link.schemaKey file name
      ∧ x.name = Naming.normalize name
      ∧ Schema.convert (b.scope file) schema = ⟨log, .ok type⟩ ∧ x.type.unnamed = type

/-- What has been loaded when nothing is left to load. -/
theorem Settled.isClosure (h : b.Settled r) (hqueue : r.queue = []) {d : Description}
    (hloaded : r'.loaded = r.loaded) (hregistry : d.registry = r'.registry)
    (hunnamed : (d.registry.map fun (key, x) => (key, x.unnamed))
      = r.registry.map fun (key, x) => (key, x.unnamed)) : b.IsClosure d r' where
  registry_eq := hregistry
  mem_loaded_iff file := by
    rw [hloaded]
    exact h.mem_loaded_iff hqueue
  mem_keys_iff key := by
    have hkeys : d.registry.keys = r.registry.keys := by
      have := congrArg (List.map Prod.fst) hunnamed
      simpa [Table.keys, Function.comp_def] using this
    rw [hkeys, h.mem_keys]
    constructor
    · rintro ⟨file, hfile, name, schema, hdefines, hkey⟩
      exact ⟨file, name, schema, (h.mem_loaded_iff hqueue).mp hfile, hdefines, hkey⟩
    · rintro ⟨file, name, schema, hfile, hdefines, hkey⟩
      exact ⟨file, (h.mem_loaded_iff hqueue).mpr hfile, name, schema, hdefines, hkey⟩
  converted key x hx := by
    -- Without the names of enums, the declaration is one that the resolver has converted.
    have hmem : (key, x.unnamed) ∈ r.registry.map fun (key, x) => (key, x.unnamed) := by
      rw [← hunnamed]
      exact List.mem_map_of_mem hx
    obtain ⟨⟨key', y⟩, hy, heq⟩ := List.mem_map.mp hmem
    obtain ⟨rfl, hxy⟩ := Prod.mk.inj heq
    obtain ⟨file, hfile, name, schema, hdefines, hkey, hdeclares⟩ := h.declared key' y hy
    obtain ⟨log, hconverts⟩ := hdeclares.converts
    have hname : x.name = y.name := (congrArg Declaration.name hxy).symm
    have htype : x.type.unnamed = y.type.unnamed := (congrArg Declaration.type hxy).symm
    refine ⟨file, name, schema, log, y.type, (h.mem_loaded_iff hqueue).mp hfile, hdefines, hkey,
      hname.trans hdeclares.name_eq, hconverts.convert_eq, ?_⟩
    rw [htype, hconverts.unnamed_eq]

/-- **A description is made of the reachable files and of nothing else.** -/
theorem isClosure_of_describe {namedEnums : Bool} {d : Description}
    (h : b.describe namedEnums = (.ok d, r')) : b.IsClosure d r' := by
  obtain ⟨operations, r₀, r, hreads, hresolve, -, hnamed⟩ := describe_eq_ok.mp h
  obtain ⟨hsettled, hqueue⟩ := hreads.settled.loadAll (resolve_eq_ok.mp hresolve).1
  cases namedEnums with
  | false =>
    obtain ⟨rfl, rfl⟩ := hnamed
    exact hsettled.isClosure hqueue rfl rfl rfl
  | true =>
    obtain ⟨enums, henums, rfl, rfl⟩ := hnamed
    exact hsettled.isClosure hqueue rfl rfl (map_unnamed_nameEnums r operations henums)

end Bundle

end TypedClient
