import TypedClient.Loading
import TypedClient.Proofs.Emission
import TypedClient.Proofs.Resolution

namespace TypedClient

open Schema (Conversion Converts LinksTo Move Relinked)

/-!
# Schemas spread over files

The schemas of one document can be spread over several files, in any order, if the links are written so
that they denote the same schemas as before.  The client that is generated stays the same, to the last
character.

* `Outline.Moves` — an operation, and one that says the same after a move.
* `Bundle.Layout` — the schemas of the first document of one bundle spread over the files of another.
* `Bundle.Layout.describe_eq_ok` — both have the same description, but for keys and order.
* `Bundle.Layout.keeps_client` — both have the same client.
-/

/-! ### Operations -/

namespace Route

/-- The second outline is the first one, with schemas that say the same after a move. -/
structure Outline.Moves (m : Move) (o o' : Outline) : Prop where
  method_eq : o'.method = o.method
  route_eq : o'.route = o.route
  parameters_eq : o'.parameters = o.parameters
  body : Option.Rel (Relinked m) o.body o'.body
  result : Option.Rel (Relinked m) o.result o'.result

variable {m : Move} {entry entry' : String}

/-- The schemas of an outline come from the schemas of the other one. -/
theorem Outline.Moves.exists_schema {o o' : Outline} (h : o.Moves m o') {schema' : Value}
    (hmem : schema' ∈ o'.schemas) : ∃ schema ∈ o.schemas, Relinked m schema schema' := by
  obtain ⟨_, _, _, body, result⟩ := o
  obtain ⟨_, _, _, body', result'⟩ := o'
  simp only [Outline.schemas, List.mem_append, Option.mem_toList] at hmem ⊢
  rcases hmem with hmem | hmem
  · cases hmem
    cases h.body with
    | some hrel => exact ⟨_, .inl rfl, hrel⟩
  · cases hmem
    cases h.result with
    | some hrel => exact ⟨_, .inr rfl, hrel⟩

/-- The conversion of a schema that takes the place of another. -/
theorem exists_conversion {c : Option Conversion} {schema' : Option Value}
    (h : Option.Rel (Relinked m) (c.map (·.schema)) schema')
    (hconverts : ∀ x ∈ c.toList, Converts m.origin x.schema x.log x.type) :
    ∃ c' : Option Conversion, c'.map (·.schema) = schema'
      ∧ (∀ x ∈ c'.toList, Converts m.target x.schema x.log x.type)
      ∧ c'.toList.flatMap (·.log) = (c.toList.flatMap (·.log)).map m.key
      ∧ c'.map (·.type) = (c.map (·.type)).map (.rename m.key) := by
  cases c with
  | none =>
    cases h
    exact ⟨none, rfl, nofun, rfl, rfl⟩
  | some x =>
    cases h with
    | @some _ schema' hrel =>
      have hx := hrel.preserves _ _ (hconverts x (by simp))
      exact ⟨some ⟨schema', x.log.map m.key, x.type.rename m.key⟩, rfl, by simpa using hx, by simp, rfl⟩

/-- What is sent is renamed with the type of the body. -/
theorem sentAs_rename (key : String → String) (type : ClientType) :
    sentAs (type.rename key)
      = ((sentAs type).1.map (.rename key), (sentAs type).2.map (.rename key)) := by
  cases type with
  | object fields =>
    rw [ClientType.rename_object, sentAs, sentAs, List.map_map, List.map_map]
    rfl
  | union => simp [sentAs]
  | _ => rfl

theorem Extraction.sent_rename {key : String → String} {body body' : Option Conversion}
    (h : body'.map (·.type) = (body.map (·.type)).map (.rename key)) :
    Extraction.sent body'
      = ((Extraction.sent body).1.map (.rename key), (Extraction.sent body).2.map (.rename key)) := by
  cases body with
  | none =>
    rw [Option.map_eq_none_iff.mp h]
    rfl
  | some c =>
    obtain ⟨c', rfl, hc'⟩ := Option.map_eq_some_iff.mp h
    simp only [Extraction.sent, hc', sentAs_rename]

theorem Extraction.received_rename {key : String → String} {result result' : Option Conversion}
    (h : result'.map (·.type) = (result.map (·.type)).map (.rename key)) :
    Extraction.received result' = (Extraction.received result).rename key := by
  cases result with
  | none =>
    rw [Option.map_eq_none_iff.mp h]
    rfl
  | some c =>
    obtain ⟨c', rfl, hc'⟩ := Option.map_eq_some_iff.mp h
    exact hc'

/-- An operation whose schemas are converted, after a move. -/
theorem Extraction.exists_moved {x : Extraction} {o' : Outline} (hmoves : x.outline.Moves m o')
    (horigin : m.origin = scopeOf entry) (htarget : m.target = scopeOf entry') (hholds : x.Holds entry)
    (htexts : ∀ p ∈ x.parameters, p.type = .string) :
    ∃ x' : Extraction, x'.outline = o' ∧ x'.Holds entry' ∧ x'.log = x.log.map m.key
      ∧ x'.operation = x.operation.rename m.key := by
  rw [Extraction.Holds, ← horigin, Extraction.conversions, List.forall_mem_append] at hholds
  obtain ⟨body, hbody, hsent, hsentLog, hsentType⟩ := exists_conversion hmoves.body hholds.1
  obtain ⟨result, hresult, hreceived, hreceivedLog, hreceivedType⟩ :=
    exists_conversion hmoves.result hholds.2
  refine ⟨⟨x.method, x.route, x.parameters, body, result⟩, ?_, ?_, ?_, ?_⟩
  · obtain ⟨method', route', parameters', body', result'⟩ := o'
    obtain ⟨rfl, rfl, rfl, -, -⟩ := hmoves
    simp only [Extraction.outline, hbody, hresult]
  · rw [Extraction.Holds, ← htarget, Extraction.conversions, List.forall_mem_append]
    exact ⟨hsent, hreceived⟩
  · simp only [Extraction.log, Extraction.conversions, List.flatMap_append, List.map_append, hsentLog,
      hreceivedLog]
  · -- The parameters of the route and the query are texts and have no keys in them.
    have hparameters : x.parameters.map (Parameter.rename m.key) = x.parameters := by
      refine (List.map_congr_left fun p hp => ?_).trans (List.map_id _)
      rw [Parameter.rename, htexts p hp, ClientType.rename_string, ← htexts p hp, id]
    simp only [Extraction.operation, Operation.rename, List.map_append, hparameters,
      Extraction.sent_rename hsentType, Extraction.received_rename hreceivedType]

/-- All operations after a move. -/
theorem Extracts.moved {os os' : List Outline} {log : List String} {operations : List Operation}
    (hmoves : List.Forall₂ (Outline.Moves m) os os') (horigin : m.origin = scopeOf entry)
    (htarget : m.target = scopeOf entry') (htexts : ∀ o ∈ os, ∀ p ∈ o.parameters, p.type = .string)
    (h : Extracts entry os log operations) :
    Extracts entry' os' (log.map m.key) (operations.map (.rename m.key)) := by
  induction hmoves generalizing log operations with
  | nil =>
    obtain ⟨rfl, rfl⟩ := extracts_nil_iff.mp h
    exact extracts_nil_iff.mpr ⟨rfl, rfl⟩
  | cons hmoves _ ih =>
    rw [List.forall_mem_cons] at htexts
    obtain ⟨x, rfl, hholds, _, _, hrest, rfl, rfl⟩ := extracts_cons_iff.mp h
    obtain ⟨x', houtline, hholds', hlog, hoperation⟩ :=
      x.exists_moved hmoves horigin htarget hholds htexts.1
    refine extracts_cons_iff.mpr ⟨x', houtline, hholds', _, _, ih htexts.2 hrest, ?_, ?_⟩
    · rw [hlog, List.map_append]
    · rw [hoperation, List.map_cons]

end Route

namespace Bundle

/-! ### Layouts -/

/-- The first document, and the files that its schemas go to. -/
def IsUsed (b : Bundle) (place : String → String) (file : String) : Prop :=
  file = "" ∨ ∃ name schema, b.Defines "" name schema ∧ place name = file

/-- The schemas of the first document of one bundle, spread over the files of another one. -/
structure Layout (b b' : Bundle) where
  /-- The file that the schema of a name goes to. -/
  place : String → String
  /-- The new key of every key. -/
  key : String → String
  /-- No link leads out of the first document. -/
  alone : ∀ file, b.Reachable file → file = ""
  /-- The key of a schema is new because the schema is in another file. -/
  key_eq : ∀ name schema, b.Defines "" name schema →
    key (Link.schemaKey "" name) = Link.schemaKey (place name) name
  /-- A schema says the same where it has gone to. -/
  moved : ∀ name schema, b.Defines "" name schema → ∃ schema', b'.Defines (place name) name schema'
    ∧ Relinked ⟨b.scope "", b'.scope (place name), key⟩ schema schema'
  /-- A file holds the schemas that have gone to it and no others, in any order. -/
  held : ∀ file, b.IsUsed place file → ∃ entries, b'.schemasOf file = .ok entries
    ∧ (entries.map (·.1)).Nodup ∧ ∀ label schema', (label, schema') ∈ entries →
      ∃ name schema, label = .text name ∧ b.Defines "" name schema ∧ place name = file
  /-- Every file can be reached from the first document through links. -/
  reached : ∀ name schema, b.Defines "" name schema → b'.Reachable (place name)
  /-- The operations say the same. -/
  operations : ∀ os, b.outlines = .ok os → ∃ os', b'.outlines = .ok os'
    ∧ List.Forall₂ (Route.Outline.Moves ⟨b.scope "", b'.scope "", key⟩) os os'
  within : b'.WithinReach

/-- A document without links to other files that has been read: its schemas are converted, and its links
    are links to them. -/
structure IsWhole (b : Bundle) : Prop where
  outlined : ∃ os, b.outlines = .ok os
  converts : ∀ schema, b.Holds "" schema → ∃ log type, Converts (b.scope "") schema log type
  declared : ∀ key, b.Mentions "" key → ∃ name schema, b.Defines "" name schema
    ∧ key = Link.schemaKey "" name

variable {b b' : Bundle} {r r' : Resolver} {file key : String}

/-- What has been read from one document, and everything that it links to, is whole. -/
theorem Reads.isWhole {operations : List Operation} (h : b.Reads operations r)
    (hresolve : r.resolve b.source = (.ok (), r')) (halone : ∀ file, b.Reachable file → file = "") :
    b.IsWhole := by
  have hsettled := h.settled
  obtain ⟨hload, hpending⟩ := resolve_eq_ok.mp hresolve
  obtain ⟨hloaded, hqueue⟩ := hsettled.loadAll hload
  obtain ⟨r₁, hregister, hrun⟩ := h
  obtain ⟨entries, hentries, hregister⟩ := register_first_eq_ok.mp hregister
  obtain ⟨log, hoperations, -⟩ := run_eq_ok.mp hrun
  obtain ⟨os, hos, xs, rfl, hholds, -, -⟩ := operations_eq_ok_iff.mp hoperations
  -- What has been declared and extracted has been converted.
  have hconverts : ∀ label schema, (label, schema) ∈ entries →
      ∃ name log type, label = .text name ∧ Converts (b.scope "") schema log type :=
    fun label schema hmem => Resolver.registerSchemas_converts hregister hmem
  exact {
    outlined := ⟨_, hos⟩
    converts := by
      rintro schema (⟨entries', label, hentries', hmem⟩ | ⟨-, os', hos', o, ho, hmem⟩)
      · rw [hentries] at hentries'
        cases hentries'
        obtain ⟨-, log, type, -, hschema⟩ := hconverts label schema hmem
        exact ⟨log, type, hschema⟩
      · rw [hos] at hos'
        cases hos'
        obtain ⟨x, hx, rfl⟩ := List.mem_map.mp ho
        rw [Route.Extraction.schemas_outline] at hmem
        obtain ⟨c, hc, rfl⟩ := List.mem_map.mp hmem
        exact ⟨c.log, c.type, hholds x hx c hc⟩
    declared := by
      intro key hkey
      rcases hloaded.known "" hloaded.first_loaded key hkey with hkey | hkey
      · obtain ⟨file, hfile, name, schema, hdefines, heq⟩ := (hloaded.mem_keys key).mp hkey
        obtain rfl := halone file (hloaded.reachable file (.inl hfile))
        exact ⟨name, schema, hdefines, heq⟩
      · -- Nothing is missing after everything is resolved.
        rw [hpending] at hkey
        cases hkey }

namespace Layout

/-! ### Links -/

/-- What becomes of the links in the schemas that go to a file. -/
def move (l : Layout b b') (file : String) : Move :=
  ⟨b.scope "", b'.scope file, l.key⟩

variable (l : Layout b b') (hwhole : b.IsWhole)

/-- The schema that has gone to a file under a name. -/
theorem moved_of_mem {entries : List (Value × Value)} (hentries : b'.schemasOf file = .ok entries)
    (hnodup : (entries.map (·.1)).Nodup) {name : String} {schema schema' : Value}
    (hdefines : b.Defines "" name schema) (hplace : l.place name = file)
    (hmem : (.text name, schema') ∈ entries) : Relinked (l.move file) schema schema' := by
  subst hplace
  obtain ⟨schema'', hdefines', hrelinked⟩ := l.moved name schema hdefines
  have heq := List.inj_on_of_nodup_map hnodup hmem ((defines_iff hentries).mp hdefines') rfl
  have hschema : schema' = schema'' := congrArg Prod.snd heq
  rw [hschema]
  exact hrelinked

/-- The operations say the same. -/
theorem operations_moved {log : List String} {operations : List Operation}
    (h : b.operations = ⟨log, .ok operations⟩) :
    b'.operations = ⟨log.map l.key, .ok (operations.map (.rename l.key))⟩ := by
  obtain ⟨os, hos, hextracts⟩ := operations_eq_ok_iff.mp h
  obtain ⟨os', hos', hmoves⟩ := l.operations os hos
  refine operations_eq_ok_iff.mpr ⟨os', hos', hextracts.moved hmoves rfl rfl fun o ho p hp => ?_⟩
  obtain ⟨paths, -, houtlines⟩ := Except.bind_eq_ok.mp hos
  exact Route.type_of_mem_outlines houtlines ho hp

include l hwhole

/-- Every schema of a file says what a schema of the first document said before. -/
theorem exists_schema (hfile : b.IsUsed l.place file) {schema' : Value} (h : b'.Holds file schema') :
    ∃ schema, b.Holds "" schema ∧ Relinked (l.move file) schema schema' := by
  rcases h with ⟨entries', label, hentries', hmem⟩ | ⟨rfl, os', hos', o', ho', hmem⟩
  · -- A schema for others to link to has come from the first document.
    obtain ⟨entries, hentries, hnodup, hheld⟩ := l.held file hfile
    rw [hentries] at hentries'
    cases hentries'
    obtain ⟨name, schema, rfl, hdefines, hplace⟩ := hheld label schema' hmem
    have hrelinked := l.moved_of_mem hentries hnodup hdefines hplace hmem
    obtain ⟨all, hall, hdefined⟩ := hdefines
    exact ⟨schema, .inl ⟨all, .text name, hall, hdefined⟩, hrelinked⟩
  · -- A schema of an operation has stayed where it was.
    obtain ⟨os, hos⟩ := hwhole.outlined
    obtain ⟨os'', hos'', hmoves⟩ := l.operations os hos
    rw [hos''] at hos'
    cases hos'
    obtain ⟨o, ho, ho'⟩ := exists_of_forall₂ hmoves ho'
    obtain ⟨schema, hschema, hrelinked⟩ := ho'.exists_schema hmem
    exact ⟨schema, .inr ⟨rfl, os, hos, o, ho, hschema⟩, hrelinked⟩

/-- A link of a file denotes a schema of the first document in its new place. -/
theorem exists_of_mentions (hfile : b.IsUsed l.place file) (h : b'.Mentions file key) :
    ∃ name schema, b.Defines "" name schema ∧ key = Link.schemaKey (l.place name) name := by
  obtain ⟨schema', hholds', hlink⟩ := h
  obtain ⟨schema, hholds, hrelinked⟩ := l.exists_schema hwhole hfile hholds'
  obtain ⟨log, type, hconverts⟩ := hwhole.converts schema hholds
  obtain ⟨old, hold, hkey⟩ := (hrelinked.linksTo_iff hconverts).mp hlink
  obtain ⟨name, schema, hdefines, rfl⟩ := hwhole.declared old ⟨_, hholds, hold⟩
  exact ⟨name, schema, hdefines, hkey.symm.trans (l.key_eq name schema hdefines)⟩

/-- No other files can be reached than those that schemas have gone to. -/
theorem isUsed_of_reachable (h : b'.Reachable file) : b.IsUsed l.place file := by
  induction h with
  | first => exact .inl rfl
  | link _ hmentions ih =>
    -- The file that is linked from is used, so its links are links of the first document, moved.
    obtain ⟨name, schema, hdefines, rfl⟩ := l.exists_of_mentions hwhole ih hmentions
    rw [fileOf_schemaKey (l.reached name schema hdefines).notMem]
    exact .inr ⟨name, schema, hdefines, rfl⟩

/-- No link is left without a schema. -/
theorem not_dangling (key : String) : ¬ b'.Dangling key := by
  rintro ⟨⟨file, hreachable, hmentions⟩, hundefined⟩
  obtain ⟨name, schema, hdefines, rfl⟩ :=
    l.exists_of_mentions hwhole (l.isUsed_of_reachable hwhole hreachable) hmentions
  obtain ⟨schema', hdefines', -⟩ := l.moved name schema hdefines
  refine hundefined ⟨name, schema', ?_, ?_⟩
  · rwa [fileOf_schemaKey (l.reached name schema hdefines).notMem]
  · rw [fileOf_schemaKey (l.reached name schema hdefines).notMem]

/-- The files can be read. -/
theorem readable (hoperations : ∃ log operations, b.operations = ⟨log, .ok operations⟩) :
    b'.Readable where
  schemas file hfile := by
    have hused := l.isUsed_of_reachable hwhole hfile
    obtain ⟨entries, hentries, hnodup, hheld⟩ := l.held file hused
    refine ⟨entries, hentries, fun label schema' hmem => ?_⟩
    obtain ⟨name, -, rfl, -, -⟩ := hheld label schema' hmem
    obtain ⟨schema, hholds, hrelinked⟩ :=
      l.exists_schema hwhole hused (.inl ⟨entries, _, hentries, hmem⟩)
    obtain ⟨log, type, hconverts⟩ := hwhole.converts schema hholds
    exact ⟨name, _, _, rfl, (hrelinked.preserves _ _ hconverts).convert_eq⟩
  operations := by
    obtain ⟨log, operations, h⟩ := hoperations
    exact ⟨_, _, l.operations_moved h⟩

/-! ### Declarations -/

omit hwhole

variable (h : b.Settled r) (h' : b'.Settled r') (hqueue' : r'.queue = [])

include h h' hqueue'

/-- Every declaration is found under its new key, with new keys in its type. -/
theorem found {target : String} {x : Declaration} (hx : r.registry.get? target = some x) :
    r'.registry.get? (l.key target) = some (x.rename l.key) := by
  obtain ⟨file, hfile, name, schema, hdefines, rfl, hdeclares⟩ :=
    h.declared target x (Table.mem_of_get?_eq_some hx)
  obtain rfl := l.alone file (h.reachable file (.inl hfile))
  obtain ⟨log, hconverts⟩ := hdeclares.converts
  obtain ⟨schema', ⟨entries', hentries', hmem'⟩, hrelinked⟩ := l.moved name schema hdefines
  obtain ⟨entries, hentries, hnodup, -⟩ := l.held _ (.inr ⟨name, schema, hdefines, rfl⟩)
  rw [hentries] at hentries'
  cases hentries'
  have hloaded := (h'.mem_loaded_iff hqueue').mpr (l.reached name schema hdefines)
  rw [l.key_eq name schema hdefines,
    h'.get?_eq hloaded hentries hnodup hmem' (hrelinked.preserves _ _ hconverts)]
  have hkey : x.key = Link.schemaKey "" name := hdeclares.key_eq
  rw [Declaration.rename, hkey, l.key_eq name schema hdefines, hdeclares.name_eq]

/-- Nothing else is declared. -/
theorem exists_found (hwhole : b.IsWhole) {x' : Declaration} (hx' : (key, x') ∈ r'.registry) :
    ∃ x ∈ r.registry.values, x.rename l.key = x' := by
  obtain ⟨file, hfile, name, schema', hdefines', rfl, -⟩ := h'.declared key x' hx'
  have hused := l.isUsed_of_reachable hwhole (h'.reachable file (.inl hfile))
  obtain ⟨entries, hentries, hnodup, hheld⟩ := l.held file hused
  obtain ⟨name', schema, hname, hdefines, rfl⟩ := hheld _ _ ((defines_iff hentries).mp hdefines')
  cases hname
  -- The declaration of the schema that has gone there is found under the same key.
  obtain ⟨x, hx⟩ : ∃ x, r.registry.get? (Link.schemaKey "" name) = some x := by
    refine Option.isSome_iff_exists.mp (Table.isSome_get?_iff.mpr ?_)
    exact (h.mem_keys _).mpr ⟨"", h.first_loaded, name, schema, hdefines, rfl⟩
  have hfound := l.found h h' hqueue' hx
  rw [l.key_eq name schema hdefines, Table.get?_eq_some_iff_mem h'.consistent.declared_once] at hfound
  have hsame := (Table.get?_eq_some_iff_mem h'.consistent.declared_once).mpr hx'
  rw [(Table.get?_eq_some_iff_mem h'.consistent.declared_once).mpr hfound] at hsame
  exact ⟨x, Table.mem_values_iff.mpr ⟨_, Table.mem_of_get?_eq_some hx⟩, Option.some.inj hsame⟩

/-- The declarations are the same but for keys and order. -/
theorem values_perm (hwhole : b.IsWhole) (hnames : (r.registry.values.map (·.name)).Nodup) :
    r'.registry.values.Perm (r.registry.values.map (.rename l.key)) := by
  have hkeys : r'.registry.values.map (·.key) = r'.registry.keys := by
    rw [Table.values, Table.keys, List.map_map]
    exact List.map_congr_left fun entry hentry => h'.consistent.own_key entry.1 entry.2 hentry
  have hnodup' : r'.registry.values.Nodup := by
    refine List.Nodup.of_map (·.key) ?_
    rw [hkeys]
    exact h'.consistent.declared_once
  have hnodup : (r.registry.values.map (Declaration.rename l.key)).Nodup := by
    refine List.Nodup.of_map (·.name) ?_
    rw [List.map_map]
    exact hnames
  -- Without repetitions, it is enough that both have the same declarations.
  refine (List.perm_ext_iff_of_nodup hnodup' hnodup).mpr fun x' => ?_
  constructor
  · intro hx'
    obtain ⟨key, hx'⟩ := Table.mem_values_iff.mp hx'
    obtain ⟨x, hx, rfl⟩ := l.exists_found h h' hqueue' hwhole hx'
    exact List.mem_map_of_mem hx
  · intro hx'
    obtain ⟨x, hx, rfl⟩ := List.mem_map.mp hx'
    obtain ⟨key, hx⟩ := Table.mem_values_iff.mp hx
    have hfound := l.found h h' hqueue' ((Table.get?_eq_some_iff_mem h.consistent.declared_once).mpr hx)
    exact Table.mem_values_iff.mpr ⟨_, Table.mem_of_get?_eq_some hfound⟩

omit h h' hqueue'

/-! ### The client -/

/-- **The same description.**  What one document describes, a layout of it describes as well, under other
    keys and in another order. -/
theorem describe_eq_ok {d : Description} (h : b.describe false = (.ok d, r)) :
    ∃ d' r', b'.describe false = (.ok d', r') ∧ Output.Renamed l.key d d' := by
  obtain ⟨operations, r₀, r₁, hreads, hresolve, hunique, rfl, rfl⟩ := Bundle.describe_eq_ok.mp h
  have hwhole := hreads.isWhole hresolve l.alone
  obtain ⟨hsettled, -⟩ := hreads.settled.loadAll (resolve_eq_ok.mp hresolve).1
  obtain ⟨r₂, -, hrun⟩ := hreads
  obtain ⟨log, hoperations, -⟩ := run_eq_ok.mp hrun
  have hreadable := l.readable hwhole ⟨log, operations, hoperations⟩
  -- The second bundle is read as well, with the same operations.
  obtain ⟨operations', r₀', hreads'⟩ := hreadable.reads
  have hoperations' : operations' = operations.map (.rename l.key) := by
    obtain ⟨r₂', -, hrun'⟩ := hreads'
    obtain ⟨log', hsame, -⟩ := run_eq_ok.mp hrun'
    rw [l.operations_moved hoperations] at hsame
    cases hsame
    rfl
  -- No link is dangling, so it is resolved.
  have hreports := hreads'.settled.reportsDangling hreadable l.within
  have hresult := hreports.resolves_iff.mpr (l.not_dangling hwhole)
  cases hresolve' : r₀'.resolve b'.source with
  | mk result r' =>
    rw [hresolve'] at hresult
    cases hresult
    obtain ⟨hsettled', hqueue'⟩ := hreads'.settled.loadAll (resolve_eq_ok.mp hresolve').1
    have hnames := Resolver.checkUniqueNames_eq_ok_iff.mp hunique
    have hperm := l.values_perm hsettled hsettled' hqueue' hwhole hnames
    -- Names have moved with their declarations, so they are unique still.
    have hunique' : r'.checkUniqueNames = .ok () := by
      rw [Resolver.checkUniqueNames_eq_ok_iff, (hperm.map _).nodup_iff, List.map_map]
      exact hnames
    refine ⟨⟨r'.registry, operations', []⟩, r', ?_, ?_⟩
    · exact Bundle.describe_eq_ok.mpr ⟨operations', r₀', r', hreads', hresolve', hunique', rfl, rfl⟩
    · exact {
        declarations := hperm
        operations_eq := hoperations'
        names := hnames
        found := fun target x hx => l.found hsettled hsettled' hqueue' hx }

end Layout

/-- The generation for the first document of a bundle.  The resolver is the one that `Resolver.start`
    gives for the base and the name of the document. -/
def job (b : Bundle) : Job :=
  ⟨b.source, b.document, Resolver.fresh b.base b.entry⟩

/-- **The layout of the schemas does not change the client.**  If there is a client for one document
    without names for enums, there is the same client for every layout of its schemas. -/
theorem Layout.keeps_client (l : Layout b b') {options : Output.Options}
    (hoptions : options.namedEnums = false) {project : Output.Project}
    (h : b.job.generate options = .ok project) : b'.job.generate options = .ok project := by
  have hjob : ∀ c : Bundle, c.job.generate options
      = (do Output.generate options (← (c.describe false).1)) := by
    intro c
    rw [Job.generate, hoptions]
    rfl
  rw [hjob] at h ⊢
  obtain ⟨d, hd, hproject⟩ := Except.bind_eq_ok.mp h
  cases hdescribe : b.describe false with
  | mk result r =>
    rw [hdescribe] at hd
    cases hd
    obtain ⟨d', r', hdescribe', hrenamed⟩ := l.describe_eq_ok hdescribe
    rw [hdescribe', Except.ok_bind]
    exact Output.generate_renamed hrenamed hoptions hproject

/-! ### Orders and items in one document -/

/-- The schema of the items. -/
def itemSchema : Value :=
  .map [(.text "type", .text "string")]

/-- An array of the items that the same file describes. -/
def localOrdersSchema : Value :=
  .map [(.text "type", .text "array"),
    (.text "items", .map [(.text "$ref", .text "#/components/schemas/Item")])]

/-- The schemas of the items and the orders. -/
def wholeSchemas : List (Value × Value) :=
  [(.text "Item", itemSchema), (.text "Orders", localOrdersSchema)]

/-- Items and orders in one file. -/
def wholeOrders : Bundle where
  source := Source.ofTable []
  base := "/specs"
  entry := "main.yaml"
  document := .map [(.text "components", .map [(.text "schemas", .map wholeSchemas)])]

theorem convert_whole : Schema.convert ⟨"main.yaml", ""⟩ itemSchema = ⟨[], .ok .string⟩
    ∧ Schema.convert ⟨"main.yaml", ""⟩ localOrdersSchema
      = ⟨["#/components/schemas/Item"], .ok (.array (.ref "#/components/schemas/Item"))⟩ := by
  constructor
  · cbv
  · cbv

theorem schemasOf_whole : wholeOrders.schemasOf "" = .ok wholeSchemas := rfl

/-- The schemas of the document under their names. -/
theorem defines_whole {name : String} {schema : Value} :
    wholeOrders.Defines "" name schema
      ↔ (name = "Item" ∧ schema = itemSchema) ∨ (name = "Orders" ∧ schema = localOrdersSchema) := by
  rw [defines_iff schemasOf_whole]
  simp [wholeSchemas]

theorem mentions_whole {key : String} (h : wholeOrders.Mentions "" key) :
    key = "#/components/schemas/Item" := by
  rcases (mentions_iff schemasOf_whole).mp h with ⟨label, schema, hmem, hlink⟩ | ⟨-, os, hos, o, ho, -⟩
  · rcases List.mem_cons.mp hmem with heq | hmem
    · cases heq
      cases (Converts.of_convert convert_whole.1).mem_log_iff_linksTo.mpr hlink
    · cases List.mem_singleton.mp hmem
      exact List.mem_singleton.mp ((Converts.of_convert convert_whole.2).mem_log_iff_linksTo.mpr hlink)
  · cases hos
    cases ho

/-- The orders stay in the first document, and the items go to a file of their own. -/
def ordersLayout : Layout wholeOrders (orders "Item") where
  place name := if name = "Item" then "item.yaml" else ""
  key target := if target = "#/components/schemas/Item" then "item.yaml#/components/schemas/Item"
    else target
  alone file hfile := by
    induction hfile with
    | first => rfl
    | link _ hmentions ih =>
      subst ih
      rw [mentions_whole hmentions]
      decide
  key_eq name schema hdefines := by
    rcases defines_whole.mp hdefines with ⟨rfl, -⟩ | ⟨rfl, -⟩
    · rfl
    · rfl
  moved name schema hdefines := by
    rcases defines_whole.mp hdefines with ⟨rfl, rfl⟩ | ⟨rfl, rfl⟩
    · refine ⟨itemSchema, ⟨_, schemasOf_item "Item", List.mem_singleton_self _⟩, ?_⟩
      have hof : Schema.IsOf [(.text "type", .text "string")] "string" := ⟨rfl, rfl⟩
      exact .plain hof hof (by decide) (by decide) rfl
    · refine ⟨ordersSchema, ⟨_, rfl, List.mem_singleton_self _⟩, ?_⟩
      refine .array ⟨rfl, rfl⟩ ⟨rfl, rfl⟩ rfl rfl (.link rfl rfl ?_)
      exact ⟨"#/components/schemas/Item", by cbv, by cbv⟩
  held file hfile := by
    have hcases : file = "" ∨ file = "item.yaml" := by
      rcases hfile with rfl | ⟨name, schema, hdefines, rfl⟩
      · exact .inl rfl
      · rcases defines_whole.mp hdefines with ⟨rfl, -⟩ | ⟨rfl, -⟩
        · exact .inr rfl
        · exact .inl rfl
    rcases hcases with rfl | rfl
    · refine ⟨[(.text "Orders", ordersSchema)], rfl, List.nodup_singleton _, fun label schema' hmem => ?_⟩
      cases List.mem_singleton.mp hmem
      exact ⟨"Orders", localOrdersSchema, rfl, defines_whole.mpr (.inr ⟨rfl, rfl⟩), rfl⟩
    · refine ⟨_, schemasOf_item "Item", List.nodup_singleton _, fun label schema' hmem => ?_⟩
      cases List.mem_singleton.mp hmem
      exact ⟨"Item", itemSchema, rfl, defines_whole.mpr (.inl ⟨rfl, rfl⟩), rfl⟩
  reached name schema hdefines := by
    rcases defines_whole.mp hdefines with ⟨rfl, -⟩ | ⟨rfl, -⟩
    · have hmentions : (orders "Item").Mentions "" "item.yaml#/components/schemas/Item" := by
        have hentries : (orders "Item").schemasOf "" = .ok [(.text "Orders", ordersSchema)] := rfl
        refine mentions_of_mem hentries (List.mem_singleton_self _) ?_
        exact (Converts.of_convert convert_orders).mem_log_iff_linksTo.mp (List.mem_singleton_self _)
      exact .link .first hmentions
    · exact .first
  operations os hos := by
    cases hos
    exact ⟨[], rfl, .nil⟩
  within := withinReach_of_ofTable rfl

/-- What is known when items and orders have been read. -/
def wholeRead : Resolver where
  entry := "main.yaml"
  base := "/specs"
  registry := [("#/components/schemas/Item", ⟨"Item", "#/components/schemas/Item", .string⟩),
    ("#/components/schemas/Orders", ⟨"Orders", "#/components/schemas/Orders",
      .array (.ref "#/components/schemas/Item")⟩)]
  pending := []
  queue := []
  loaded := [""]
  asked := []

theorem describe_whole :
    wholeOrders.describe false = (.ok ⟨wholeRead.registry, [], []⟩, wholeRead) := by
  have hregister : (Resolver.fresh "/specs" "main.yaml").registerSchemas "" wholeSchemas
      = (.ok (), wholeRead) := by
    have hfirst : (Resolver.fresh "/specs" "main.yaml").scope "" = ⟨"main.yaml", ""⟩ := rfl
    have hsecond : (((Resolver.fresh "/specs" "main.yaml").noteLinks []).declare "" "Item" .string).scope ""
        = ⟨"main.yaml", ""⟩ := rfl
    simp only [wholeSchemas, Resolver.registerSchemas, Resolver.convert, Resolver.run, Value.asText,
      hfirst, convert_whole.1, hsecond, convert_whole.2]
    rfl
  have hreads : wholeOrders.Reads [] wholeRead :=
    ⟨wholeRead, register_first_eq_ok.mpr ⟨_, rfl, hregister⟩, rfl⟩
  exact describe_eq_ok.mpr ⟨[], wholeRead, wholeRead, hreads,
    resolve_eq_ok.mpr ⟨Resolver.loadAll_nil rfl, rfl⟩, rfl, rfl, rfl⟩

theorem sortedDeclarations_whole :
    Output.sortedDeclarations wholeRead.registry = Table.values wholeRead.registry := by
  refine List.mergeSort_of_pairwise ?_
  refine .cons ?_ (List.pairwise_singleton _ _)
  intro d hd
  rw [List.mem_singleton.mp hd]
  decide +kernel

/-- Items and orders have one client, whether they stand in one file or in two. -/
theorem orders_keep_client : ∃ project, wholeOrders.job.generate ⟨false, none⟩ = .ok project
    ∧ (orders "Item").job.generate ⟨false, none⟩ = .ok project := by
  obtain ⟨types, htypes⟩ : ∃ file, Output.typesFile ⟨false, none⟩ ⟨wholeRead.registry, [], []⟩
      = .ok file := by
    simp only [Output.typesFile, sortedDeclarations_whole]
    exact ⟨_, rfl⟩
  obtain ⟨methods, hmethods⟩ : ∃ file, Output.methodsFile ⟨false, none⟩ ⟨wholeRead.registry, [], []⟩
      = .ok file := ⟨_, rfl⟩
  have hgenerate : wholeOrders.job.generate ⟨false, none⟩ = .ok ⟨[types, methods]⟩ := by
    show (do Output.generate ⟨false, none⟩ (← (wholeOrders.describe false).1)) = _
    rw [describe_whole, Except.ok_bind, Output.generate, htypes, Except.ok_bind, hmethods]
    rfl
  exact ⟨_, hgenerate, ordersLayout.keeps_client rfl hgenerate⟩

end Bundle

end TypedClient
