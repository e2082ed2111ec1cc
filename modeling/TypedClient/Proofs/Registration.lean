import TypedClient.Proofs.Sessions

namespace TypedClient.Resolver

open Schema (Converts LinksTo convert_eq_ok_iff)

/-!
# Declaring the schemas of a document

Schemas are declared one after the other.  In between the links of each of them are noted, so that
later schemas find earlier ones declared and earlier ones leave the keys of later ones missing for a
while.  What comes out does not depend on any of this.

* `Declares` — a declaration is what a schema of a file describes.
* `Registered` — what declaring schemas makes of a resolver.
* `registerSchemas_eq_ok` — this is what it makes of it, if it succeeds.
* `registerSchemas_ok`, `registerSchemas_converts` — it succeeds if every schema has a name and can be
  converted, and only then.
* `checkUniqueNames_eq_ok_iff` — the check of the names says that no name comes twice.
-/

/-- The declaration `d` is the one of the schema `name` of a file. -/
structure Declares (scope : Link.Scope) (name : String) (schema : Value) (d : Declaration) : Prop where
  name_eq : d.name = Naming.normalize name
  key_eq : d.key = Link.schemaKey scope.file name
  converts : ∃ log, Converts scope schema log d.type

/-- What declaring schemas of a file makes of a resolver. -/
structure Registered (r : Resolver) (file : String) (schemas : List (Value × Value)) (r' : Resolver) :
    Prop where
  base_eq : r'.base = r.base
  entry_eq : r'.entry = r.entry
  loaded_eq : r'.loaded = r.loaded
  /-- The new keys are those of the schemas. -/
  mem_keys : ∀ key, key ∈ r'.registry.keys ↔ key ∈ r.registry.keys
    ∨ ∃ name schema, (.text name, schema) ∈ schemas ∧ key = Link.schemaKey file name
  /-- The new declarations are those of the schemas. -/
  declared : ∀ key d, (key, d) ∈ r'.registry → (key, d) ∈ r.registry
    ∨ ∃ name schema, (.text name, schema) ∈ schemas ∧ key = Link.schemaKey file name
      ∧ Declares (r.scope file) name schema d
  /-- What is missing now is what the schemas link to. -/
  missing : ∀ key ∈ r'.pending, key ∈ r.pending
    ∨ ∃ name schema, (name, schema) ∈ schemas ∧ LinksTo (r.scope file) schema key
  /-- What is queued now are the files that the schemas link to. -/
  queued : ∀ other ∈ r'.queue, other ∈ r.queue
    ∨ ∃ name schema key, (name, schema) ∈ schemas ∧ LinksTo (r.scope file) schema key
      ∧ other = Link.fileOf key
  /-- Everything that the schemas link to is known. -/
  known : ∀ name schema key, (name, schema) ∈ schemas → LinksTo (r.scope file) schema key →
    r'.Knows key

variable {r r' : Resolver} {file : String} {schemas : List (Value × Value)}

/-- One schema is converted and declared. -/
theorem registerSchemas_cons_eq_ok {e : Value × Value} {rest : List (Value × Value)}
    (h : r.registerSchemas file (e :: rest) = (.ok (), r')) :
    ∃ name log type, e.1 = .text name ∧ Converts (r.scope file) e.2 log type
      ∧ ((r.noteLinks log).declare file name type).registerSchemas file rest = (.ok (), r') := by
  obtain ⟨key, schema⟩ := e
  unfold registerSchemas at h
  split at h
  · cases h
  · next name hname =>
    cases hconvert : Schema.convert (r.scope file) schema with
    | mk log result =>
      simp only [convert, run, hconvert] at h
      cases result with
      | error e => cases h
      | ok type =>
        exact ⟨name, log, type, Schema.asText_eq_ok_iff.mp hname, convert_eq_ok_iff.mp hconvert, h⟩

/-- Links are read in one way, however much has been declared. -/
theorem scope_converted {name other : String} {log : List String} {type : ClientType} :
    ((r.noteLinks log).declare file name type).scope other = r.scope other := by
  rw [scope, scope, entry_declare, entry_noteLinks]

/-- A converted schema can be declared when its links are noted. -/
theorem Consistent.declareConverted (hr : r.Consistent) {schema : Value} {log : List String}
    {type : ClientType} (h : Converts (r.scope file) schema log type) (name : String) :
    ((r.noteLinks log).declare file name type).Consistent := by
  refine (hr.steps (steps_noteLinks r log)).1.declare file name fun key hkey => ?_
  exact knows_noteLinks.mpr (.inr (h.mem_log_iff_inside.mpr hkey))

/-- What declaring one more schema first makes of a resolver. -/
theorem Registered.cons (hr : r.Consistent) {name : String} {schema : Value} {log : List String}
    {type : ClientType} (hconverts : Converts (r.scope file) schema log type)
    (h : Registered ((r.noteLinks log).declare file name type) file schemas r')
    (hmono : ∀ key, ((r.noteLinks log).declare file name type).Knows key → r'.Knows key) :
    Registered r file ((.text name, schema) :: schemas) r' where
  base_eq := by rw [h.base_eq, base_declare, base_noteLinks]
  entry_eq := by rw [h.entry_eq, entry_declare, entry_noteLinks]
  loaded_eq := by rw [h.loaded_eq, loaded_declare, loaded_noteLinks]
  mem_keys key := by
    rw [h.mem_keys, registry_declare, Table.mem_keys_put, registry_noteLinks]
    constructor
    · rintro ((rfl | hold) | ⟨other, schema, hmem, rfl⟩)
      · exact .inr ⟨name, _, List.mem_cons_self, rfl⟩
      · exact .inl hold
      · exact .inr ⟨other, schema, List.mem_cons_of_mem _ hmem, rfl⟩
    · rintro (hold | ⟨other, schema, hmem, rfl⟩)
      · exact .inl (.inr hold)
      · rcases List.mem_cons.mp hmem with heq | hmem
        · cases heq
          exact .inl (.inl rfl)
        · exact .inr ⟨other, schema, hmem, rfl⟩
  declared key d hd := by
    rcases h.declared key d hd with hd | ⟨other, schema, hmem, hkey, hd⟩
    · rw [registry_declare] at hd
      rcases Table.mem_put hd with heq | hd
      · cases heq
        exact .inr ⟨name, _, List.mem_cons_self, rfl, rfl, rfl, log, hconverts⟩
      · rw [registry_noteLinks] at hd
        exact .inl hd
    · rw [scope_converted] at hd
      exact .inr ⟨other, schema, List.mem_cons_of_mem _ hmem, hkey, hd⟩
  missing key hkey := by
    rcases h.missing key hkey with hkey | ⟨other, schema, hmem, hlink⟩
    · rw [mem_pending_declare (hr.steps (steps_noteLinks r log)).1.missing_once] at hkey
      rcases mem_pending_noteLinks.mp hkey.2 with hold | ⟨hlog, -⟩
      · exact .inl hold
      · exact .inr ⟨_, _, List.mem_cons_self, hconverts.mem_log_iff_linksTo.mp hlog⟩
    · rw [scope_converted] at hlink
      exact .inr ⟨other, schema, List.mem_cons_of_mem _ hmem, hlink⟩
  queued other hother := by
    rcases h.queued other hother with hother | ⟨label, schema, key, hmem, hlink, hfile⟩
    · rw [queue_declare, mem_queue_noteLinks] at hother
      rcases hother with hold | ⟨key, hlog, hfile, -⟩
      · exact .inl hold
      · exact .inr ⟨_, _, key, List.mem_cons_self, hconverts.mem_log_iff_linksTo.mp hlog, hfile⟩
    · rw [scope_converted] at hlink
      exact .inr ⟨label, schema, key, List.mem_cons_of_mem _ hmem, hlink, hfile⟩
  known label described key hmem hlink := by
    rcases List.mem_cons.mp hmem with heq | hmem
    · -- A link that has been noted stays known when its schema is declared.
      cases heq
      have hnoted : (r.noteLinks log).Knows key :=
        knows_noteLinks.mpr (.inr (hconverts.mem_log_iff_linksTo.mpr hlink))
      have htype : ∀ key, ClientType.Inside (.ref key) type → (r.noteLinks log).Knows key :=
        fun key hkey => knows_noteLinks.mpr (.inr (hconverts.mem_log_iff_inside.mpr hkey))
      have hconsistent := (hr.steps (steps_noteLinks r log)).1
      exact hmono key ((Step.declare _ file name htype).knows hconsistent.missing_once hnoted)
    · refine h.known label described key hmem ?_
      rwa [scope_converted]

/-- **What declaring schemas does.** -/
theorem registerSchemas_eq_ok (hr : r.Consistent)
    (h : r.registerSchemas file schemas = (.ok (), r')) : Registered r file schemas r' := by
  induction schemas generalizing r with
  | nil =>
    cases h
    exact {
      base_eq := rfl
      entry_eq := rfl
      loaded_eq := rfl
      mem_keys := by simp
      declared := fun key d hd => .inl hd
      missing := fun key hkey => .inl hkey
      queued := fun other hother => .inl hother
      known := nofun }
  | cons e rest ih =>
    obtain ⟨name, log, type, hname, hconverts, hrest⟩ := registerSchemas_cons_eq_ok h
    obtain ⟨label, schema⟩ := e
    cases hname
    -- What the rest is declared on is consistent, and whatever it knows stays known.
    have hdeclared := hr.declareConverted hconverts name
    refine (ih hdeclared hrest).cons hr hconverts fun key hkey => ?_
    have hsteps := (hdeclared.steps (steps_registerSchemas _ file rest)).2 key hkey
    rwa [hrest] at hsteps

/-- Schemas can be declared if each of them has a name and can be converted. -/
theorem registerSchemas_ok (r : Resolver)
    (h : ∀ label schema, (label, schema) ∈ schemas →
      ∃ name log type, label = .text name ∧ Converts (r.scope file) schema log type) :
    ∃ r', r.registerSchemas file schemas = (.ok (), r') := by
  induction schemas generalizing r with
  | nil => exact ⟨r, rfl⟩
  | cons e rest ih =>
    obtain ⟨label, schema⟩ := e
    obtain ⟨name, log, type, rfl, hconverts⟩ := h label schema List.mem_cons_self
    have hconvert := convert_eq_ok_iff.mpr hconverts
    simp only [registerSchemas, Value.asText, convert, run, hconvert]
    refine ih _ fun label schema hmem => ?_
    rw [scope_converted]
    exact h label schema (List.mem_cons_of_mem _ hmem)

/-- Schemas that have been declared have names and can be converted. -/
theorem registerSchemas_converts (h : r.registerSchemas file schemas = (.ok (), r')) {label schema : Value}
    (hmem : (label, schema) ∈ schemas) :
    ∃ name log type, label = .text name ∧ Converts (r.scope file) schema log type := by
  induction schemas generalizing r with
  | nil => cases hmem
  | cons e rest ih =>
    obtain ⟨name, log, type, hname, hconverts, hrest⟩ := registerSchemas_cons_eq_ok h
    rcases List.mem_cons.mp hmem with rfl | hmem
    · exact ⟨name, log, type, hname, hconverts⟩
    · have hlater := ih hrest hmem
      rwa [scope_converted] at hlater

/-! ### Names -/

/-- A text is in a list as often as values are there that it is the text of. -/
theorem length_filter_eq_count {α : Type} (f : α → String) (xs : List α) (name : String) :
    (xs.filter fun x => f x == name).length = (xs.map f).count name := by
  rw [← List.countP_eq_length_filter, List.count_eq_countP, List.countP_map]
  rfl

/-- A name has as many keys as there are declarations with it. -/
theorem length_keysNamed (registry : Registry) (name : String) :
    (keysNamed registry name).length = (registry.values.map (·.name)).count name := by
  have hlength := length_filter_eq_count (fun entry : String × Declaration => entry.2.name) registry name
  rw [keysNamed, Table.keys, List.length_map, Table.values, List.map_map]
  exact hlength

/-- The names of declarations are unique if no declaration shares its name. -/
theorem checkUniqueNames_eq_ok :
    r.checkUniqueNames = .ok ()
      ↔ ∀ entry ∈ r.registry, (keysNamed r.registry entry.2.name).length ≤ 1 := by
  unfold checkUniqueNames
  split
  · next key d hfind =>
    have hmany := List.find?_some hfind
    rw [decide_eq_true_eq] at hmany
    constructor
    · intro h
      cases h
    · intro h
      have hone : (keysNamed r.registry d.name).length ≤ 1 := h _ (List.mem_of_find?_eq_some hfind)
      omega
  · next hnone =>
    rw [List.find?_eq_none] at hnone
    refine iff_of_true rfl fun entry hentry => ?_
    have hone := hnone entry hentry
    rw [decide_eq_true_eq] at hone
    omega

/-- The names of declarations are unique if no name comes twice. -/
theorem checkUniqueNames_eq_ok_iff :
    r.checkUniqueNames = .ok () ↔ (r.registry.values.map (·.name)).Nodup := by
  rw [checkUniqueNames_eq_ok, List.nodup_iff_count_le_one]
  constructor
  · intro h name
    -- A name that no declaration has does not come at all.
    by_cases hname : name ∈ r.registry.values.map (·.name)
    · obtain ⟨d, hd, rfl⟩ := List.mem_map.mp hname
      obtain ⟨key, hd⟩ := Table.mem_values_iff.mp hd
      rw [← length_keysNamed]
      exact h _ hd
    · rw [List.count_eq_zero_of_not_mem hname]
      omega
  · intro h entry _
    rw [length_keysNamed]
    exact h entry.2.name

end TypedClient.Resolver
