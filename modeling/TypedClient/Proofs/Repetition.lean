import Mathlib
import TypedClient.Loading
import TypedClient.Proofs.EarlierNames
import TypedClient.Proofs.Resolution

namespace TypedClient

/-!
# Describing a document again

A resolver that has described a document is not a fresh one: its registry is full, its enums have names,
and the declarations of the first document are about to be replaced while those of the linked files stay.
Nevertheless the second description is the first one, and it leaves the resolver exactly as it was.

* `Resolver.noteLinks_eq_self` — links to what is declared change nothing.
* `Resolver.Writes` — the entries that declaring the schemas of a file puts into the registry.
* `Bundle.describe_again` — the state after a description is a fixed point of the next one.
* `Job.repeatable` — an object that has described its document once answers every later request as a new object
  would, and never changes again.
-/

/-! ### Reading documents that have been read -/

/-- The registry after entries have been put into it one after the other. -/
def Registry.overwrite (registry : Registry) (entries : List (String × Declaration)) : Registry :=
  entries.foldl (fun table (key, d) => table.put key d) registry

/-- Entries without names overwrite the declarations without their names. -/
theorem Registry.unnamed_overwrite {entries : List (String × Declaration)}
    (h : ∀ entry ∈ entries, entry.2.unnamed = entry.2) (registry : Registry) :
    (registry.overwrite entries).unnamed = registry.unnamed.overwrite entries := by
  have hentries : (entries.map fun (key, d) => (key, d.unnamed)) = entries := by
    refine (List.map_congr_left fun entry hentry => ?_).trans (List.map_id entries)
    exact Prod.ext rfl (h entry hentry)
  have hput := Table.foldl_put_map_values Declaration.unnamed registry entries
  rw [hentries] at hput
  exact hput.symm

namespace Resolver

open Schema (Converts LinksTo)

variable {r r' : Resolver} {file : String} {schemas : List (Value × Value)}

/-- Links to what is declared change nothing. -/
theorem noteLinks_eq_self {keys : List String} (h : ∀ key ∈ keys, key ∈ r.registry.keys) :
    r.noteLinks keys = r := by
  induction keys with
  | nil => rfl
  | cons key keys ih =>
    have hkey : r.noteLink key = r := by
      rw [noteLink, if_pos (Table.isSome_get?_iff.mpr (h key List.mem_cons_self))]
    show (r.noteLink key).noteLinks keys = r
    rw [hkey]
    exact ih fun key hkey => h key (List.mem_cons_of_mem _ hkey)

/-- The entry that declaring a schema puts into the registry. -/
def Writes (scope : Link.Scope) (schema : Value × Value) (entry : String × Declaration) : Prop :=
  ∃ name, schema.1 = .text name ∧ entry.1 = Link.schemaKey scope.file name
    ∧ Declares scope name schema.2 entry.2

theorem Writes.unnamed_eq {scope : Link.Scope} {schema : Value × Value} {entry : String × Declaration}
    (h : Writes scope schema entry) : entry.2.unnamed = entry.2 := by
  obtain ⟨name, -, -, hdeclares⟩ := h
  obtain ⟨log, hconverts⟩ := hdeclares.converts
  rw [Declaration.unnamed, hconverts.unnamed_eq]

/-- What declaring schemas puts into the registry depends on the schemas alone. -/
theorem exists_writes (h : r.registerSchemas file schemas = (.ok (), r')) :
    ∃ entries, List.Forall₂ (Writes (r.scope file)) schemas entries
      ∧ r'.registry = r.registry.overwrite entries := by
  induction schemas generalizing r with
  | nil =>
    cases h
    exact ⟨[], .nil, rfl⟩
  | cons schema rest ih =>
    obtain ⟨name, log, type, hname, hconverts, hrest⟩ := registerSchemas_cons_eq_ok h
    obtain ⟨entries, hwrites, hregistry⟩ := ih hrest
    rw [scope_converted] at hwrites
    rw [registry_declare, registry_noteLinks] at hregistry
    refine ⟨(Link.schemaKey file name, ⟨Naming.normalize name, Link.schemaKey file name, type⟩) :: entries,
      .cons ⟨name, hname, rfl, ?_⟩ hwrites, hregistry⟩
    exact ⟨rfl, rfl, log, hconverts⟩

/-- Schemas are declared again in a resolver that misses nothing: their entries are put into the registry, and
    nothing else changes. -/
theorem registerSchemas_again (hpending : r.pending = []) {entries : List (String × Declaration)}
    (hwrites : List.Forall₂ (Writes (r.scope file)) schemas entries)
    (hknown : ∀ schema ∈ schemas, ∀ key, LinksTo (r.scope file) schema.2 key → key ∈ r.registry.keys) :
    r.registerSchemas file schemas = (.ok (), { r with registry := r.registry.overwrite entries }) := by
  induction schemas generalizing r entries with
  | nil =>
    cases hwrites
    rfl
  | cons schema rest ih =>
    cases hwrites with
    | @cons _ entry _ entries hfirst hrest =>
      obtain ⟨label, schema⟩ := schema
      obtain ⟨key, d⟩ := entry
      obtain ⟨name, hlabel, hkey, hname, hown, log, hconverts⟩ := hfirst
      change label = .text name at hlabel
      change key = Link.schemaKey file name at hkey
      change Converts (r.scope file) schema log d.type at hconverts
      subst hlabel hkey
      -- Every link of the schema leads to what is declared.
      have hnoted : r.noteLinks log = r := by
        refine noteLinks_eq_self fun key hlog => ?_
        exact hknown _ List.mem_cons_self key (hconverts.mem_log_iff_linksTo.mp hlog)
      have hd : d = ⟨Naming.normalize name, Link.schemaKey file name, d.type⟩ := by
        rw [← hname]
        exact congrArg (Declaration.mk d.name · d.type) hown
      have hdeclared : r.declare file name d.type
          = { r with registry := r.registry.put (Link.schemaKey file name) d } := by
        rw [hd, declare, hpending]
        rfl
      have hlater := ih (r := { r with registry := r.registry.put (Link.schemaKey file name) d }) hpending hrest ?_
      · rw [registerSchemas]
        simp only [Value.asText, convert, run, hconverts.convert_eq, hnoted, hdeclared]
        exact hlater
      · intro schema hmem other hlink
        exact Table.mem_keys_put.mpr (.inr (hknown schema (List.mem_cons_of_mem _ hmem) other hlink))

/-- A resolver with an empty queue that misses nothing has nothing to resolve. -/
theorem resolve_again {source : Source} (hqueue : r.queue = []) (hpending : r.pending = []) :
    r.resolve source = (.ok (), r) :=
  Bundle.resolve_eq_ok.mpr ⟨loadAll_nil hqueue, hpending⟩

end Resolver

namespace Bundle

open Schema (Converts LinksTo)
open Resolver (Declares Writes)

variable {b : Bundle} {r r' : Resolver} {operations : List Operation}

/-- What a settled resolver has declared has no names for enums. -/
theorem Settled.unnamed_eq (h : b.Settled r) : r.registry.unnamed = r.registry := by
  refine (List.map_congr_left fun entry hentry => ?_).trans (List.map_id r.registry)
  obtain ⟨key, d⟩ := entry
  obtain ⟨file, -, name, schema, -, -, hdeclares⟩ := h.declared key d hentry
  obtain ⟨log, hconverts⟩ := hdeclares.converts
  have htype : d.type.unnamed = d.type := hconverts.unnamed_eq
  have hd : d.unnamed = d := congrArg (Declaration.mk d.name d.key) htype
  exact Prod.ext rfl hd

/-- Loading another file leaves the declarations of the first document as they are. -/
theorem Settled.get?_load (h : b.Settled r) {file : String} {rest : List String}
    (hqueue : r.queue = file :: rest) (hload : r.load b.source file = (.ok (), r')) (name : String) :
    r'.registry.get? (Link.schemaKey "" name) = r.registry.get? (Link.schemaKey "" name) := by
  have hfile : file ∈ r.queue := by
    rw [hqueue]
    exact List.mem_cons_self
  obtain ⟨locator, schemas, -, -, hregister⟩ := load_eq_ok h.base_eq (h.ne_first hfile) hload
  obtain ⟨entries, hwrites, hregistry⟩ := Resolver.exists_writes hregister
  have hnone : (Table.ofList entries).get? (Link.schemaKey "" name) = none := by
    rw [← Option.not_isSome_iff_eq_none, Table.isSome_get?_iff, Table.mem_keys_ofList]
    intro hkey
    obtain ⟨d, hentry⟩ := Table.mem_keys_iff.mp hkey
    obtain ⟨schema, -, other, -, hother, -⟩ := exists_of_forall₂ hwrites hentry
    -- A key tells its file, and the first document is no file of the queue.
    have hnot : '#' ∉ file.toList := (h.reachable file (.inr hfile)).notMem
    exact h.ne_first hfile (schemaKey_inj (by decide) hnot hother).1.symm
  rw [hregistry, Registry.overwrite, Table.get?_foldl_put, hnone, Option.none_or]
  rfl

theorem Settled.get?_loadAll (h : b.Settled r) {fuel : Nat} (hload : r.loadAll b.source fuel = (.ok (), r'))
    (name : String) :
    r'.registry.get? (Link.schemaKey "" name) = r.registry.get? (Link.schemaKey "" name) := by
  induction fuel generalizing r with
  | zero =>
    unfold Resolver.loadAll at hload
    split at hload
    · cases hload
      rfl
    · cases hload
  | succ fuel ih =>
    unfold Resolver.loadAll at hload
    split at hload
    · cases hload
      rfl
    · next file rest hqueue =>
      simp only at hload
      split at hload
      · next r₁ hfirst => rw [ih (h.load hqueue hfirst) hload, h.get?_load hqueue hfirst]
      · cases hload

/-- What has been read of a bundle when everything is resolved, and the entries that the first document wrote. -/
structure Complete (b : Bundle) (operations : List Operation) (schemas : List (Value × Value))
    (entries : List (String × Declaration)) (r : Resolver) : Prop where
  settled : b.Settled r
  queue_eq : r.queue = []
  pending_eq : r.pending = []
  schemas_eq : b.schemasOf "" = .ok schemas
  writes : List.Forall₂ (Writes (b.scope "")) schemas entries
  /-- No file has taken the place of an entry of the first document. -/
  kept : r.registry.overwrite entries = r.registry
  extracted : ∃ log, b.operations = ⟨log, .ok operations⟩ ∧ ∀ key ∈ log, b.Mentions "" key

/-- Everything is complete after the first document has been read and everything resolved. -/
theorem Reads.exists_complete {r₀ : Resolver} (h : b.Reads operations r₀)
    (hresolve : r₀.resolve b.source = (.ok (), r)) :
    ∃ schemas entries, b.Complete operations schemas entries r := by
  obtain ⟨hload, hpending⟩ := resolve_eq_ok.mp hresolve
  obtain ⟨hsettled, hqueue⟩ := h.settled.loadAll hload
  have hkeep := h.settled.get?_loadAll hload
  obtain ⟨r₁, hregister, hrun⟩ := h
  obtain ⟨schemas, hschemas, hregister⟩ := register_first_eq_ok.mp hregister
  obtain ⟨entries, hwrites, hregistry⟩ := Resolver.exists_writes hregister
  obtain ⟨log, hextract, rfl⟩ := run_eq_ok.mp hrun
  obtain ⟨os, hos, hextracts⟩ := operations_eq_ok_iff.mp hextract
  refine ⟨schemas, entries, hsettled, hqueue, hpending, hschemas, hwrites, ?_, log, hextract, ?_⟩
  · refine Table.foldl_put_eq_self hsettled.consistent.declared_once fun key hkey => ?_
    -- The keys of the first document have the values that it gave them.
    obtain ⟨d, hentry⟩ := Table.mem_keys_iff.mp hkey
    obtain ⟨schema, -, name, -, hname, -⟩ := exists_of_forall₂ hwrites hentry
    change key = Link.schemaKey "" name at hname
    rw [hname, hkeep, Resolver.registry_noteLinks, hregistry]
    rfl
  · intro key hkey
    exact (mentions_iff hschemas).mpr (.inr ⟨rfl, os, hos, hextracts.mem_log_iff_linksTo.mp hkey⟩)

namespace Complete

variable {schemas : List (Value × Value)} {entries : List (String × Declaration)} {registry : Registry}

/-- Whatever the documents link to is declared. -/
theorem mem_keys (h : b.Complete operations schemas entries r) {file key : String} (hfile : file ∈ r.loaded)
    (hkey : b.Mentions file key) : key ∈ r.registry.keys := by
  rcases h.settled.known file hfile key hkey with hdeclared | hmissing
  · exact hdeclared
  · rw [h.pending_eq] at hmissing
    cases hmissing

/-- The entries of the first document restore what names have changed in its declarations. -/
theorem unnamed_overwrite (h : b.Complete operations schemas entries r)
    (hregistry : registry.unnamed = r.registry) : (registry.overwrite entries).unnamed = r.registry := by
  have hentries : ∀ entry ∈ entries, entry.2.unnamed = entry.2 := by
    intro entry hentry
    obtain ⟨schema, -, hwrites⟩ := exists_of_forall₂ h.writes hentry
    exact hwrites.unnamed_eq
  rw [Registry.unnamed_overwrite hentries, hregistry, h.kept]

/-- **Reading the first document again**, when its enums have got names, puts its entries into the registry again.
    It finds the same operations, and there is nothing to resolve. -/
theorem reads_again (h : b.Complete operations schemas entries r) (hregistry : registry.unnamed = r.registry)
    {again : Resolver} (hagain : again = { r with registry := registry.overwrite entries }) :
    Resolver.register { r with registry } "" b.document = (.ok (), again)
      ∧ again.run (do Route.extract again.entry (← b.document.get "paths")) = (.ok operations, again)
      ∧ again.resolve b.source = (.ok (), again) := by
  have hkeys : registry.keys = r.registry.keys := by rw [← hregistry, Registry.keys_unnamed]
  have hscope : ({ r with registry } : Resolver).scope "" = b.scope "" := by
    rw [scope, ← h.settled.entry_eq]
    rfl
  have hdocument : Resolver.schemasOf b.document = .ok schemas := by
    have hschemas := h.schemas_eq
    rwa [schemasOf, documentOf, if_pos rfl, Except.ok_bind] at hschemas
  subst hagain
  refine ⟨?_, ?_, ?_⟩
  -- The schemas of the first document link to nothing that is not in the registry.
  · rw [Resolver.register, hdocument]
    have hwrites := h.writes
    rw [← hscope] at hwrites
    refine Resolver.registerSchemas_again (r := { r with registry }) h.pending_eq hwrites ?_
    intro schema hmem key hlink
    rw [hscope] at hlink
    show key ∈ registry.keys
    rw [hkeys]
    exact h.mem_keys h.settled.first_loaded (mentions_of_mem h.schemas_eq hmem hlink)
  -- Nor do its operations.
  · obtain ⟨log, hextract, hlog⟩ := h.extracted
    have hoverwritten : (registry.overwrite entries).keys = r.registry.keys := by
      rw [← Registry.keys_unnamed, h.unnamed_overwrite hregistry]
    have hentry : ({ r with registry := registry.overwrite entries } : Resolver).entry = b.entry :=
      h.settled.entry_eq
    rw [hentry]
    refine run_eq_ok.mpr ⟨log, hextract, (Resolver.noteLinks_eq_self fun key hkey => ?_).symm⟩
    show key ∈ (registry.overwrite entries).keys
    rw [hoverwritten]
    exact h.mem_keys h.settled.first_loaded (hlog key hkey)
  · exact Resolver.resolve_again h.queue_eq h.pending_eq

end Complete

/-- After a description nothing is queued and nothing is missing. -/
theorem queue_and_pending_of_describe {namedEnums : Bool} {d : Description}
    (h : b.describe namedEnums = (.ok d, r')) : r'.queue = [] ∧ r'.pending = [] := by
  obtain ⟨operations, r₀, r, hreads, hresolve, -, hnamed⟩ := describe_eq_ok.mp h
  obtain ⟨schemas, entries, hcomplete⟩ := hreads.exists_complete hresolve
  cases namedEnums with
  | false =>
    obtain ⟨-, rfl⟩ := hnamed
    exact ⟨hcomplete.queue_eq, hcomplete.pending_eq⟩
  | true =>
    obtain ⟨enums, -, -, rfl⟩ := hnamed
    exact ⟨hcomplete.queue_eq, hcomplete.pending_eq⟩

/-- The names of declarations are unique whatever names their enums have. -/
theorem checkUniqueNames_unnamed {registry : Registry} (hregistry : registry.unnamed = r.registry)
    (h : r.checkUniqueNames = .ok ()) : Resolver.checkUniqueNames { r with registry } = .ok () := by
  rw [Resolver.checkUniqueNames_eq_ok_iff] at h ⊢
  rw [← hregistry, Registry.values_unnamed, List.map_map] at h
  exact h

/-- The enums get the same names whatever names they have. -/
theorem nameEnums_unnamed {registry : Registry} (hregistry : registry.unnamed = r.registry)
    {enums : Table String (List String)} (h : (r.nameEnums operations).1 = .ok enums) :
    Resolver.nameEnums { r with registry } operations = r.nameEnums operations := by
  cases hresolve : (EnumNaming.start r.registry operations).resolve with
  | mk result named =>
    simp only [Resolver.nameEnums, hresolve] at h ⊢
    subst h
    rw [← hregistry] at hresolve
    rw [EnumNaming.resolve_unnamed hresolve]

/-- A resolver whose enums have got names reads its document again and comes to the naming of enums, with the
    operations and the registry of before. -/
theorem Complete.describe_eq {schemas : List (Value × Value)} {entries : List (String × Declaration)}
    (h : b.Complete operations schemas entries r) (hunique : r.checkUniqueNames = .ok ()) {registry : Registry}
    (hregistry : registry.unnamed = r.registry) {again : Resolver}
    (hagain : again = { r with registry := registry.overwrite entries }) {namedEnums : Bool} {d : Description}
    (hlast : (if namedEnums then
        ((again.nameEnums operations).1.map fun enums =>
          ⟨(again.nameEnums operations).2.1.registry, (again.nameEnums operations).2.2, enums⟩,
          (again.nameEnums operations).2.1)
      else (.ok ⟨again.registry, operations, []⟩, again)) = (.ok d, r')) :
    Resolver.describe b.source namedEnums b.document { r with registry } = (.ok d, r') := by
  obtain ⟨hregister, hrun, hresolved⟩ := h.reads_again hregistry hagain
  have hchecked : again.checkUniqueNames = .ok () := by
    rw [hagain]
    exact checkUniqueNames_unnamed (h.unnamed_overwrite hregistry) hunique
  refine andThen_eq_ok.mpr ⟨(), again, hregister, andThen_eq_ok.mpr ⟨operations, again, hrun, ?_⟩⟩
  refine andThen_eq_ok.mpr ⟨(), again, hresolved, andThen_eq_ok.mpr ⟨(), again, by rw [hchecked], ?_⟩⟩
  exact hlast

/-- **A description can be repeated.**  A resolver that has described a document describes it in the same way
    again, and is what it was afterwards. -/
theorem describe_again {namedEnums : Bool} {d : Description} (h : b.describe namedEnums = (.ok d, r')) :
    r'.describe b.source namedEnums b.document = (.ok d, r') := by
  obtain ⟨operations, r₀, r, hreads, hresolve, hunique, hnamed⟩ := describe_eq_ok.mp h
  obtain ⟨schemas, entries, hcomplete⟩ := hreads.exists_complete hresolve
  have hunnamed := hcomplete.settled.unnamed_eq
  cases namedEnums with
  | false =>
    obtain ⟨rfl, rfl⟩ := hnamed
    have hsame : r' = { r' with registry := r'.registry.overwrite entries } := by rw [hcomplete.kept]
    exact hcomplete.describe_eq hunique hunnamed hsame rfl
  | true =>
    obtain ⟨enums, henums, rfl, rfl⟩ := hnamed
    -- Naming changes nothing but the registry.
    obtain ⟨registry, hafter⟩ : ∃ registry, (r.nameEnums operations).2.1 = { r with registry } := ⟨_, rfl⟩
    have hregistry : registry.unnamed = r.registry := by
      have hmap := (map_unnamed_nameEnums r operations henums).trans hunnamed
      rwa [hafter] at hmap
    have hnames := nameEnums_unnamed (hcomplete.unnamed_overwrite hregistry) henums
    have hlast : Resolver.describe b.source true b.document { r with registry }
        = (.ok ⟨(r.nameEnums operations).2.1.registry, (r.nameEnums operations).2.2, enums⟩,
          (r.nameEnums operations).2.1) := by
      refine hcomplete.describe_eq hunique hregistry rfl ?_
      rw [if_pos rfl, hnames, henums]
      rfl
    rwa [← hafter] at hlast

end Bundle

/-! ### An object that is used again and again -/

namespace Job

/-- What an object is asked for: the description of its document, or the files that are generated from it. -/
inductive Request where
  | description
  | files

/-- What it answers. -/
inductive Answer where
  | description (result : Except Failure Description)
  | files (result : Except Failure Output.Project)

/-- The object after one request: whatever is asked for, its resolver describes the document. -/
def next (options : Output.Options) (j : Job) : Job :=
  { j with resolver := (j.describe options.namedEnums).2 }

/-- The answer to a request. -/
def answer (options : Output.Options) (j : Job) : Request → Answer
  | .description => .description (j.describe options.namedEnums).1
  | .files => .files (j.generate options)

/-- The answers to requests one after the other, and the object after all of them. -/
def performAll (options : Output.Options) (j : Job) : List Request → List Answer × Job
  | [] => ([], j)
  | request :: rest =>
    let (answers, last) := performAll options (j.next options) rest
    (j.answer options request :: answers, last)

variable {options : Output.Options} {j : Job}

/-- Answers depend on nothing but the description. -/
theorem answer_congr {j' : Job} (h : (j.describe options.namedEnums).1 = (j'.describe options.namedEnums).1)
    (request : Request) : j.answer options request = j'.answer options request := by
  cases request with
  | description => rw [answer, answer, h]
  | files => rw [answer, answer, generate, generate, h]

/-- An object that a request does not change answers all requests like the first one. -/
theorem performAll_of_next_eq (h : j.next options = j) (requests : List Request) :
    j.performAll options requests = (requests.map (j.answer options), j) := by
  induction requests with
  | nil => rfl
  | cons request rest ih => rw [performAll, h, ih, List.map_cons]

/-- **Describing is repeatable.**  When a new object has described its document once, it has nothing left to load
    and misses nothing, and no later request changes it: it asks for no more documents, and its registry, its loaded
    files and everything else stay as they are.  All answers are those that the new object would have given. -/
theorem repeatable {base entry : String} {d : Description} (hstart : Resolver.start base entry = .ok j.resolver)
    (hfirst : (j.describe options.namedEnums).1 = .ok d) :
    (j.next options).resolver.queue = [] ∧ (j.next options).resolver.pending = []
      ∧ ∀ requests, (j.next options).performAll options requests
        = (requests.map (j.answer options), j.next options) := by
  obtain ⟨source, document, resolver⟩ := j
  -- The object has a new resolver, so its first description is that of a bundle.
  let b : Bundle := ⟨source, base, resolver.entry, document⟩
  have hb : b.describe options.namedEnums = Job.describe ⟨source, document, resolver⟩ options.namedEnums := by
    rw [Bundle.describe, describe, ← Resolver.eq_fresh_of_start hstart]
  have hdescribed : b.describe options.namedEnums
      = (.ok d, (Job.next options ⟨source, document, resolver⟩).resolver) := by
    rw [hb]
    exact Prod.ext hfirst rfl
  have hagain : (Job.next options ⟨source, document, resolver⟩).describe options.namedEnums
      = (.ok d, (Job.next options ⟨source, document, resolver⟩).resolver) := Bundle.describe_again hdescribed
  obtain ⟨hqueue, hpending⟩ := Bundle.queue_and_pending_of_describe hdescribed
  refine ⟨hqueue, hpending, fun requests => ?_⟩
  -- So the object after the first request is one that requests do not change.
  have hnext : (Job.next options ⟨source, document, resolver⟩).next options
      = Job.next options ⟨source, document, resolver⟩ := by
    rw [next, hagain]
  have hanswer : ∀ request, (Job.next options ⟨source, document, resolver⟩).answer options request
      = Job.answer options ⟨source, document, resolver⟩ request :=
    answer_congr (by rw [hagain, hfirst])
  rw [performAll_of_next_eq hnext]
  exact congrArg (·, _) (List.map_congr_left fun request _ => hanswer request)

end Job

/-! ### A stock of items -/

/-- A field that is one of two texts. -/
def eitherOf (value value' : String) : Value :=
  .map [(.text "enum", .list [.text value, .text value'])]

/-- An item in a file of its own, with an enum inside. -/
def itemEntries : List (Value × Value) :=
  [(.text "properties", .map [(.text "grade", eitherOf "new" "used")])]

/-- The stock has an enum and a link to the item. -/
def stockEntries : List (Value × Value) :=
  [(.text "properties", .map [(.text "state", eitherOf "open" "closed"),
    (.text "item", .map [(.text "$ref", .text "./item.yaml#/components/schemas/Item")])])]

/-- An object for the stock that has not been used yet. -/
def stock : Job where
  source := Source.ofTable [("/specs/item.yaml", Bundle.holding "Item" (.map itemEntries))]
  document := Bundle.holding "Stock" (.map stockEntries)
  resolver := Resolver.fresh "/specs" "main.yaml"

theorem converts_eitherOf (scope : Link.Scope) (value value' : String) :
    Schema.Converts scope (eitherOf value value') [] (.enum [value, value'] none) :=
  .enum ⟨rfl, rfl⟩ rfl rfl

theorem converts_item : Schema.Converts ⟨"main.yaml", "item.yaml"⟩ (.map itemEntries) []
    (.object [⟨"grade", .enum ["new", "used"] none, false⟩]) := by
  let grade : Schema.Property := ⟨⟨eitherOf "new" "used", [], .enum ["new", "used"] none⟩, "grade", false⟩
  have howns : Schema.Owns itemEntries (some [grade]) := ⟨_, rfl, rfl, by
    intro p hp
    rw [List.mem_singleton.mp hp]
    rfl⟩
  have hgrade : ∀ p ∈ [grade], Schema.Converts ⟨"main.yaml", "item.yaml"⟩ p.schema p.log p.type := by
    intro p hp
    rw [List.mem_singleton.mp hp]
    exact converts_eitherOf _ _ _
  have hobject := Schema.Converts.object ⟨rfl, rfl⟩ howns hgrade rfl rfl
  have hfields : Schema.Property.field grade = ⟨"grade", .enum ["new", "used"] none, false⟩ := by cbv
  rwa [List.map_singleton, hfields] at hobject

theorem converts_stock : Schema.Converts ⟨"main.yaml", ""⟩ (.map stockEntries)
    ["item.yaml#/components/schemas/Item"] (.object [⟨"state", .enum ["open", "closed"] none, false⟩,
      ⟨"item", .ref "item.yaml#/components/schemas/Item", false⟩]) := by
  let state : Schema.Property := ⟨⟨eitherOf "open" "closed", [], .enum ["open", "closed"] none⟩, "state", false⟩
  let item : Schema.Property := ⟨⟨.map [(.text "$ref", .text "./item.yaml#/components/schemas/Item")],
    ["item.yaml#/components/schemas/Item"], .ref "item.yaml#/components/schemas/Item"⟩, "item", false⟩
  have howns : Schema.Owns stockEntries (some [state, item]) :=
    ⟨_, rfl, rfl, List.forall_mem_cons.mpr ⟨rfl, List.forall_mem_singleton.mpr rfl⟩⟩
  have hown : ∀ p ∈ [state, item], Schema.Converts ⟨"main.yaml", ""⟩ p.schema p.log p.type :=
    List.forall_mem_cons.mpr ⟨converts_eitherOf _ _ _, List.forall_mem_singleton.mpr (.link rfl (by cbv))⟩
  have hobject := Schema.Converts.object ⟨rfl, rfl⟩ howns hown rfl rfl
  have hfields : [state, item].map Schema.Property.field = [⟨"state", .enum ["open", "closed"] none, false⟩,
      ⟨"item", .ref "item.yaml#/components/schemas/Item", false⟩] := by cbv
  rwa [hfields] at hobject

def stockRegistry (state grade : Option String) : Registry :=
  [("#/components/schemas/Stock", ⟨"Stock", "#/components/schemas/Stock",
      .object [⟨"state", .enum ["open", "closed"] state, false⟩,
        ⟨"item", .ref "item.yaml#/components/schemas/Item", false⟩]⟩),
    ("item.yaml#/components/schemas/Item", ⟨"Item", "item.yaml#/components/schemas/Item",
      .object [⟨"grade", .enum ["new", "used"] grade, false⟩]⟩)]

/-- What is known when both files have been read, before the enums get names. -/
def stockRead : Resolver where
  entry := "main.yaml"
  base := "/specs"
  registry := stockRegistry none none
  pending := []
  queue := []
  loaded := ["", "item.yaml"]
  asked := ["/specs/item.yaml"]

def stockDescription : Description where
  registry := stockRegistry (some "State") (some "Grade")
  operations := []
  enums := [("State", ["open", "closed"]), ("Grade", ["new", "used"])]

/-- The first document is read: its item is still missing. -/
def stockStarted : Resolver where
  entry := "main.yaml"
  base := "/specs"
  registry := stockRead.registry.take 1
  pending := ["item.yaml#/components/schemas/Item"]
  queue := ["item.yaml"]
  loaded := [""]
  asked := []

theorem register_stock : stock.resolver.register "" stock.document = (.ok (), stockStarted) := by
  show Resolver.registerSchemas _ "" [(.text "Stock", .map stockEntries)] = _
  have hscope : stock.resolver.scope "" = ⟨"main.yaml", ""⟩ := rfl
  simp only [Resolver.registerSchemas, Resolver.convert, Resolver.run, Value.asText, hscope,
    converts_stock.convert_eq]
  rfl

theorem load_stock : stockStarted.load stock.source "item.yaml" = (.ok (), stockRead) := by
  have hjoin : Locator.join stockStarted.base "item.yaml" = .ok "/specs/item.yaml" := Bundle.join_item
  rw [Resolver.load_eq, hjoin]
  show Resolver.registerSchemas _ "item.yaml" [(.text "Item", .map itemEntries)] = _
  have hscope : ((stockStarted.taken "item.yaml").asking "/specs/item.yaml").scope "item.yaml"
    = ⟨"main.yaml", "item.yaml"⟩ := rfl
  simp only [Resolver.registerSchemas, Resolver.convert, Resolver.run, Value.asText, hscope,
    converts_item.convert_eq]
  rfl

theorem describe_stock : stock.describe true
    = (.ok stockDescription, { stockRead with registry := stockDescription.registry }) := by
  have hresolve : stockStarted.resolve stock.source = (.ok (), stockRead) := by
    refine Bundle.resolve_eq_ok.mpr ⟨?_, rfl⟩
    show stockStarted.loadAll stock.source (_ + 1) = _
    rw [Resolver.loadAll_cons rfl load_stock, Resolver.loadAll_nil rfl]
  have hnames : stockRead.nameEnums []
      = (.ok stockDescription.enums, { stockRead with registry := stockDescription.registry }, []) := by cbv
  refine Bundle.describe_eq_ok (b := ⟨stock.source, "/specs", "main.yaml", stock.document⟩) |>.mpr
    ⟨[], stockStarted, stockRead, ⟨_, register_stock, rfl⟩, hresolve, rfl, stockDescription.enums, ?_⟩
  rw [hnames]
  exact ⟨rfl, rfl, rfl⟩

/-- The description of the stock can be asked for again and again, and so can the client. -/
theorem stock_repeatable : Resolver.start "/specs" "main.yaml" = .ok stock.resolver
    ∧ (stock.describe true).1 = .ok stockDescription
    ∧ (stock.next ⟨true, none⟩).resolver.asked = ["/specs/item.yaml"]
    ∧ (stock.next ⟨true, none⟩).performAll ⟨true, none⟩ [.description, .files, .description]
      = ([.description (.ok stockDescription), .files (stock.generate ⟨true, none⟩),
          .description (.ok stockDescription)], stock.next ⟨true, none⟩) := by
  have hstart : Resolver.start "/specs" "main.yaml" = .ok stock.resolver := by cbv
  have hfirst : (stock.describe true).1 = .ok stockDescription := by rw [describe_stock]
  have hrepeat := @Job.repeatable ⟨true, none⟩ stock _ _ _ hstart hfirst
  refine ⟨hstart, hfirst, ?_, ?_⟩
  · rw [Job.next, describe_stock]
    rfl
  · rw [hrepeat.2.2]
    simp only [List.map_cons, List.map_nil, Job.answer, hfirst]

end TypedClient
