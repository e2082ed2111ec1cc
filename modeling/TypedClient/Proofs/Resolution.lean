import TypedClient.Proofs.Closure
import TypedClient.Proofs.Subvalues
import TypedClient.Proofs.TextOrder
import Mathlib.Data.List.Perm.Subperm

namespace TypedClient.Bundle

open Schema (Converts LinksTo)

/-!
# Links to missing schemas

If every file that is linked to can be read, loading ends with all of them loaded, and the links to
schemas that no file declares are what is missing then.

* `WithinReach` — the files that the documents of the source name are no more than the source says.
* `Readable` — every reachable file can be read, and the operations can be extracted.
* `Settled.loadAll_ok` — under these conditions loading succeeds.
* `ReportsDangling` — what resolving gives: the least key that is linked to and not declared, if any.
* `loading_computes_closure` — a description is made of the reachable files, and links to missing schemas are
  reported.
-/

/-- No more files than the source says are named in its documents. -/
def WithinReach (b : Bundle) : Prop :=
  ∃ files : List String, files.length ≤ b.source.reach
    ∧ ∀ file key, b.Reachable file → file ≠ "" → b.Mentions file key →
      Link.fileOf key = file ∨ Link.fileOf key ∈ files

/-- Every reachable file can be read and its schemas converted, and the operations can be extracted. -/
structure Readable (b : Bundle) : Prop where
  schemas : ∀ file, b.Reachable file → ∃ entries, b.schemasOf file = .ok entries
    ∧ ∀ label schema, (label, schema) ∈ entries →
      ∃ name log type, label = .text name ∧ Schema.convert (b.scope file) schema = ⟨log, .ok type⟩
  operations : ∃ log operations, b.operations = ⟨log, .ok operations⟩

variable {b : Bundle} {file key : String} {r r' : Resolver}

/-! ### Loading succeeds -/

/-- A readable first document is read. -/
theorem Readable.reads (h : b.Readable) : ∃ operations r, b.Reads operations r := by
  obtain ⟨entries, hentries, hschemas⟩ := h.schemas "" .first
  obtain ⟨log, operations, hoperations⟩ := h.operations
  obtain ⟨r₁, hregister⟩ : ∃ r₁, (Resolver.fresh b.base b.entry).registerSchemas "" entries
      = (.ok (), r₁) := by
    refine Resolver.registerSchemas_ok _ fun label schema hmem => ?_
    obtain ⟨name, log, type, rfl, hconvert⟩ := hschemas label schema hmem
    exact ⟨name, log, type, rfl, Converts.of_convert hconvert⟩
  exact ⟨operations, r₁.noteLinks log, r₁, register_first_eq_ok.mpr ⟨entries, hentries, hregister⟩,
    run_eq_ok.mpr ⟨log, hoperations, rfl⟩⟩

/-- A readable file of the queue is loaded. -/
theorem Settled.load_ok (h : b.Settled r) (hreadable : b.Readable) (hfile : file ∈ r.queue) :
    ∃ r', r.load b.source file = (.ok (), r') := by
  obtain ⟨entries, hentries, hschemas⟩ := hreadable.schemas file (h.reachable file (.inr hfile))
  rw [schemasOf, documentOf, if_neg (h.ne_first hfile), ← h.base_eq] at hentries
  simp only [Except.bind_eq_ok] at hentries
  obtain ⟨document, ⟨locator, hjoin, hask⟩, hentries⟩ := hentries
  rw [Resolver.load_eq_registerSchemas hjoin hask hentries]
  refine Resolver.registerSchemas_ok _ fun label schema hmem => ?_
  obtain ⟨name, log, type, rfl, hconvert⟩ := hschemas label schema hmem
  refine ⟨name, log, type, rfl, ?_⟩
  rw [h.scope_asking]
  exact Converts.of_convert hconvert

/-- Every reachable file is loaded or queued after the first document, or named in another one. -/
theorem Settled.mem_of_reachable (h : b.Settled r) {files : List String}
    (hreach : ∀ file key, b.Reachable file → file ≠ "" → b.Mentions file key →
      Link.fileOf key = file ∨ Link.fileOf key ∈ files)
    (hfile : b.Reachable file) : file ∈ r.loaded ++ r.queue ++ files := by
  induction hfile with
  | first => exact List.mem_append_left _ (List.mem_append_left _ h.first_loaded)
  | @link file key hfile hmentions ih =>
    by_cases hne : file = ""
    · -- What the first document links to is known, so its file is loaded or queued.
      subst hne
      refine List.mem_append_left _ (List.mem_append.mpr ?_)
      rcases h.known "" h.first_loaded key hmentions with hkey | hkey
      · obtain ⟨other, hother, name, schema, -, rfl⟩ := (h.mem_keys key).mp hkey
        rw [fileOf_schemaKey (h.reachable other (.inl hother)).notMem]
        exact .inl hother
      · exact h.consistent.missing_file key hkey
    · rcases hreach file key hfile hne hmentions with heq | hmem
      · rwa [heq]
      · exact List.mem_append_right _ hmem

/-- A loaded file counts once more. -/
theorem Settled.length_loaded (h : b.Settled r) (hfile : file ∈ r.queue)
    (hload : r.load b.source file = (.ok (), r')) : r'.loaded.length = r.loaded.length + 1 := by
  have hnew := h.consistent.queue_new file hfile
  obtain ⟨locator, entries, hjoin, -, hregister⟩ := load_eq_ok h.base_eq (h.ne_first hfile) hload
  have hregistered := Resolver.registerSchemas_eq_ok (h.consistent.asking hfile hjoin) hregister
  rw [hregistered.loaded_eq]
  simp [Resolver.asking, Resolver.taken, hnew]

/-- A queue is empty when as many files are loaded as there are. -/
theorem Settled.queue_eq_nil (h : b.Settled r) {files : List String}
    (hfiles : ∀ file, b.Reachable file → file ∈ files) (hlength : files.length ≤ r.loaded.length) :
    r.queue = [] := by
  rw [List.eq_nil_iff_forall_not_mem]
  intro file hfile
  -- One more file would be one too many.
  have hnodup : (file :: r.loaded).Nodup :=
    List.nodup_cons.mpr ⟨h.consistent.queue_new file hfile, h.consistent.loaded_once⟩
  have hsubset : file :: r.loaded ⊆ files := by
    intro other hother
    rcases List.mem_cons.mp hother with rfl | hother
    · exact hfiles other (h.reachable other (.inr hfile))
    · exact hfiles other (h.reachable other (.inl hother))
  have hle := (List.subperm_of_subset hnodup hsubset).length_le
  rw [List.length_cons] at hle
  omega

/-- **Loading succeeds.**  Every file is loaded once, so there are at most as many steps as there are
    reachable files that are not loaded yet. -/
theorem Settled.loadAll_ok (h : b.Settled r) (hreadable : b.Readable) {files : List String}
    (hfiles : ∀ file, b.Reachable file → file ∈ files) {fuel : Nat}
    (hfuel : files.length ≤ r.loaded.length + fuel) :
    ∃ r', r.loadAll b.source fuel = (.ok (), r') := by
  induction fuel generalizing r with
  | zero => exact ⟨r, Resolver.loadAll_nil (h.queue_eq_nil hfiles hfuel)⟩
  | succ fuel ih =>
    cases hqueue : r.queue with
    | nil => exact ⟨r, Resolver.loadAll_nil hqueue⟩
    | cons file rest =>
      have hfile : file ∈ r.queue := by
        rw [hqueue]
        exact List.mem_cons_self
      obtain ⟨r₁, hload⟩ := h.load_ok hreadable hfile
      have hlength := h.length_loaded hfile hload
      rw [Resolver.loadAll_cons hqueue hload]
      exact ih (h.load hqueue hload) (by omega)

/-! ### What is missing -/

/-- When everything is loaded, what is missing are the keys that are linked to and not declared. -/
theorem Settled.mem_pending_iff (h : b.Settled r) (hqueue : r.queue = []) :
    key ∈ r.pending ↔ b.Dangling key := by
  constructor
  · intro hkey
    obtain ⟨file, hfile, hmentions⟩ := h.missing key hkey
    have hreachable := (h.mem_loaded_iff hqueue).mp hfile
    refine ⟨⟨file, hreachable, hmentions⟩, ?_⟩
    rintro ⟨name, schema, hdefines, heq⟩
    have hloaded := (h.mem_loaded_iff hqueue).mpr (.link hreachable hmentions)
    exact h.consistent.missing_new key hkey
      ((h.mem_keys key).mpr ⟨_, hloaded, name, schema, hdefines, heq⟩)
  · rintro ⟨⟨file, hfile, hmentions⟩, hundefined⟩
    rcases h.known file ((h.mem_loaded_iff hqueue).mpr hfile) key hmentions with hkey | hkey
    · obtain ⟨other, hother, name, schema, hdefines, rfl⟩ := (h.mem_keys key).mp hkey
      have hfileOf := fileOf_schemaKey (h.reachable other (.inl hother)).notMem name
      refine absurd ⟨name, schema, ?_, ?_⟩ hundefined
      · rwa [hfileOf]
      · rw [hfileOf]
    · exact hkey

/-- What resolving a resolver gives: the least key that is linked to and not declared, if there is one,
    and nothing to complain about otherwise. -/
structure ReportsDangling (b : Bundle) (r : Resolver) : Prop where
  reports_iff : (∃ key, (r.resolve b.source).1 = .error (.unresolvableSchema key))
    ↔ ∃ key, b.Dangling key
  reports_least : ∀ key, (r.resolve b.source).1 = .error (.unresolvableSchema key) →
    b.Dangling key ∧ ∀ other, b.Dangling other → Text.isOrdered key other = true
  resolves_iff : (r.resolve b.source).1 = .ok () ↔ ∀ key, ¬ b.Dangling key

/-- Resolving loads all files and then looks for missing keys. -/
theorem Settled.resolve_eq (hload : r.loadAll b.source (b.source.reach + r.queue.length) = (.ok (), r')) :
    r.resolve b.source = match r'.missing with
      | [] => (.ok (), r')
      | key :: _ => (.error (.unresolvableSchema key), r') := by
  cases hmissing : r'.missing with
  | nil => simp only [Resolver.resolve, hload, hmissing]
  | cons key keys => simp only [Resolver.resolve, hload, hmissing]

/-- Resolving reports the least of the keys that are linked to and not declared. -/
theorem Settled.reportsDangling (h : b.Settled r) (hreadable : b.Readable) (hreach : b.WithinReach) :
    b.ReportsDangling r := by
  obtain ⟨files, hlength, hfiles⟩ := hreach
  obtain ⟨r', hload⟩ : ∃ r', r.loadAll b.source (b.source.reach + r.queue.length) = (.ok (), r') := by
    refine h.loadAll_ok hreadable (fun file hfile => h.mem_of_reachable hfiles hfile) ?_
    simp only [List.length_append]
    omega
  obtain ⟨hsettled, hqueue⟩ := h.loadAll hload
  have hresolve := Settled.resolve_eq hload
  have hmissing : ∀ key, key ∈ r'.missing ↔ b.Dangling key := by
    intro key
    rw [Resolver.missing, (List.mergeSort_perm _ _).mem_iff]
    exact hsettled.mem_pending_iff hqueue
  have hordered : r'.missing.Pairwise fun a b => Text.isOrdered a b :=
    Text.pairwise_mergeSort id r'.pending
  cases hkeys : r'.missing with
  | nil =>
    rw [hkeys] at hresolve
    have hnone : ∀ key, ¬ b.Dangling key := by
      intro key hkey
      rw [← hmissing, hkeys] at hkey
      cases hkey
    exact {
      reports_iff := by simp [hresolve, hnone]
      reports_least := by simp [hresolve]
      resolves_iff := by simp [hresolve, hnone] }
  | cons least rest =>
    rw [hkeys] at hresolve
    have hleast : b.Dangling least := by
      rw [← hmissing, hkeys]
      exact List.mem_cons_self
    -- The missing keys are sorted, so the first one is the least.
    have hfirst : ∀ other, b.Dangling other → Text.isOrdered least other = true := by
      intro other hother
      rw [← hmissing, hkeys] at hother
      rw [hkeys, List.pairwise_cons] at hordered
      rcases List.mem_cons.mp hother with rfl | hother
      · exact Text.isOrdered_refl other
      · exact hordered.1 other hother
    exact {
      reports_iff := ⟨fun _ => ⟨least, hleast⟩, fun _ => ⟨least, by rw [hresolve]⟩⟩
      reports_least := by
        intro key hkey
        rw [hresolve] at hkey
        cases hkey
        exact ⟨hleast, hfirst⟩
      resolves_iff := by
        rw [hresolve]
        constructor
        · intro h
          cases h
        · intro h
          exact absurd hleast (h least) }

/-! ### Sources of finitely many documents -/

/-- A link denotes a schema of the file that it stands in, or the schema that it denotes everywhere. -/
theorem fileOf_keyOfValue {entry : String} {link : Value} (hfile : '#' ∉ file.toList)
    (h : Link.keyOfValue ⟨entry, file⟩ link = .ok key) :
    Link.fileOf key = file ∨ Link.keyOfValue ⟨entry, ""⟩ link = .ok key := by
  unfold Link.keyOfValue at h ⊢
  split at h
  · next s =>
    simp only [Link.keyOf] at h ⊢
    split at h
    · cases h
    · next pointer _ =>
      split at h
      · next hprefix =>
        -- Only a link without a file of its own depends on the file that it stands in.
        simp only [if_pos hprefix]
        obtain ⟨target, htarget, hkey⟩ := Except.bind_eq_ok.mp h
        cases hkey
        unfold Link.targetFile at htarget ⊢
        split at htarget
        · cases htarget
          exact .inl (fileOf_append hfile _)
        · next hne =>
          rw [if_neg hne]
          obtain ⟨canonical, hcanonical, htarget⟩ := Except.bind_eq_ok.mp htarget
          cases htarget
          rw [hcanonical]
          exact .inr rfl
      · cases h
  · cases h
  · cases h

/-- The documents of a table are what the table gives. -/
theorem mem_values_of_ask {documents : Table String Value} {locator : String} {document : Value}
    (h : (Source.ofTable documents).ask locator = .ok document) : document ∈ documents.values := by
  simp only [Source.ofTable] at h
  split at h
  · next found hfound =>
    cases h
    exact Table.mem_values_iff.mpr ⟨locator, Table.mem_of_get?_eq_some hfound⟩
  · cases h

/-- The file that a link names by itself. -/
def namedFile (entry : String) (link : Value) : Option String :=
  (Link.keyOfValue ⟨entry, ""⟩ link).toOption.map Link.fileOf

/-- **Documents are within reach.**  A source that gives no documents but these names no more files than they have
    values. -/
theorem withinReach_of_documents (documents : List Value)
    (hask : ∀ locator document, b.source.ask locator = .ok document → document ∈ documents)
    (hreach : Value.weightAll documents ≤ b.source.reach) : b.WithinReach := by
  refine ⟨(Value.subvaluesAll documents).filterMap (namedFile b.entry), ?_, ?_⟩
  · refine Nat.le_trans (List.length_filterMap_le _ _) ?_
    rwa [Value.length_subvaluesAll]
  · rintro file key hreachable hne ⟨schema, ⟨entries, label, hentries, hmem⟩ | ⟨heq, -⟩, link, hv, hkey⟩
    · rcases fileOf_keyOfValue hreachable.notMem hkey with hfile | hnamed
      · exact .inl hfile
      · refine .inr (List.mem_filterMap.mpr ⟨link, ?_, ?_⟩)
        · rw [schemasOf, documentOf, if_neg hne] at hentries
          simp only [Except.bind_eq_ok] at hentries
          obtain ⟨document, ⟨locator, -, hdocument⟩, hschemas⟩ := hentries
          refine Value.mem_subvaluesAll_iff.mpr ⟨document, hask locator document hdocument, ?_⟩
          exact Value.mem_subvalues_trans (Value.mem_subvalues_of_visits hv) document
            (Value.mem_subvalues_of_schemasOf hschemas hmem)
        · rw [namedFile, hnamed]
          rfl
    · exact absurd heq hne

/-- **Tables are within reach.**  Documents that are kept in a table name no more files than the table
    says. -/
theorem withinReach_of_ofTable {documents : Table String Value} (h : b.source = Source.ofTable documents) :
    b.WithinReach := by
  refine withinReach_of_documents documents.values (fun locator document hdocument => ?_) ?_
  · rw [h] at hdocument
    exact mem_values_of_ask hdocument
  · rw [h]
    exact Nat.le_refl _

/-- **Loading computes the closure of the links.**  If there is a description, it is made of the files
    that can be reached and of nothing else.  If all of these can be read, the links to schemas that
    their files do not declare are found, and the least of their keys is reported. -/
theorem loading_computes_closure (b : Bundle) :
    (∀ namedEnums d r, b.describe namedEnums = (.ok d, r) → b.IsClosure d r)
      ∧ (b.Readable → b.WithinReach → ∃ operations r, b.Reads operations r ∧ b.ReportsDangling r) := by
  refine ⟨fun namedEnums d r h => isClosure_of_describe h, fun hreadable hreach => ?_⟩
  obtain ⟨operations, r, hreads⟩ := hreadable.reads
  exact ⟨operations, r, hreads, hreads.settled.reportsDangling hreadable hreach⟩

/-! ### Two files -/

/-- A document that holds one schema for others to link to. -/
def holding (name : String) (schema : Value) : Value :=
  .map [(.text "components", .map [(.text "schemas", .map [(.text name, schema)])])]

/-- An array of the items that another file describes. -/
def ordersSchema : Value :=
  .map [(.text "type", .text "array"),
    (.text "items", .map [(.text "$ref", .text "./item.yaml#/components/schemas/Item")])]

/-- Orders in one file and a schema `name` in the file that they link to. -/
def orders (name : String) : Bundle where
  source := Source.ofTable [("/specs/item.yaml", holding name (.map [(.text "type", .text "string")]))]
  base := "/specs"
  entry := "main.yaml"
  document := holding "Orders" ordersSchema

theorem convert_orders : Schema.convert ⟨"main.yaml", ""⟩ ordersSchema
    = ⟨["item.yaml#/components/schemas/Item"],
      .ok (.array (.ref "item.yaml#/components/schemas/Item"))⟩ := by cbv

theorem convert_item : Schema.convert ⟨"main.yaml", "item.yaml"⟩ (.map [(.text "type", .text "string")])
    = ⟨[], .ok .string⟩ := by cbv

theorem join_item : Locator.join "/specs" "item.yaml" = .ok "/specs/item.yaml" := by cbv

theorem schemasOf_item (name : String) :
    (orders name).schemasOf "item.yaml" = .ok [(.text name, .map [(.text "type", .text "string")])] := by
  rw [schemasOf, documentOf, if_neg (by decide)]
  show (do Resolver.schemasOf (← do (orders name).source.ask (← Locator.join "/specs" "item.yaml"))) = _
  rw [join_item]
  rfl

/-- The orders link to the items, and the items to nothing. -/
theorem mentions_orders {name file key : String} (hfile : file = "" ∨ file = "item.yaml")
    (h : (orders name).Mentions file key) : file = "" ∧ key = "item.yaml#/components/schemas/Item" := by
  rcases hfile with rfl | rfl
  · refine ⟨rfl, ?_⟩
    have hentries : (orders name).schemasOf "" = .ok [(.text "Orders", ordersSchema)] := rfl
    rcases (mentions_iff hentries).mp h with ⟨label, schema, hmem, hlink⟩ | ⟨-, os, hos, o, ho, -⟩
    · cases List.mem_singleton.mp hmem
      have hlog := (Converts.of_convert convert_orders).mem_log_iff_linksTo.mpr hlink
      exact List.mem_singleton.mp hlog
    · cases hos
      cases ho
  · rcases (mentions_iff (schemasOf_item name)).mp h with ⟨label, schema, hmem, hlink⟩ | ⟨heq, -⟩
    · cases List.mem_singleton.mp hmem
      cases (Converts.of_convert convert_item).mem_log_iff_linksTo.mpr hlink
    · exact absurd heq (by decide)

theorem reachable_orders {name file : String} (h : (orders name).Reachable file) :
    file = "" ∨ file = "item.yaml" := by
  induction h with
  | first => exact .inl rfl
  | link _ hmentions ih =>
    rw [(mentions_orders ih hmentions).2]
    exact .inr (by decide)

theorem readable_orders (name : String) : (orders name).Readable where
  schemas file hfile := by
    rcases reachable_orders hfile with rfl | rfl
    · refine ⟨[(.text "Orders", ordersSchema)], rfl, fun label schema hmem => ?_⟩
      cases List.mem_singleton.mp hmem
      exact ⟨"Orders", _, _, rfl, convert_orders⟩
    · refine ⟨_, schemasOf_item name, fun label schema hmem => ?_⟩
      cases List.mem_singleton.mp hmem
      exact ⟨name, _, _, rfl, convert_item⟩
  operations := ⟨[], [], rfl⟩

/-- What is known when the orders and the items have been read. -/
def ordersRead : Resolver where
  entry := "main.yaml"
  base := "/specs"
  registry := [("#/components/schemas/Orders", ⟨"Orders", "#/components/schemas/Orders",
      .array (.ref "item.yaml#/components/schemas/Item")⟩),
    ("item.yaml#/components/schemas/Item", ⟨"Item", "item.yaml#/components/schemas/Item", .string⟩)]
  pending := []
  queue := []
  loaded := ["", "item.yaml"]
  asked := ["/specs/item.yaml"]

/-- What is known when only the orders have been read. -/
def ordersStarted : Resolver where
  entry := "main.yaml"
  base := "/specs"
  registry := ordersRead.registry.take 1
  pending := ["item.yaml#/components/schemas/Item"]
  queue := ["item.yaml"]
  loaded := [""]
  asked := []

theorem register_orders :
    (Resolver.fresh "/specs" "main.yaml").register "" (orders "Item").document
      = (.ok (), ordersStarted) := by
  show Resolver.registerSchemas _ "" [(.text "Orders", ordersSchema)] = _
  have hscope : (Resolver.fresh "/specs" "main.yaml").scope "" = ⟨"main.yaml", ""⟩ := rfl
  simp only [Resolver.registerSchemas, Resolver.convert, Resolver.run, Value.asText, hscope,
    convert_orders]
  rfl

theorem load_item : ordersStarted.load (orders "Item").source "item.yaml" = (.ok (), ordersRead) := by
  have hjoin : Locator.join ordersStarted.base "item.yaml" = .ok "/specs/item.yaml" := join_item
  rw [Resolver.load_eq, hjoin]
  show Resolver.registerSchemas _ "item.yaml" [(.text "Item", .map [(.text "type", .text "string")])] = _
  have hscope : ((ordersStarted.taken "item.yaml").asking "/specs/item.yaml").scope "item.yaml"
    = ⟨"main.yaml", "item.yaml"⟩ := rfl
  simp only [Resolver.registerSchemas, Resolver.convert, Resolver.run, Value.asText, hscope,
    convert_item]
  rfl

theorem describe_orders :
    (orders "Item").describe false = (.ok ⟨ordersRead.registry, [], []⟩, ordersRead) := by
  refine describe_eq_ok.mpr ⟨[], ordersStarted, ordersRead, ⟨_, register_orders, rfl⟩,
    resolve_eq_ok.mpr ⟨?_, rfl⟩, rfl, rfl, rfl⟩
  show ordersStarted.loadAll (orders "Item").source (_ + 1) = _
  rw [Resolver.loadAll_cons rfl load_item, Resolver.loadAll_nil rfl]

/-- The orders are read with their items, and the missing items of other orders are reported. -/
theorem orders_closure :
    (orders "Item").describe false = (.ok ⟨ordersRead.registry, [], []⟩, ordersRead)
      ∧ (orders "Item").IsClosure ⟨ordersRead.registry, [], []⟩ ordersRead
      ∧ (orders "Thing").Readable ∧ (orders "Thing").WithinReach
      ∧ ∃ operations r, (orders "Thing").Reads operations r ∧ (orders "Thing").ReportsDangling r := by
  have hreach : (orders "Thing").WithinReach := withinReach_of_ofTable rfl
  have hclosure := (loading_computes_closure (orders "Item")).1 _ _ _ describe_orders
  have hreports := (loading_computes_closure (orders "Thing")).2 (readable_orders "Thing") hreach
  exact ⟨describe_orders, hclosure, readable_orders "Thing", hreach, hreports⟩

end TypedClient.Bundle
