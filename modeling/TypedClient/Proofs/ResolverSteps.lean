import TypedClient.Description
import TypedClient.Proofs.Extraction
import TypedClient.Proofs.Tables
import Mathlib.Logic.Relation

namespace TypedClient.Resolver

/-!
# What the steps of a resolver change

A resolver takes few kinds of steps: it notes a link, declares a schema, and loads a file.  For each of
them this file says what is in the registry, missing, and queued afterwards.

* `mem_pending_noteLinks`, `mem_queue_noteLinks` — what links add to a resolver.
* `Resolver.declare` — a declared key is not missing any more.
* `taken`, `asking` — the resolver that loads a file, before it has read it.
* `Step` — one step; `steps_resolve` and its like say that everything a resolver does is made of steps.
-/

variable {r : Resolver} {key other file : String} {keys : List String}

/-! ### The start -/

/-- A resolver that knows nothing yet; the document that it starts from has this canonical name. -/
def fresh (base entry : String) : Resolver :=
  { entry, base, registry := [], pending := [], queue := [], loaded := [""], asked := [] }

theorem eq_fresh_of_start {base entry : String} (h : start base entry = .ok r) :
    r = fresh base r.entry := by
  -- The document has no name, or a name with a canonical spelling.
  unfold start at h
  split at h
  · cases h
    rfl
  · obtain ⟨name, -, heq⟩ := Except.bind_eq_ok.mp h
    cases heq
    rfl

/-! ### Links -/

@[simp] theorem registry_noteLink : (r.noteLink key).registry = r.registry := by
  unfold noteLink
  split <;> rfl

@[simp] theorem loaded_noteLink : (r.noteLink key).loaded = r.loaded := by
  unfold noteLink
  split <;> rfl

@[simp] theorem asked_noteLink : (r.noteLink key).asked = r.asked := by
  unfold noteLink
  split <;> rfl

@[simp] theorem base_noteLink : (r.noteLink key).base = r.base := by
  unfold noteLink
  split <;> rfl

@[simp] theorem entry_noteLink : (r.noteLink key).entry = r.entry := by
  unfold noteLink
  split <;> rfl

/-- A link adds its key to the missing ones unless it is declared. -/
theorem mem_pending_noteLink :
    other ∈ (r.noteLink key).pending ↔ other ∈ r.pending ∨ other = key ∧ other ∉ r.registry.keys := by
  unfold noteLink
  split
  · next h =>
    rw [Table.isSome_get?_iff] at h
    constructor
    · exact Or.inl
    · rintro (h' | ⟨rfl, h'⟩)
      · exact h'
      · exact absurd h h'
  · next h =>
    rw [Table.isSome_get?_iff] at h
    by_cases hmem : key ∈ r.pending
    · simp only [List.contains_eq_mem, decide_eq_true hmem, if_true]
      constructor
      · exact Or.inl
      · rintro (h' | ⟨rfl, -⟩)
        · exact h'
        · exact hmem
    · simp only [List.contains_eq_mem, hmem, decide_false, Bool.false_eq_true, if_false,
        List.mem_append, List.mem_singleton]
      constructor
      · rintro (h' | rfl)
        · exact .inl h'
        · exact .inr ⟨rfl, h⟩
      · rintro (h' | ⟨rfl, -⟩)
        · exact .inl h'
        · exact .inr rfl

/-- A link queues its file unless its key is declared or the file is loaded. -/
theorem mem_queue_noteLink :
    file ∈ (r.noteLink key).queue
      ↔ file ∈ r.queue ∨ file = Link.fileOf key ∧ key ∉ r.registry.keys ∧ file ∉ r.loaded := by
  unfold noteLink
  split
  · next h =>
    rw [Table.isSome_get?_iff] at h
    constructor
    · exact Or.inl
    · rintro (h' | ⟨-, h', -⟩)
      · exact h'
      · exact absurd h h'
  · next h =>
    rw [Table.isSome_get?_iff] at h
    simp only [List.contains_eq_mem, Bool.or_eq_true, decide_eq_true_eq]
    split
    · next hknown =>
      constructor
      · exact Or.inl
      · rintro (h' | ⟨rfl, -, h'⟩)
        · exact h'
        · exact hknown.resolve_left h'
    · next hknown =>
      rw [not_or] at hknown
      rw [List.mem_append, List.mem_singleton]
      constructor
      · rintro (h' | rfl)
        · exact .inl h'
        · exact .inr ⟨rfl, h, hknown.1⟩
      · rintro (h' | ⟨rfl, -⟩)
        · exact .inl h'
        · exact .inr rfl

theorem nodup_pending_noteLink (h : r.pending.Nodup) : (r.noteLink key).pending.Nodup := by
  unfold noteLink
  split
  · exact h
  · simp only [List.contains_eq_mem, decide_eq_true_eq]
    split
    · exact h
    · next hmem => exact h.append (List.nodup_singleton _) (by simpa using hmem)

theorem nodup_queue_noteLink (h : r.queue.Nodup) : (r.noteLink key).queue.Nodup := by
  unfold noteLink
  split
  · exact h
  · simp only [List.contains_eq_mem, Bool.or_eq_true, decide_eq_true_eq]
    split
    · exact h
    · next hmem =>
      rw [not_or] at hmem
      exact h.append (List.nodup_singleton _) (by simpa using hmem.2)

/-- What no single link changes, links do not change. -/
theorem noteLinks_induction {P : Resolver → Prop} (h : P r)
    (step : ∀ r key, key ∈ keys → P r → P (r.noteLink key)) : P (r.noteLinks keys) := by
  induction keys generalizing r with
  | nil => exact h
  | cons key keys ih =>
    refine ih (step r key List.mem_cons_self h) fun r key hkey => ?_
    exact step r key (List.mem_cons_of_mem _ hkey)

@[simp] theorem registry_noteLinks : (r.noteLinks keys).registry = r.registry :=
  noteLinks_induction (P := fun r' => r'.registry = r.registry) rfl fun _ _ _ h => by simpa using h

@[simp] theorem loaded_noteLinks : (r.noteLinks keys).loaded = r.loaded :=
  noteLinks_induction (P := fun r' => r'.loaded = r.loaded) rfl fun _ _ _ h => by simpa using h

@[simp] theorem asked_noteLinks : (r.noteLinks keys).asked = r.asked :=
  noteLinks_induction (P := fun r' => r'.asked = r.asked) rfl fun _ _ _ h => by simpa using h

@[simp] theorem base_noteLinks : (r.noteLinks keys).base = r.base :=
  noteLinks_induction (P := fun r' => r'.base = r.base) rfl fun _ _ _ h => by simpa using h

@[simp] theorem entry_noteLinks : (r.noteLinks keys).entry = r.entry :=
  noteLinks_induction (P := fun r' => r'.entry = r.entry) rfl fun _ _ _ h => by simpa using h

/-- Links add their keys to the missing ones, but for those that are declared. -/
theorem mem_pending_noteLinks :
    other ∈ (r.noteLinks keys).pending
      ↔ other ∈ r.pending ∨ other ∈ keys ∧ other ∉ r.registry.keys := by
  induction keys generalizing r with
  | nil => simp [noteLinks]
  | cons key keys ih =>
    show other ∈ ((r.noteLink key).noteLinks keys).pending ↔ _
    rw [ih, mem_pending_noteLink, registry_noteLink, List.mem_cons, or_and_right, or_assoc]

/-- Links queue the files of the keys that are not declared, but for those that are loaded. -/
theorem mem_queue_noteLinks :
    file ∈ (r.noteLinks keys).queue ↔ file ∈ r.queue
      ∨ ∃ key ∈ keys, file = Link.fileOf key ∧ key ∉ r.registry.keys ∧ file ∉ r.loaded := by
  induction keys generalizing r with
  | nil => simp [noteLinks]
  | cons key keys ih =>
    show file ∈ ((r.noteLink key).noteLinks keys).queue ↔ _
    rw [ih, mem_queue_noteLink, registry_noteLink, loaded_noteLink, or_assoc,
      List.exists_mem_cons_iff]

/-! ### Declarations -/

@[simp] theorem loaded_declare {name : String} {type : ClientType} :
    (r.declare file name type).loaded = r.loaded := rfl

@[simp] theorem queue_declare {name : String} {type : ClientType} :
    (r.declare file name type).queue = r.queue := rfl

@[simp] theorem base_declare {name : String} {type : ClientType} :
    (r.declare file name type).base = r.base := rfl

@[simp] theorem entry_declare {name : String} {type : ClientType} :
    (r.declare file name type).entry = r.entry := rfl

theorem registry_declare {name : String} {type : ClientType} :
    (r.declare file name type).registry
      = r.registry.put (Link.schemaKey file name)
        ⟨Naming.normalize name, Link.schemaKey file name, type⟩ := rfl

/-- A declared key is not missing any more. -/
theorem mem_pending_declare {name : String} {type : ClientType} (h : r.pending.Nodup) :
    other ∈ (r.declare file name type).pending
      ↔ other ≠ Link.schemaKey file name ∧ other ∈ r.pending :=
  h.mem_erase_iff

/-! ### Loading -/

/-- The resolver when it has taken a file from its queue: the file counts as loaded. -/
def taken (r : Resolver) (file : String) : Resolver :=
  { r with
    queue := r.queue.erase file
    loaded := if r.loaded.contains file then r.loaded else r.loaded ++ [file] }

/-- The resolver when it has also asked for the document. -/
def asking (r : Resolver) (locator : String) : Resolver :=
  { r with asked := r.asked ++ [locator] }

/-- A file that is loaded is taken, asked for, and registered, as far as that goes. -/
theorem load_eq (source : Source) (r : Resolver) (file : String) :
    r.load source file = match Locator.join r.base file with
      | .error e => (.error e, r.taken file)
      | .ok locator => match source.ask locator with
        | .error e => (.error e, (r.taken file).asking locator)
        | .ok document => ((r.taken file).asking locator).register file document := rfl

/-- What is loaded without an error is a document with schemas, and they are declared. -/
theorem load_eq_ok {source : Source} {r' : Resolver} (h : r.load source file = (.ok (), r')) :
    ∃ locator document schemas, Locator.join r.base file = .ok locator ∧ source.ask locator = .ok document
      ∧ schemasOf document = .ok schemas
      ∧ ((r.taken file).asking locator).registerSchemas file schemas = (.ok (), r') := by
  rw [load_eq] at h
  split at h
  · cases h
  · next locator hjoin =>
    split at h
    · cases h
    · next document hask =>
      unfold register at h
      split at h
      · next schemas hschemas => exact ⟨locator, document, schemas, hjoin, hask, hschemas, h⟩
      · cases h

/-- A file is loaded by declaring the schemas of its document. -/
theorem load_eq_registerSchemas {source : Source} {locator : String} {document : Value}
    {schemas : List (Value × Value)} (hjoin : Locator.join r.base file = .ok locator)
    (hask : source.ask locator = .ok document) (hschemas : schemasOf document = .ok schemas) :
    r.load source file = ((r.taken file).asking locator).registerSchemas file schemas := by
  rw [load_eq, hjoin]
  simp only [hask, register, hschemas]

theorem loadAll_nil {source : Source} {fuel : Nat} (hqueue : r.queue = []) :
    r.loadAll source fuel = (.ok (), r) := by
  unfold loadAll
  rw [hqueue]

theorem loadAll_cons {source : Source} {fuel : Nat} {rest : List String} {r' : Resolver}
    (hqueue : r.queue = file :: rest) (hload : r.load source file = (.ok (), r')) :
    r.loadAll source (fuel + 1) = r'.loadAll source fuel := by
  rw [loadAll, hqueue]
  simp only [hload]

theorem mem_loaded_taken : other ∈ (r.taken file).loaded ↔ other ∈ r.loaded ∨ other = file := by
  simp only [taken, List.contains_eq_mem, decide_eq_true_eq]
  split
  · next h =>
    constructor
    · exact Or.inl
    · rintro (h' | rfl)
      · exact h'
      · exact h
  · rw [List.mem_append, List.mem_singleton]

theorem nodup_loaded_taken (h : r.loaded.Nodup) : (r.taken file).loaded.Nodup := by
  simp only [taken, List.contains_eq_mem, decide_eq_true_eq]
  split
  · exact h
  · next hmem => exact h.append (List.nodup_singleton _) (by simpa using hmem)

/-! ### Steps -/

/-- A key that is declared or missing. -/
def Knows (r : Resolver) (key : String) : Prop :=
  key ∈ r.registry.keys ∨ key ∈ r.pending

theorem knows_noteLinks : (r.noteLinks keys).Knows key ↔ r.Knows key ∨ key ∈ keys := by
  simp only [Knows, registry_noteLinks, mem_pending_noteLinks]
  by_cases h : key ∈ r.registry.keys
  · simp [h]
  · simp [h]

theorem knows_noteLink : (r.noteLink key).Knows other ↔ r.Knows other ∨ other = key := by
  rw [show r.noteLink key = r.noteLinks [key] from rfl, knows_noteLinks, List.mem_singleton]

/-- One step of a resolver.  Only types whose references are known are declared, and only files of the
    queue are loaded. -/
inductive Step : Resolver → Resolver → Prop
  | note (r : Resolver) (key : String) : Step r (r.noteLink key)
  | declare (r : Resolver) (file name : String) {type : ClientType} :
      (∀ key, ClientType.Inside (.ref key) type → r.Knows key) → Step r (r.declare file name type)
  | take (r : Resolver) {file : String} : file ∈ r.queue → Step r (r.taken file)
  | ask (r : Resolver) {file locator : String} : file ∈ r.queue →
      Locator.join r.base file = .ok locator → Step r ((r.taken file).asking locator)

/-- Steps one after the other. -/
abbrev Steps : Resolver → Resolver → Prop :=
  Relation.ReflTransGen Step

/-- The document that generation starts from keeps its name. -/
theorem entry_eq_of_steps {r' : Resolver} (h : Steps r r') : r'.entry = r.entry := by
  induction h with
  | refl => rfl
  | tail _ hstep ih =>
    rw [← ih]
    cases hstep with
    | note key => exact entry_noteLink
    | declare => exact entry_declare
    | take => rfl
    | ask => rfl

theorem steps_noteLinks (r : Resolver) (keys : List String) : Steps r (r.noteLinks keys) :=
  noteLinks_induction (P := Steps r) .refl fun r' key _ h => h.tail (.note r' key)

/-- Whatever a computation gives, its links are noted. -/
theorem steps_run {α : Type} (r : Resolver) (x : Logged α) : Steps r (r.run x).2 :=
  steps_noteLinks r x.log

/-- The references of a converted type are known after the conversion. -/
theorem knows_convert {file : String} {schema : Value} {type : ClientType}
    (h : (r.convert file schema).1 = .ok type) (hkey : ClientType.Inside (.ref key) type) :
    (r.convert file schema).2.Knows key := by
  have hconverts := Schema.convert_eq_ok_iff.mp (Logged.eq_mk_of_result h)
  exact knows_noteLinks.mpr (.inr (hconverts.mem_log_iff_inside.mpr hkey))

theorem steps_registerSchemas (r : Resolver) (file : String) (schemas : List (Value × Value)) :
    Steps r (r.registerSchemas file schemas).2 := by
  induction schemas generalizing r with
  | nil => exact .refl
  | cons e rest ih =>
    obtain ⟨key, schema⟩ := e
    unfold registerSchemas
    split
    · exact .refl
    · next name _ =>
      -- Converting a schema notes its links, so the type that comes out can be declared.
      have hconvert : Steps r (r.convert file schema).2 := steps_run r _
      have hknows : ∀ type, (r.convert file schema).1 = .ok type → ∀ key,
          ClientType.Inside (.ref key) type → (r.convert file schema).2.Knows key :=
        fun _ h _ hkey => knows_convert h hkey
      generalize r.convert file schema = converted at *
      obtain ⟨result, r'⟩ := converted
      cases result with
      | error e => exact hconvert
      | ok type => exact (hconvert.tail (.declare r' file name (hknows type rfl))).trans (ih _)

theorem steps_register (r : Resolver) (file : String) (document : Value) :
    Steps r (r.register file document).2 := by
  unfold register
  split
  · exact steps_registerSchemas r file _
  · exact .refl

theorem steps_load (source : Source) (r : Resolver) {file : String} (h : file ∈ r.queue) :
    Steps r (r.load source file).2 := by
  rw [load_eq]
  split
  · exact .single (.take r h)
  · next locator hjoin =>
    -- Taking the file and asking for it are one step, so that no file is asked for without being taken.
    have hask : Steps r ((r.taken file).asking locator) := .single (.ask r h hjoin)
    split
    · exact hask
    · exact hask.trans (steps_register _ file _)

theorem steps_loadAll (source : Source) (fuel : Nat) (r : Resolver) :
    Steps r (r.loadAll source fuel).2 := by
  induction fuel generalizing r with
  | zero =>
    unfold loadAll
    split <;> exact .refl
  | succ fuel ih =>
    unfold loadAll
    split
    · exact .refl
    · next file rest hqueue =>
      have hload : Steps r (r.load source file).2 :=
        steps_load source r (by rw [hqueue]; exact List.mem_cons_self)
      generalize r.load source file = loaded at *
      obtain ⟨result, r'⟩ := loaded
      cases result with
      | error e => exact hload
      | ok _ => exact hload.trans (ih r')

theorem steps_resolve (source : Source) (r : Resolver) : Steps r (r.resolve source).2 := by
  have hload := steps_loadAll source (source.reach + r.queue.length) r
  unfold resolve
  generalize r.loadAll source (source.reach + r.queue.length) = loaded at *
  obtain ⟨result, r'⟩ := loaded
  cases result with
  | error e => exact hload
  | ok _ =>
    -- Missing keys are reported, but nothing is changed.
    simp only
    split <;> exact hload

end TypedClient.Resolver
