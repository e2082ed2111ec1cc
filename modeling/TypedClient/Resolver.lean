import TypedClient.Schema
import TypedClient.Text.Surrogate

namespace TypedClient

/-!
# Resolving links between documents

A link becomes a reference at once, even if the schema it names is in a document that is not loaded yet.
The resolver remembers which keys are still missing and which files have to be loaded for them, loads
one file after the other, and in the end no key may be missing.

* `Source`: where documents come from.
* `Resolver`: the declarations so far, and what is missing.
* `Resolver.noteLink`: what a link to a schema adds.
* `Resolver.register`: declares all schemas of a document.
* `Resolver.resolve`: loads files until none is asked for.
* `Resolver.checkUniqueNames`: no two declarations may have one name.

An action that fails keeps what it did before it failed, so every action gives a result and a state.
-/

/-- Where documents come from.  `reach` is a number of files that no more different ones are named in
    all documents together. -/
structure Source where
  ask : String → Except Failure Value
  reach : Nat

/-- Documents kept under their locators.  Every file that one of them names takes a value of it. -/
def Source.ofTable (documents : Table String Value) : Source where
  ask locator :=
    match documents.get? locator with
    | some document => .ok document
    | none => .error (.access (.noDocument locator))
  reach := Value.weightAll documents.values

/-- The declarations so far, and what is missing.  Files are named by their canonical names; the
    document that generation starts from has the empty name and counts as loaded. -/
structure Resolver where
  /-- The canonical name of the document that generation starts from, if it has one. -/
  entry : String
  /-- The place that files are named relative to. -/
  base : String
  registry : Registry
  /-- Keys that a link denotes and that are not declared. -/
  pending : List String
  /-- Files to load, in the order in which they were first named. -/
  queue : List String
  loaded : List String
  /-- Locators of the documents asked for, in order. -/
  asked : List String
  deriving Inhabited, Repr

namespace Resolver

/-- A resolver that knows nothing yet. -/
def start (base entry : String) : Except Failure Resolver := do
  let entry ← if entry = "" then pure "" else Locator.canonicalFile entry
  return { entry, base, registry := [], pending := [], queue := [], loaded := [""], asked := [] }

/-- Where a link in `file` stands. -/
def scope (r : Resolver) (file : String) : Link.Scope :=
  ⟨r.entry, file⟩

/-! ### Links -/

/-- What a link to `key` adds: unless the key is declared it is missing, and its file is to be loaded if
    it is neither loaded nor going to be. -/
def noteLink (r : Resolver) (key : String) : Resolver :=
  if (r.registry.get? key).isSome then r
  else
    let file := Link.fileOf key
    { r with
      queue := if r.loaded.contains file || r.queue.contains file then r.queue else r.queue ++ [file]
      pending := if r.pending.contains key then r.pending else r.pending ++ [key] }

/-- What links add one after the other. -/
def noteLinks (r : Resolver) (keys : List String) : Resolver :=
  keys.foldl noteLink r

/-- The result of a logged computation, with the links that were met noted. -/
def run {α : Type} (r : Resolver) (x : Logged α) : Except Failure α × Resolver :=
  (x.result, r.noteLinks x.log)

/-- The type that a schema in `file` describes. -/
def convert (r : Resolver) (file : String) (schema : Value) : Except Failure ClientType × Resolver :=
  r.run (Schema.convert (r.scope file) schema)

/-- The reference that a link in `file` stands for. -/
def reference (r : Resolver) (file : String) (link : Value) : Except Failure ClientType × Resolver :=
  match Link.keyOfValue (r.scope file) link with
  | .ok key => (.ok (.ref key), r.noteLink key)
  | .error e => (.error e, r)

/-! ### Declarations -/

/-- Declares the schema `name` of `file`; a key that is declared already keeps its place. -/
def declare (r : Resolver) (file name : String) (type : ClientType) : Resolver :=
  let key := Link.schemaKey file name
  { r with
    registry := r.registry.put key ⟨Naming.normalize name, key, type⟩
    pending := r.pending.erase key }

/-- Declares schemas of `file` one after the other. -/
def registerSchemas (r : Resolver) (file : String) :
    List (Value × Value) → Except Failure Unit × Resolver
  | [] => (.ok (), r)
  | (key, schema) :: rest =>
    match key.asText with
    | .error e => (.error e, r)
    | .ok name =>
      match r.convert file schema with
      | (.ok type, r) => registerSchemas (r.declare file name type) file rest
      | (.error e, r) => (.error e, r)

/-- The schemas that a document holds for others to link to. -/
def schemasOf (document : Value) : Except Failure (List (Value × Value)) := do
  let components := (← document.get "components").orEmpty
  (← components.get "schemas").orEmpty.entries

/-- Declares all schemas of a document. -/
def register (r : Resolver) (file : String) (document : Value) : Except Failure Unit × Resolver :=
  match schemasOf document with
  | .ok schemas => r.registerSchemas file schemas
  | .error e => (.error e, r)

/-! ### Loading -/

/-- Loads one file and declares its schemas; the file counts as loaded even if that fails. -/
def load (source : Source) (r : Resolver) (file : String) : Except Failure Unit × Resolver :=
  let r := { r with
    queue := r.queue.erase file
    loaded := if r.loaded.contains file then r.loaded else r.loaded ++ [file] }
  match Locator.join r.base file with
  | .error e => (.error e, r)
  | .ok locator =>
    let r := { r with asked := r.asked ++ [locator] }
    match source.ask locator with
    | .error e => (.error e, r)
    | .ok document => r.register file document

/-- Loads the first file of the queue until the queue is empty, at most `fuel` files. -/
def loadAll (source : Source) : (fuel : Nat) → Resolver → Except Failure Unit × Resolver
  | fuel, r =>
    match r.queue with
    | [] => (.ok (), r)
    | file :: _ =>
      match fuel with
      | 0 => (.error (.access .endless), r)
      | fuel + 1 =>
        match r.load source file with
        | (.ok (), r) => loadAll source fuel r
        | (.error e, r) => (.error e, r)

/-- The missing keys in ascending order. -/
def missing (r : Resolver) : List String :=
  r.pending.mergeSort Text.isOrdered

/-- Loads all files that are asked for, and those that they ask for in turn.  Every file is loaded once
    and named in a document or in the queue, so their number bounds the loop.  A key that is still
    missing after that is a mistake; the first one is reported. -/
def resolve (source : Source) (r : Resolver) : Except Failure Unit × Resolver :=
  match r.loadAll source (source.reach + r.queue.length) with
  | (.error e, r) => (.error e, r)
  | (.ok (), r) =>
    match r.missing with
    | [] => (.ok (), r)
    | key :: _ => (.error (.unresolvableSchema key), r)

/-! ### Names -/

/-- The keys of the declarations with a name, in order. -/
def keysNamed (registry : Registry) (name : String) : List String :=
  Table.keys (registry.filter fun (_, d) => d.name == name)

/-- No two declarations may have one name; the first name that is shared is reported with all of its
    keys. -/
def checkUniqueNames (r : Resolver) : Except Failure Unit :=
  match r.registry.find? fun (_, d) => 1 < (keysNamed r.registry d.name).length with
  | some (_, d) => .error (.duplicateTypeName d.name (keysNamed r.registry d.name))
  | none => .ok ()

end Resolver

end TypedClient
