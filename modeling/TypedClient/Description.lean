import TypedClient.EnumNaming
import TypedClient.Resolver
import TypedClient.Route.Extract

namespace TypedClient

/-!
# Descriptions of an API

The document that generation starts from and all documents that it is linked to describe one API.

* `Description`: declarations, operations, and the enums that were given names.
* `Resolver.nameEnums`: gives names to the enums of a resolver's declarations.
* `Resolver.describe`: reads a document and everything that it is linked to.
* `Description.parse`: the description of a document.
-/

/-- Everything that the client is generated from. -/
structure Description where
  registry : Registry
  operations : List Operation
  /-- The enums that are written besides the declarations, by name. -/
  enums : Table String (List String)
  deriving Inhabited, Repr

/-- Gives names to the enums inside of a resolver's declarations and of operations. -/
def Resolver.nameEnums (r : Resolver) (operations : List Operation) :
    Except Failure (Table String (List String)) × Resolver × List Operation :=
  let (enums, named) := (EnumNaming.start r.registry operations).resolve
  (enums, { r with registry := named.registry }, named.operations)

/-- Takes over what a logged computation gives, or stops with its failure. -/
def Resolver.andThen {α β : Type} (step : Except Failure α × Resolver)
    (next : α → Resolver → Except Failure β × Resolver) : Except Failure β × Resolver :=
  match step with
  | (.ok a, r) => next a r
  | (.error e, r) => (.error e, r)

/-- Reads a document: declares its schemas, extracts its operations, loads what it is linked to, and
    checks the names of the declarations.  The enums get names if `namedEnums` holds. -/
def Resolver.describe (source : Source) (namedEnums : Bool) (document : Value) (r : Resolver) :
    Except Failure Description × Resolver :=
  Resolver.andThen (r.register "" document) fun _ r =>
  Resolver.andThen (r.run (do Route.extract r.entry (← document.get "paths"))) fun operations r =>
  Resolver.andThen (r.resolve source) fun _ r =>
  Resolver.andThen (r.checkUniqueNames, r) fun _ r =>
  if namedEnums then
    let (enums, r, operations) := r.nameEnums operations
    (enums.map fun enums => ⟨r.registry, operations, enums⟩, r)
  else (.ok ⟨r.registry, operations, []⟩, r)

/-- The description of a document; linked files are named relative to `base`, where the document itself
    has the name `entry`. -/
def Description.parse (source : Source) (base entry : String) (namedEnums : Bool)
    (document : Value) : Except Failure Description := do
  let r ← Resolver.start base entry
  (r.describe source namedEnums document).1

end TypedClient
