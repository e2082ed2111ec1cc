import TypedClient.Route.Operation
import TypedClient.Route.Template
import TypedClient.Schema
import TypedClient.Text.Case

namespace TypedClient.Route

/-!
# Operations of a document

The paths of an API document describe its operations.

* `mergeParameters`: the parameters of an operation, its own ones overriding those of its path.
* `bindParameters`: the parameters checked against the route.
* `bodyOf`, `resultOf`: what an operation sends and receives.
* `extract`: all operations, in the order of the document.
-/

/-- Methods that describe operations; other entries of a path are passed over. -/
def methods : List String :=
  ["get", "post", "put", "patch", "delete"]

/-- The method that an entry of a path describes, in upper case.  Only a text, or octets, have a case at
    all. -/
def methodOf (key : Value) : Except Failure (Option String) :=
  match key with
  | .text s =>
    let method := Text.lowered s
    return if methods.contains method then some (String.ofList (method.toList.map Char.toUpper))
      else none
  | .bytes _ => return none
  | _ => throw Failure.notApplicable

/-! ### Parameters -/

/-- Name and place of a described parameter; together they tell it from others. -/
def parameterKey (parameter : Value) : Except Failure (Value × Value) := do
  let name ← parameter.get "name"
  let location ← parameter.get "in"
  if name.isKey && location.isKey then return (name, location) else throw Failure.notUsable

/-- The parameters of the path that the operation does not describe itself, then those of the
    operation. -/
def mergeParameters (shared own : Value) : Except Failure (List Value) := do
  let ownItems ← own.elements
  let ownKeys ← ownItems.mapM parameterKey
  let sharedItems ← shared.elements
  let kept ← sharedItems.filterM fun p => do
    let key ← parameterKey p
    return !ownKeys.contains key
  return kept ++ ownItems

/-- Checks one parameter; `unbound` are the placeholders of the route that no parameter stands for
    yet. -/
def bindParameter (route : String) (unbound : List String) (parameter : Value) :
    Except Failure (Parameter × List String) := do
  let location ← parameter.get "in"
  let name ← parameter.get "name"
  let required := (← parameter.get "required").isFilled
  match location with
  | .text "path" =>
    if !required then throw (Failure.about name (.optionalPathParameter route name))
    match name with
    | .text s =>
      if !unbound.contains s then throw (.undeclaredPathParameter route name)
      return (⟨.path, Naming.normalize s, .string, true⟩, unbound.erase s)
    | _ => throw (Failure.about name (.undeclaredPathParameter route name))
  | .text "query" =>
    return (⟨.query, Naming.normalize (← name.asText), .string, required⟩, unbound)
  | _ => throw (Failure.about location (.unsupportedLocation route location))

/-- Checks the parameters one after the other and gives the placeholders that are left over. -/
def bindParameters (route : String) (unbound : List String) :
    List Value → Except Failure (List Parameter × List String)
  | [] => return ([], unbound)
  | parameter :: rest => do
    let (bound, unbound) ← bindParameter route unbound parameter
    let (others, unbound) ← bindParameters route unbound rest
    return (bound :: others, unbound)

/-! ### Body and result -/

/-- Schemas of operations stand in the document that generation starts from. -/
def scopeOf (entry : String) : Link.Scope :=
  ⟨entry, ""⟩

/-- The schema of a body or a response in JSON, or null. -/
def jsonSchema (described : Value) : Except Failure Value := do
  let content := (← described.get "content").orEmpty
  let json := (← content.get "application/json").orEmpty
  json.get "schema"

/-- What an operation sends: the fields of an object one by one, and every other type whole. -/
def bodyOf (entry method route : String) (spec : Value) :
    Logged (List Parameter × List ClientType) := do
  let body ← spec.get "requestBody"
  if !body.isFilled then return ([], [])
  if method = "GET" then throw (.getWithBody route)
  let schema ← jsonSchema body
  if !schema.isFilled then throw (.emptyBody route)
  match ← Schema.convert (scopeOf entry) schema with
  | .object fields => return (fields.map fun f => ⟨.body, f.name, f.type, f.required⟩, [])
  | type => return ([], [type])

/-- The response of success; its number can be a text or an integer. -/
def successOf (route : String) (responses : Value) : Except Failure Value := do
  let described ← do
    if ← responses.holdsText "200" then pure true else responses.holdsInt 200
  if !described then throw (.noSuccess route)
  let entries ← responses.entries
  return ((Value.lookup (.text "200") entries).or (Value.lookup (.int 200) entries)).getD .null

/-- What an operation receives; nothing, if the response of success has no schema. -/
def resultOf (entry route : String) (spec : Value) : Logged ClientType := do
  let success ← successOf route (← spec.get "responses").orEmpty
  let schema ← jsonSchema success.orEmpty
  if schema.isFilled then Schema.convert (scopeOf entry) schema else return .void

/-! ### Operations -/

/-- The operation that one method of a route describes. -/
def extractOperation (entry : String) (route : Value) (method : String) (spec shared : Value) :
    Logged Operation := do
  let route ← route.asText
  let names ← parameterNames route
  let own := (← spec.get "parameters").orElse (.list [])
  let (bound, unbound) ← bindParameters route names (← mergeParameters shared own)
  if !unbound.isEmpty then throw (.unboundPathParameters route unbound)
  let (bodyParameters, bodyTypes) ← bodyOf entry method route spec
  let result ← resultOf entry route spec
  return { method, route, parameters := bound ++ bodyParameters, bodyTypes, result }

/-- The operations that the entries of one path describe. -/
def extractMethods (entry : String) (route shared : Value) :
    List (Value × Value) → Logged (List Operation)
  | [] => return []
  | (key, spec) :: rest => do
    match ← methodOf key with
    | none => extractMethods entry route shared rest
    | some method =>
      let operation ← extractOperation entry route method spec.orEmpty shared
      return operation :: (← extractMethods entry route shared rest)

/-- The operations that paths describe. -/
def extractPaths (entry : String) : List (Value × Value) → Logged (List Operation)
  | [] => return []
  | (route, path) :: rest => do
    let shared := (← path.get "parameters").orElse (.list [])
    let operations ← extractMethods entry route shared (← path.entries)
    return operations ++ (← extractPaths entry rest)

/-- The operations of a document, in order; `entry` is the canonical name of the document. -/
def extract (entry : String) (paths : Value) : Logged (List Operation) := do
  extractPaths entry (← paths.orEmpty.entries)

end TypedClient.Route
