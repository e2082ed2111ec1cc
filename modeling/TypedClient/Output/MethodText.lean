import TypedClient.Output.TypeText
import TypedClient.Route.Operation
import TypedClient.Route.Template

namespace TypedClient.Output

/-!
# Methods as text

Every operation becomes a method of the client.  The method takes one argument: an object with the
parameters, a whole body, or both at once.  What belongs to the path and the query is taken out of the
argument by name; the rest is the body.

* `Call`: the pieces of a method that depend on names alone.
* `Call.pattern`, `Call.arguments`: what the method binds and what it passes on.
* `TypeWriter.writeMethod`: the text of the method.
-/

/-- Names with a comma between neighbours, in braces. -/
def bracedNames (names : List String) : String :=
  braced (" " ++ String.intercalate ", " names ++ " ")

/-- The pieces of a method that depend on names alone. -/
structure Call where
  route : String
  /-- Names of the parameters that the path takes. -/
  path : List String
  /-- Names of the parameters that the query takes. -/
  query : List String
  hasBody : Bool
  deriving DecidableEq, Repr, Inhabited

namespace Call

/-- The pieces of the method for an operation.  It has a body if anything is left for the body. -/
def of (o : Operation) : Call where
  route := o.route
  path := o.namesIn .path
  query := o.namesIn .query
  hasBody := !o.bodyTypes.isEmpty || !(o.namesIn .body).isEmpty

/-- What the method binds: the names of path and query with the rest as the body, the body alone, or
    nothing. -/
def pattern (c : Call) : Option String :=
  if !(c.path ++ c.query).isEmpty then
    some (bracedNames (c.path ++ c.query ++ (if c.hasBody then ["...body"] else [])))
  else if c.hasBody then some "body"
  else none

/-- The value of a placeholder: the parameter itself if it has the name of the placeholder. -/
def substitution (placeholders : Table String String) (name : String) : String :=
  match placeholders.get? name with
  | some raw => if raw = name then name else raw ++ ": " ++ name
  | none => name

/-- The placeholders of a route by the names of the parameters that stand for them. -/
def placeholdersByName (names : List String) : Table String String :=
  Table.ofList (names.map fun name => (Naming.normalize name, name))

/-- The route that a call passes on.  If the path takes parameters, their values are put in. -/
def routeText (c : Call) : Except Failure String := do
  if c.path.isEmpty then return "'" ++ c.route ++ "'"
  let placeholders := placeholdersByName (← Route.parameterNames c.route)
  return "interpolateParams('" ++ c.route ++ "', "
    ++ bracedNames (c.path.map (substitution placeholders)) ++ ")"

/-- The query that a call passes on. -/
def queryText (c : Call) : String :=
  if c.query.isEmpty then "undefined" else bracedNames c.query

/-- What a call passes on: route, query, and the body if there is one. -/
def arguments (c : Call) : Except Failure (List String) := do
  return [← c.routeText, c.queryText] ++ (if c.hasBody then ["body"] else [])

end Call

namespace TypeWriter

/-- The type of the argument: all parameters as one object, and the types of the body. -/
def writeArgument (w : TypeWriter) (o : Operation) : Logged (List String) := do
  let fields := o.parameters.map fun p => ⟨p.name, p.type, p.required⟩
  let own ← if fields.isEmpty then pure [] else do pure [← w.write 1 (.object fields)]
  return own ++ (← w.writeOperands 1 o.bodyTypes)

/-- The text of the method for an operation. -/
def writeMethod (w : TypeWriter) (o : Operation) : Logged String := do
  let call := Call.of o
  let types ← w.writeArgument o
  let arguments ← call.arguments
  let result ← w.write 1 o.result
  let parameter := match call.pattern with
    | some pattern => pattern ++ ": " ++ String.intercalate " & " types
    | none => ""
  return "\n  public async '" ++ o.route ++ "'(" ++ parameter ++ "): Promise<" ++ result ++ "> \x7b\n"
    ++ "    return this.callApi(" ++ String.intercalate ", " arguments ++ ");\n  \x7d"

end TypeWriter

end TypedClient.Output
