import TypedClient.ClientType.Enums
import TypedClient.Failure
import TypedClient.Naming

namespace TypedClient

/-!
# Names for enums

An enum inside of a type gets a name, so that it can be written out of line.  Enums with the same values
are one candidate and share the name.  A name is made from the nearest field or schema; if two
candidates ask for one name, names from further out are put in front.  That a name is asked for twice is
only seen when the first candidate has it already, so the choice is repeated until no more names turn out
to be shared.

* `EnumCandidate`: enums that share a name.
* `EnumNaming`: everything that the choice of names depends on.
* `EnumNaming.pick`: the name of one candidate.
* `EnumNaming.pass`: the names of all candidates, and the names that turned out to be shared.
* `EnumNaming.settle`: passes until no more names turn out to be shared.
* `EnumNaming.resolve`: the enums to write, with the types that refer to them.
-/

/-- Enums with the same values.  The names on the way to the first of them are used for their name. -/
structure EnumCandidate where
  values : List String
  path : List String
  nodes : List ClientType.EnumNode
  deriving Repr, Inhabited

/-- The name made of the last `depth` names on the way to a candidate. -/
def EnumCandidate.nameAt (c : EnumCandidate) (depth : Nat) : String :=
  String.join ((c.path.drop (c.path.length - depth)).map Naming.pascalCase)

/-- The names that a candidate can have, the shortest path first. -/
def EnumCandidate.names (c : EnumCandidate) : List String :=
  (List.range c.path.length).map fun i => c.nameAt (i + 1)

/-- Puts an enum to the candidate with its values, or begins a new candidate. -/
def addCandidate (candidates : List EnumCandidate) (node : ClientType.EnumNode) :
    List EnumCandidate :=
  match candidates with
  | [] => [⟨node.values, node.path, [node]⟩]
  | c :: rest =>
    if ClientType.sameValues c.values node.values then { c with nodes := c.nodes ++ [node] } :: rest
    else c :: addCandidate rest node

/-- Everything that the choice of names depends on. -/
structure EnumNaming where
  registry : Registry
  operations : List Operation

namespace EnumNaming

/-- Names of fewer characters are not given. -/
def minLength : Nat := 3

/-- Names that are not given. -/
def reserved : List String := ["Type"]

/-! ### Candidates -/

/-- An enum that is declared has the name of its declaration. -/
def nameDeclared (d : Declaration) : Declaration :=
  match d.type with
  | .enum values _ => { d with type := .enum values (some d.name) }
  | _ => d

/-- Declarations and operations with the declared enums named. -/
def start (registry : Registry) (operations : List Operation) : EnumNaming where
  registry := registry.map fun (key, d) => (key, nameDeclared d)
  operations := operations

/-- The names of the operations, all different. -/
def operationNames (e : EnumNaming) : List String :=
  Naming.freshAll [] (e.operations.map fun o => Naming.operation o.method o.route)

/-- The enums inside of a declaration; an enum that is declared is none of them. -/
def nodesOfDeclaration (d : Declaration) : List ClientType.EnumNode :=
  match d.type with
  | .enum .. => []
  | type => type.enumNodes [d.name]

/-- The enums inside of an operation. -/
def nodesOfOperation (name : String) (o : Operation) : List ClientType.EnumNode :=
  o.parameters.flatMap (fun p => p.type.enumNodes [name, p.name])
    ++ o.bodyTypes.flatMap (fun t => t.enumNodes [name, "Body"])
    ++ o.result.enumNodes [name, "Result"]

/-- All enums to name, in order. -/
def nodes (e : EnumNaming) : List ClientType.EnumNode :=
  e.registry.values.flatMap nodesOfDeclaration
    ++ (e.operationNames.zip e.operations).flatMap fun (name, o) => nodesOfOperation name o

/-- The candidates in the order of their first enums. -/
def candidates (e : EnumNaming) : List EnumCandidate :=
  e.nodes.foldl addCandidate []

/-- The declaration of a name; of several the last. -/
def declared? (e : EnumNaming) (name : String) : Option Declaration :=
  (Table.ofList (e.registry.values.map fun d => (d.name, d))).get? name

/-! ### Choosing -/

/-- Names given in one pass, and names that turned out to be shared. -/
structure Claims where
  claimed : List String
  collisions : List String
  deriving Repr, Inhabited

/-- Goes through the names of a candidate.  A declared enum with its values gives it its name; otherwise
    a name must not be declared, shared, too short or reserved.  A name that another candidate has
    claimed turns out to be shared. -/
def pickFrom (e : EnumNaming) (values : List String) :
    List String → Claims → Option String × Claims
  | [], claims => (none, claims)
  | name :: rest, claims =>
    match e.declared? name with
    | some { type := .enum known _, .. } =>
      if ClientType.sameValues known values then (some name, claims)
      else pickFrom e values rest claims
    | some _ => pickFrom e values rest claims
    | none =>
      if claims.collisions.contains name || name.length < minLength || reserved.contains name then
        pickFrom e values rest claims
      else if claims.claimed.contains name then
        pickFrom e values rest { claims with collisions := claims.collisions ++ [name] }
      else (some name, { claims with claimed := name :: claims.claimed })

/-- The name of one candidate, if one is left for it. -/
def pick (e : EnumNaming) (c : EnumCandidate) (claims : Claims) : Except Failure String × Claims :=
  match e.pickFrom c.values c.names claims with
  | (some name, claims) => (.ok name, claims)
  | (none, claims) => (.error (.enumNameCollision c.path), claims)

/-- The names of candidates, chosen one after the other. -/
def pickAll (e : EnumNaming) : List EnumCandidate → Claims → Except Failure (List String) × Claims
  | [], claims => (.ok [], claims)
  | c :: rest, claims =>
    match e.pick c claims with
    | (.error failure, claims) => (.error failure, claims)
    | (.ok name, claims) =>
      match e.pickAll rest claims with
      | (.ok names, claims) => (.ok (name :: names), claims)
      | (.error failure, claims) => (.error failure, claims)

/-- The names of all candidates when the names in `collisions` are known to be shared, and all names that
    are known to be shared after that. -/
def pass (e : EnumNaming) (candidates : List EnumCandidate) (collisions : List String) :
    Except Failure (List String) × List String :=
  let (result, claims) := e.pickAll candidates ⟨[], collisions⟩
  (result, claims.collisions)

/-- Repeats the pass while it finds more shared names, at most `fuel` times. -/
def settle (e : EnumNaming) (candidates : List EnumCandidate) :
    (fuel : Nat) → (collisions : List String) → Except Failure (List String) × List String
  | 0, collisions => e.pass candidates collisions
  | fuel + 1, collisions =>
    match e.pass candidates collisions with
    | (.error failure, found) => (.error failure, found)
    | (.ok names, found) =>
      if found.length = collisions.length then (.ok names, found)
      else settle e candidates fuel found

/-- The final names of the candidates and the names that are shared.  Every pass but the last finds a new
    shared name, and there are no more of them than names on the way to candidates. -/
def choose (e : EnumNaming) : Except Failure (List String) × List String :=
  let candidates := e.candidates
  e.settle candidates (candidates.flatMap fun c => c.path).length []

/-! ### Result -/

/-- The enums to write besides those that are declared: the values of the first enum of each candidate
    under its name. -/
def synthesized (e : EnumNaming) (candidates : List EnumCandidate) (names : List String) :
    Table String (List String) :=
  (candidates.zip names).foldl
    (fun enums (c, name) => if (e.declared? name).isSome then enums else enums.put name c.values) []

/-- A declaration with the names given to the enums inside of it. -/
def applyToDeclaration (names : List (List String × String)) (d : Declaration) : Declaration :=
  match d.type with
  | .enum .. => d
  | type => { d with type := type.nameEnums names }

/-- An operation with the names given to the enums inside of it. -/
def applyToOperation (names : List (List String × String)) (o : Operation) : Operation :=
  { o with
    parameters := o.parameters.map fun p => { p with type := p.type.nameEnums names }
    bodyTypes := o.bodyTypes.map fun t => t.nameEnums names
    result := o.result.nameEnums names }

/-- Declarations and operations with the names given to their enums. -/
def apply (e : EnumNaming) (names : List (List String × String)) : EnumNaming where
  registry := e.registry.map fun (key, d) => (key, applyToDeclaration names d)
  operations := e.operations.map (applyToOperation names)

/-- The enums to write besides those that are declared, or the reason why there are no names for them;
    and declarations and operations with the names that could be given. -/
def resolve (e : EnumNaming) : Except Failure (Table String (List String)) × EnumNaming :=
  match e.choose.1 with
  | .error failure => (.error failure, e)
  | .ok names =>
    let candidates := e.candidates
    (.ok (e.synthesized candidates names), e.apply ((candidates.map (·.values)).zip names))

end EnumNaming

end TypedClient
