import TypedClient.ClientType

namespace TypedClient

/-!
# Operations

An operation of the API is one method of one route, with everything that a call of it takes and gives.

* `Location`: where a call carries a parameter.
* `Parameter`, `Operation`: a parameter and an operation.
* `Operation.namesIn`: the names of the parameters in one place.
-/

/-- Where a call carries a parameter. -/
inductive Location where
  | path
  | query
  | body
  deriving DecidableEq, Repr, Inhabited

/-- A parameter of an operation. -/
structure Parameter where
  location : Location
  name : String
  type : ClientType
  required : Bool
  deriving Repr, Inhabited

/-- A method of a route.  The fields of an object that is sent as the body are parameters of their own;
    a body of any other type is kept whole in `bodyTypes`. -/
structure Operation where
  method : String
  route : String
  parameters : List Parameter
  bodyTypes : List ClientType
  result : ClientType
  deriving Repr, Inhabited

/-- The names of the parameters in one place, in order. -/
def Operation.namesIn (o : Operation) (location : Location) : List String :=
  (o.parameters.filter fun p => p.location == location).map (·.name)

end TypedClient
