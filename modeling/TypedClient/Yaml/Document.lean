import TypedClient.Yaml.Build
import TypedClient.Yaml.NodeReader

namespace TypedClient.Yaml

/-!
# YAML documents

* `parse`: the value that a text spells.
-/

/-- The value that a text spells; an empty text spells null.  All nodes are read before a value is
    built. -/
def parse (text : String) : Except Failure Value := do
  match ← Graph.ofText text with
  | (_, none) => return .null
  | (g, some n) => g.valueAt n

end TypedClient.Yaml
