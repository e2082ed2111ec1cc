import TypedClient.Yaml.Cursor

namespace TypedClient.Yaml

/-!
# YAML nodes

The texts and collections of a document.  An alias stands for the node that has the anchor, so a node can
be part of several collections, and of itself.  Therefore nodes are known by numbers.

* `Node`: a text, or a collection of numbered nodes.
* `Graph`: the nodes of a document.
-/

/-- A text, or a collection of nodes with these numbers. -/
inductive Node where
  | scalar (tag text : String)
  | sequence (tag : String) (items : List Nat)
  | mapping (tag : String) (entries : List (Nat × Nat))
  deriving Inhabited, Repr, DecidableEq

namespace Node

/-- The tag of a node. -/
def tag : Node → String
  | .scalar tag _ | .sequence tag _ | .mapping tag _ => tag

/-- The node with another tag. -/
def withTag (tag : String) : Node → Node
  | .scalar _ text => .scalar tag text
  | .sequence _ items => .sequence tag items
  | .mapping _ entries => .mapping tag entries

/-- The sequence with these items. -/
def withItems (items : List Nat) : Node → Node
  | .sequence tag _ => .sequence tag items
  | node => node

/-- The mapping with these entries. -/
def withEntries (entries : List (Nat × Nat)) : Node → Node
  | .mapping tag _ => .mapping tag entries
  | node => node

end Node

/-- The nodes of a document; the number of a node is its place. -/
abbrev Graph := Array Node

namespace Graph

/-- The tag of a node. -/
def tagAt (g : Graph) (n : Nat) : String :=
  g[n]?.elim "" Node.tag

/-- The entries of a mapping; other nodes have none. -/
def entriesAt (g : Graph) (n : Nat) : List (Nat × Nat) :=
  match g[n]? with
  | some (.mapping _ entries) => entries
  | _ => []

end Graph

end TypedClient.Yaml
