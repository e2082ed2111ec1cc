import TypedClient.Document.SetOrder
import TypedClient.Table
import TypedClient.Yaml.Node
import TypedClient.Yaml.Scalar

namespace TypedClient.Yaml

/-!
# From nodes to values

The value of a document is built from the outside in: a collection is there before its parts are, so
that it can be one of them, and collections get their parts in the order in which they were met.  Of
several mistakes the one that is met first counts.

* `Kind`: what a tag says about a node.
* `Part`, `Content`: values and the collections that they are put together to.
* `Builder`: the state of building.
* `flatten`: gives a mapping the entries that it takes over from other mappings.
* `part`, `contentOf`, `fillAll`: the parts of collections.
* `spelled`: the value that the collections are put together to.
-/

/-- What a tag says about a node. -/
inductive Kind where
  | scalar (kind : ScalarKind)
  | list
  | map
  | set
  /-- A list of pairs. -/
  | pairs
  deriving DecidableEq, Repr, Inhabited

/-- The kinds that can be asked for by a tag. -/
def kinds : Table String Kind :=
  [("null", .scalar .null), ("bool", .scalar .bool), ("int", .scalar .int), ("float", .scalar .float),
    ("binary", .scalar .binary), ("timestamp", .scalar .timestamp), ("str", .scalar .str),
    ("seq", .list), ("map", .map), ("set", .set), ("omap", .pairs), ("pairs", .pairs)]

/-- What a tag says about a node, if it is known. -/
def kindOf? (tag : String) : Option Kind :=
  (kinds.find? fun (name, _) => coreTag name == tag).map (·.2)

/-- A value that has no parts, or the collection of the node with this number. -/
inductive Part where
  | value (v : Value)
  | collection (n : Nat)
  deriving Repr, Inhabited

/-- What a collection consists of.  Keys have no parts. -/
inductive Content where
  | list (items : List Part)
  | pairs (items : List (Part × Part))
  | set (keys : List Value)
  | map (entries : List (Value × Part))
  deriving Repr, Inhabited

/-- The state of building. -/
structure Builder where
  nodes : Graph
  /-- What the nodes that were met stand for. -/
  parts : Array (Option Part)
  /-- The collections that have their parts. -/
  contents : Array (Option Content)
  /-- The collections that wait for their parts, in the order in which they were met. -/
  waiting : List (Nat × Kind)
  deriving Inhabited

/-- A part of building that can fail. -/
abbrev BuildM := StateT Builder (Except Failure)

/-- The document does not say what to build. -/
def unbuildable {α : Type} : BuildM α :=
  throw (.access .invalidYaml)

/-! ### Mappings that take over others -/

/-- The entries of a mapping. -/
def entriesOf (n : Nat) : BuildM (List (Nat × Nat)) := do
  return (← get).nodes.entriesAt n

/-- Gives a mapping other entries. -/
def replaceEntries (n : Nat) (entries : List (Nat × Nat)) : BuildM Unit :=
  modify fun b => { b with nodes := b.nodes.modify n (Node.withEntries entries) }

mutual

/-- Gives a mapping the entries that it takes over from other mappings, in front of its own ones.  Its first
    `done` entries have been looked at, and `taken` are the entries taken over so far.  The key of a
    default value is a text from now on.  Every step looks at one more entry of a mapping, and the
    entries of every mapping that takes over others become fewer, which bounds `fuel`. -/
def flattenFrom : (fuel : Nat) → (n done : Nat) → (taken : List (Nat × Nat)) → BuildM Unit
  | 0, _, _, _ => throw (.access .endless)
  | fuel + 1, n, done, taken => do
    let entries ← entriesOf n
    match entries[done]? with
    | none => if !taken.isEmpty then replaceEntries n (taken ++ entries)
    | some (key, value) =>
      let tag := (← get).nodes.tagAt key
      if tag = coreTag "merge" then
        replaceEntries n (entries.eraseIdx done)
        flattenFrom fuel n done (taken ++ (← takeOver fuel value))
      else
        if tag = coreTag "value" then
          modify fun b => { b with nodes := b.nodes.modify key (Node.withTag (coreTag "str")) }
        flattenFrom fuel n (done + 1) taken

/-- The entries of a mapping, or those of all mappings of a list from the last one to the first. -/
def takeOver : (fuel : Nat) → (n : Nat) → BuildM (List (Nat × Nat))
  | 0, _ => throw (.access .endless)
  | fuel + 1, n => do
    match (← get).nodes[n]? with
    | some (.mapping ..) =>
      flattenFrom fuel n 0 []
      entriesOf n
    | some (.sequence _ items) => takeOverAll fuel items
    | _ => unbuildable

/-- The entries of several mappings, those of the last one first. -/
def takeOverAll : (fuel : Nat) → (mappings : List Nat) → BuildM (List (Nat × Nat))
  | 0, _ => throw (.access .endless)
  | _, [] => return []
  | fuel + 1, n :: rest => do
    match (← get).nodes[n]? with
    | some (.mapping ..) =>
      flattenFrom fuel n 0 []
      let first ← entriesOf n
      return (← takeOverAll fuel rest) ++ first
    | _ => unbuildable

end

/-- Gives a mapping the entries that it takes over from other mappings. -/
def flatten (n : Nat) : BuildM Unit := do
  flattenFrom (Nat.pow ((← get).nodes.size + 2) 3) n 0 []

/-! ### Values without parts -/

/-- The text of a node.  A mapping has the text of its default value, the one under the key with the tag of
    that name. -/
def Graph.textAt (g : Graph) : (fuel : Nat) → (n : Nat) → Except Failure String
  | 0, _ => .error (.access .endless)
  | fuel + 1, n =>
    match g[n]? with
    | some (.scalar _ text) => .ok text
    | some (.mapping _ entries) =>
      match entries.find? fun (key, _) => g.tagAt key == coreTag "value" with
      | some (_, value) => g.textAt fuel value
      | none => invalid
    | _ => invalid

/-- The value of a given kind that a node stands for.  Only a text can be a date. -/
def Graph.scalarAt (g : Graph) (kind : ScalarKind) (n : Nat) : Except Failure Value := do
  let text ← g.textAt (g.size + 1) n
  match kind, g[n]? with
  | .timestamp, some (.mapping ..) => throw Failure.notUsable
  | _, _ => kind.value text

/-! ### Collections -/

/-- What a node stands for.  A collection that is met for the first time waits for its parts. -/
def part (n : Nat) : BuildM Part := do
  let b ← get
  match b.parts[n]? with
  | some (some known) => return known
  | _ =>
    match kindOf? (b.nodes.tagAt n) with
    | none => unbuildable
    | some (.scalar kind) =>
      let v ← b.nodes.scalarAt kind n
      modify fun b => { b with parts := b.parts.setIfInBounds n (some (.value v)) }
      return .value v
    | some kind =>
      modify fun b => { b with
        parts := b.parts.setIfInBounds n (some (.collection n))
        waiting := b.waiting ++ [(n, kind)] }
      return .collection n

/-- A key; no collection can be one. -/
def key (n : Nat) : BuildM Value := do
  match ← part n with
  | .value v => return v
  | .collection _ => unbuildable

/-- Gives a key a value: in its place if the key is there, else at the end. -/
def putPart (entries : List (Value × Part)) (key : Value) (p : Part) : List (Value × Part) :=
  match entries with
  | [] => [(key, p)]
  | (k, q) :: rest => if k == key then (k, p) :: rest else (k, q) :: putPart rest key p

/-- The entries of a mapping.  A key that comes again keeps its place and takes the later value. -/
def entryParts (n : Nat) : BuildM (List (Value × Part)) := do
  flatten n
  (← entriesOf n).foldlM
    (fun before (k, v) => do
      let key ← key k
      return putPart before key (← part v)) []

/-- A pair, which is written as a mapping with one entry. -/
def pairParts (n : Nat) : BuildM (Part × Part) := do
  match (← get).nodes[n]? with
  | some (.mapping _ [(k, v)]) =>
    let first ← part k
    return (first, ← part v)
  | _ => unbuildable

/-- What a collection of a given kind consists of. -/
def contentOf (n : Nat) (kind : Kind) : BuildM Content := do
  match kind, (← get).nodes[n]? with
  | .list, some (.sequence _ items) => return .list (← items.mapM part)
  | .map, some (.mapping ..) => return .map (← entryParts n)
  | .set, some (.mapping ..) => return .set (SetOrder.ordered ((← entryParts n).map (·.1)))
  | .pairs, some (.sequence _ items) => return .pairs (← items.mapM pairParts)
  | _, _ => unbuildable

/-- Gives the collections that wait their parts, and those that are met there, in order.  Every node waits
    once, which bounds `fuel`. -/
def fillAll : (fuel : Nat) → BuildM Unit
  | 0 => return
  | fuel + 1 => do
    match (← get).waiting with
    | [] => return
    | (n, kind) :: rest =>
      modify fun b => { b with waiting := rest }
      let content ← contentOf n kind
      modify fun b => { b with contents := b.contents.setIfInBounds n (some content) }
      fillAll fuel

/-! ### Documents -/

/-- A collection is spelled out no more often on the way to one of its parts. -/
def maxCopies : Nat := 8

/-- So many collections are spelled out inside of themselves in one document. -/
def maxSpelled : Nat := 5000

/-- The value of a part that stands in the collections `around`, from the inside out; a pair is no
    collection with a number.  Every collection is spelled out at most `copies` times on the way to
    a part, which bounds `fuel`.  The state tells how many collections may still be spelled out
    inside of themselves; there is no value when they are too few. -/
def spelled (contents : Array (Option Content)) (copies : Nat) :
    (fuel : Nat) → (around : List (Option Nat)) → Part → StateT Nat Option Value
  | _, _, .value v => return v
  | 0, _, .collection _ => return .endless
  | fuel + 1, around, .collection n => do
    if copies ≤ around.count (some n) then return .endless
    let isAgain := around.contains (some n)
    if isAgain then
      let left ← get
      if left = 0 then failure
      set (left - 1)
    let inner := some n :: around
    let v : Value ←
      match contents[n]?.getD none with
      | some (.list items) => Value.list <$> items.mapM (spelled contents copies fuel inner)
      | some (.pairs items) =>
        Value.list <$> items.mapM fun (a, b) => do
          let first ← spelled contents copies fuel (none :: inner) a
          return .tuple [first, ← spelled contents copies fuel (none :: inner) b]
      | some (.set keys) => pure (.set keys)
      | some (.map entries) =>
        Value.map <$> entries.mapM fun (k, p) => do
          return (k, ← spelled contents copies fuel inner p)
      | none => pure .endless
    return if isAgain then .again (around.idxOf (some n) + 1) v else v

/-- The value of a document.  A collection that is a part of itself is spelled out inside of itself
    as often as the limits allow; once is always possible. -/
def spelledOut (contents : Array (Option Content)) (root : Part) : Value :=
  let tries := (List.range maxCopies).reverse.map fun copies =>
    fun () => (spelled contents (copies + 1) ((copies + 1) * contents.size + 1) [] root).run' maxSpelled
  (tries.findSome? fun spell => spell ()).getD .endless

/-- The value of a node of a graph. -/
def Graph.valueAt (g : Graph) (n : Nat) : Except Failure Value := do
  let build : BuildM Part := do
    let root ← part n
    fillAll (g.size + 1)
    return root
  let (root, b) ← build.run ⟨g, Array.replicate g.size none, Array.replicate g.size none, []⟩
  return spelledOut b.contents root

end TypedClient.Yaml
