import TypedClient.Table
import TypedClient.Yaml.Implicit
import TypedClient.Yaml.Lexer
import TypedClient.Yaml.Node

namespace TypedClient.Yaml

/-!
# From tokens to nodes

A node is known under its anchor as soon as it has begun, so that its parts can be aliases of it.

* `NodeReader`: what is still to be read, the nodes so far, and their anchors.
* `NodeReader.readNode`: the next node.
* `NodeReader.readStream`: the node of the only document of a text.
* `Graph.ofText`: the nodes of the only document of a text.
-/

/-- What reading of nodes goes by. -/
structure NodeReader where
  lexer : Lexer
  /-- A number of tokens that the text does not have more of. -/
  extent : Nat
  /-- Handles of tags with what they stand for. -/
  handles : Table String String
  nodes : Graph
  /-- The nodes with an anchor. -/
  anchors : Table String Nat
  deriving Inhabited

/-- A reading that can fail. -/
abbrev ReadM := StateT NodeReader (Except Failure)

namespace NodeReader

/-! ### Tokens -/

/-- The next token cannot stand where it stands. -/
def unexpected {α : Type} : ReadM α :=
  throw (.access .invalidYaml)

/-- The next token, which stays where it is. -/
def peek : ReadM Token := do
  let r ← get
  let lexer ← r.lexer.settle r.extent
  set { r with lexer }
  match lexer.pending with
  | t :: _ => return t
  | [] => unexpected

/-- Takes the next token off. -/
def skip : ReadM Unit :=
  modify fun r => { r with lexer := r.lexer.skip }

/-! ### Properties -/

/-- The tags that can be written without a directive. -/
def standardHandles : Table String String :=
  [("!", "!"), ("!!", "tag:yaml.org,2002:")]

/-- The tag that a written tag stands for; its handle must be known. -/
def tagOf (t : TagText) : ReadM String := do
  match t.handle with
  | none => return t.suffix
  | some handle =>
    match (← get).handles.get? handle with
    | some start => return start ++ t.suffix
    | none => throw (.access .invalidYaml)

/-- The anchor and the tag in front of a node, in either order. -/
def readProperties : ReadM (Option String × Option String) := do
  match ← peek with
  | .anchor name =>
    skip
    match ← peek with
    | .tag t => skip; return (some name, some (← tagOf t))
    | _ => return (some name, none)
  | .tag t =>
    skip
    match ← peek with
    | .anchor name => skip; return (some name, some (← tagOf t))
    | _ => return (none, some (← tagOf t))
  | _ => return (none, none)

/-- Adds a node, which is known under its anchor from now on; an anchor is given once. -/
def addNode (anchor : Option String) (node : Node) : ReadM Nat := do
  let r ← get
  let n := r.nodes.size
  match anchor with
  | none => set { r with nodes := r.nodes.push node }
  | some name =>
    if (r.anchors.get? name).isSome then throw (.access .invalidYaml)
    set { r with nodes := r.nodes.push node, anchors := r.anchors.put name n }
  return n

/-- Gives a sequence its items. -/
def setItems (n : Nat) (items : List Nat) : ReadM Nat := do
  modify fun r => { r with nodes := r.nodes.modify n (Node.withItems items) }
  return n

/-- Gives a mapping its entries. -/
def setEntries (n : Nat) (entries : List (Nat × Nat)) : ReadM Nat := do
  modify fun r => { r with nodes := r.nodes.modify n (Node.withEntries entries) }
  return n

/-- The node that an alias stands for. -/
def nodeNamed (name : String) : ReadM Nat := do
  match (← get).anchors.get? name with
  | some n => return n
  | none => throw (.access .invalidYaml)

/-- Is this tag no tag at all? -/
def isUntagged : Option String → Bool
  | none => true
  | some t => t == "!"

/-- The tag of a collection. -/
def collectionTag (kind : String) (tag : Option String) : String :=
  if isUntagged tag then coreTag kind else tag.getD ""

/-- The tag of a text.  A plain text without a tag, and every text with the tag that is none, has the tag
    of its form. -/
def scalarTag (tag : Option String) (text : String) (plain : Bool) : String :=
  if tag == some "!" || (tag.isNone && plain) then implicitTag text
  else tag.getD (coreTag "str")

/-- Adds a node without any text. -/
def emptyNode : ReadM Nat :=
  addNode none (.scalar (implicitTag "") "")

/-! ### Nodes -/

/-- Where a node stands decides which collections can begin there: only those in brackets, those of
    indented lines too, or also items that are not indented further than their key. -/
inductive Place where
  | flow
  | block
  | value
  deriving DecidableEq, Repr, Inhabited

/-- Does the item, key or value end before it has begun, so that it is empty? -/
def endsBlock (place : Place) : Token → Bool
  | .blockEntry => place == .block
  | .key | .value => place == .value
  | .blockEnd => true
  | _ => false

/-- Does a part of a collection in brackets end before it has begun? -/
def endsFlow : Token → Bool
  | .value | .flowEntry | .flowSequenceEnd | .flowMappingEnd => true
  | _ => false

mutual

/-- The next node.  Every nested node has fewer tokens before it, and the functions call each other at
    most a few times for one token, which bounds `fuel`. -/
def readNode : (fuel : Nat) → Place → ReadM Nat
  | 0, _ => unexpected
  | fuel + 1, place => do
    match ← peek with
    | .alias name => skip; nodeNamed name
    | _ =>
      let (anchor, tag) ← readProperties
      match ← peek, place with
      | .blockEntry, .value =>
        let n ← addNode anchor (.sequence (collectionTag "seq" tag) [])
        setItems n (← readLevelItems fuel [])
      | .scalar text plain, _ =>
        skip
        addNode anchor (.scalar (scalarTag tag text plain) text)
      | .flowSequenceStart, _ =>
        let n ← addNode anchor (.sequence (collectionTag "seq" tag) [])
        skip
        setItems n (← readFlowItems fuel [])
      | .flowMappingStart, _ =>
        let n ← addNode anchor (.mapping (collectionTag "map" tag) [])
        skip
        setEntries n (← readFlowEntries fuel [])
      | .blockSequenceStart, .block | .blockSequenceStart, .value =>
        let n ← addNode anchor (.sequence (collectionTag "seq" tag) [])
        skip
        setItems n (← readBlockItems fuel [])
      | .blockMappingStart, .block | .blockMappingStart, .value =>
        let n ← addNode anchor (.mapping (collectionTag "map" tag) [])
        skip
        setEntries n (← readBlockEntries fuel [])
      | _, _ =>
        if anchor.isNone && tag.isNone then unexpected
        else addNode anchor (.scalar (scalarTag tag "" true) "")

/-- The items of a block sequence up to its end; `before` are those before, the last one first. -/
def readBlockItems : (fuel : Nat) → (before : List Nat) → ReadM (List Nat)
  | 0, _ => unexpected
  | fuel + 1, before => do
    match ← peek with
    | .blockEntry =>
      skip
      let item ← if endsBlock .block (← peek) then emptyNode else readNode fuel .block
      readBlockItems fuel (item :: before)
    | .blockEnd => skip; return before.reverse
    | _ => unexpected

/-- The items of a sequence whose dashes are not indented further than the key before them. -/
def readLevelItems : (fuel : Nat) → (before : List Nat) → ReadM (List Nat)
  | 0, _ => unexpected
  | fuel + 1, before => do
    match ← peek with
    | .blockEntry =>
      skip
      let next ← peek
      let item ←
        if endsBlock .block next || endsBlock .value next then emptyNode
        else readNode fuel .block
      readLevelItems fuel (item :: before)
    | _ => return before.reverse

/-- The entries of a block mapping up to its end.  Key or value can be missing. -/
def readBlockEntries : (fuel : Nat) → (before : List (Nat × Nat)) → ReadM (List (Nat × Nat))
  | 0, _ => unexpected
  | fuel + 1, before => do
    match ← peek with
    | .blockEnd => skip; return before.reverse
    | .key =>
      skip
      let key ← readBlockPart fuel
      readBlockValue fuel before key
    | _ => unexpected

/-- The value of a key in a block mapping, and the entries after it. -/
def readBlockValue : (fuel : Nat) → (before : List (Nat × Nat)) → (key : Nat) →
    ReadM (List (Nat × Nat))
  | 0, _, _ => unexpected
  | fuel + 1, before, key => do
    match ← peek with
    | .value =>
      skip
      let value ← readBlockPart fuel
      readBlockEntries fuel ((key, value) :: before)
    | _ => readBlockEntries fuel ((key, ← emptyNode) :: before)

/-- A key or a value of a block mapping after its mark. -/
def readBlockPart : (fuel : Nat) → ReadM Nat
  | 0 => unexpected
  | fuel + 1 => do
    if endsBlock .value (← peek) then emptyNode else readNode fuel .value

/-- The items of a sequence in brackets up to the closing one.  An item can be a mapping with one entry
    that has no brackets of its own. -/
def readFlowItems : (fuel : Nat) → (before : List Nat) → ReadM (List Nat)
  | 0, _ => unexpected
  | fuel + 1, before => do
    if !before.isEmpty then
      match ← peek with
      | .flowSequenceEnd => pure ()
      | .flowEntry => skip
      | _ => unexpected
    match ← peek with
    | .flowSequenceEnd => skip; return before.reverse
    | .key =>
      skip
      let n ← addNode none (.mapping (coreTag "map") [])
      let key ← readFlowPart fuel
      let value ← readFlowValue fuel
      readFlowItems fuel ((← setEntries n [(key, value)]) :: before)
    | _ =>
      let item ← readNode fuel .flow
      readFlowItems fuel (item :: before)

/-- The entries of a mapping in brackets up to the closing one.  A key without a mark has no value. -/
def readFlowEntries : (fuel : Nat) → (before : List (Nat × Nat)) → ReadM (List (Nat × Nat))
  | 0, _ => unexpected
  | fuel + 1, before => do
    if !before.isEmpty then
      match ← peek with
      | .flowMappingEnd => pure ()
      | .flowEntry => skip
      | _ => unexpected
    match ← peek with
    | .flowMappingEnd => skip; return before.reverse
    | .key =>
      skip
      let key ← readFlowPart fuel
      let value ← readFlowValue fuel
      readFlowEntries fuel ((key, value) :: before)
    | _ =>
      let key ← readNode fuel .flow
      readFlowEntries fuel ((key, ← emptyNode) :: before)

/-- A key or a value in brackets after its mark. -/
def readFlowPart : (fuel : Nat) → ReadM Nat
  | 0 => unexpected
  | fuel + 1 => do
    if endsFlow (← peek) then emptyNode else readNode fuel .flow

/-- The value of a key in brackets, which can be missing. -/
def readFlowValue : (fuel : Nat) → ReadM Nat
  | 0 => unexpected
  | fuel + 1 => do
    match ← peek with
    | .value => skip; readFlowPart fuel
    | _ => emptyNode

end

/-! ### Documents -/

/-- The directives in front of a document. -/
def readDirectives : (fuel : Nat) → (version : Bool) → (handles : Table String String) →
    ReadM (Table String String)
  | 0, _, _ => unexpected
  | fuel + 1, version, handles => do
    match ← peek with
    | .directive (.version major _) =>
      skip
      if version || major != 1 then throw (.access .invalidYaml)
      readDirectives fuel true handles
    | .directive (.handle name start) =>
      skip
      if (handles.get? name).isSome then throw (.access .invalidYaml)
      readDirectives fuel version (handles.put name start)
    | .directive .other => skip; readDirectives fuel version handles
    | _ => return handles

/-- Passes over marks of a document's end. -/
def skipDocumentEnds : (fuel : Nat) → ReadM Unit
  | 0 => return
  | fuel + 1 => do
    match ← peek with
    | .documentEnd => skip; skipDocumentEnds fuel
    | _ => return

/-- The node of a document that begins with its mark. -/
def readMarkedDocument (fuel : Nat) : ReadM Nat := do
  let own ← readDirectives fuel false []
  match ← peek with
  | .documentStart => skip
  | _ => unexpected
  modify fun r => { r with handles := own ++ standardHandles }
  match ← peek with
  | .directive _ | .documentStart | .documentEnd | .streamEnd => emptyNode
  | _ => readNode fuel .block

/-- Nothing may follow a document but marks of its end.  What begins a further document is read before it is
    refused. -/
def readEnd (fuel : Nat) : ReadM Unit := do
  skipDocumentEnds fuel
  match ← peek with
  | .streamEnd => return
  | _ =>
    let _ ← readDirectives fuel false []
    unexpected

/-- The node of the only document of a text, if there is one.  Without a mark in front it has no
    directives. -/
def readStream (fuel : Nat) : ReadM (Option Nat) := do
  match ← peek with
  | .streamEnd => return none
  | .directive _ | .documentStart =>
    let n ← readMarkedDocument fuel
    readEnd fuel
    return some n
  | _ =>
    let n ← readNode fuel .block
    readEnd fuel
    return some n

end NodeReader

/-- The nodes of the only document of a text and the number of the outermost one, if there is one.  A
    character is the beginning of at most four tokens. -/
def Graph.ofText (text : String) : Except Failure (Graph × Option Nat) := do
  if !text.toList.all isPrintable then invalid
  let extent := 4 * (text.length + 1)
  let (root, r) ← (NodeReader.readStream (4 * extent)).run
    ⟨.start text, extent, NodeReader.standardHandles, #[], []⟩
  return (r.nodes, root)

end TypedClient.Yaml
