import TypedClient.Text.Cut

namespace TypedClient.Output

/-!
# Files of code

The generated code is put together from blocks.

* `CodeBlock`: a piece of code with a rank.
* `CodeFile`: import lines and blocks under a name.
* `CodeFile.text`: the text of a file.
* `Project`: files in the order in which they were added.
-/

/-- Every tab as two blanks. -/
def expandTabs (s : String) : String :=
  String.ofList (s.toList.flatMap fun c => if c = '\t' then [' ', ' '] else [c])

/-- A piece of code; blocks of a higher order come first. -/
structure CodeBlock where
  order : Int
  code : String
  deriving DecidableEq, Repr, Inhabited

/-- The text of a block. -/
def CodeBlock.text (b : CodeBlock) : String :=
  expandTabs b.code

/-- Import lines and blocks, in the order in which they were added. -/
structure CodeFile where
  name : String
  imports : List String
  blocks : List CodeBlock
  deriving DecidableEq, Repr, Inhabited

namespace CodeFile

/-- A file that blocks are to be added to. -/
def empty (name : String) : CodeFile :=
  ⟨name, [], []⟩

/-- The file with a block added. -/
def addBlock (f : CodeFile) (b : CodeBlock) : CodeFile :=
  { f with blocks := f.blocks ++ [b] }

/-- The file with blocks of code added that all have the same rank. -/
def addCode (f : CodeFile) (codes : List String) : CodeFile :=
  { f with blocks := f.blocks ++ codes.map fun code => ⟨0, code⟩ }

/-- The blocks by descending order; blocks of one order stay as they were added. -/
def sortedBlocks (f : CodeFile) : List CodeBlock :=
  f.blocks.mergeSort fun a b => decide (b.order ≤ a.order)

/-- The text of a file: the import lines and the blocks, with an empty line between parts that are not
    empty, and a line end. -/
def text (f : CodeFile) : String :=
  let imports := String.intercalate "\n" f.imports
  let code := String.intercalate "\n\n" (f.sortedBlocks.map CodeBlock.text)
  expandTabs (String.intercalate "\n\n" ([imports, code].filter (· != "")) ++ "\n")

end CodeFile

/-- Files in the order in which they were added. -/
structure Project where
  files : List CodeFile
  deriving DecidableEq, Repr, Inhabited

namespace Project

/-- The project with a file added. -/
def addFile (p : Project) (f : CodeFile) : Project :=
  ⟨p.files ++ [f]⟩

/-- The first file of a name. -/
def getFile? (p : Project) (name : String) : Option CodeFile :=
  p.files.find? fun f => f.name == name

/-- Changes the first file of a name. -/
def modifyFirst (name : String) (change : CodeFile → CodeFile) : List CodeFile → List CodeFile
  | [] => []
  | f :: rest => if f.name == name then change f :: rest else f :: modifyFirst name change rest

/-- Adds a block to the first file of a name, if there is one. -/
def addBlock? (p : Project) (name : String) (b : CodeBlock) : Option Project :=
  if (p.getFile? name).isSome then some ⟨modifyFirst name (·.addBlock b) p.files⟩ else none

/-- Names and texts of the files. -/
def texts (p : Project) : List (String × String) :=
  p.files.map fun f => (f.name, f.text)

end Project

end TypedClient.Output
