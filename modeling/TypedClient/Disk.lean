import TypedClient.Failure
import TypedClient.Locator.Path
import TypedClient.Table
import TypedClient.Text.Surrogate

namespace TypedClient

/-!
# Files and directories

The part of a file system that a generation sees.  A place is the list of names on the way to it from the
root.

* `Disk`: files by place, directories, and the working directory.
* `Disk.walk`: the place that a path leads to.
* `Disk.read`, `Disk.write`: the content of a file.
* `Disk.makeDirectories`: makes a directory and those around it.
-/

/-- Files by place, the directories that were made, and the working directory. -/
structure Disk where
  files : Table (List String) ByteArray
  directories : List (List String)
  workingDirectory : List String

/-- What stands at a place. -/
inductive DiskEntry where
  | file (content : ByteArray)
  | directory
  | missing

namespace Disk

/-- A disk on which only the working directory exists. -/
def empty (workingDirectory : List String) : Disk :=
  ⟨[], [], workingDirectory⟩

/-- The working directory as a path. -/
def workingPath (d : Disk) : String :=
  Text.marked <| "/" ++ String.intercalate "/" d.workingDirectory

/-- A directory was made, is on the way to the working directory, or has a file in it. -/
def isDirectoryAt (d : Disk) (place : List String) : Bool :=
  place.isPrefixOf d.workingDirectory || d.directories.any place.isPrefixOf
    || d.files.any fun (file, _) => place.isPrefixOf file && place != file

/-- What stands at a place. -/
def entryAt (d : Disk) (place : List String) : DiskEntry :=
  match d.files.get? place with
  | some content => .file content
  | none => if d.isDirectoryAt place then .directory else .missing

/-! ### Paths -/

/-- The number of octets of a name. -/
def extent (name : List Char) : Nat :=
  (String.ofList name).utf8ByteSize

/-- A name may not have more octets. -/
def maxName : Nat := 255

/-- A path may not have more octets. -/
def maxPath : Nat := 4095

/-- One step from a place that must be a directory. -/
def step (d : Disk) (place : List String) (segment : List Char) : Except Failure (List String) :=
  match d.entryAt place with
  | .file _ => .error (.access .notDirectory)
  | .missing => .error (.access .notFound)
  | .directory =>
    if segment = [] ∨ segment = ['.'] then .ok place
    else if segment = ['.', '.'] then .ok place.dropLast
    else if maxName < extent segment then .error (.access .nameTooLong)
    else .ok (place ++ [String.ofList segment])

/-- The place that a path leads to.  All but the last segment must be directories; a slash at the end makes
    the last one a directory, too. -/
def walk (d : Disk) (path : String) : Except Failure (List String) :=
  match Text.plain? path with
  | none => .error (.access .halfCharacter)
  | some path =>
    if path.toList.contains '\x00' then .error (.access .invalidName)
    else if maxPath < extent path.toList then .error (.access .nameTooLong)
    else if path = "" then .error (.access .notFound)
    else
      let origin := if path.startsWith "/" then [] else d.workingDirectory
      (Text.pieces '/' path.toList).foldlM d.step origin

/-- What a path leads to. -/
def find (d : Disk) (path : String) : Except Failure DiskEntry :=
  (d.walk path).map d.entryAt

/-- Does a path lead to a file or a directory? -/
def exists? (d : Disk) (path : String) : Bool :=
  match d.find path with
  | .ok (.file _) | .ok .directory => true
  | _ => false

/-- Does a path lead to a directory? -/
def isDirectory (d : Disk) (path : String) : Bool :=
  match d.find path with
  | .ok .directory => true
  | _ => false

/-! ### Files -/

/-- The content of a file. -/
def read (d : Disk) (path : String) : Except Failure ByteArray := do
  match ← d.find path with
  | .file content => return content
  | .directory => throw (.access .isDirectory)
  | .missing => throw (.access .notFound)

/-- Every way to end a line as a line feed. -/
def unifyBreaks : List Char → List Char
  | '\r' :: '\n' :: rest => '\n' :: unifyBreaks rest
  | '\r' :: rest => '\n' :: unifyBreaks rest
  | c :: rest => c :: unifyBreaks rest
  | [] => []

/-- The text that octets spell, with all lines ended by line feeds. -/
def decode (content : ByteArray) : Option String :=
  (String.fromUTF8? content).map fun text => Text.marked (String.ofList (unifyBreaks text.toList))

/-- The text of a file. -/
def readText (d : Disk) (path : String) : Except Failure String := do
  match decode (← d.read path) with
  | some text => return text
  | none => throw (.access .notText)

/-- The texts of all files that are texts. -/
def texts (d : Disk) : List String :=
  d.files.filterMap fun (_, content) => decode content

/-- Writes a file; its directory must be there.  A path with a slash at its end names no file. -/
def write (d : Disk) (path : String) (content : ByteArray) : Except Failure Disk :=
  match d.walk path with
  | .error e =>
    if path.endsWith "/" ∧ e matches .access .notFound ∧ path ≠ "" then .error (.access .isDirectory)
    else .error e
  | .ok place =>
    match d.entryAt place with
    | .directory => .error (.access .isDirectory)
    | _ => .ok { d with files := d.files.put place content }

/-- Writes a text to a file.  The file is emptied first, and stays empty if the text cannot be written. -/
def writeText (d : Disk) (path text : String) : Except Failure Unit × Disk :=
  match d.write path ByteArray.empty with
  | .error e => (.error e, d)
  | .ok emptied =>
    match Text.plain? text with
    | none => (.error (.access .halfCharacter), emptied)
    | some text =>
      match d.write path text.toUTF8 with
      | .error e => (.error e, emptied)
      | .ok written => (.ok (), written)

/-! ### Directories -/

/-- A path without the slashes at its end, unless it is all slashes. -/
def dropSlashes (path : String) : String :=
  let kept := (path.toList.reverse.dropWhile (· == '/')).reverse
  if kept.isEmpty then path else String.ofList kept

/-- Makes a directory in a directory that is there. -/
def makeDirectory (d : Disk) (path : String) : Except Failure Disk := do
  let place ← d.walk (dropSlashes path)
  match d.entryAt place with
  | .missing => return { d with directories := d.directories ++ [place] }
  | _ => throw (.access .alreadyExists)

/-- Makes a directory, or leaves it as it is. -/
def ensureDirectory (d : Disk) (path : String) : Except Failure Disk :=
  match d.makeDirectory path with
  | .ok d => .ok d
  | .error e => if d.isDirectory path then .ok d else .error e

/-- The directory that a path stands in, and its name there; slashes at the end do not count. -/
def splitPath (path : String) : String × String :=
  let name := Path.fileName path
  if name = "" then (Path.directory (Path.directory path), Path.fileName (Path.directory path))
  else (Path.directory path, name)

/-- Makes a directory and those around it that are missing; every step takes a name off the path. -/
def makeAround : (fuel : Nat) → Disk → (path : String) → Except Failure Disk
  | 0, d, path => d.ensureDirectory path
  | fuel + 1, d, path =>
    let (outer, name) := splitPath path
    if outer ≠ "" ∧ name ≠ "" ∧ !d.exists? outer then
      match makeAround fuel d outer with
      | .ok d => if name = "." then .ok d else d.ensureDirectory path
      | .error (.access .alreadyExists) =>
        if name = "." then .ok d else d.ensureDirectory path
      | .error e => .error e
    else d.ensureDirectory path

/-- Makes a directory and those around it that are missing. -/
def makeDirectories (d : Disk) (path : String) : Except Failure Disk :=
  makeAround path.length d path

end Disk

end TypedClient
