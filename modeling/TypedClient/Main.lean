import TypedClient.CommandLine.Run

/-!
# The program

A run sees nothing but its console.  The program puts the files that a run looks at into the console, and
further lines of input when they are asked for, and repeats the run until it looks at nothing new; then
it writes what the run has changed.
-/

namespace TypedClient.CommandLine

/-- The names on the way to a place in the file system. -/
def placeOf (path : String) : List String :=
  ((Text.pieces '/' path.toList).filter fun s => !s.isEmpty).map String.ofList

/-- The paths of all directories on the way to a path, and the path itself. -/
def stages (path : String) : List String :=
  let pieces := Text.pieces '/' path.toList
  (List.range pieces.length).map fun i =>
    String.ofList (Text.joinPieces '/' (pieces.take (i + 1)))

/-- Puts what stands at a path into a disk. -/
def fetch (disk : Disk) (path : String) : IO Disk := do
  let directory ← IO.currentDir
  match disk.walk path, Text.plain? path with
  | .ok place, some path =>
    try
      if ← (directory / path).isDir then
        return { disk with directories := disk.directories ++ [place] }
      else
        let content ← IO.FS.readBinFile (directory / path)
        return { disk with files := disk.files.put place content }
    catch _ => return disk
  | _, _ => return disk

/-- Puts everything on the way to a path into a disk. -/
def fetchAll (disk : Disk) (path : String) : IO Disk :=
  if Locator.isUrl path then return disk else (stages path).foldlM fetch disk

/-- Writes the directories and files of a disk that are not the same on another. -/
def store (before after : Disk) : IO Unit := do
  for place in after.directories do
    if !before.directories.contains place then
      IO.FS.createDirAll ("/" ++ String.intercalate "/" place)
  for (place, content) in after.files do
    if (before.files.get? place).map ByteArray.toList != some content.toList then
      IO.FS.writeBinFile ("/" ++ String.intercalate "/" place) content

/-- Repeats a run until it looks at nothing new and asks for nothing more.  `shown` characters of its
    output are printed already. -/
partial def converse (words seen : List String) (storage : Storage) (input : List String)
    (shown : Nat) : IO UInt32 := do
  let ⟨result, console⟩ := carryOut words storage input
  match console.looked.filter fun path => !seen.contains path with
  | path :: _ =>
    let disk ← fetchAll storage.disk path
    converse words (path :: seen) { storage with disk } input shown
  | [] =>
    let stdout ← IO.getStdout
    let unshown := String.ofList (console.output.toList.drop shown)
    stdout.putStr ((Text.plain? unshown).getD unshown)
    stdout.flush
    if let .error (.access .endOfInput) := result then
      let line ← (← IO.getStdin).getLine
      if line != "" then
        let text := Text.marked (String.ofList (Text.before '\n' line.toList))
        return ← converse words seen storage (input ++ [text]) console.output.length
    store storage.disk console.storage.disk
    match result with
    | .ok code => return code.toUInt32
    | .error e =>
      IO.eprintln e.message
      return 1

end TypedClient.CommandLine

/-- Generates a client for the document that the command line names. -/
def main (words : List String) : IO UInt32 := do
  let place := TypedClient.CommandLine.placeOf (← IO.currentDir).toString
  TypedClient.CommandLine.converse (words.map TypedClient.Text.marked) [] ⟨TypedClient.Disk.empty place, []⟩ [] 0
