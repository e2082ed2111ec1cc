import TypedClient.Text.Cut

namespace TypedClient.Path

/-!
# File paths

Paths are taken apart at their slashes and put together again.  No file is looked at: two steps to a
directory and back out of it cancel by their names alone.

* `normalize`: the shortest spelling of a path.
* `join`: a path relative to a directory.
* `directory`, `fileName`: the two halves of a path.
* `absolute`: a path seen from a working directory.
-/

/-- The number of slashes that make up the root: none for a relative path, two for exactly two slashes
    in front, otherwise one. -/
def rootLength (cs : List Char) : Nat :=
  match (cs.takeWhile (· == '/')).length with
  | 0 => 0
  | 2 => 2
  | _ => 1

/-- One segment put on the stack of those before it.  Empty segments and single dots say nothing; two
    dots take back the segment before, stay at the root, and pile up in front of a relative path. -/
def push (rooted : Bool) (stack : List (List Char)) (segment : List Char) : List (List Char) :=
  if segment = [] ∨ segment = ['.'] then stack
  else if segment ≠ ['.', '.'] then segment :: stack
  else
    match stack with
    | [] => if rooted then [] else [segment]
    | top :: rest => if top = ['.', '.'] then segment :: stack else rest

/-- The segments that are left when all steps back are taken. -/
def resolve (rooted : Bool) (segments : List (List Char)) : List (List Char) :=
  (segments.foldl (push rooted) []).reverse

/-- The shortest spelling of a path; a path to the directory itself is a dot. -/
def normalizeChars (cs : List Char) : List Char :=
  let root := rootLength cs
  let path := List.replicate root '/' ++ Text.joinPieces '/' (resolve (root != 0) (Text.pieces '/' cs))
  if path.isEmpty then ['.'] else path

/-- The shortest spelling of a path. -/
def normalize (path : String) : String :=
  String.ofList (normalizeChars path.toList)

/-- A path seen from a directory; a path from the root stands for itself. -/
def join (directory path : String) : String :=
  if path.startsWith "/" then path
  else if directory = "" ∨ directory.endsWith "/" then directory ++ path
  else directory ++ "/" ++ path

/-- What stands before the last slash, without further slashes at its end unless it is all slashes. -/
def directory (path : String) : String :=
  let (head, _) := Text.cutLast '/' path.toList
  let stripped := (head.reverse.dropWhile (· == '/')).reverse
  String.ofList (if stripped.isEmpty then head else stripped)

/-- What stands after the last slash. -/
def fileName (path : String) : String :=
  String.ofList (Text.cutLast '/' path.toList).2

/-- The shortest spelling of a path seen from a working directory. -/
def absolute (workingDirectory path : String) : String :=
  normalize (join workingDirectory path)

end TypedClient.Path
