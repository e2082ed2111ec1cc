import TypedClient.Document.Access
import TypedClient.Locator
import TypedClient.Text.Blank

namespace TypedClient.Link

/-!
# Links between schemas

A link `file#/components/schemas/Name` names a schema of a file.  Every schema has one key, whatever
file the link stands in and however it spells the file.

* `Scope`: where a link stands.
* `schemaKey`: the key of a schema of a file.
* `keyOf`: the key that a link denotes.
* `ofMapping`: the link that an entry of a discriminator mapping stands for.
-/

/-- What comes before a schema's name in a key. -/
def schemasPath : String := "/components/schemas/"

/-- Where a link stands: the canonical name of the document that generation starts from, empty if it
    has none, and the file that holds the link, empty for the document that generation starts from. -/
structure Scope where
  entry : String
  file : String
  deriving DecidableEq, Repr, Inhabited

/-- The key of the schema `name` of a file. -/
def schemaKey (file name : String) : String :=
  file ++ "#" ++ schemasPath ++ name

/-- The file of a key: what stands before its first number sign. -/
def fileOf (key : String) : String :=
  String.ofList (Text.before '#' key.toList)

/-- The file that a link means by the name `file`: the one that holds the link if there is no name, and
    the document that generation starts from under its own name. -/
def targetFile (scope : Scope) (file : String) : Except Failure String := do
  if file = "" then return scope.file
  let canonical ← Locator.canonicalFile file
  return if canonical = scope.entry then "" else canonical

/-- The key that a link denotes.  Blanks around the link are dropped; a link must point below the
    schemas of its file. -/
def keyOf (scope : Scope) (link : String) : Except Failure String := do
  let cs := Text.trim link.toList
  let pathChars := schemasPath.toList
  match Text.after? '#' cs with
  | none => throw (.invalidLink link)
  | some pointer =>
    if pathChars.isPrefixOf pointer && pointer.length != pathChars.length then
      let file ← targetFile scope (String.ofList (Text.before '#' cs))
      return file ++ "#" ++ String.ofList pointer
    else throw (.invalidLink link)

/-- The key that a link in a document denotes; only a text is a link. -/
def keyOfValue (scope : Scope) (link : Value) : Except Failure String :=
  match link with
  | .text s => keyOf scope s
  | .bytes _ => .error Failure.notUsable
  | _ => .error Failure.notApplicable

/-- The link that an entry of a discriminator mapping stands for: the name of a schema of the same file
    if there is no number sign in it. -/
def ofMapping (link : Value) : Except Failure Value := do
  if ← link.holdsText "#" then return link
  return .text ("#" ++ schemasPath ++ (← link.asDisplayed))

end TypedClient.Link
