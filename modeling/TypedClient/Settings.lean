import TypedClient.Disk
import TypedClient.Output.Client
import TypedClient.Toml.Writer

namespace TypedClient

/-!
# Settings

What to generate and where to put it can be kept in a file.

* `Settings`: the settings; nothing is known in advance about their values.
* `Settings.load`: the settings in a file.
* `Settings.save`: writes them to a file.
* `Settings.override`: settings of which some are given anew.
-/

/-- The settings of a generation.  A file can give them values of every kind. -/
structure Settings where
  url : Value
  directory : Value
  namedEnums : Value
  space : Value
  deriving Inhabited, Repr

namespace Settings

/-- The name of the file that settings are kept in. -/
def fileName : String := "openapi.toml"

/-- The directory that files go to if none is set. -/
def defaultDirectory : Value := .text "out"

/-- Nothing is set. -/
def unset : Settings :=
  ⟨.null, .null, .bool false, .null⟩

/-! ### Reading -/

/-- The settings that a table holds; of the named enums only counts whether they are set at all. -/
def ofTable (table : Value) : Except Failure Settings := do
  let entries ← table.entries
  let find (name : String) : Option Value := Value.find? name entries
  return {
    url := (find "url").getD .null
    directory := (find "dirname").getD defaultDirectory
    namedEnums := .bool ((find "named_enums").getD .null).isFilled
    space := (find "namespace").getD .null }

/-- The path of the settings file: the one in the directory that is searched, if there is one. -/
def locate (d : Disk) (path : String) (searched : Option String) : String :=
  match searched with
  | some directory =>
    let inside := Path.join directory fileName
    if directory ≠ "" ∧ d.isDirectory directory ∧ d.exists? inside then inside else path
  | none => path

/-- The settings in a file.  There are none if the file is missing or is not TOML. -/
def load (d : Disk) (path : String) (searched : Option String) : Except Failure (Option Settings) :=
  let path := locate d path searched
  if !d.exists? path then .ok none
  else do
    let text ← d.readText path
    match Toml.parse text with
    | .ok table => return some (← ofTable table)
    | .error (.access .invalidToml) => return none
    | .error e => throw e

/-! ### Writing -/

/-- The settings as a table; the namespace is left out if it is not set. -/
def toTable (s : Settings) : List (Value × Value) :=
  [(.text "url", s.url), (.text "dirname", s.directory), (.text "named_enums", s.namedEnums)]
    ++ (if s.space.isFilled then [(.text "namespace", s.space)] else [])

/-- Writes the settings to a file.  The file is emptied first, and stays empty if they cannot be
    written. -/
def save (s : Settings) (d : Disk) (path : String) : Except Failure Unit × Disk :=
  match d.writeText path "" with
  | (.error e, d) => (.error e, d)
  | (.ok (), emptied) =>
    match Toml.write s.toTable with
    | .error e => (.error e, emptied)
    | .ok text => emptied.writeText path text

/-! ### Use -/

/-- The settings with those of `given` in place of their own that are not absent there. -/
def override (s given : Settings) : Settings where
  url := given.url.orElse s.url
  directory := given.directory.orElse s.directory
  namedEnums := given.namedEnums.orElse s.namedEnums
  space := given.space.orElse s.space

/-- What the text of the client depends on. -/
def options (s : Settings) : Except Failure Output.Options := do
  let space ← if s.space.isFilled then s.space.asDisplayed.map some else pure none
  return ⟨s.namedEnums.isFilled, space⟩

end Settings

end TypedClient
