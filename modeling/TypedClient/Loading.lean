import TypedClient.Description
import TypedClient.Disk
import TypedClient.Json
import TypedClient.Output.Client
import TypedClient.Yaml.Document

namespace TypedClient

/-!
# Loading documents

Documents are files or are downloaded.  Their text is JSON if their name says so, and YAML otherwise.

* `Storage`: the disk, and what can be downloaded.
* `Storage.readDocument`: the document under a locator.
* `Storage.documents`: the values of all texts in the storage.
* `Storage.source`: the storage as a source of linked documents.
* `Job`: a generation that is ready to start.
-/

/-- The disk, and the texts that can be downloaded by their addresses. -/
structure Storage where
  disk : Disk
  web : Table String String

namespace Storage

/-- The text under a locator. -/
def readText (s : Storage) (locator : String) : Except Failure String :=
  if Locator.isUrl locator then
    match s.web.get? locator with
    | some text => .ok text
    | none => .error (.access .notServed)
  else s.disk.readText locator

/-- The value that a text spells, in the format that the name of the document tells. -/
def parseText (locator text : String) : Except Failure Value :=
  if locator.endsWith ".json" then Json.parse text else Yaml.parse text

/-- The document under a locator; every document is a map. -/
def readDocument (s : Storage) (locator : String) : Except Failure Value := do
  match ← parseText locator (← s.readText locator) with
  | .map entries => return .map entries
  | _ => throw (.invalidDocument locator)

/-- The texts of files and those that can be downloaded. -/
def texts (s : Storage) : List String :=
  s.disk.texts ++ s.web.values

/-- The values that the texts spell in one of the formats. -/
def documents (s : Storage) : List Value :=
  s.texts.flatMap fun text => [Json.parse text, Yaml.parse text].filterMap Except.toOption

/-- The storage as a source of documents.  Every file that one of them names takes a value of it. -/
def source (s : Storage) : Source where
  ask := s.readDocument
  reach := Value.weightAll s.documents

end Storage

/-- A generation that is ready to start: the document, and a resolver that knows where it is. -/
structure Job where
  source : Source
  document : Value
  resolver : Resolver

namespace Job

/-- The generation for the document under a locator. -/
def start (s : Storage) (locator : String) : Except Failure Job := do
  let document ← s.readDocument locator
  let base ← Locator.base s.disk.workingPath locator
  let entry ← Locator.entry locator
  return ⟨s.source, document, ← Resolver.start base entry⟩

/-- What the document and the documents linked to it describe, and the resolver after that. -/
def describe (j : Job) (namedEnums : Bool) : Except Failure Description × Resolver :=
  j.resolver.describe j.source namedEnums j.document

/-- The files of the client. -/
def generate (j : Job) (options : Output.Options) : Except Failure Output.Project := do
  Output.generate options (← (j.describe options.namedEnums).1)

end Job

end TypedClient
