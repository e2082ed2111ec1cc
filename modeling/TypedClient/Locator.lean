import TypedClient.Locator.Path
import TypedClient.Locator.Url

namespace TypedClient.Locator

/-!
# Locators

A locator says where a document is: a file path or a web address.  Linked documents are found relative
to the place of the document that generation starts from.

* `isUrl`: is the locator a web address.
* `join`: the locator of a linked document.
* `base`, `entry`: the place of a document, and its name there.
* `canonicalFile`: one spelling for all spellings of a linked file.
-/

/-- Web addresses begin with one of two schemes, in lower case. -/
def isUrl (locator : String) : Bool :=
  locator.startsWith "http://" || locator.startsWith "https://"

/-- The locator of a file that is named relative to a base. -/
def join (base file : String) : Except Failure String :=
  if isUrl base then Url.join base file else .ok (Path.join base file)

/-- The directory of a document, or the address of it. -/
def base (workingDirectory locator : String) : Except Failure String :=
  if isUrl locator then Url.join locator "."
  else .ok (Path.directory (Path.absolute workingDirectory locator))

/-- The name of a document in its directory. -/
def entry (locator : String) : Except Failure String :=
  if isUrl locator then return Path.fileName (String.ofList (← Url.split "" locator).path)
  else return Path.fileName locator

/-- One spelling for all spellings of a file: the path is normalized, and backslashes separate like
    slashes.  In an address only the path is touched. -/
def canonicalFile (file : String) : Except Failure String :=
  if isUrl file then do
    let u ← Url.split "" file
    let path := if u.path.isEmpty then [] else Path.normalizeChars u.path
    return Url.unsplit { u with path }
  else
    .ok (String.ofList (Path.normalizeChars (file.toList.map fun c => if c = '\\' then '/' else c)))

end TypedClient.Locator
