import TypedClient.Failure

namespace TypedClient.Yaml

/-!
# YAML tokens

The marks and words of a YAML text.  Indentation is spelled out: where lines are indented further a
collection opens, and where the indentation goes back it closes.

* `TagText`: a tag as it is written.
* `Token`: the tokens.
-/

/-- A tag as it is written: the handle that stands for the first part of it, if it has one, and the
    rest. -/
structure TagText where
  handle : Option String
  suffix : String
  deriving DecidableEq, Repr, Inhabited

/-- A line in front of a document. -/
inductive Directive where
  | version (major minor : Nat)
  | handle (name start : String)
  | other
  deriving DecidableEq, Repr, Inhabited

/-- The marks and words of a text. -/
inductive Token where
  | streamEnd
  | directive (d : Directive)
  | documentStart
  | documentEnd
  | blockSequenceStart
  | blockMappingStart
  | blockEnd
  | flowSequenceStart
  | flowSequenceEnd
  | flowMappingStart
  | flowMappingEnd
  | flowEntry
  | blockEntry
  | key
  | value
  | alias (name : String)
  | anchor (name : String)
  | tag (t : TagText)
  | scalar (text : String) (plain : Bool)
  deriving Inhabited, Repr

end TypedClient.Yaml
