namespace TypedClient.Output

/-!
# Text literals

A text of the document stands in the generated code between single quotes.

* `escape`: one character between the quotes.
* `literal`: the literal of a text.
-/

/-- A quote and a backslash have a backslash in front; every other character stands for itself. -/
def escape (c : Char) : List Char :=
  if c = '\'' ∨ c = '\\' then ['\\', c] else [c]

/-- The characters of a literal, quotes included. -/
def literalChars (cs : List Char) : List Char :=
  '\'' :: (cs.flatMap escape ++ ['\''])

/-- The literal of a text. -/
def literal (s : String) : String :=
  String.ofList (literalChars s.toList)

end TypedClient.Output
