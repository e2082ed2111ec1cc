import TypedClient.ClientType
import TypedClient.Output.Literal

namespace TypedClient.Output

/-!
# The syntax of types

A type of the generated code is a text, and TypeScript says which type the text is: brackets behind an operand
bind tighter than `&`, `&` binds tighter than `|`, and parentheses group.  This file reads a type back from its
text by the grammar of types, as far as generated code makes use of it.

* `TypeTree` — a type as its syntax tells it apart from others.
* `isIdentifier`, `isTypeName` — the names that can stand for something, and those that can stand for a type.
* `readType` — the grammar.
* `parse` — the type that a text is.
* `word_append`, `quoted_append` — a name and a literal are read to their ends.
-/

/-! ### Types -/

/-- A type, as its syntax tells it apart from others. -/
inductive TypeTree where
  /-- A type that the language has by itself. -/
  | own (name : String) (arguments : List TypeTree)
  /-- A type that is declared somewhere. -/
  | named (path : List String) (arguments : List TypeTree)
  | literal (value : String)
  | array (element : TypeTree)
  | object (fields : List (Field TypeTree))
  | all (parts : List TypeTree)
  | any (variants : List TypeTree)
  deriving Repr, Inhabited

namespace TypeTree

/-- All of the parts at once; one part alone is just this part. -/
def allOf : List TypeTree → TypeTree
  | [part] => part
  | parts => .all parts

/-- One of the variants; one variant alone is just this variant. -/
def anyOf : List TypeTree → TypeTree
  | [variant] => variant
  | variants => .any variants

end TypeTree

namespace TypeSyntax

/-! ### Names -/

/-- A character that a name can begin with.  Outside of ASCII no character is left out: what is shown for names
    of these characters holds for those of them that are letters. -/
def isStart (c : Char) : Bool :=
  c.isAlpha || c == '_' || c == '$' || 0x80 ≤ c.toNat

/-- A character that a name can go on with. -/
def isPart (c : Char) : Bool :=
  isStart c || c.isDigit

/-- A name that can be written without quotes. -/
def isIdentifierName (name : String) : Bool :=
  match name.toList with
  | [] => false
  | c :: rest => isStart c && rest.all isPart

/-- The words that cannot be names, and those that are operators in front of a type. -/
def reservedWords : List String :=
  ["break", "case", "catch", "class", "const", "continue", "debugger", "default", "delete", "do", "else",
    "enum", "export", "extends", "false", "finally", "for", "function", "if", "import", "in", "instanceof",
    "new", "null", "return", "super", "switch", "this", "throw", "true", "try", "typeof", "var", "void",
    "while", "with", "infer", "keyof", "readonly", "unique"]

/-- The types that the language has by itself. -/
def ownTypes : List String :=
  ["any", "unknown", "never", "void", "undefined", "object", "string", "number", "boolean", "bigint", "symbol",
    "Record", "Omit"]

/-- A name that can stand for something. -/
def isIdentifier (name : String) : Bool :=
  isIdentifierName name && !reservedWords.contains name

/-- A name that can stand for a declared type. -/
def isTypeName (name : String) : Bool :=
  isIdentifier name && !ownTypes.contains name

theorem isIdentifierName_of_isIdentifier {name : String} (h : isIdentifier name) : isIdentifierName name := by
  rw [isIdentifier, Bool.and_eq_true] at h
  exact h.1

theorem isIdentifier_of_isTypeName {name : String} (h : isTypeName name) : isIdentifier name := by
  rw [isTypeName, Bool.and_eq_true] at h
  exact h.1

/-- A text without line breaks, so that it can stand between quotes.  The separators of lines and paragraphs
    outside of ASCII may stand there too. -/
def OnOneLine (s : String) : Prop :=
  '\n' ∉ s.toList ∧ '\r' ∉ s.toList

/-! ### Readers -/

/-- Reads something at the beginning of a text, if it is there, and leaves the rest of the text. -/
abbrev Reader := StateT (List Char) Option

variable {α β : Type}

theorem bind_of_eq {p : Reader α} {f : α → Reader β} {cs rest : List Char} {a : α} (h : p cs = some (a, rest)) :
    (p >>= f) cs = f a rest := by
  show (p cs).bind (fun r => f r.1 r.2) = _
  rw [h, Option.bind_some]

theorem bind_congr_of_eq {p : Reader α} (f : α → Reader β) {cs ds : List Char} (h : p cs = p ds) :
    (p >>= f) cs = (p >>= f) ds := by
  show (p cs).bind _ = (p ds).bind _
  rw [h]

/-- The text without the blanks in front. -/
def skip (cs : List Char) : List Char :=
  cs.dropWhile Char.isWhitespace

/-- Passes over blanks. -/
def blanks : Reader Unit := fun cs =>
  some ((), skip cs)

/-- Is `c` next?  If it is, it is read. -/
def mark? (c : Char) : Reader Bool := fun cs =>
  match skip cs with
  | d :: rest => some (if d = c then (true, rest) else (false, cs))
  | [] => some (false, cs)

/-- The mark `c`. -/
def mark (c : Char) : Reader Unit := do
  if ← mark? c then return () else failure

/-- A name. -/
def word : Reader String := fun cs =>
  match skip cs with
  | c :: rest =>
    if isStart c then some (String.ofList (c :: rest.takeWhile isPart), rest.dropWhile isPart) else none
  | [] => none

/-- The characters up to the closing quote. -/
def unescape : List Char → Option (List Char × List Char)
  | [] => none
  | '\'' :: rest => some ([], rest)
  | '\\' :: c :: rest =>
    if c = '\'' ∨ c = '\\' then do
      let (value, rest) ← unescape rest
      return (c :: value, rest)
    else none
  | c :: rest =>
    if c = '\n' ∨ c = '\r' ∨ c = '\\' then none
    else do
      let (value, rest) ← unescape rest
      return (c :: value, rest)

/-- What follows an opening quote. -/
def quoted : Reader String := fun cs => do
  let (value, rest) ← unescape cs
  return (String.ofList value, rest)

/-- Items with `sep` between them; at least one, and no more than `n` others. -/
def sepBy (sep : Char) (item : Reader α) : Nat → Reader (List α)
  | 0 => do return [← item]
  | n + 1 => do
    let first ← item
    if ← mark? sep then return first :: (← sepBy sep item n) else return [first]

/-! ### The grammar -/

section Grammar

-- `type` reads what stands between brackets, and `n` bounds the length of a list.
variable (type : Reader TypeTree) (n : Nat)

/-- The type that a dotted name stands for. -/
def lookup (path : List String) (types : List TypeTree) : Option TypeTree :=
  match path with
  | [] => none
  | [name] =>
    if ownTypes.contains name then some (.own name types)
    else if reservedWords.contains name then none
    else some (.named [name] types)
  | first :: _ => if reservedWords.contains first then none else some (.named path types)

/-- The types between angle brackets, if there are any. -/
def arguments : Reader (List TypeTree) := do
  if ← mark? '<' then
    let types ← sepBy ',' type n
    mark '>'
    return types
  else return []

/-- A name with its arguments. -/
def reference : Reader TypeTree := do
  let path ← sepBy '.' word n
  let types ← arguments type n
  StateT.lift (lookup path types)

/-- A field of an object. -/
def field : Reader (Field TypeTree) := do
  let name ← word
  let optional ← mark? '?'
  mark ':'
  return ⟨name, ← type, !optional⟩

/-- The fields up to the closing brace; a semicolon behind the last field may be there or not. -/
def fields : Nat → Reader (List (Field TypeTree))
  | 0 => do
    mark '}'
    return []
  | n + 1 => do
    if ← mark? '}' then return []
    else
      let first ← field type
      if ← mark? ';' then return first :: (← fields n)
      else
        mark '}'
        return [first]

/-- A type without operators around it. -/
def primary : Reader TypeTree := do
  blanks
  if ← mark? '(' then
    let tree ← type
    mark ')'
    return tree
  else if ← mark? '{' then return .object (← fields type n)
  else if ← mark? '\'' then return .literal (← quoted)
  else reference type n

/-- The brackets behind an operand. -/
def brackets (tree : TypeTree) : List Char → TypeTree × List Char
  | '[' :: ']' :: rest => brackets (.array tree) rest
  | rest => (tree, rest)

/-- An operand of `&`. -/
def operand : Reader TypeTree := fun cs => do
  let (tree, rest) ← primary type n cs
  return brackets tree rest

/-- An operand of `|`. -/
def part : Reader TypeTree := do
  return TypeTree.allOf (← sepBy '&' (operand type n) n)

end Grammar

/-- A type with brackets in no more than `n` levels. -/
def readType : Nat → Reader TypeTree
  | 0 => failure
  | n + 1 => do return TypeTree.anyOf (← sepBy '|' (part (readType n) n) n)

/-- The type that a text is, if it is one. -/
def parse (s : String) : Option TypeTree := do
  let (tree, rest) ← readType (s.length + 1) s.toList
  if skip rest = [] then some tree else none

/-! ### Blanks and marks -/

theorem skip_append {bs : List Char} (h : ∀ c ∈ bs, c.isWhitespace) (cs : List Char) : skip (bs ++ cs) = skip cs :=
  List.dropWhile_append_of_pos h

theorem skip_cons {c : Char} (h : c.isWhitespace = false) (cs : List Char) : skip (c :: cs) = c :: cs :=
  List.dropWhile_cons_of_neg (by rw [h]; exact Bool.false_ne_true)

theorem mark?_of_skip {c : Char} {cs rest : List Char} (h : skip cs = c :: rest) :
    mark? c cs = some (true, rest) := by
  rw [mark?, h]
  simp only [if_true]

theorem mark?_of_ne {c : Char} {cs : List Char} (h : ∀ d ∈ (skip cs).head?, d ≠ c) :
    mark? c cs = some (false, cs) := by
  rw [mark?]
  cases hskip : skip cs with
  | nil => rfl
  | cons d rest =>
    rw [hskip] at h
    simp only [if_neg (h d rfl)]

theorem mark?_cons_of_ne {c d : Char} (hblank : d.isWhitespace = false) (hne : d ≠ c) (cs : List Char) :
    mark? c (d :: cs) = some (false, d :: cs) := by
  refine mark?_of_ne ?_
  rw [skip_cons hblank]
  rintro _ ⟨⟩
  exact hne

theorem blanks_cons {c : Char} (h : c.isWhitespace = false) (cs : List Char) :
    blanks (c :: cs) = some ((), c :: cs) := by
  rw [blanks, skip_cons h]

theorem mark_of_skip {c : Char} {cs rest : List Char} (h : skip cs = c :: rest) :
    mark c cs = some ((), rest) := by
  rw [mark, bind_of_eq (mark?_of_skip h)]
  rfl

/-- What a text may go on with: not with more of a name, and with none of `marks`. -/
structure Stops (marks rest : List Char) : Prop where
  word : ∀ c ∈ rest.head?, isPart c = false
  mark : ∀ c ∈ (skip rest).head?, c ∉ marks

variable {marks rest : List Char}

theorem Stops.mono {fewer : List Char} (h : Stops marks rest) (hsub : fewer ⊆ marks) : Stops fewer rest :=
  ⟨h.word, fun c hc hmem => h.mark c hc (hsub hmem)⟩

theorem Stops.nil : Stops marks [] :=
  ⟨nofun, nofun⟩

theorem Stops.cons {c : Char} (hpart : isPart c = false) (hblank : c.isWhitespace = false) (hc : c ∉ marks) :
    Stops marks (c :: rest) := by
  refine ⟨?_, ?_⟩
  · rintro _ ⟨⟩
    exact hpart
  · rw [skip_cons hblank]
    rintro _ ⟨⟩
    exact hc

theorem Stops.space {c : Char} (hblank : c.isWhitespace = false) (hc : c ∉ marks) :
    Stops marks (' ' :: c :: rest) := by
  refine ⟨?_, ?_⟩
  · rintro _ ⟨⟩
    rfl
  · show ∀ d ∈ (skip (c :: rest)).head?, d ∉ marks
    rw [skip_cons hblank]
    rintro _ ⟨⟩
    exact hc

theorem Stops.mark? {c : Char} (h : Stops marks rest) (hc : c ∈ marks) :
    TypeSyntax.mark? c rest = some (false, rest) := by
  refine mark?_of_ne fun d hd => ?_
  rintro rfl
  exact h.mark d hd hc

/-! ### Words and literals -/

theorem exists_start {name : String} (h : isIdentifierName name) :
    ∃ c tail, name.toList = c :: tail ∧ isStart c ∧ ∀ d ∈ tail, isPart d := by
  unfold isIdentifierName at h
  split at h
  · cases h
  · next c tail hname =>
    rw [Bool.and_eq_true, List.all_eq_true] at h
    exact ⟨c, tail, hname, h.1, h.2⟩

theorem isWhitespace_of_isStart {c : Char} (h : isStart c) : c.isWhitespace = false := by
  rw [Bool.eq_false_iff]
  intro hblank
  simp only [Char.isWhitespace, Bool.or_eq_true, decide_eq_true_eq] at hblank
  rcases hblank with ((rfl | rfl) | rfl) | rfl <;> exact absurd h (by decide)

/-- A name is read to its end. -/
theorem word_append {name : String} (h : isIdentifierName name) (hrest : ∀ c ∈ rest.head?, isPart c = false) :
    word (name.toList ++ rest) = some (name, rest) := by
  obtain ⟨c, tail, hname, hc, htail⟩ := exists_start h
  have htake : rest.takeWhile isPart = [] := by
    cases rest with
    | nil => rfl
    | cons d rest => rw [List.takeWhile_cons_of_neg (by rw [hrest d rfl]; exact Bool.false_ne_true)]
  have hdrop : rest.dropWhile isPart = rest := by
    cases rest with
    | nil => rfl
    | cons d rest => rw [List.dropWhile_cons_of_neg (by rw [hrest d rfl]; exact Bool.false_ne_true)]
  rw [word, hname, List.cons_append, skip_cons (isWhitespace_of_isStart hc)]
  simp only [if_pos hc, List.takeWhile_append_of_pos htail, List.dropWhile_append_of_pos htail, htake, hdrop,
    List.append_nil]
  rw [← hname, String.ofList_toList]

theorem unescape_escape (c : Char) (h : c ≠ '\n' ∧ c ≠ '\r') (cs : List Char) :
    unescape (escape c ++ cs) = (unescape cs).map fun (value, rest) => (c :: value, rest) := by
  unfold escape
  split
  · next hquote =>
    simp only [List.cons_append, List.nil_append, unescape, if_pos hquote]
    cases unescape cs <;> rfl
  · next hplain =>
    rw [not_or] at hplain
    have hread : ¬ (c = '\n' ∨ c = '\r' ∨ c = '\\') := by
      rintro (rfl | rfl | rfl)
      · exact h.1 rfl
      · exact h.2 rfl
      · exact hplain.2 rfl
    rw [List.singleton_append, unescape, if_neg hread]
    · cases unescape cs <;> rfl
    · exact hplain.1
    · intro d ds hc
      exact absurd hc hplain.2

/-- Between the quotes stands the text, and the closing quote is the first that has no backslash in front. -/
theorem unescape_append (cs : List Char) (h : '\n' ∉ cs ∧ '\r' ∉ cs) (rest : List Char) :
    unescape (cs.flatMap escape ++ '\'' :: rest) = some (cs, rest) := by
  induction cs with
  | nil => rfl
  | cons c cs ih =>
    simp only [List.mem_cons, not_or] at h
    have hc : c ≠ '\n' ∧ c ≠ '\r' := ⟨Ne.symm h.1.1, Ne.symm h.2.1⟩
    rw [List.flatMap_cons, List.append_assoc, unescape_escape c hc, ih ⟨h.1.2, h.2.2⟩]
    rfl

theorem quoted_append {value : String} (h : OnOneLine value) (rest : List Char) :
    quoted (value.toList.flatMap escape ++ '\'' :: rest) = some (value, rest) := by
  rw [quoted, unescape_append _ h]
  show some (String.ofList value.toList, rest) = _
  rw [String.ofList_toList]

end TypeSyntax

end TypedClient.Output
