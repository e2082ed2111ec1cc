import TypedClient.Text.Cut
import TypedClient.Text.Digit

namespace TypedClient.CommandLine

/-!
# Arguments

The words of a command line.  Options can stand anywhere, and long ones can be shortened as long as it is
clear which one is meant.  After two dashes no word is an option.

* `Arguments`: what a command line asks for.
* `Word`: a word of a command line, with the option that it names.
* `wordsOf`: finds the options among the words.
* `Arguments.parse`: reads a command line.
-/

/-- What a command line asks for. -/
structure Arguments where
  url : Option String
  directory : Option String
  namedEnums : Bool
  space : Option String
  /-- Keep the settings in a file instead of generating. -/
  keepSettings : Bool
  /-- Do not ask before settings from a file are used. -/
  force : Bool
  verbose : Bool
  deriving DecidableEq, Repr, Inhabited

/-- A command line that asks for nothing. -/
def Arguments.empty : Arguments :=
  ⟨none, none, false, none, false, false, false⟩

/-- Why a command line is not carried out. -/
inductive Refusal where
  /-- It cannot be understood. -/
  | misuse
  /-- It asks how the program is used. -/
  | help
  deriving DecidableEq, Repr, Inhabited

/-! ### Options -/

/-- What an option says. -/
inductive Switch where
  | help
  | directory
  | namedEnums
  | space
  | keepSettings
  | force
  | verbose
  deriving DecidableEq, Repr, Inhabited

/-- The spellings of the options. -/
def switches : List (String × Switch) :=
  [("-h", .help), ("--help", .help), ("-o", .directory), ("--out", .directory),
    ("--dirname", .directory), ("--named-enums", .namedEnums), ("--namespace", .space),
    ("--init-config", .keepSettings), ("--force", .force), ("--verbose", .verbose)]

/-- The option of a spelling. -/
def switch? (spelling : String) : Option Switch :=
  (switches.find? fun (s, _) => s == spelling).map (·.2)

/-- A word of a command line. -/
inductive Word where
  | value (text : String)
  /-- Two dashes: no word after them is an option. -/
  | separator
  /-- An option, spelled with one dash and a letter or with two dashes and a word; a value can be attached
      to it. -/
  | option (switch : Switch) (isLetter : Bool) (attached : Option String)
  /-- Something that looks like an option and is none. -/
  | unknown
  deriving DecidableEq, Repr, Inhabited

/-- A minus and a decimal number are a value and no option. -/
def isNegativeNumber (cs : List Char) : Bool :=
  let isDigit (c : Char) : Bool := (Text.digitValue? c).isSome
  match if cs.getLast? = some '\n' then cs.dropLast else cs with
  | '-' :: number =>
    match Text.after? '.' number with
    | none => !number.isEmpty && number.all isDigit
    | some fraction =>
      (Text.before '.' number).all isDigit && !fraction.isEmpty && fraction.all isDigit
  | _ => false

/-- A word cut at its first equals sign: a name, and a value if there is such a sign. -/
def cutAtEquals (word : String) : String × Option String :=
  (String.ofList (Text.before '=' word.toList),
    (Text.after? '=' word.toList).map String.ofList)

/-- The options that a shortened word can mean, with what is attached: long ones by how they begin, and
    those of a letter by the letter, which a value can follow at once. -/
def completions (word : String) : List (Switch × Bool × Option String) :=
  if word.startsWith "--" then
    let (name, attached) := cutAtEquals word
    (switches.filter fun (s, _) => s.startsWith name).map fun (_, switch) => (switch, false, attached)
  else
    (switches.filter fun (s, _) => s == String.ofList (word.toList.take 2)).map fun (_, switch) =>
      (switch, true, some (String.ofList (word.toList.drop 2)))

/-- What a word is, if no separator stands before it. -/
def wordOf (text : String) : Except Refusal Word :=
  if !text.startsWith "-" || text = "-" then .ok (.value text)
  else
    let (name, attached) := cutAtEquals text
    match switch? text, switch? name with
    | some switch, _ => .ok (.option switch false none)
    | none, some switch => .ok (.option switch (!name.startsWith "--") attached)
    | none, none =>
      match completions text with
      | [(switch, isLetter, attached)] => .ok (.option switch isLetter attached)
      | [] =>
        if isNegativeNumber text.toList || text.contains ' ' then .ok (.value text)
        else .ok .unknown
      | _ => .error .misuse

/-- What the words of a command line are. -/
def wordsOf : List String → Except Refusal (List Word)
  | [] => .ok []
  | text :: rest =>
    if text = "--" then .ok (.separator :: rest.map Word.value)
    else do return (← wordOf text) :: (← wordsOf rest)

/-! ### Reading -/

namespace Arguments

/-- What the value of an option changes.  Two dashes are no value: the option is as if it had not been
    given. -/
def setValue (a : Arguments) (switch : Switch) (text : String) : Arguments :=
  let value := if text = "--" then none else some text
  match switch with
  | .directory => { a with directory := value }
  | .space => { a with space := value }
  | _ => a

/-- What an option without a value changes. -/
def setSwitch (a : Arguments) : Switch → Arguments
  | .namedEnums => { a with namedEnums := true }
  | .keepSettings => { a with keepSettings := true }
  | .force => { a with force := true }
  | .verbose => { a with verbose := true }
  | .help | .directory | .space => a

/-- Does the option need a value? -/
def needsValue : Switch → Bool
  | .directory | .space => true
  | _ => false

/-- Are the letters behind the letter for help options, too?  A letter that takes a value takes the letters
    after it, or the next word. -/
def lettersFit (next : List Word) : List Char → Bool
  | [] => true
  | 'h' :: rest => lettersFit next rest
  | 'o' :: rest => !rest.isEmpty || (next.head? matches some (.value _))
  | _ => false

/-- Carries out words one after the other.  `placed` tells that the word for the document is there, and
    `surplus` that there are words without a meaning. -/
def read (placed surplus : Bool) (a : Arguments) : List Word → Except Refusal Arguments
  | [] => if surplus then .error .misuse else .ok a
  | .value text :: .separator :: rest =>
    if placed then read placed true a rest
    else read true surplus { a with url := some text } rest
  | .value text :: rest =>
    if placed then read placed true a rest
    else read true surplus { a with url := some text } rest
  | .separator :: .value text :: rest =>
    if placed then read placed true a rest
    else read true surplus { a with url := some text } rest
  | .separator :: rest => read placed (surplus || placed) a rest
  | .unknown :: rest => read placed true a rest
  | .option switch isLetter attached :: rest =>
    match attached with
    | some text =>
      if needsValue switch then read placed surplus (a.setValue switch text) rest
      else if isLetter ∧ text ≠ "" ∧ lettersFit rest text.toList then .error .help
      else .error .misuse
    | none =>
      if needsValue switch then
        match rest with
        | .value text :: rest => read placed surplus (a.setValue switch text) rest
        | _ => .error .misuse
      else if switch = .help then .error .help
      else read placed surplus (a.setSwitch switch) rest

/-- What a command line asks for. -/
def parse (texts : List String) : Except Refusal Arguments := do
  read false false empty (← wordsOf texts)

end Arguments

end TypedClient.CommandLine
