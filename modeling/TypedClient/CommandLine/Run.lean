import TypedClient.CommandLine.Arguments
import TypedClient.Loading
import TypedClient.Settings
import TypedClient.Text.Blank
import TypedClient.Text.Case

namespace TypedClient.CommandLine

/-!
# Runs

A run of the command line reads settings, may ask whether to use them, generates the client and writes
it.  A run only sees its console, so it can be repeated with a console that knows more.

* `Console`: what a run sees, says and changes.
* `Ending`: why a run ends early.
* `Run`: a part of a run.
* `settle`: which settings a command line leads to.
* `produce`: generates and writes the client.
* `Outcome`, `carryOut`: a whole run.
-/

/-- What a run sees, says and changes. -/
structure Console where
  storage : Storage
  /-- The lines of input that are not read yet. -/
  input : List String
  output : String
  /-- The paths and addresses that the run has looked at. -/
  looked : List String

/-- Why a run ends early. -/
inductive Ending where
  /-- The run has said what is wrong. -/
  | reported (code : Nat)
  | failed (failure : Failure)
  deriving Repr, Inhabited

/-- A part of a run; what it said and changed stays when it ends early. -/
abbrev Run (α : Type) := ExceptT Ending (StateM Console) α

/-! ### Steps -/

/-- Says a text. -/
def say (text : String) : Run Unit :=
  modify fun c => { c with output := c.output ++ text }

/-- Says a line. -/
def sayLine (line : String) : Run Unit :=
  say (line ++ "\n")

/-- Ends the run with an error that has been reported. -/
def giveUp {α : Type} : Run α :=
  throw (.reported 1)

/-- Ends the run if a result is a failure. -/
def check {α : Type} (x : Except Failure α) : Run α :=
  match x with
  | .ok a => pure a
  | .error e => throw (.failed e)

/-- Notes that paths are looked at. -/
def look (paths : List String) : Run Unit :=
  modify fun c => { c with looked := c.looked ++ paths }

/-- Changes the disk, and ends the run if that fails; what was changed before the failure stays. -/
def change (x : Disk → Except Failure Unit × Disk) : Run Unit := do
  let c ← get
  let (result, disk) := x c.storage.disk
  set { c with storage := { c.storage with disk } }
  check result

/-- Says a line that ends with a value. -/
def sayValue (text : String) (v : Value) : Run Unit := do
  sayLine (text ++ (← check v.asDisplayed))

/-! ### Questions -/

/-- The answer that a line gives; an empty line agrees. -/
def answer? (line : String) : Option Bool :=
  let word := Text.trimmed (Text.lowered line)
  if ["y", "yes", "да", ""].contains word then some true
  else if ["n", "no", "нет"].contains word then some false
  else none

/-- Asks until a line gives an answer: everything that is said, and the answer with the lines left. -/
def ask (question : String) : (lines : List String) → String × Option (Bool × List String)
  | [] => (question, none)
  | line :: rest =>
    match answer? line with
    | some answer => (question, some (answer, rest))
    | none =>
      let (said, result) := ask question rest
      (question ++ "Введите y/n\n" ++ said, result)

/-- Asks a question and waits for the answer. -/
def confirm (question : String) : Run Bool := do
  let c ← get
  match ask (question ++ " (y/n): ") c.input with
  | (said, some (answer, rest)) =>
    set { c with output := c.output ++ said, input := rest }
    return answer
  | (said, none) =>
    set { c with output := c.output ++ said, input := [] }
    throw (.failed (.access .endOfInput))

/-! ### Settings -/

/-- A text, or null if there is none. -/
def textOrNull : Option String → Value
  | some s => .text s
  | none => .null

/-- The settings that a command line gives; what it does not give is null. -/
def Arguments.given (a : Arguments) : Settings :=
  ⟨textOrNull a.url, textOrNull a.directory, .bool a.namedEnums, textOrNull a.space⟩

/-- The settings that a command line gives, with a directory. -/
def Arguments.settings (a : Arguments) : Settings :=
  { a.given with directory := a.given.directory.orElse Settings.defaultDirectory }

/-- Keeps the settings of a command line in the settings file. -/
def keep (a : Arguments) : Run Unit := do
  look [Settings.fileName]
  change fun d => a.settings.save d Settings.fileName
  sayLine ("✅ Создан конфиг файл " ++ Settings.fileName)

/-- The settings in the settings file, if there are any. -/
def stored : Run (Option Settings) := do
  look [Settings.fileName]
  let c ← get
  check (Settings.load c.storage.disk Settings.fileName none)

/-- The settings that a command line and the settings file lead to.  The user is asked about the file if
    the command line has a document or a directory of its own. -/
def settle (a : Arguments) : Run Settings := do
  let given := a.given
  match ← stored with
  | some kept =>
    if given.url.isFilled || given.directory.isFilled then
      sayLine ("🔧 Найден конфиг файл " ++ Settings.fileName ++ ":")
      sayValue "   URL: " kept.url
      sayValue "   Директория: " kept.directory
      sayLine ""
      if a.force then return kept
      if ← confirm "Использовать конфиг из файла?" then return kept
      return kept.override given
    else
      sayLine ("📋 Используется конфиг из " ++ Settings.fileName)
      return kept.override given
  | none =>
    if given.url.isFilled then return a.settings
    else
      sayLine "❌ Ошибка: Укажите входной файл или создайте конфиг с --init-config"
      giveUp

/-! ### Generation -/

/-- The text of a setting that is used as a path; `fault` is what happens to other values. -/
def pathOf (setting : Value) (fault : ShapeFault) : Except Failure String :=
  match setting with
  | .text path => .ok path
  | _ => .error (.shape fault)

/-- The generated client.  All linked documents are looked at before an error in them ends the run. -/
def create (s : Settings) : Run Output.Project := do
  sayValue "🚀 Генерация клиента из " s.url
  sayLine "📥 Загрузка OpenAPI спецификации..."
  let locator ← check (pathOf s.url .notApplicable)
  look [locator]
  let job ← check (Job.start (← get).storage locator)
  sayLine "⚙️ Генерация кода..."
  let (description, resolver) := job.describe s.namedEnums.isFilled
  look resolver.asked
  let description ← check description
  check (Output.generate (← check s.options) description)

/-- Writes files one after the other. -/
def writeFiles (directory : String) : List (String × String) → Run Unit
  | [] => return
  | (name, text) :: rest => do
    let path := Path.join directory name
    look [path]
    change fun d => d.writeText path text
    sayLine ("   * " ++ path)
    writeFiles directory rest

/-- Writes the client to a directory, which is made if it is missing. -/
def save (project : Output.Project) (directory : Value) : Run Unit := do
  sayLine ("💾 Сохранение " ++ toString project.files.length ++ " файлов...")
  let directory ← check (pathOf directory .notUsable)
  look [directory]
  change fun d => match d.makeDirectories directory with
    | .ok made => (.ok (), made)
    | .error e => (.error e, d)
  writeFiles directory project.texts
  sayLine "✅ Генерация завершена успешно!"
  sayLine ("📦 Клиент создан в: " ++ Path.absolute (← get).storage.disk.workingPath directory)

/-- Is the failure one of documents, files and addresses, which users can do something about? -/
def isReported : Failure → Bool
  | .shape _ | .access .numberTooLarge | .access .endOfInput | .access .endless => false
  | _ => true

/-- What is said about a failure that is reported: mistakes in the document by their kind. -/
def reportText (e : Failure) : String :=
  match e.kind? with
  | some kind => "❌ " ++ kind ++ ": " ++ e.message
  | none => "❌ Ошибка генерации: " ++ e.message

/-- Generates and writes the client; mistakes in documents are reported. -/
def produce (s : Settings) : Run Unit :=
  tryCatch (do save (← create s) s.directory) fun
    | .failed e => do
      if isReported e then
        sayLine (reportText e)
        giveUp
      else throw (.failed e)
    | ending => throw ending

/-! ### Whole runs -/

/-- Does what a command line asks for. -/
def execute (a : Arguments) : Run Unit := do
  if a.keepSettings then keep a
  else
    let s ← settle a
    if !s.url.isFilled then
      sayLine "❌ Ошибка: URL не указан ни в конфиге, ни в аргументах"
      giveUp
    sayValue "📁 Директория вывода: " s.directory
    produce s

/-- How the program is used. -/
def usage : String :=
  String.intercalate "\n"
    ["Генерация TypeScript клиента из OpenAPI",
      "",
      "  url                          Путь или URL к входному файлу OpenAPI",
      "  -h, --help                   Показать эту справку",
      "  -o, --out, --dirname DIRNAME Директория для генерации",
      "  --named-enums                Генерировать enum как именованные типы",
      "  --namespace NAMESPACE        Пространство имен типов в api.ts",
      "  --init-config                Создать конфиг файл openapi.toml",
      "  --force                      Генерировать без подтверждения",
      "  --verbose                    Подробный лог",
      ""]

/-- The whole program: reads the command line and does what it asks for. -/
def program (words : List String) : Run Unit :=
  match Arguments.parse words with
  | .ok a => execute a
  | .error .help => say usage
  | .error .misuse => throw (.reported 2)

/-- What is left of a run: the exit code or the failure that ended it, and the console. -/
structure Outcome where
  result : Except Failure Nat
  console : Console

/-- A whole run on a storage, with lines of input. -/
def carryOut (words : List String) (storage : Storage) (input : List String) : Outcome :=
  match (program words).run ⟨storage, input, "", []⟩ with
  | (.ok (), console) => ⟨.ok 0, console⟩
  | (.error (.reported code), console) => ⟨.ok code, console⟩
  | (.error (.failed e), console) => ⟨.error e, console⟩

end TypedClient.CommandLine
