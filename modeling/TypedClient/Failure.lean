import TypedClient.Document.Display

namespace TypedClient

/-!
# Failures

Everything that can stop a generation.  The first group are mistakes in the API document, reported with
their kind and a message; the others are values of the wrong shape and documents that cannot be read.

* `Failure`: the causes.
* `Failure.kind`, `Failure.message`: how a mistake in the document is reported.
* `Failure.subject?`: the part of the document that a mistake is about.
-/

/-- What does not fit about a value of the wrong kind. -/
inductive ShapeFault where
  /-- Entries, or an operation on text, are asked of a value that is no map, or no text. -/
  | notApplicable
  /-- A value cannot be gone through, searched, matched or used as a key. -/
  | notUsable
  /-- An entry that must be there is missing. -/
  | missingEntry
  /-- A piece of text ends before the character that is asked for. -/
  | tooShort
  /-- A value is asked for before there is one. -/
  | noValue
  deriving DecidableEq, Repr, Inhabited

/-- Why a document or a file cannot be read or written. -/
inductive AccessFault where
  | notFound
  | isDirectory
  | notDirectory
  | alreadyExists
  /-- The name holds a character that no file name may hold. -/
  | invalidName
  /-- The name has more octets than a file name may have. -/
  | nameTooLong
  /-- The text holds half of a character, which cannot be written. -/
  | halfCharacter
  /-- The octets are not UTF-8. -/
  | notText
  /-- The text is not JSON. -/
  | invalidJson
  /-- The text is not YAML. -/
  | invalidYaml
  /-- The text is not TOML. -/
  | invalidToml
  /-- A word or number does not denote a value of the kind that it is given for. -/
  | invalidScalar
  /-- A number is too large for any character, or for a number with a fraction. -/
  | numberTooLarge
  /-- A value is too large to have a text. -/
  | noText
  /-- The address cannot be taken apart. -/
  | invalidAddress
  /-- Nothing can be downloaded from the address. -/
  | notServed
  /-- No document is kept under the locator. -/
  | noDocument (locator : String)
  /-- There is no further line of input. -/
  | endOfInput
  /-- A part of a document is part of itself, or the documents name ever more files. -/
  | endless
  deriving DecidableEq, Repr, Inhabited

/-- Everything that can stop a generation. -/
inductive Failure where
  | invalidDocument (locator : String)
  | invalidLink (link : String)
  | unresolvableSchema (key : String)
  | duplicateTypeName (name : String) (keys : List String)
  | arrayWithoutItems (title : Value)
  | invalidSchema (schema : Value)
  | unknownType (type : Value)
  | malformedRoute (route : String)
  | unboundPathParameters (route : String) (names : List String)
  | undeclaredPathParameter (route : String) (name : Value)
  | optionalPathParameter (route : String) (name : Value)
  | unsupportedLocation (route : String) (location : Value)
  | getWithBody (route : String)
  | emptyBody (route : String)
  | noSuccess (route : String)
  | discriminatorMismatch (value key : String)
  | enumNameCollision (path : List String)
  | shape (fault : ShapeFault)
  | access (fault : AccessFault)
  deriving Inhabited, Repr

/-- What is said about a document or a file that cannot be read or written. -/
def AccessFault.message : AccessFault → String
  | notFound => "файл не найден"
  | isDirectory => "это директория"
  | notDirectory => "это не директория"
  | alreadyExists => "файл уже существует"
  | invalidName => "недопустимое имя файла"
  | nameTooLong => "слишком длинное имя файла"
  | halfCharacter => "текст нельзя записать в UTF-8"
  | notText => "файл не в кодировке UTF-8"
  | invalidJson => "некорректный JSON"
  | invalidYaml => "некорректный YAML"
  | invalidToml => "некорректный TOML"
  | invalidScalar => "некорректное значение"
  | numberTooLarge => "слишком большое число"
  | noText => "значение нельзя записать текстом"
  | invalidAddress => "некорректный адрес"
  | notServed => "адрес недоступен"
  | noDocument locator => "нет документа " ++ locator
  | endOfInput => "нет ответа"
  | endless => "документ не имеет конца"

namespace Failure

/-- The name of a mistake in the document; shapes and access have none. -/
def kind? : Failure → Option String
  | invalidDocument _ => some "InvalidDocument"
  | invalidLink _ => some "InvalidRefLink"
  | unresolvableSchema _ => some "UnresolvableSchema"
  | duplicateTypeName .. => some "DuplicateTypeName"
  | arrayWithoutItems _ => some "MalformedArraySchema"
  | invalidSchema _ => some "InvalidObjectNotation"
  | unknownType _ => some "UnknownFieldType"
  | malformedRoute _ => some "MalformedRouteTemplate"
  | unboundPathParameters .. => some "UnboundPathParameter"
  | undeclaredPathParameter .. => some "UndeclaredPathParameter"
  | optionalPathParameter .. => some "OptionalPathParameter"
  | unsupportedLocation .. => some "UnsupportedParameterLocation"
  | getWithBody _ => some "GetWithBody"
  | emptyBody _ => some "EmptyRequestBody"
  | noSuccess _ => some "NoSuccessResponse"
  | discriminatorMismatch .. => some "DiscriminatorMappingMismatch"
  | enumNameCollision _ => some "UnresolvableEnumNameCollision"
  | shape _ | access _ => none

/-- A text in double quotes, as messages show names. -/
def inQuotes (s : String) : String :=
  "\"" ++ s ++ "\""

/-- The names of an enum's surroundings with dots between them. -/
def dotted (path : List String) : String :=
  String.intercalate "." path

/-- What is said about a mistake in the document. -/
def message : Failure → String
  | invalidDocument locator => "Документ " ++ inQuotes locator ++ " не является объектом"
  | invalidLink link => "Некорректная ссылка: " ++ inQuotes link
  | unresolvableSchema key => "Схема " ++ inQuotes key ++ " не может быть загружена"
  | duplicateTypeName name keys =>
    "Дублирующееся имя типа " ++ inQuotes name ++ ": " ++ commaSeparated keys
  | arrayWithoutItems _ => "Массив без описания items"
  | invalidSchema schema => "Некорректное описание объекта: " ++ schema.inspect
  | unknownType type => "Неизвестный тип поля: " ++ inQuotes type.display
  | malformedRoute route => "Некорректный синтаксис параметров в пути: " ++ inQuotes route
  | unboundPathParameters route names =>
    "Не все параметры пути описаны в " ++ inQuotes route ++ ": " ++ commaSeparated names
  | undeclaredPathParameter route name =>
    "Путь " ++ inQuotes route ++ " не содержит параметр \x7b" ++ name.display ++ "\x7d"
  | optionalPathParameter route name =>
    "Необязательный параметр " ++ inQuotes name.display ++ " в пути: " ++ inQuotes route
  | unsupportedLocation route location =>
    "Неподдерживаемое значение in: " ++ inQuotes location.display ++ " в " ++ inQuotes route
  | getWithBody route => "Тело запроса в GET запросе: " ++ inQuotes route
  | emptyBody route => "Тело запроса без схемы в " ++ inQuotes route
  | noSuccess route => "Нет успешного ответа в " ++ inQuotes route
  | discriminatorMismatch value key =>
    "Значение дискриминатора " ++ inQuotes value ++ " ссылается на " ++ inQuotes key
      ++ ", которого нет среди вариантов"
  | enumNameCollision path => "Не удалось подобрать имя для enum в " ++ inQuotes (dotted path)
  | access fault => fault.message
  | shape _ => "недопустимый вид значения"

/-- The part of the document that a mistake is about: a locator, key, name or route as the document has
    it, and null if there is none. -/
def subject : Failure → Value
  | invalidDocument s | invalidLink s | unresolvableSchema s | duplicateTypeName s _
  | malformedRoute s | unboundPathParameters s _ | unsupportedLocation s _ | getWithBody s
  | emptyBody s | noSuccess s | discriminatorMismatch _ s => .text s
  | arrayWithoutItems title => title.orElse .null
  | unknownType type => .text type.display
  | undeclaredPathParameter _ name | optionalPathParameter _ name => name
  | enumNameCollision path => .text (dotted path)
  | invalidSchema _ | shape _ | access _ => .null

/-- A failure whose message shows a value.  If the value has no text, that is the failure. -/
def about (v : Value) (failure : Failure) : Failure :=
  if v.hasText then failure else .access .noText

/-- A value that is asked for entries or text operations does not have them. -/
def notApplicable : Failure := .shape .notApplicable

/-- A value cannot be gone through, searched, matched or used as a key. -/
def notUsable : Failure := .shape .notUsable

end Failure

end TypedClient
