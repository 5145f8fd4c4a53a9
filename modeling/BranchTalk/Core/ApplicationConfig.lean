import BranchTalk.Core.Logging
import BranchTalk.Json.Correct

set_option autoImplicit false

/-! # The application configuration

`libs/core/src/application_config.cpp`. The JSON library is a parameter: a reader that takes a
document from the front of a stream or throws. Its exceptions, those of the stream and those of the
typed accesses afterwards are the outer `Except`; a failed `Result` is an ordinary outcome. -/

namespace BranchTalk.Core

open Logging (LogLevel)

/-- The exceptions of the JSON library that can occur, with their `what()`. The three types are
    siblings: a handler of one does not catch another. -/
inductive JsonException where
  | parseError (what : Bytes)
  | outOfRange (what : Bytes)
  | typeError (what : Bytes)
  deriving DecidableEq, Repr

/-- `stream >> document`, from the bytes of the stream. -/
abbrev JsonReader : Type := Bytes → Except JsonException Json.Value

/-- What can be thrown on the way: an exception of the library, or that of the stream below it when a
    read fails. -/
inductive LoadException where
  | json (exception : JsonException)
  | iosFailure (what : Bytes)
  deriving DecidableEq, Repr

structure ApplicationConfig where
  serverAddress : Bytes := ascii "127.0.0.1:8080"
  logLevel : LogLevel := .info
  /-- A path, as the text it is made from. -/
  dataPath : Bytes := ascii "data"
  deriving DecidableEq, Repr

namespace ApplicationConfig

/-- A function that throws, or fails with an error, or returns. -/
abbrev Loading (α : Type) : Type := ExceptT Error (Except LoadException) α

/-! ## Accesses to a document -/

def isObject : Json.Value → Bool
  | .object _ => true
  | _ => false

def isString : Json.Value → Bool
  | .string _ => true
  | _ => false

/-- `document.items()`. -/
def items : Json.Value → List Json.Member
  | .object members => members
  | _ => []

/-- `document.find(name)`. -/
def find (document : Json.Value) (name : Bytes) : Option Json.Value := (items document).lookup name

/-- `value.get<std::string>()`: any other type throws. -/
def getString : Json.Value → Loading Bytes
  | .string s => pure s
  | _ => ExceptT.lift (.error (.json (.typeError (ascii "type must be string"))))

/-! ## Checks -/

def kSupportedFields : List Bytes := [ascii "server_address", ascii "log_level", ascii "data_path"]

def invalidConfig {α : Type} (message : Bytes) : Loading α := throw ⟨.invalidArgument, message⟩

/-- `std::isspace` in the C locale. -/
def isSpace (b : UInt8) : Bool := b == 0x20 || (decide (0x09 ≤ b) && decide (b ≤ 0x0D))

def hasNonWhitespace (value : Bytes) : Bool := value.any fun character => !isSpace character

def levels : List (Bytes × LogLevel) :=
  [(ascii "trace", .trace), (ascii "debug", .debug), (ascii "info", .info),
    (ascii "warning", .warning), (ascii "error", .error), (ascii "critical", .critical),
    (ascii "off", .off)]

def parseLogLevel (value : Bytes) : Option LogLevel := levels.lookup value

/-- The block for `server_address` and the one for `data_path`: a string that is not blank. -/
def withText (field : Bytes) (store : ApplicationConfig → Bytes → ApplicationConfig)
    (document : Json.Value) (config : ApplicationConfig) : Loading ApplicationConfig :=
  match find document field with
  | none => pure config
  | some value => do
      if !isString value then
        invalidConfig (field ++ ascii " must be a string")
      let text ← getString value
      if !hasNonWhitespace text then
        invalidConfig (field ++ ascii " must not be empty")
      return store config text

def withServerAddress : Json.Value → ApplicationConfig → Loading ApplicationConfig :=
  withText (ascii "server_address") fun config text => { config with serverAddress := text }

def withLogLevel (document : Json.Value) (config : ApplicationConfig) : Loading ApplicationConfig :=
  match find document (ascii "log_level") with
  | none => pure config
  | some level => do
      if !isString level then
        invalidConfig (ascii "log_level must be a string")
      match parseLogLevel (← getString level) with
      | none =>
          invalidConfig
            (ascii "log_level must be one of: trace, debug, info, warning, error, critical, off")
      | some parsedLevel => return { config with logLevel := parsedLevel }

def withDataPath : Json.Value → ApplicationConfig → Loading ApplicationConfig :=
  withText (ascii "data_path") fun config text => { config with dataPath := text }

def parseApplicationConfig (document : Json.Value) : Loading ApplicationConfig := do
  if !isObject document then
    invalidConfig (ascii "configuration root must be a JSON object")
  match (items document).find? fun item => !kSupportedFields.contains item.1 with
  | some item => invalidConfig (ascii "unsupported configuration field: " ++ item.1)
  | none =>
      let config ← withServerAddress document {}
      let config ← withLogLevel document config
      withDataPath document config

/-! ## Loading a file -/

/-- What opening a file for reading comes to: its bytes, or that the first read throws, as in a
    directory, or that it cannot be opened, with what `std::filesystem::exists` says, which may itself
    fail. -/
inductive Opened where
  | content (bytes : Bytes)
  | unreadable (what : Bytes)
  | failed (fileExists : Option Bool)
  deriving DecidableEq, Repr

def loadApplicationConfig (reader : JsonReader) (filePath : Bytes) : Opened → Loading ApplicationConfig
  | .failed fileExists =>
      if fileExists = some false then
        throw ⟨.notFound, ascii "configuration file was not found: " ++ filePath⟩
      else
        throw ⟨.operationFailed, ascii "configuration file could not be opened: " ++ filePath⟩
  | .content bytes =>
      match reader bytes with
      | .error (.parseError what) =>
          invalidConfig (ascii "configuration JSON is invalid: " ++ what)
      -- no handler for the other types
      | .error exception => ExceptT.lift (.error (.json exception))
      | .ok document => parseApplicationConfig document
  -- nor for what the stream throws
  | .unreadable what => ExceptT.lift (.error (.iosFailure what))

/-! ## The JSON library -/

/-- What the code relies on: the reader takes the value at the front of the stream and turns it into
    a document, throws `parse_error` where no text can go on, and throws `out_of_range` at a number
    too large for a double. -/
structure Documented (reader : JsonReader) : Prop where
  value : ∀ bytes v rest, Json.read bytes = .ok (v, rest) → reader bytes = .ok v.document
  syntaxError : ∀ bytes, Json.read bytes = .error .syntaxError →
    ∃ what, reader bytes = .error (.parseError what)
  tooLarge : ∀ bytes n, Json.read bytes = .error (.tooLarge n) →
    ∃ what, reader bytes = .error (.outOfRange what)

/-- A reader that behaves as documented, with empty messages. -/
def plainReader : JsonReader := fun bytes =>
  match Json.read bytes with
  | .ok (v, _) => .ok v.document
  | .error .syntaxError => .error (.parseError [])
  | .error (.tooLarge _) => .error (.outOfRange [])

theorem documented_plainReader : Documented plainReader where
  value bytes v rest h := by simp [plainReader, h]
  syntaxError bytes h := ⟨[], by simp [plainReader, h]⟩
  tooLarge bytes n h := ⟨[], by simp [plainReader, h]⟩

end ApplicationConfig

end BranchTalk.Core
