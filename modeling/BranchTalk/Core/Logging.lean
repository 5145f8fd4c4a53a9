import BranchTalk.Core.Result
import Mathlib.Logic.Function.Basic

set_option autoImplicit false

/-! # Logging

`libs/core/src/logging.cpp`. The logging library is a parameter: its level numbers, the way it fills
the placeholders of a message, the way it renders a record by a pattern, and the logger it makes under
a name. Its registry of loggers is state. -/

namespace BranchTalk.Core.Logging

inductive LogCategory where
  | client
  | server
  | database
  | network
  deriving DecidableEq, Repr

inductive LogLevel where
  | trace
  | debug
  | info
  | warning
  | error
  | critical
  | off
  deriving DecidableEq, Repr

/-- The name of a level, in a configuration and in a record. -/
def levelName : LogLevel → Bytes
  | .trace => ascii "trace"
  | .debug => ascii "debug"
  | .info => ascii "info"
  | .warning => ascii "warning"
  | .error => ascii "error"
  | .critical => ascii "critical"
  | .off => ascii "off"

structure LoggingSettings where
  level : LogLevel := .info
  deriving DecidableEq, Repr

/-! ## The logging library -/

/-- `spdlog::level::level_enum`. -/
inductive SpdlogLevel where
  | trace
  | debug
  | info
  | warn
  | err
  | critical
  | off
  deriving DecidableEq, Repr

/-- The name the library writes for a level. -/
def SpdlogLevel.text : SpdlogLevel → Bytes
  | trace => ascii "trace"
  | debug => ascii "debug"
  | info => ascii "info"
  | warn => ascii "warning"
  | err => ascii "error"
  | critical => ascii "critical"
  | off => ascii "off"

structure Logger where
  name : Bytes
  level : SpdlogLevel
  pattern : Bytes
  deriving DecidableEq, Repr

structure Spdlog where
  number : SpdlogLevel → ℕ
  /-- Fill the placeholders of a format with the arguments. -/
  format : Bytes → List Bytes → Bytes
  render (pattern : Bytes) (level : SpdlogLevel) (name message : Bytes) : Bytes
  stdoutLogger : Bytes → Logger

namespace Spdlog

/-- What the code relies on. -/
structure Documented (lib : Spdlog) : Prop where
  numbers : [SpdlogLevel.trace, .debug, .info, .warn, .err, .critical, .off].Pairwise
    fun l l' => lib.number l < lib.number l'
  format_message : ∀ message, lib.format (ascii "\x7b\x7d") [message] = message
  format_field : ∀ field value,
    lib.format (ascii "\x7b\x7d=\x7b\x7d") [field, value] = field ++ ascii "=" ++ value
  render : ∀ level name message, lib.render (ascii "[%l] [%n] %v") level name message =
    ascii "[" ++ level.text ++ ascii "] [" ++ name ++ ascii "] " ++ message
  stdoutLogger_name : ∀ name, (lib.stdoutLogger name).name = name

def shouldLog (lib : Spdlog) (logger : Logger) (level : SpdlogLevel) : Bool :=
  decide (lib.number logger.level ≤ lib.number level)

end Spdlog

/-! ## Loggers -/

def kLogPattern : Bytes := ascii "[%l] [%n] %v"

def kRedacted : Bytes := ascii "<redacted>"

def kCategories : List LogCategory := [.client, .server, .database, .network]

def toSpdlogLevel : LogLevel → SpdlogLevel
  | .trace => .trace
  | .debug => .debug
  | .info => .info
  | .warning => .warn
  | .error => .err
  | .critical => .critical
  | .off => .off

def categoryName : LogCategory → Bytes
  | .client => ascii "client"
  | .server => ascii "server"
  | .database => ascii "database"
  | .network => ascii "network"

/-- The level in force, the registered loggers, and the records written so far. -/
structure State where
  configuredLevel : LogLevel := .info
  registry : Bytes → Option Logger := fun _ => none
  output : List Bytes := []

/-- The registered logger is shared: what is set on it stays set. -/
def State.register (s : State) (name : Bytes) (logger : Logger) : State :=
  { s with registry := Function.update s.registry name (some logger) }

section

variable (lib : Spdlog)

/-- The logger of a category, made if there is none, at the level in force. -/
def loggerForUnlocked (category : LogCategory) (s : State) : Logger × State :=
  let name := categoryName category
  let logger := match s.registry name with
    | some logger => logger
    | none => { lib.stdoutLogger name with pattern := kLogPattern }
  -- set on every call, so the level of the moment counts
  let logger := { logger with level := toSpdlogLevel s.configuredLevel }
  (logger, s.register name logger)

/-- The same under the mutex: the calls take turns. -/
def loggerFor (category : LogCategory) (s : State) : Logger × State :=
  loggerForUnlocked lib category s

/-- `logger->log(level, format, arguments...)`. -/
def log (logger : Logger) (level : SpdlogLevel) (format : Bytes) (arguments : List Bytes)
    (s : State) : State :=
  if lib.shouldLog logger level then
    { s with
      output := s.output ++
        [lib.render logger.pattern level logger.name (lib.format format arguments)] }
  else s

/-! ## Calls -/

def initializeCategory (s : State) (category : LogCategory) : State :=
  let (logger, s) := loggerForUnlocked lib category s
  s.register (categoryName category)
    { logger with pattern := kLogPattern, level := toSpdlogLevel s.configuredLevel }

def initializeLogging (settings : LoggingSettings) (s : State) : State :=
  kCategories.foldl (initializeCategory lib) { s with configuredLevel := settings.level }

def isLogEnabled (category : LogCategory) (level : LogLevel) (s : State) : Bool × State :=
  let (logger, s) := loggerFor lib category s
  (lib.shouldLog logger (toSpdlogLevel level), s)

def writeLog (category : LogCategory) (level : LogLevel) (message : Bytes) (s : State) : State :=
  let (logger, s) := loggerFor lib category s
  log lib logger (toSpdlogLevel level) (ascii "\x7b\x7d") [message] s

end

/-- The wrapper keeps nothing of the value it is made from. -/
structure SensitiveValue where
  deriving DecidableEq, Repr

namespace SensitiveValue

def wrap (_value : Bytes) : SensitiveValue := {}

def redacted (_self : SensitiveValue) : Bytes := kRedacted

end SensitiveValue

def writeSensitive (lib : Spdlog) (category : LogCategory) (level : LogLevel) (fieldName : Bytes)
    (value : SensitiveValue) (s : State) : State :=
  let (logger, s) := loggerFor lib category s
  log lib logger (toSpdlogLevel level) (ascii "\x7b\x7d=\x7b\x7d") [fieldName, value.redacted] s

inductive Call where
  | initializeLogging (settings : LoggingSettings)
  | isLogEnabled (category : LogCategory) (level : LogLevel)
  | writeLog (category : LogCategory) (level : LogLevel) (message : Bytes)
  | writeSensitive (category : LogCategory) (level : LogLevel) (fieldName value : Bytes)
  deriving DecidableEq, Repr

def exec (lib : Spdlog) : Call → State → State
  | .initializeLogging settings, s => initializeLogging lib settings s
  | .isLogEnabled category level, s => (isLogEnabled lib category level s).2
  | .writeLog category level message, s => writeLog lib category level message s
  | .writeSensitive category level fieldName value, s =>
      writeSensitive lib category level fieldName (.wrap value) s

/-- The calls one after another. -/
def run (lib : Spdlog) (calls : List Call) (s : State) : State :=
  calls.foldl (fun s call => exec lib call s) s

/-! ## A library as documented -/

/-- Replace each `{}` by the next argument. -/
def fill : Bytes → List Bytes → Bytes
  | 0x7B :: 0x7D :: format, argument :: arguments => argument ++ fill format arguments
  | b :: format, arguments => b :: fill format arguments
  | [], _ => []

/-- Replace `%l`, `%n` and `%v` by the level, the name and the message. -/
def expand (level name message : Bytes) : Bytes → Bytes
  | 0x25 :: 0x6C :: pattern => level ++ expand level name message pattern
  | 0x25 :: 0x6E :: pattern => name ++ expand level name message pattern
  | 0x25 :: 0x76 :: pattern => message ++ expand level name message pattern
  | b :: pattern => b :: expand level name message pattern
  | [] => []

def plainSpdlog : Spdlog where
  number
    | .trace => 0
    | .debug => 1
    | .info => 2
    | .warn => 3
    | .err => 4
    | .critical => 5
    | .off => 6
  format := fill
  render pattern level name message := expand level.text name message pattern
  stdoutLogger name := ⟨name, .info, ascii "%v"⟩

theorem documented_plainSpdlog : plainSpdlog.Documented where
  numbers := by decide
  format_message message := by
    show fill [0x7B, 0x7D] [message] = message
    simp [fill]
  format_field field value := by
    show fill [0x7B, 0x7D, 0x3D, 0x7B, 0x7D] [field, value] = field ++ [0x3D] ++ value
    simp [fill]
  render level name message := by
    show expand level.text name message
      [0x5B, 0x25, 0x6C, 0x5D, 0x20, 0x5B, 0x25, 0x6E, 0x5D, 0x20, 0x25, 0x76] =
        [0x5B] ++ level.text ++ [0x5D, 0x20, 0x5B] ++ name ++ [0x5D, 0x20] ++ message
    simp [expand]
  stdoutLogger_name _ := rfl

end BranchTalk.Core.Logging
