import BranchTalk.Core.Logging
import BranchTalk.Threads.Code

set_option autoImplicit false

/-! # Logging from several threads

`libs/core/src/logging.cpp` once more, step by step. What the threads share are the level in force, the
registry, and the level and the pattern of each logger; each access to one of them is an action of its
own. A logger is known by the name it is registered under, since nothing is ever taken out of the
registry. -/

namespace BranchTalk.Core.Logging.Concurrent

open Threads (Code)

structure Loggers where
  configuredLevel : LogLevel := .info
  registry : Bytes → Option Logger := fun _ => none

/-- A part of a call, which may put out records. -/
abbrev Action (α : Type) : Type := Code Loggers Bytes α

/-! ## The logging library -/

def Loggers.set (s : Loggers) (name : Bytes) (logger : Logger) : Loggers :=
  { s with registry := Function.update s.registry name (some logger) }

/-- Change a logger, where it is registered. -/
def Loggers.change (s : Loggers) (name : Bytes) (f : Logger → Logger) : Loggers :=
  match s.registry name with
  | some logger => s.set name (f logger)
  | none => s

/-- `spdlog::get(name)`: whether there is a logger. -/
def get (name : Bytes) : Action Bool := .read fun s => (s.registry name).isSome

def setPattern (name pattern : Bytes) : Action Unit :=
  .modify fun s => s.change name fun logger => { logger with pattern }

def setLevel (name : Bytes) (level : SpdlogLevel) : Action Unit :=
  .modify fun s => s.change name fun logger => { logger with level }

section

variable (lib : Spdlog)

/-- `spdlog::stdout_logger_mt(name)`. A name that is taken is an exception. -/
def stdoutLoggerMt (name : Bytes) : Action Unit :=
  .act (fun s => if (s.registry name).isSome then s else s.set name (lib.stdoutLogger name))
    fun s => if (s.registry name).isSome then .fail else .done ()

def shouldLog (name : Bytes) (level : SpdlogLevel) : Action Bool :=
  .read fun s => (s.registry name).any fun logger => lib.shouldLog logger level

/-- `logger->log(level, format, arguments...)`: the level is looked at first, and the record is put
    out by the pattern that the logger then has. -/
def log (name : Bytes) (level : SpdlogLevel) (format : Bytes) (arguments : List Bytes) :
    Action Unit := do
  if ← shouldLog lib name level then
    .write fun s => (s.registry name).elim [] fun logger =>
      lib.render logger.pattern level logger.name (lib.format format arguments)

/-! ## Calls -/

def configuredLevel : Action LogLevel := .read fun s => s.configuredLevel

def loggerForUnlocked (category : LogCategory) : Action Bytes := do
  let name := categoryName category
  unless ← get name do
    stdoutLoggerMt lib name
    setPattern name kLogPattern
  setLevel name (toSpdlogLevel (← configuredLevel))
  return name

def loggerFor (category : LogCategory) : Action Bytes := .locked (loggerForUnlocked lib category)

def initializeCategory (category : LogCategory) : Action Unit := do
  let logger ← loggerForUnlocked lib category
  setPattern logger kLogPattern
  setLevel logger (toSpdlogLevel (← configuredLevel))

def initializeLogging (settings : LoggingSettings) : Action Unit :=
  .locked do
    .modify fun s => { s with configuredLevel := settings.level }
    kCategories.forM (initializeCategory lib)

def isLogEnabled (category : LogCategory) (level : LogLevel) : Action Bool := do
  shouldLog lib (← loggerFor lib category) (toSpdlogLevel level)

def writeLog (category : LogCategory) (level : LogLevel) (message : Bytes) : Action Unit := do
  log lib (← loggerFor lib category) (toSpdlogLevel level) (ascii "\x7b\x7d") [message]

def writeSensitive (category : LogCategory) (level : LogLevel) (fieldName : Bytes)
    (value : SensitiveValue) : Action Unit := do
  log lib (← loggerFor lib category) (toSpdlogLevel level) (ascii "\x7b\x7d=\x7b\x7d")
    [fieldName, value.redacted]

/-- The code of a call. Only `is_log_enabled` has an answer. -/
def code : Call → Action (Option Bool)
  | .initializeLogging settings => do initializeLogging lib settings; return none
  | .isLogEnabled category level => do return some (← isLogEnabled lib category level)
  | .writeLog category level message => do writeLog lib category level message; return none
  | .writeSensitive category level fieldName value => do
      writeSensitive lib category level fieldName (.wrap value); return none

end

end BranchTalk.Core.Logging.Concurrent
