import BranchTalk.Core.ApplicationConfig

set_option autoImplicit false

/-! # The server process

`apps/server/main.cpp` and `apps/server/src/server_app.cpp`. `run` is a sequence of steps; a signal
may be delivered before any of them. The platform may reset the disposition of a signal to the default
one before it calls a handler. -/

namespace BranchTalk.Server

open BranchTalk.Core
open BranchTalk.Core.ApplicationConfig (Loading Opened loadApplicationConfig)
open BranchTalk.Core.Logging (Call)

/-! ## Options -/

structure ServerOptions where
  config : ApplicationConfig := {}
  smokeTest : Bool := false
  deriving DecidableEq, Repr

/-- The arguments include the name of the program. -/
def parseOptions (reader : JsonReader) (openFile : Bytes → Opened) : List Bytes → Loading ServerOptions
  | [_] => pure {}
  | [_, argument] =>
      if argument = ascii "--smoke-test" then pure { smokeTest := true }
      else do
        let config ← loadApplicationConfig reader argument (openFile argument)
        return { config }
  | _ => throw ⟨.invalidArgument, ascii "usage: branchtalk_server [config.json | --smoke-test]"⟩

/-! ## Signals -/

inductive Signal where
  | interrupt
  | terminate
  deriving DecidableEq, Repr

/-- The dispositions a signal can have on entry: `handle_shutdown_signal` is known to this file
    only. -/
inductive Foreign where
  | default
  | ignore
  | handler (id : ℕ)
  deriving DecidableEq, Repr

inductive Disposition where
  | foreign (disposition : Foreign)
  | shutdown
  deriving DecidableEq, Repr

/-! ## The process -/

inductive ExitCode where
  | success
  | failure
  deriving DecidableEq, Repr

/-- What `run` does next. The steps from `joinSmoke` on are its destructors, in their order. -/
inductive Pc where
  | parse
  | clear
  | installInterrupt
  | installTerminate
  | undoInterrupt
  | report (message : Bytes)
  | construct
  | startSmoke
  | logStarted
  | poll
  | wait
  | logStopped
  | joinSmoke
  | restoreInterrupt
  | restoreTerminate
  | leave
  | returned (code : ExitCode)
  | threw
  deriving DecidableEq, Repr

inductive SmokeThread where
  | none
  | running
  | finished
  deriving DecidableEq, Repr

/-- What `run` finds: its arguments and the files they name, the dispositions on entry, the flag as it
    was left, and whether `std::signal` accepts the handler for a signal. -/
structure Environment where
  reader : JsonReader
  openFile : Bytes → Opened
  argv : List Bytes
  entry : Signal → Foreign
  requestedBefore : Bool
  installs : Signal → Bool

structure State where
  pc : Pc := .parse
  options : ServerOptions := {}
  shutdownRequested : Bool
  disposition : Signal → Disposition
  /-- `previous_interrupt_` and `previous_terminate_`. -/
  previous : Signal → Disposition := fun _ => .foreign .default
  installed : Bool := false
  smoke : SmokeThread := .none
  /-- The logging calls made so far. -/
  log : List Call := []
  /-- A signal has met the default disposition. -/
  killed : Bool := false

def parsed (env : Environment) : Except LoadException (Result ServerOptions) :=
  (parseOptions env.reader env.openFile env.argv).run

def start (env : Environment) : State where
  shutdownRequested := env.requestedBefore
  disposition signal := .foreign (env.entry signal)

/-! ## Logging calls -/

def writeServerError (message : Bytes) : List Call :=
  [.initializeLogging {}, .writeLog .server .error (ascii "server startup error: " ++ message)]

def serverStarted : Call := .writeLog .server .info (ascii "server started")

def serverStopped : Call := .writeLog .server .info (ascii "server stopped")

def installError : Bytes := ascii "could not install shutdown signal handlers"

/-! ## Steps -/

/-- `std::signal`, where it succeeds. -/
def State.setDisposition (s : State) (signal : Signal) (disposition : Disposition) : State :=
  { s with disposition := Function.update s.disposition signal disposition }

/-- `previous = std::signal(signal, handle_shutdown_signal)`. -/
def State.install (s : State) (signal : Signal) : State :=
  { s.setDisposition signal .shutdown with
    previous := Function.update s.previous signal (s.disposition signal) }

def State.restore (s : State) (signal : Signal) : State :=
  s.setDisposition signal (s.previous signal)

def step (env : Environment) (s : State) : State :=
  match s.pc with
  | .parse =>
      match parsed env with
      | .error _ => { s with pc := .threw }
      | .ok (.error error) => { s with pc := .report error.message }
      | .ok (.ok options) => { s with options, pc := .clear }
  | .clear => { s with shutdownRequested := false, pc := .installInterrupt }
  | .installInterrupt =>
      -- where it is refused `previous_interrupt_` is never read
      if env.installs .interrupt then { s.install .interrupt with pc := .installTerminate }
      else { s with pc := .report installError }
  | .installTerminate =>
      if env.installs .terminate then
        { s.install .terminate with installed := true, pc := .construct }
      else { s with pc := .undoInterrupt }
  | .undoInterrupt => { s.restore .interrupt with pc := .report installError }
  -- the destructor of the handlers finds `installed_` false
  | .report message => { s with log := s.log ++ writeServerError message, pc := .returned .failure }
  | .construct => { s with pc := .startSmoke }
  | .startSmoke =>
      { s with smoke := if s.options.smokeTest then .running else .none, pc := .logStarted }
  | .logStarted =>
      { s with
        log := s.log ++ [.initializeLogging ⟨s.options.config.logLevel⟩, serverStarted]
        pc := .poll }
  | .poll => { s with pc := if s.shutdownRequested then .logStopped else .wait }
  | .wait => { s with pc := .poll }
  | .logStopped => { s with log := s.log ++ [serverStopped], pc := .joinSmoke }
  -- the destructor of the thread waits for its end
  | .joinSmoke => if s.smoke = .running then s else { s with pc := .restoreInterrupt }
  | .restoreInterrupt =>
      if s.installed then { s.restore .interrupt with pc := .restoreTerminate }
      else { s with pc := .leave }
  | .restoreTerminate => { s.restore .terminate with pc := .leave }
  | .leave => { s with pc := .returned .success }
  | .returned _ => s
  | .threw => s

/-- A signal reaches the process. -/
def deliver (s : State) (signal : Signal) (resets : Bool) : State :=
  match s.disposition signal with
  -- the default action of both signals ends the process
  | .foreign .default => { s with killed := true }
  | .foreign .ignore => s
  | .foreign (.handler _) => if resets then s.setDisposition signal (.foreign .default) else s
  | .shutdown =>
      let s := if resets then s.setDisposition signal (.foreign .default) else s
      { s with shutdownRequested := true }

inductive Event where
  | step
  | deliver (signal : Signal) (resets : Bool)
  /-- The smoke thread wakes and raises `SIGTERM`, or, if that fails, sets the flag itself. -/
  | smoke (raises resets : Bool)
  deriving DecidableEq, Repr

def Pc.over : Pc → Bool
  | .returned _ => true
  | .threw => true
  | _ => false

/-- `run` is still going on. -/
def State.alive (s : State) : Bool := !s.killed && !s.pc.over

def exec (env : Environment) (s : State) (event : Event) : State :=
  if s.alive then
    match event with
    | .step => step env s
    | .deliver signal resets => deliver s signal resets
    | .smoke raises resets =>
        if s.smoke = .running then
          let s := { s with smoke := .finished }
          if raises then deliver s .terminate resets else { s with shutdownRequested := true }
        else s
  else s

/-- The process after a schedule. -/
def after (env : Environment) (events : List Event) : State := events.foldl (exec env) (start env)

theorem after_concat (env : Environment) (events : List Event) (event : Event) :
    after env (events ++ [event]) = exec env (after env events) event :=
  List.foldl_concat ..

end BranchTalk.Server
