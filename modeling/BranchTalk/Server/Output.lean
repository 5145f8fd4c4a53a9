import BranchTalk.Core.Logging.Output
import BranchTalk.Server.Dispositions
import BranchTalk.Server.Requests

set_option autoImplicit false

/-! # What the process writes and returns

What a run can write is settled by what it finds: the startup error, or that the server has started
and stopped, where the configured level lets that through. When the process ends decides how much of it
is written. -/

namespace BranchTalk.Server

open BranchTalk.Core
open BranchTalk.Core.Logging (Call Spdlog passes record records plainSpdlog documented_plainSpdlog)

/-! ## Options -/

/-- The options have been accepted. -/
def Pc.accepted : Pc → Bool
  | .parse => false
  | .report _ => false
  | .returned .failure => false
  | .threw => false
  | _ => true

theorem Move.options {env : Environment} {s s' : State} (h : Move env s s')
    (hs : s.pc.accepted = true → parsed env = .ok (.ok s.options))
    (haccepted : s'.pc.accepted = true) : parsed env = .ok (.ok s'.options) := by
  cases h with
  | parse hpc h => exact h
  | stay hpc => exact hs haccepted
  | parseThrows hpc | parseFails hpc | refuseInterrupt hpc | undoInterrupt hpc | report hpc =>
      cases haccepted
  | clear hpc | installInterrupt hpc | installTerminate hpc | refuseTerminate hpc | construct hpc
  | startSmoke hpc | logStarted hpc | pollEnds hpc | poll hpc | wait hpc | logStopped hpc
  | joinSmoke hpc | restoreInterrupt hpc | restoreNothing hpc | restoreTerminate hpc | leave hpc =>
      rw [hpc] at hs
      exact hs rfl

/-- The options kept are those parsed. -/
theorem after_options (env : Environment) (events : List Event)
    (h : (after env events).pc.accepted = true) :
    parsed env = .ok (.ok (after env events).options) := by
  refine after_invariant env
    (P := fun s => s.pc.accepted = true → parsed env = .ok (.ok s.options)) nofun ?_ ?_ events h
  · intro s s' hs hmove haccepted
    exact hmove.options hs haccepted
  · intro s event hs hevent haccepted
    have hsame := exec_samePoint env s hevent
    rw [hsame.options]
    exact hs (hsame.pc ▸ haccepted)

/-! ## The report -/

/-- What a run writes if it comes to its end. -/
def report (env : Environment) : List Bytes :=
  match startupFailure env, parsed env with
  | some message, _ => [record .server .error (ascii "server startup error: " ++ message)]
  | none, .ok (.ok options) =>
      if passes options.config.logLevel .info then
        [record .server .info (ascii "server started"), record .server .info (ascii "server stopped")]
      else []
  | none, _ => []

/-- What `run` returns. -/
def exitCode (env : Environment) : ExitCode :=
  if (startupFailure env).isSome then .failure else .success

theorem records_started (options : ServerOptions) :
    records passes .info (startedCalls options) =
      if passes options.config.logLevel .info then [record .server .info (ascii "server started")]
      else [] := by
  cases h : passes options.config.logLevel .info <;>
    simp [startedCalls, serverStarted, records, Logging.callRecords, Logging.levelAfter, h]

theorem records_stopped (options : ServerOptions) :
    records passes .info (startedCalls options ++ [serverStopped]) =
      if passes options.config.logLevel .info then
        [record .server .info (ascii "server started"), record .server .info (ascii "server stopped")]
      else [] := by
  cases h : passes options.config.logLevel .info <;>
    simp [startedCalls, serverStarted, serverStopped, records, Logging.callRecords,
      Logging.levelAfter, h]

/-- A startup error is written whatever level the configuration asks for. -/
theorem records_writeServerError (message : Bytes) :
    records passes .info (writeServerError message) =
      [record .server .error (ascii "server startup error: " ++ message)] := rfl

theorem report_eq_of_failure {env : Environment} {message : Bytes}
    (h : startupFailure env = some message) :
    report env = records passes .info (writeServerError message) := by
  rw [records_writeServerError, report, h]

theorem report_eq_of_options {env : Environment} {options : ServerOptions}
    (hnone : startupFailure env = none) (h : parsed env = .ok (.ok options)) :
    report env = records passes .info (startedCalls options ++ [serverStopped]) := by
  rw [records_stopped, report, hnone, h]

theorem started_prefix_stopped (options : ServerOptions) :
    records passes .info (startedCalls options) <+:
      records passes .info (startedCalls options ++ [serverStopped]) := by
  rw [records_started, records_stopped]
  split
  · exact List.prefix_append [_] [_]
  · exact List.prefix_refl []

/-- The calls made so far have written a part of the report. -/
theorem records_prefix_report (env : Environment) (events : List Event) :
    records passes .info (after env events).log <+: report env := by
  have hfollows := after_follows env events
  have hoptions := after_options env events
  unfold Follows at hfollows
  cases hpc : (after env events).pc with
  | parse =>
      rw [hpc] at hfollows
      rw [hfollows]
      exact List.nil_prefix
  | clear | installInterrupt | installTerminate | undoInterrupt | report | construct | startSmoke
  | logStarted | threw =>
      rw [hpc] at hfollows
      rw [hfollows.1]
      exact List.nil_prefix
  | poll | wait | logStopped =>
      rw [hpc] at hfollows hoptions
      rw [hfollows.1, report_eq_of_options hfollows.2 (hoptions rfl)]
      exact started_prefix_stopped _
  | joinSmoke | restoreInterrupt | restoreTerminate | leave =>
      rw [hpc] at hfollows hoptions
      rw [hfollows.1, report_eq_of_options hfollows.2 (hoptions rfl)]
  | returned code =>
      rw [hpc] at hfollows hoptions
      cases code with
      | success => rw [hfollows.1, report_eq_of_options hfollows.2 (hoptions rfl)]
      | failure =>
          obtain ⟨message, hfailure, hlog⟩ := hfollows
          rw [hlog, report_eq_of_failure hfailure]

/-- A run that returns has written all of it. -/
theorem records_of_returned {env : Environment} {events : List Event} {code : ExitCode}
    (h : (after env events).pc = .returned code) :
    records passes .info (after env events).log = report env ∧ code = exitCode env := by
  have hfollows := after_follows env events
  have hoptions := after_options env events
  unfold Follows at hfollows
  rw [h] at hfollows hoptions
  unfold exitCode
  cases code with
  | success =>
      obtain ⟨hlog, hnone⟩ := hfollows
      rw [hlog, report_eq_of_options hnone (hoptions rfl), hnone]
      exact ⟨rfl, rfl⟩
  | failure =>
      obtain ⟨message, hfailure, hlog⟩ := hfollows
      rw [hlog, report_eq_of_failure hfailure, hfailure]
      exact ⟨rfl, rfl⟩

/-! ## Whole runs -/

/-- What the process has written. -/
def output (lib : Spdlog) (env : Environment) (events : List Event) : List Bytes :=
  (Logging.run lib (after env events).log {}).output

theorem output_eq {lib : Spdlog} (hlib : lib.Documented) (env : Environment) (events : List Event) :
    output lib env events = records passes .info (after env events).log :=
  Logging.run_output hlib _

/-- **What the process writes** in any schedule, is a beginning of its report, and a run that returns has
    written the report and returns the code of what it found. -/
theorem process_output {lib : Spdlog} (hlib : lib.Documented) (env : Environment)
    (events : List Event) :
    output lib env events <+: report env ∧
    ∀ code, (after env events).pc = .returned code →
      output lib env events = report env ∧ code = exitCode env := by
  rw [output_eq hlib]
  exact ⟨records_prefix_report env events, fun code hcode => records_of_returned hcode⟩

/-- The interrupt comes at the first poll. -/
def interrupted : List Event := toFirstPoll ++ .deliver .interrupt true :: List.replicate 6 .step

theorem process_output_interrupted :
    output plainSpdlog plainEnvironment interrupted = report plainEnvironment ∧
      ExitCode.success = exitCode plainEnvironment :=
  (process_output documented_plainSpdlog plainEnvironment interrupted).2 .success (by decide +kernel)

end BranchTalk.Server
