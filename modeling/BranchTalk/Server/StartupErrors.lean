import BranchTalk.Core.ApplicationConfig.Messages
import BranchTalk.Server.Requests

set_option autoImplicit false

/-! # The log of a start that fails

A rejected configuration is the one way for a text from outside to reach the log of the process: a file
path, what the JSON library says, or the name of a field. It is copied as it is. -/

namespace BranchTalk.Server

open BranchTalk.Core
open BranchTalk.Core.ApplicationConfig
open BranchTalk.Core.Logging (Call Eol Spdlog OneLineEach Plain passing text plain_nil plainSpdlog
  documented_plainSpdlog oneLineEach_iff)

/-! ## Messages -/

/-- The text from outside in the error of a start that fails. -/
def outside (env : Environment) : Bytes :=
  match env.argv with
  | [_, argument] => outsideText env.reader argument (env.openFile argument)
  | _ => []

theorem parsed_failsBefore (env : Environment) :
    FailsBefore (outside env) (parseOptions env.reader env.openFile env.argv) := by
  have husage : Plain (ascii "usage: branchtalk_server [config.json | --smoke-test]") := by
    decide +kernel
  unfold outside
  rcases env.argv with _ | ⟨program, _ | ⟨argument, _ | ⟨extra, rest⟩⟩⟩
  · exact failsBefore_own husage
  · exact failsBefore_pure _ _
  · dsimp only [parseOptions]
    split
    · exact failsBefore_pure _ _
    · refine failsBefore_bind (load_failsBefore _ _ _) fun config => ?_
      exact failsBefore_pure _ _
  · exact failsBefore_own husage

/-! ## Calls -/

/-- The options are rejected with this error. -/
def Rejected (env : Environment) (error : Error) : Prop := parsed env = .ok (.error error)

/-- A start fails with the error of the options, or, if these are accepted, where it installs the
    handlers. -/
theorem startupFailure_cases {env : Environment} {message : Bytes}
    (h : startupFailure env = some message) :
    (∃ error, Rejected env error ∧ message = error.message) ∨
      (∀ error, ¬ Rejected env error) ∧ message = installError := by
  unfold startupFailure at h
  split at h
  · next error hparsed => exact Or.inl ⟨error, hparsed, (Option.some.inj h).symm⟩
  · next options hparsed =>
      refine Or.inr ⟨fun error hrejected => ?_, ?_⟩
      · rw [Rejected, hparsed] at hrejected
        cases hrejected
      · split at h
        · cases h
        · exact (Option.some.inj h).symm
  · cases h

theorem not_rejected {env : Environment} (h : startupFailure env = none) (error : Error) :
    ¬ Rejected env error := by
  intro hrejected
  rw [Rejected] at hrejected
  simp [startupFailure, hrejected] at h

theorem plain_started {options : ServerOptions} {call : Call} (h : call ∈ startedCalls options) :
    Plain (text call) := by
  have hstarted : Plain (ascii "server started") := by decide +kernel
  rcases List.mem_cons.mp h with rfl | h
  · exact plain_nil
  · obtain rfl := List.mem_singleton.mp h
    exact hstarted

theorem plain_stopped : Plain (text serverStopped) := by
  have hstopped : Plain (ascii "server stopped") := by decide +kernel
  exact hstopped

/-! ## Lines -/

theorem passing_writeServerError (message : Bytes) :
    passing .info (writeServerError message) =
      [.writeLog .server .error (ascii "server startup error: " ++ message)] := rfl

/-- The line ends of the message are those of the text from outside. -/
theorem infix_message_iff (eol : Eol) {env : Environment} {error : Error}
    (hrejected : Rejected env error) :
    eol.bytes <:+: error.message ↔ eol.bytes <:+: outside env := by
  obtain ⟨own, hown, hmessage⟩ := parsed_failsBefore env error hrejected
  rw [hmessage, hown.infix_left_iff]

/-- The texts that the process writes by itself are one line each. -/
theorem oneLineEach_of_plain {lib : Spdlog} (hlib : lib.Documented) (eol : Eol) {calls : List Call}
    (h : ∀ call ∈ calls, Plain (text call)) : OneLineEach lib eol calls := by
  rw [oneLineEach_iff hlib]
  intro call hcall
  exact (h call (Logging.passing_subset _ _ hcall)).no_eol eol

theorem oneLineEach_writeServerError_iff {lib : Spdlog} (hlib : lib.Documented) (eol : Eol)
    (message : Bytes) :
    OneLineEach lib eol (writeServerError message) ↔ ¬ eol.bytes <:+: message := by
  have herror : Plain (ascii "server startup error: ") := by decide +kernel
  rw [oneLineEach_iff hlib, passing_writeServerError, List.forall_mem_singleton, text,
    herror.infix_left_iff]

theorem oneLineEach_after_iff {lib : Spdlog} (hlib : lib.Documented) (eol : Eol) (env : Environment)
    (events : List Event) :
    OneLineEach lib eol (after env events).log ↔
      ((∃ error, Rejected env error) → (after env events).log ≠ [] →
        ¬ eol.bytes <:+: outside env) := by
  rcases (after_follows env events).log_cases with
    hlog | ⟨hlog, hnone⟩ | ⟨hlog, hnone, -⟩ | ⟨message, hfailure, hlog⟩
  · refine iff_of_true ?_ fun _ hne => absurd hlog hne
    rw [hlog]
    exact oneLineEach_of_plain hlib eol (List.forall_mem_nil _)
  · refine iff_of_true ?_ fun ⟨error, hrejected⟩ => absurd hrejected (not_rejected hnone error)
    rw [hlog]
    exact oneLineEach_of_plain hlib eol fun call hcall => plain_started hcall
  · refine iff_of_true ?_ fun ⟨error, hrejected⟩ => absurd hrejected (not_rejected hnone error)
    rw [hlog]
    refine oneLineEach_of_plain hlib eol (List.forall_mem_append.mpr ⟨?_, ?_⟩)
    · exact fun call hcall => plain_started hcall
    · exact List.forall_mem_singleton.mpr plain_stopped
  · rw [hlog, oneLineEach_writeServerError_iff hlib]
    rcases startupFailure_cases hfailure with ⟨error, hrejected, rfl⟩ | ⟨haccepted, rfl⟩
    · have hne : writeServerError error.message ≠ [] := List.cons_ne_nil _ _
      rw [infix_message_iff eol hrejected]
      exact ⟨fun hinfix _ _ => hinfix, fun hinfix => hinfix ⟨error, hrejected⟩ hne⟩
    · have hinstall : Plain installError := by decide +kernel
      exact iff_of_true (hinstall.no_eol eol)
        fun ⟨error, hrejected⟩ => absurd hrejected (haccepted error)

/-- **Each write is one line** exactly when no text of a write that passes contains a line end. In the
    log of the process only the text from outside can, of a start that fails. -/
theorem log_lines_iff {lib : Spdlog} (hlib : lib.Documented) (eol : Eol) :
    (∀ calls, OneLineEach lib eol calls ↔
      ∀ call ∈ passing .info calls, ¬ eol.bytes <:+: text call) ∧
    (∀ env events, OneLineEach lib eol (after env events).log ↔
      ((∃ error, Rejected env error) → (after env events).log ≠ [] →
        ¬ eol.bytes <:+: outside env)) :=
  ⟨oneLineEach_iff hlib eol, oneLineEach_after_iff hlib eol⟩

theorem log_lines_started :
    OneLineEach plainSpdlog .crlf
      [.initializeLogging ⟨.debug⟩, .writeLog .server .info (ascii "server started"),
        .writeSensitive .database .trace (ascii "a\r\nb") (ascii "secret"),
        .writeSensitive .database .info (ascii "credential") (ascii "secret")] :=
  ((log_lines_iff documented_plainSpdlog .crlf).1 _).mpr (by decide +kernel)

/-- A start with a configuration that names an unknown field, and a line end in the name. -/
def unknownField : Environment where
  reader := plainReader
  openFile _ := .content (ascii "\x7b\"x\\n[critical] [database] lost\": 1\x7d")
  argv := [ascii "branchtalk_server", ascii "config.json"]
  entry _ := .default
  requestedBefore := false
  installs _ := true

/-- The name of the field comes out as a record of its own, of another level and category. -/
theorem unknownField_lines :
    plainSpdlog.Documented ∧ Documented plainReader ∧
    Lines.lines Eol.lf.bytes
      (Logging.written .lf (Logging.run plainSpdlog (after unknownField [.step, .step]).log {})) =
      [ascii "[error] [server] server startup error: unsupported configuration field: x",
        ascii "[critical] [database] lost"] ∧
    ¬ OneLineEach plainSpdlog .lf (after unknownField [.step, .step]).log := by
  have hlines : Lines.lines Eol.lf.bytes
      (Logging.written .lf (Logging.run plainSpdlog (after unknownField [.step, .step]).log {})) =
      [ascii "[error] [server] server startup error: unsupported configuration field: x",
        ascii "[critical] [database] lost"] := by decide +kernel
  refine ⟨documented_plainSpdlog, documented_plainReader, hlines, fun heach => ?_⟩
  -- one write, and two lines
  have hwrites : (passing .info (after unknownField [.step, .step]).log).length = 1 := by decide +kernel
  have hlength := heach.length_eq
  rw [hwrites, hlines] at hlength
  cases hlength

end BranchTalk.Server
