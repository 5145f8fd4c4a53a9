import BranchTalk.Core.Logging.Schedules
import BranchTalk.Threads.Turns

set_option autoImplicit false

/-! # Logging in turns

A call that no other thread gets in the way of does what it does in a program with one thread. -/

namespace BranchTalk.Core.Logging.Concurrent

open Threads

section

variable (lib : Spdlog) (s : Loggers) (output : List Bytes)

theorem loggerForUnlocked_solo (category : LogCategory) :
    (loggerForUnlocked lib category).solo s = ⟨some (categoryName category),
      s.set (categoryName category) (Logging.loggerForUnlocked lib category (s.state output)).1,
      []⟩ := by
  unfold Logging.loggerForUnlocked
  cases hlogger : s.registry (categoryName category) with
  | some logger =>
      simp [loggerForUnlocked, get, configuredLevel, setLevel, Code.read, Code.modify, Code.bind,
        Code.solo, hlogger, Loggers.change, Loggers.state]
  | none =>
      simp [loggerForUnlocked, get, stdoutLoggerMt, setPattern, configuredLevel, setLevel, Code.read,
        Code.modify, Code.bind, Code.solo, hlogger, Loggers.change, Loggers.state, Loggers.set]

theorem initializeCategory_solo (category : LogCategory) : ∃ s',
    (initializeCategory lib category).solo s = ⟨some (), s', []⟩ ∧
      s'.state output = Logging.initializeCategory lib (s.state output) category := by
  refine ⟨s.set (categoryName category)
    { (Logging.loggerForUnlocked lib category (s.state output)).1 with
      pattern := kLogPattern, level := toSpdlogLevel s.configuredLevel }, ?_, ?_⟩
  · unfold initializeCategory
    rw [Code.bind_eq, Code.solo_bind, loggerForUnlocked_solo lib s output]
    simp [setPattern, configuredLevel, setLevel, Code.read, Code.modify, Code.bind, Code.solo,
      Outcome.bind, Outcome.after, Loggers.change, Loggers.set]
  · unfold Logging.initializeCategory Logging.loggerForUnlocked
    simp [State.register, Loggers.state, Loggers.set]

theorem initializeCategories_solo (categories : List LogCategory) : ∃ s',
    (categories.forM (initializeCategory lib)).solo s = ⟨some (), s', []⟩ ∧
      s'.state output = categories.foldl (Logging.initializeCategory lib) (s.state output) := by
  induction categories generalizing s with
  | nil => exact ⟨s, rfl, rfl⟩
  | cons category rest ih =>
      obtain ⟨s', hsolo, hstate⟩ := initializeCategory_solo lib s output category
      obtain ⟨s'', hsolo', hstate'⟩ := ih s'
      refine ⟨s'', ?_, ?_⟩
      · show ((initializeCategory lib category).bind fun _ =>
          rest.forM (initializeCategory lib)).solo s = _
        rw [Code.solo_bind, hsolo]
        simp only [Outcome.bind, hsolo', Outcome.after, List.append_nil]
      · rw [List.foldl_cons, ← hstate, hstate']

theorem loggerFor_solo (category : LogCategory) :
    (loggerFor lib category).solo s = ⟨some (categoryName category),
      s.set (categoryName category) (Logging.loggerFor lib category (s.state output)).1, []⟩ := by
  show (loggerForUnlocked lib category).releasing.solo s = _
  rw [Code.solo_releasing]
  exact loggerForUnlocked_solo lib s output category

theorem log_solo {name : Bytes} {logger : Logger} (hlogger : s.registry name = some logger)
    (level : SpdlogLevel) (format : Bytes) (arguments : List Bytes) : ∃ written,
    (log lib name level format arguments).solo s = ⟨some (), s, written⟩ ∧
      s.state (output ++ written) =
        Logging.log lib logger level format arguments (s.state output) := by
  cases hshould : lib.shouldLog logger level with
  | true =>
      exact ⟨[_], by simp [log, shouldLog, Code.read, Code.write, Code.bind, Code.solo, hlogger,
        hshould, Outcome.after]; rfl, by simp [Logging.log, hshould, Loggers.state]⟩
  | false =>
      exact ⟨[], by simp [log, shouldLog, Code.read, Code.bind, Code.solo, hlogger, hshould],
        by simp [Logging.log, hshould, Loggers.state]⟩

theorem logged_solo (category : LogCategory) (level : SpdlogLevel) (format : Bytes)
    (arguments : List Bytes) : ∃ s' written,
    ((loggerFor lib category).bind fun name => log lib name level format arguments).solo s =
      ⟨some (), s', written⟩ ∧
    s'.state (output ++ written) =
      Logging.log lib (Logging.loggerFor lib category (s.state output)).1 level format arguments
        (Logging.loggerFor lib category (s.state output)).2 := by
  obtain ⟨written, hsolo, hstate⟩ := log_solo lib (s.set (categoryName category)
    (Logging.loggerFor lib category (s.state output)).1) output (registry_set ..) level format arguments
  refine ⟨_, written, ?_, hstate⟩
  rw [Code.solo_bind, loggerFor_solo lib s output]
  show ((log lib (categoryName category) level format arguments).solo _).after [] = _
  rw [hsolo]
  rfl

theorem unanswered_solo {c : Action Unit} {s s' : Loggers} {written : List Bytes}
    (h : c.solo s = ⟨some (), s', written⟩) :
    (c.bind fun _ => (.done none : Action (Option Bool))).solo s = ⟨some none, s', written⟩ := by
  rw [Code.solo_bind, h]
  simp [Outcome.bind, Outcome.after, Code.solo]

/-- The answer of a call in a program with one thread. -/
def answerIn (call : Call) (st : State) : Option Bool :=
  match call with
  | .isLogEnabled category level => some (Logging.isLogEnabled lib category level st).1
  | _ => none

/-- Alone, a call does what it does in a program with one thread. -/
theorem code_solo (call : Call) : ∃ s' written,
    (code lib call).solo s = ⟨some (answerIn lib call (s.state output)), s', written⟩ ∧
      s'.state (output ++ written) = Logging.exec lib call (s.state output) := by
  cases call with
  | initializeLogging settings =>
      obtain ⟨s', hsolo, hstate⟩ := initializeCategories_solo lib
        { s with configuredLevel := settings.level } output kCategories
      refine ⟨s', [], unanswered_solo ?_, by rw [List.append_nil, hstate]; rfl⟩
      show Code.solo (Code.releasing _) s = _
      rw [Code.solo_releasing]
      exact hsolo
  | isLogEnabled category level =>
      refine ⟨s.set (categoryName category) (Logging.loggerFor lib category (s.state output)).1, [],
        ?_, by rw [List.append_nil]; rfl⟩
      show (((loggerFor lib category).bind fun name =>
        shouldLog lib name (toSpdlogLevel level)).bind fun _ => _).solo s = _
      rw [Code.solo_bind, Code.solo_bind, loggerFor_solo lib s output]
      simp [shouldLog, Code.read, Code.solo, Outcome.bind, Outcome.after, registry_set, answerIn,
        Logging.isLogEnabled]
  | writeLog category level message =>
      obtain ⟨s', written, hsolo, hstate⟩ := logged_solo lib s output category (toSpdlogLevel level)
        (ascii "\x7b\x7d") [message]
      exact ⟨s', written, unanswered_solo hsolo, hstate⟩
  | writeSensitive category level fieldName value =>
      obtain ⟨s', written, hsolo, hstate⟩ := logged_solo lib s output category (toSpdlogLevel level)
        (ascii "\x7b\x7d=\x7b\x7d") [fieldName, (SensitiveValue.wrap value).redacted]
      exact ⟨s', written, unanswered_solo hsolo, hstate⟩

theorem inSequence_code (calls : List Call) :
    (inSequence (code lib) calls s).1.state (output ++ (inSequence (code lib) calls s).2) =
      Logging.run lib calls (s.state output) := by
  induction calls using List.reverseRecOn with
  | nil => simp [inSequence, Logging.run]
  | append_singleton calls call ih =>
      obtain ⟨s', written, hsolo, hstate⟩ := code_solo lib (inSequence (code lib) calls s).1
        (output ++ (inSequence (code lib) calls s).2) call
      have hrun : Logging.run lib (calls ++ [call]) (s.state output) =
          Logging.exec lib call (Logging.run lib calls (s.state output)) := List.foldl_concat ..
      rw [inSequence_concat, hsolo, ← List.append_assoc, hrun, ← ih]
      exact hstate

end

/-- **Calls that take turns**, of whatever threads, are the calls of a program with one thread. -/
theorem run_of_takeTurns {ι : Type} [DecidableEq ι] (lib : Spdlog) (program : ι → List Call)
    {schedule : List ι} (hturns : TakeTurns (code lib) schedule (started program))
    (hidle : ∀ i, (((started program).run (code lib) schedule).thread i).current = none) :
    Logging.run lib (((started program).run (code lib) schedule).returned.map Returned.op) {} =
      ((started program).run (code lib) schedule).shared.state
        (((started program).run (code lib) schedule).output.map Prod.snd) := by
  have hseq := ((InTurn.start program).run schedule hturns).idle hidle
  have hcode := inSequence_code lib {} []
    (((started program).run (code lib) schedule).returned.map Returned.op)
  rw [hseq] at hcode
  exact hcode.symm

/-- Two threads, the second after the first. -/
def handOver (thread : Bool) : List Call :=
  if thread then [.initializeLogging ⟨.debug⟩] else [.writeLog .client .debug (ascii "ready")]

theorem run_of_takeTurns_handOver :
    Logging.run plainSpdlog [.initializeLogging ⟨.debug⟩, .writeLog .client .debug (ascii "ready")] {} =
      ((started handOver).run (code plainSpdlog)
        (List.replicate 40 true ++ List.replicate 12 false)).shared.state
          [ascii "[debug] [client] ready"] := by
  have hturns : TakeTurns (code plainSpdlog) (List.replicate 40 true ++ List.replicate 12 false)
      (started handOver) := by
    refine takeTurns_append (takeTurns_replicate (fun _ _ => rfl) 40) (takeTurns_replicate ?_ 12)
    intro j hj
    obtain rfl : j = true := by simpa using hj
    exact Option.isNone_iff_eq_none.mp (by decide +kernel)
  have hidle (i : Bool) : (((started handOver).run (code plainSpdlog)
      (List.replicate 40 true ++ List.replicate 12 false)).thread i).current = none := by
    cases i <;> exact Option.isNone_iff_eq_none.mp (by decide +kernel)
  have hrun := run_of_takeTurns plainSpdlog handOver hturns hidle
  have hcalls : ((started handOver).run (code plainSpdlog)
      (List.replicate 40 true ++ List.replicate 12 false)).returned.map Returned.op =
      [.initializeLogging ⟨.debug⟩, .writeLog .client .debug (ascii "ready")] := by decide +kernel
  have houtput : ((started handOver).run (code plainSpdlog)
      (List.replicate 40 true ++ List.replicate 12 false)).output.map Prod.snd =
      [ascii "[debug] [client] ready"] := by decide +kernel
  rwa [hcalls, houtput] at hrun

end BranchTalk.Core.Logging.Concurrent
