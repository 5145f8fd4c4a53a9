import BranchTalk.Core.Logging

set_option autoImplicit false

/-! # What logging writes

A logger filters by numbers, and `off` has the greatest. As a threshold it therefore stops every
record but one written at the level `off` itself. -/

namespace BranchTalk.Core.Logging

/-! ## Levels -/

/-- The position of a level, as a threshold and as the level of a record. -/
def severity : LogLevel → ℕ
  | .trace => 0
  | .debug => 1
  | .info => 2
  | .warning => 3
  | .error => 4
  | .critical => 5
  | .off => 6

/-- A record of this level passes the threshold. -/
def passes (threshold level : LogLevel) : Bool := decide (severity threshold ≤ severity level)

/-- A record of this level is to be written: neither level is `off`, and it passes. -/
def due (threshold level : LogLevel) : Bool :=
  threshold != .off && level != .off && passes threshold level

theorem due_eq_passes {level : LogLevel} (h : level ≠ .off) (threshold : LogLevel) :
    due threshold level = passes threshold level := by
  cases level <;> first | exact absurd rfl h | cases threshold <;> rfl

theorem due_off (threshold : LogLevel) : due threshold .off = false := by
  cases threshold <;> rfl

theorem passes_off (threshold : LogLevel) : passes threshold .off = true := by
  cases threshold <;> rfl

/-! ## Records -/

/-- The level in force after a call. -/
def levelAfter (level : LogLevel) : Call → LogLevel
  | .initializeLogging settings => settings.level
  | _ => level

/-- The level in force after these calls. -/
def inForce (calls : List Call) : LogLevel := calls.foldl levelAfter .info

/-- The record of a call by its format: the level, the category and the message. -/
def record (category : LogCategory) (level : LogLevel) (message : Bytes) : Bytes :=
  ascii "[" ++ levelName level ++ ascii "] [" ++ categoryName category ++ ascii "] " ++ message

/-- The records of a call, of those writes that a rule lets through. -/
def callRecords (rule : LogLevel → LogLevel → Bool) (threshold : LogLevel) : Call → List Bytes
  | .writeLog category level message =>
      if rule threshold level then [record category level message] else []
  | .writeSensitive category level fieldName _ =>
      if rule threshold level then [record category level (fieldName ++ ascii "=<redacted>")] else []
  | _ => []

/-- The records of all calls, in call order. -/
def records (rule : LogLevel → LogLevel → Bool) (threshold : LogLevel) : List Call → List Bytes
  | [] => []
  | call :: calls => callRecords rule threshold call ++ records rule (levelAfter threshold call) calls

/-- A write at the level `off`. -/
def atOff : Call → Bool
  | .writeLog _ level _ => level == .off
  | .writeSensitive _ level _ _ => level == .off
  | _ => false

/-- The call with another secret. -/
def hideSecret : Call → Call
  | .writeSensitive category level fieldName _ => .writeSensitive category level fieldName []
  | call => call

/-! ## One call -/

theorem shouldLog_eq {lib : Spdlog} (hlib : lib.Documented) (name pattern : Bytes)
    (threshold level : LogLevel) :
    lib.shouldLog ⟨name, toSpdlogLevel threshold, pattern⟩ (toSpdlogLevel level) =
      passes threshold level := by
  have h := hlib.numbers
  simp only [List.pairwise_cons, List.mem_cons, List.not_mem_nil, forall_eq_or_imp] at h
  unfold Spdlog.shouldLog passes
  refine decide_eq_decide.mpr ?_
  cases threshold <;> cases level <;> simp only [toSpdlogLevel, severity] <;> omega

/-- Every registered logger has its own name and the pattern. -/
def Patterned (s : State) : Prop :=
  ∀ name logger, s.registry name = some logger → logger.name = name ∧ logger.pattern = kLogPattern

theorem Patterned.register {s : State} (h : Patterned s) (name : Bytes) (level : SpdlogLevel) :
    Patterned (s.register name ⟨name, level, kLogPattern⟩) := by
  intro name' logger hlogger
  unfold State.register at hlogger
  by_cases hname : name' = name
  · subst hname
    obtain rfl : (⟨name', level, kLogPattern⟩ : Logger) = logger := by simpa using hlogger
    exact ⟨rfl, rfl⟩
  · exact h name' logger (by simpa [hname] using hlogger)

section

variable {lib : Spdlog} (hlib : lib.Documented)

include hlib

/-- The logger of a category is at the level in force; only the registry can change. -/
theorem loggerFor_eq {s : State} (h : Patterned s) (category : LogCategory) :
    loggerFor lib category s =
      (⟨categoryName category, toSpdlogLevel s.configuredLevel, kLogPattern⟩,
        s.register (categoryName category)
          ⟨categoryName category, toSpdlogLevel s.configuredLevel, kLogPattern⟩) := by
  unfold loggerFor loggerForUnlocked
  dsimp only
  cases hget : s.registry (categoryName category) with
  | none =>
      dsimp only
      rw [hlib.stdoutLogger_name]
  | some logger =>
      obtain ⟨hname, hpattern⟩ := h _ logger hget
      dsimp only
      rw [hname, hpattern]

theorem initializeCategory_eq {s : State} (h : Patterned s) (category : LogCategory) :
    ∃ registry, initializeCategory lib s category = { s with registry } ∧
      Patterned { s with registry } := by
  unfold initializeCategory
  have hlogger := loggerFor_eq hlib h category
  unfold loggerFor at hlogger
  rw [hlogger]
  exact ⟨_, rfl, (h.register _ _).register _ _⟩

theorem initializeCategories_eq (categories : List LogCategory) {s : State} (h : Patterned s) :
    ∃ registry, categories.foldl (initializeCategory lib) s = { s with registry } ∧
      Patterned { s with registry } := by
  induction categories generalizing s with
  | nil => exact ⟨s.registry, rfl, h⟩
  | cons category rest ih =>
      obtain ⟨registry, heq, h⟩ := initializeCategory_eq hlib h category
      rw [List.foldl_cons, heq]
      exact ih h

/-- A write puts out one record if its level passes. -/
theorem log_eq (s : State) (category : LogCategory) (threshold level : LogLevel) (format : Bytes)
    (arguments : List Bytes) :
    log lib ⟨categoryName category, toSpdlogLevel threshold, kLogPattern⟩ (toSpdlogLevel level)
      format arguments s =
      { s with
        output := s.output ++
          if passes threshold level then [record category level (lib.format format arguments)]
          else [] } := by
  have hlevel : (toSpdlogLevel level).text = levelName level := by cases level <;> rfl
  unfold log
  rw [shouldLog_eq hlib]
  cases passes threshold level with
  | false => simp
  | true =>
      have hrender := hlib.render (toSpdlogLevel level) (categoryName category)
        (lib.format format arguments)
      simp only [kLogPattern, hrender, hlevel, record, if_true]

theorem exec_eq {s : State} (h : Patterned s) (call : Call) :
    ∃ registry, Patterned { s with registry } ∧
      exec lib call s =
        { registry, configuredLevel := levelAfter s.configuredLevel call,
          output := s.output ++ callRecords passes s.configuredLevel call } := by
  have hregister category := h.register (categoryName category) (toSpdlogLevel s.configuredLevel)
  cases call with
  | initializeLogging settings =>
      obtain ⟨registry, heq, hpatterned⟩ :=
        initializeCategories_eq hlib kCategories (s := { s with configuredLevel := settings.level }) h
      exact ⟨registry, hpatterned, by simp [exec, initializeLogging, heq, levelAfter, callRecords]⟩
  | isLogEnabled category level =>
      refine ⟨_, hregister category, ?_⟩
      show (isLogEnabled lib category level s).2 = _
      unfold isLogEnabled
      rw [loggerFor_eq hlib h]
      simp [levelAfter, callRecords, State.register]
  | writeLog category level message =>
      refine ⟨_, hregister category, ?_⟩
      show writeLog lib category level message s = _
      unfold writeLog
      rw [loggerFor_eq hlib h]
      simp only [log_eq hlib, hlib.format_message]
      rfl
  | writeSensitive category level fieldName value =>
      refine ⟨_, hregister category, ?_⟩
      show writeSensitive lib category level fieldName (.wrap value) s = _
      unfold writeSensitive
      rw [loggerFor_eq hlib h]
      simp only [log_eq hlib, hlib.format_field]
      rw [List.append_assoc]
      rfl

/-! ## All calls -/

theorem run_eq (calls : List Call) {s : State} (h : Patterned s) :
    Patterned (run lib calls s) ∧
    (run lib calls s).configuredLevel = calls.foldl levelAfter s.configuredLevel ∧
    (run lib calls s).output = s.output ++ records passes s.configuredLevel calls := by
  induction calls generalizing s with
  | nil => exact ⟨h, rfl, (List.append_nil _).symm⟩
  | cons call calls ih =>
      obtain ⟨registry, hpatterned, heq⟩ := exec_eq hlib h call
      obtain ⟨hrun, hlevel, houtput⟩ := ih (s := exec lib call s) (by rw [heq]; exact hpatterned)
      refine ⟨hrun, hlevel.trans (by rw [heq]; rfl), houtput.trans ?_⟩
      rw [heq]
      simp only [records, List.append_assoc]

theorem run_output (calls : List Call) :
    (run lib calls {}).output = records passes .info calls :=
  (run_eq hlib calls (fun _ _ h => by simp at h)).2.2

/-- All categories follow the level in force, whatever was called on them before. -/
theorem isLogEnabled_run (calls : List Call) (category : LogCategory) (level : LogLevel) :
    (isLogEnabled lib category level (run lib calls {})).1 = passes (inForce calls) level := by
  obtain ⟨hpatterned, hlevel, -⟩ := run_eq hlib calls (s := {}) (fun _ _ h => by simp at h)
  unfold isLogEnabled
  rw [loggerFor_eq hlib hpatterned, hlevel]
  exact shouldLog_eq hlib _ _ _ _

end

/-- Nothing of a wrapped value reaches a logger. -/
theorem run_hideSecret (lib : Spdlog) (calls : List Call) (s : State) :
    run lib (calls.map hideSecret) s = run lib calls s := by
  unfold run
  rw [List.foldl_map]
  congr 1
  funext s call
  cases call <;> rfl

/-! ## Records at the level `off` -/

theorem callRecords_eq {call : Call} (h : atOff call = false) (threshold : LogLevel) :
    callRecords passes threshold call = callRecords due threshold call := by
  cases call with
  | writeLog category level message =>
      have hlevel : level ≠ .off := by simpa [atOff] using h
      simp only [callRecords, due_eq_passes hlevel]
  | writeSensitive category level fieldName value =>
      have hlevel : level ≠ .off := by simpa [atOff] using h
      simp only [callRecords, due_eq_passes hlevel]
  | _ => rfl

/-- A write at the level `off` always makes a record, and none is due. -/
theorem callRecords_atOff {call : Call} (h : atOff call = true) (threshold : LogLevel) :
    (callRecords passes threshold call).length = 1 ∧ callRecords due threshold call = [] := by
  cases call with
  | writeLog category level message =>
      obtain rfl : level = .off := by simpa [atOff] using h
      simp [callRecords, passes_off, due_off]
  | writeSensitive category level fieldName value =>
      obtain rfl : level = .off := by simpa [atOff] using h
      simp [callRecords, passes_off, due_off]
  | _ => simp [atOff] at h

/-- The records that are not due are counted by the writes at the level `off`. -/
theorem length_records (calls : List Call) (threshold : LogLevel) :
    (records passes threshold calls).length =
      (records due threshold calls).length + calls.countP atOff := by
  induction calls generalizing threshold with
  | nil => rfl
  | cons call calls ih =>
      simp only [records, List.length_append, ih, List.countP_cons]
      cases h : atOff call with
      | false =>
          rw [callRecords_eq h]
          simp only [Bool.false_eq_true, if_false]
          omega
      | true =>
          obtain ⟨hone, hnone⟩ := callRecords_atOff h threshold
          rw [hone, hnone]
          simp only [List.length_nil, if_true]
          omega

theorem records_eq_iff (calls : List Call) (threshold : LogLevel) :
    records passes threshold calls = records due threshold calls ↔
      ∀ call ∈ calls, atOff call = false := by
  constructor
  · intro h
    -- a record that is not due would make the list longer
    have hlen := length_records calls threshold
    rw [h] at hlen
    have hcount : calls.countP atOff = 0 := by omega
    intro call hcall
    simpa using List.countP_eq_zero.mp hcount call hcall
  · intro h
    induction calls generalizing threshold with
    | nil => rfl
    | cons call calls ih =>
        obtain ⟨hcall, hcalls⟩ := List.forall_mem_cons.mp h
        rw [records, records, callRecords_eq hcall, ih _ hcalls]

/-! ## Logging as configured -/

/-- **What a sequence of calls is to write**, from the start of the program. -/
structure LogsAsConfigured (lib : Spdlog) (calls : List Call) : Prop where
  /-- One record for each write that is due, in call order. -/
  output : (run lib calls {}).output = records due .info calls
  /-- At every point, all four categories follow the level in force. -/
  oneLevel : ∀ before, before <+: calls → ∀ category level,
    (isLogEnabled lib category level (run lib before {})).1 = passes (inForce before) level
  /-- Nothing is written while that level is `off`. -/
  silent : ∀ before call, before ++ [call] <+: calls → inForce before = .off →
    (run lib (before ++ [call]) {}).output = (run lib before {}).output
  /-- The values wrapped in it leave no trace. -/
  secret : ∀ calls', calls'.map hideSecret = calls.map hideSecret →
    (run lib calls' {}).output = (run lib calls {}).output

theorem callRecords_due_off (call : Call) : callRecords due .off call = [] := by
  cases call <;> simp [callRecords, due]

theorem silent_of_not_atOff {lib : Spdlog} (hlib : lib.Documented) {before : List Call} {call : Call}
    (hoff : inForce before = .off) (h : atOff call = false) :
    (run lib (before ++ [call]) {}).output = (run lib before {}).output := by
  obtain ⟨hpatterned, hlevel, -⟩ := run_eq hlib before (s := {}) (fun _ _ h => by simp at h)
  obtain ⟨registry, -, hexec⟩ := exec_eq hlib hpatterned call
  have hrun : run lib (before ++ [call]) {} = exec lib call (run lib before {}) :=
    List.foldl_concat ..
  have hthreshold : (run lib before {}).configuredLevel = .off := hlevel.trans hoff
  rw [hrun, hexec, hthreshold, callRecords_eq h, callRecords_due_off, List.append_nil]

theorem not_logs_of_atOff {lib : Spdlog} (hlib : lib.Documented) {calls : List Call} {call : Call}
    (hmem : call ∈ calls) (h : atOff call = true) : ¬ LogsAsConfigured lib calls := by
  intro hlogs
  have hrecords := hlogs.output
  rw [run_output hlib, records_eq_iff] at hrecords
  rw [hrecords call hmem] at h
  cases h

/-- **Logging is as configured** exactly when no record is written at the level `off`. -/
theorem logsAsConfigured_iff {lib : Spdlog} (hlib : lib.Documented) (calls : List Call) :
    LogsAsConfigured lib calls ↔ ∀ call ∈ calls, atOff call = false := by
  constructor
  · intro hlogs call hcall
    by_contra h
    exact not_logs_of_atOff hlib hcall (by simpa using h) hlogs
  · intro hcalls
    refine ⟨?_, ?_, ?_, ?_⟩
    · rw [run_output hlib]
      exact (records_eq_iff _ _).mpr hcalls
    · intro before _
      exact isLogEnabled_run hlib before
    · intro before call hbefore hoff
      have hmem : call ∈ calls := hbefore.subset (List.mem_append_right _ (List.mem_singleton_self _))
      exact silent_of_not_atOff hlib hoff (hcalls call hmem)
    · intro calls' hsame
      rw [← run_hideSecret lib calls', hsame, run_hideSecret]

theorem logsAsConfigured_debug :
    LogsAsConfigured plainSpdlog
      [.initializeLogging ⟨.debug⟩, .writeLog .client .info (ascii "client category ready"),
        .writeSensitive .database .info (ascii "credential") (ascii "database-secret")] :=
  (logsAsConfigured_iff documented_plainSpdlog _).mpr (by decide)

/-- Logging is off, and a record comes out. -/
theorem writes_while_off :
    plainSpdlog.Documented ∧
    (run plainSpdlog [.initializeLogging ⟨.off⟩, .writeLog .server .off (ascii "server started")]
      {}).output = [ascii "[off] [server] server started"] ∧
    ¬ LogsAsConfigured plainSpdlog
      [.initializeLogging ⟨.off⟩, .writeLog .server .off (ascii "server started")] := by
  refine ⟨documented_plainSpdlog, by decide +kernel, ?_⟩
  exact not_logs_of_atOff documented_plainSpdlog (List.mem_cons_of_mem _ (List.mem_cons_self ..)) rfl

end BranchTalk.Core.Logging
