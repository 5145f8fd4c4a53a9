import BranchTalk.Core.Logging.Output
import BranchTalk.Core.Logging.Concurrent
import BranchTalk.Threads.History
import BranchTalk.Threads.Progress

set_option autoImplicit false

/-! # Logging in every schedule

A record is put out after the mutex is given back, so the level of a logger may change between the two.
It only ever changes to the level then in force, so a write is still filtered by a level that was in
force while it went on. -/

namespace BranchTalk.Core.Logging.Concurrent

open Threads

/-! ## The protocol -/

/-- The loggers as the state of a program with one thread. -/
def Loggers.state (s : Loggers) (output : List Bytes) : State where
  configuredLevel := s.configuredLevel
  registry := s.registry
  output

/-- Every registered logger has its own name and the pattern. -/
def Patterned (s : Loggers) : Prop := Logging.Patterned (s.state [])

/-- The level in force is the fixed one, if one is fixed. -/
def AtLevel (fixed : Option LogLevel) (s : Loggers) : Prop :=
  ∀ level ∈ fixed, s.configuredLevel = level

/-- What may become of a logger: its pattern to the common one, its level to the level in force. -/
structure Settles (level : SpdlogLevel) (logger logger' : Logger) : Prop where
  name : logger'.name = logger.name
  pattern : logger'.pattern = logger.pattern ∨ logger'.pattern = kLogPattern
  level : logger'.level = logger.level ∨ logger'.level = level

structure Allowed (fixed : Option LogLevel) (s s' : Loggers) : Prop where
  loggers : ∀ name logger, s.registry name = some logger → ∃ logger',
    s'.registry name = some logger' ∧ Settles (toSpdlogLevel s'.configuredLevel) logger logger'
  atLevel : AtLevel fixed s'

/-- With no level fixed, or with a fixed one for calls that leave it as it is. -/
def protocol (fixed : Option LogLevel) : Protocol Loggers where
  Always := AtLevel fixed
  Allowed := Allowed fixed
  Free := Patterned
  always_of_allowed _ h := h.atLevel

def Keeping (fixed : Option LogLevel) (call : Call) : Prop :=
  ∀ settings, call = .initializeLogging settings → fixed = none

abbrev View := Threads.View Loggers Bytes

/-! ## Changes -/

variable {fixed : Option LogLevel} {s : Loggers} {name : Bytes}

theorem Settles.rfl {level : SpdlogLevel} {logger : Logger} : Settles level logger logger :=
  ⟨.refl _, .inl (.refl _), .inl (.refl _)⟩

theorem change_of_registered {logger : Logger} (h : s.registry name = some logger)
    (f : Logger → Logger) : s.change name f = s.set name (f logger) := by
  unfold Loggers.change
  rw [h]

theorem registry_set (s : Loggers) (name : Bytes) (logger : Logger) :
    (s.set name logger).registry name = some logger :=
  Function.update_self ..

theorem set_set (s : Loggers) (name : Bytes) (logger logger' : Logger) :
    (s.set name logger).set name logger' = s.set name logger' := by
  simp [Loggers.set]

theorem allowed_set {logger' : Logger} (hlevel : AtLevel fixed s)
    (h : ∀ logger, s.registry name = some logger →
      Settles (toSpdlogLevel s.configuredLevel) logger logger') :
    Allowed fixed s (s.set name logger') := by
  refine ⟨fun name' logger hlogger => ?_, hlevel⟩
  by_cases hname : name' = name
  · subst hname
    exact ⟨logger', registry_set .., h logger hlogger⟩
  · exact ⟨logger, by simpa [Loggers.set, hname] using hlogger, .rfl⟩

theorem allowed_configure {settings : LoggingSettings} :
    Allowed none s { s with configuredLevel := settings.level } :=
  ⟨fun _ logger hlogger => ⟨logger, hlogger, .rfl⟩, nofun⟩

/-! ## Under the mutex -/

/-- The thread holds the mutex and has everything in good order. -/
structure Ready (fixed : Option LogLevel) (v : View) : Prop where
  holding : v.holding = true
  atLevel : AtLevel fixed v.shared
  patterned : Patterned v.shared

/-- The logger of this name is as it should be, at the level in force. -/
def Adjusted (name : Bytes) (s : Loggers) : Prop :=
  s.registry name = some ⟨name, toSpdlogLevel s.configuredLevel, kLogPattern⟩

theorem patterned_adjust (h : Patterned s) (name : Bytes) (level : SpdlogLevel) :
    Patterned (s.set name ⟨name, level, kLogPattern⟩) :=
  Logging.Patterned.register h name level

section

variable {v : View} {post : Unit → View → Prop}

theorem stdoutLoggerMt_meets {lib : Spdlog} (hholding : v.holding = true)
    (hlevel : AtLevel fixed v.shared) (hnone : v.shared.registry name = none)
    (hpost : post () (v.moved (v.shared.set name (lib.stdoutLogger name)))) :
    (stdoutLoggerMt lib name).Meets (protocol fixed) post v := by
  refine .act_of_holding hholding ?_ ?_ <;>
    simp only [hnone, Option.isSome_none, Bool.false_eq_true, if_false]
  · exact .inr (allowed_set hlevel fun _ h => by simp [hnone] at h)
  · exact .done_of_holding hholding hpost

theorem setPattern_meets (hholding : v.holding = true) (hlevel : AtLevel fixed v.shared)
    {logger : Logger} (hlogger : v.shared.registry name = some logger)
    (hpost : post () (v.moved (v.shared.set name { logger with pattern := kLogPattern }))) :
    (setPattern name kLogPattern).Meets (protocol fixed) post v := by
  refine .modify_of_holding hholding ?_ ?_ <;> rw [change_of_registered hlogger]
  · refine allowed_set hlevel fun logger' h => ?_
    obtain rfl := Option.some.inj (hlogger.symm.trans h)
    exact ⟨rfl, .inr rfl, .inl rfl⟩
  · exact hpost

/-- The level set is always the level in force. -/
theorem setLevel_meets (hholding : v.holding = true) (hlevel : AtLevel fixed v.shared)
    {logger : Logger} (hlogger : v.shared.registry name = some logger)
    (hpost : post () (v.moved (v.shared.set name
      { logger with level := toSpdlogLevel v.shared.configuredLevel }))) :
    (configuredLevel.bind fun level => setLevel name (toSpdlogLevel level)).Meets (protocol fixed)
      post v := by
  refine .bind (.read_of_holding hholding (.modify_of_holding hholding ?_ ?_)) <;>
    rw [change_of_registered hlogger]
  · refine allowed_set hlevel fun logger' h => ?_
    obtain rfl := Option.some.inj (hlogger.symm.trans h)
    exact ⟨rfl, .inl rfl, .inr rfl⟩
  · exact hpost

end

theorem loggerForUnlocked_meets {lib : Spdlog} (hlib : lib.Documented) {v : View} (hv : Ready fixed v)
    (category : LogCategory) :
    (loggerForUnlocked lib category).Meets (protocol fixed) (fun name v' =>
      name = categoryName category ∧ Ready fixed v' ∧ v'.written = v.written ∧
        Adjusted name v'.shared) v := by
  obtain ⟨hholding, hlevel, hpatterned⟩ := hv
  refine .bind (.read_of_holding hholding ?_)
  cases hlogger : v.shared.registry (categoryName category) with
  | some logger =>
      obtain ⟨name, level, pattern⟩ := logger
      obtain ⟨rfl, rfl⟩ := hpatterned _ _ hlogger
      show Code.Meets _ ((configuredLevel.bind fun level =>
        setLevel (categoryName category) (toSpdlogLevel level)).bind fun _ => _) _ _
      refine .bind (setLevel_meets hholding hlevel hlogger (.done_of_holding hholding ?_))
      exact ⟨rfl, ⟨hholding, hlevel, patterned_adjust hpatterned _ _⟩, rfl, registry_set ..⟩
  | none =>
      show Code.Meets _ ((stdoutLoggerMt lib (categoryName category)).bind fun _ =>
        (setPattern (categoryName category) kLogPattern).bind fun _ =>
        (configuredLevel.bind fun level =>
          setLevel (categoryName category) (toSpdlogLevel level)).bind fun _ => _) _ _
      -- the new logger is registered before it has the pattern
      refine .bind (stdoutLoggerMt_meets hholding hlevel hlogger ?_)
      refine .bind (setPattern_meets hholding hlevel (registry_set ..) ?_)
      refine .bind (setLevel_meets hholding hlevel (registry_set ..) ?_)
      refine .done_of_holding hholding ?_
      have hnew : v.shared.set (categoryName category) { lib.stdoutLogger (categoryName category) with
            pattern := kLogPattern, level := toSpdlogLevel v.shared.configuredLevel } =
          v.shared.set (categoryName category)
            ⟨categoryName category, toSpdlogLevel v.shared.configuredLevel, kLogPattern⟩ := by
        simp only [hlib.stdoutLogger_name]
      refine ⟨rfl, ⟨hholding, hlevel, ?_⟩, rfl, ?_⟩
      · show Patterned (((v.shared.set _ _).set _ _).set _ _)
        rw [set_set, set_set]
        exact hnew ▸ patterned_adjust hpatterned _ _
      · show Adjusted _ (((v.shared.set _ _).set _ _).set _ _)
        rw [set_set, set_set]
        exact hnew ▸ registry_set ..

theorem initializeCategory_meets {lib : Spdlog} (hlib : lib.Documented) {v : View}
    (hv : Ready fixed v) (category : LogCategory) :
    (initializeCategory lib category).Meets (protocol fixed)
      (fun _ v' => Ready fixed v' ∧ v'.written = v.written) v := by
  refine .bind ((loggerForUnlocked_meets hlib hv category).mono ?_)
  rintro name v' ⟨-, ⟨hholding, hlevel, hpatterned⟩, hwritten, hlogger⟩
  refine .bind (setPattern_meets hholding hlevel hlogger ?_)
  refine setLevel_meets hholding hlevel (registry_set ..) ⟨⟨hholding, hlevel, ?_⟩, hwritten⟩
  show Patterned ((v'.shared.set _ _).set _ _)
  rw [set_set]
  exact patterned_adjust hpatterned _ _

theorem initializeCategories_meets {lib : Spdlog} (hlib : lib.Documented)
    (categories : List LogCategory) {v : View} (hv : Ready fixed v) :
    (categories.forM (initializeCategory lib)).Meets (protocol fixed)
      (fun _ v' => Ready fixed v' ∧ v'.written = v.written) v := by
  induction categories generalizing v with
  | nil => exact .done_of_holding hv.holding ⟨hv, rfl⟩
  | cons category rest ih =>
      refine .bind ((initializeCategory_meets hlib hv category).mono ?_)
      rintro _ v' ⟨hv', hwritten⟩
      refine (ih hv').mono ?_
      rintro _ v'' ⟨hv'', hwritten'⟩
      exact ⟨hv'', hwritten'.trans hwritten⟩

/-! ## After the mutex -/

/-- The logger has the level that was in force at some moment of the call. -/
def Known (name : Bytes) (v : View) : Prop :=
  ∃ state ∈ v.seen, v.shared.registry name =
    some ⟨name, toSpdlogLevel state.configuredLevel, kLogPattern⟩

theorem known_of_adjusted {v : View} (h : Adjusted name v.shared) : Known name v :=
  ⟨v.shared, v.now, h⟩

theorem Known.later {v v' : View} (h : Known name v) (hv : Later (protocol fixed) v v') :
    Known name v' := by
  refine hv.keeps (p := Known name) ?_ h
  rintro v state ⟨before, hbefore, hlogger⟩ hallowed
  obtain ⟨⟨name', level, pattern⟩, hlogger', hname, hpattern, hlevel⟩ := hallowed.loggers _ _ hlogger
  obtain rfl : name' = name := hname
  obtain rfl : pattern = kLogPattern := hpattern.elim id id
  rcases hlevel with rfl | rfl
  · exact ⟨before, v.seen_subset_moved state hbefore, hlogger'⟩
  · exact ⟨state, (v.moved state).now, hlogger'⟩

/-! ## Calls -/

section

variable {lib : Spdlog} (hlib : lib.Documented)

include hlib

theorem loggerFor_meets {v : View} (hv : v.holding = false) (hlevel : AtLevel fixed v.shared)
    (category : LogCategory) :
    (loggerFor lib category).Meets (protocol fixed) (fun name v' =>
      name = categoryName category ∧ Known name v' ∧ v'.holding = false ∧ v'.written = v.written) v := by
  refine .locked hv fun v' hlater hpatterned => ?_
  have hlevel' : AtLevel fixed v'.shared := hlater.always hlevel
  refine (loggerForUnlocked_meets hlib (v := v'.locked) ⟨rfl, hlevel', hpatterned⟩ category).mono ?_
  rintro name v'' ⟨hname, hready, hwritten, hlogger⟩
  refine ⟨hready.holding, hready.patterned, fun v₃ hlater' => ⟨hname, ?_, ?_, ?_⟩⟩
  · exact (known_of_adjusted (v := v''.unlocked) hlogger).later hlater'
  · exact hlater'.holding_eq
  · exact hlater'.written_eq.trans (hwritten.trans hlater.written_eq)

/-- The test of a level is made by a level that was in force. -/
theorem shouldLog_meets {v : View} (hknown : Known name v) (hv : v.holding = false)
    (level : LogLevel) :
    (shouldLog lib name (toSpdlogLevel level)).Meets (protocol fixed) (fun answer v' =>
      Known name v' ∧ v'.holding = false ∧ v'.written = v.written ∧
        ∃ state ∈ v'.seen, answer = passes state.configuredLevel level) v := by
  refine .read fun v' hlater v'' hlater' => ⟨(hknown.later hlater).later hlater', ?_, ?_, ?_⟩
  · exact hlater'.holding_eq.trans (hlater.holding_eq.trans hv)
  · exact hlater'.written_eq.trans hlater.written_eq
  · obtain ⟨state, hstate, hlogger⟩ := hknown.later hlater
    refine ⟨state, hlater'.seen_subset hstate, ?_⟩
    rw [hlogger]
    exact shouldLog_eq hlib _ _ _ _

theorem log_meets {v : View} {category : LogCategory} (hknown : Known (categoryName category) v)
    (hv : v.holding = false) (level : LogLevel) (format : Bytes) (arguments : List Bytes) :
    (log lib (categoryName category) (toSpdlogLevel level) format arguments).Meets (protocol fixed)
      (fun _ v' => v'.holding = false ∧ ∃ state ∈ v'.seen, v'.written = v.written ++
        if passes state.configuredLevel level then
          [record category level (lib.format format arguments)] else []) v := by
  have hlevel : (toSpdlogLevel level).text = levelName level := by cases level <;> rfl
  refine .bind ((shouldLog_meets hlib hknown hv level).mono ?_)
  rintro _ v' ⟨hknown', hv', hwritten, state, hstate, rfl⟩
  cases hpasses : passes state.configuredLevel level with
  | false =>
      intro v'' hlater
      refine ⟨hlater.holding_eq.trans hv', state, hlater.seen_subset hstate, ?_⟩
      rw [hpasses, hlater.written_eq, hwritten]
      simp
  | true =>
      refine .write fun v'' hlater v₃ hlater' =>
        ⟨hlater'.holding_eq.trans (hlater.holding_eq.trans hv'), state,
          hlater'.seen_subset (hlater.seen_subset hstate), ?_⟩
      obtain ⟨_, _, hlogger⟩ := hknown'.later hlater
      have hrender := hlib.render (toSpdlogLevel level) (categoryName category)
        (lib.format format arguments)
      rw [hpasses, hlater'.written_eq]
      simp only [View.wrote, hlogger, Option.elim_some, kLogPattern, hrender, hlevel, if_true,
        hlater.written_eq, hwritten]
      rfl

/-- A logger is looked up with the mutex and used without it. -/
theorem logged_meets {v : View} (hv : v.holding = false) (hlevel : AtLevel fixed v.shared)
    (category : LogCategory) (level : LogLevel) (format : Bytes) (arguments : List Bytes) :
    ((loggerFor lib category).bind fun name =>
      log lib name (toSpdlogLevel level) format arguments).Meets (protocol fixed)
      (fun _ v' => v'.holding = false ∧ ∃ state ∈ v'.seen, v'.written = v.written ++
        if passes state.configuredLevel level then
          [record category level (lib.format format arguments)] else []) v := by
  refine .bind ((loggerFor_meets hlib hv hlevel category).mono ?_)
  rintro _ v' ⟨rfl, hknown, hv', hwritten⟩
  refine (log_meets hlib hknown hv' level format arguments).mono ?_
  rintro _ v'' ⟨hv'', state, hstate, hwritten'⟩
  exact ⟨hv'', state, hstate, hwritten ▸ hwritten'⟩

end

/-- The answer of a call. -/
def answer (threshold : LogLevel) : Call → Option Bool
  | .isLogEnabled _ level => some (passes threshold level)
  | _ => none

/-- What a call is to do: as in a program with one thread, by a level that was in force while it
    went on. -/
def AsInForce (call : Call) (result : Option Bool) (seen : Set Loggers) (written : List Bytes) :
    Prop :=
  ∃ state ∈ seen, written = callRecords passes state.configuredLevel call ∧
    result = answer state.configuredLevel call

theorem code_keeps {lib : Spdlog} (hlib : lib.Documented) (fixed : Option LogLevel) :
    Keeps (protocol fixed) (code lib) (Keeping fixed) AsInForce := by
  intro call hcall start hlevel
  let v₀ : View := ⟨false, start, {start}, [], Set.mem_singleton _⟩
  cases call with
  | initializeLogging settings =>
      obtain rfl := hcall settings rfl
      refine .bind (.locked rfl fun v hlater hpatterned => ?_)
      have hready : Ready none
          (v.locked.moved { v.shared with configuredLevel := settings.level }) :=
        ⟨rfl, nofun, hpatterned⟩
      refine .bind (.modify_of_holding rfl allowed_configure ?_)
      refine (initializeCategories_meets hlib kCategories hready).mono ?_
      rintro _ v' ⟨hready, hwritten⟩
      refine ⟨hready.holding, hready.patterned, fun v'' hlater' v₃ hlater'' => ⟨?_, ?_⟩⟩
      · exact hlater''.holding_eq.trans hlater'.holding_eq
      · -- it writes nothing, whatever level is in force by now
        refine ⟨v₃.shared, v₃.now, ?_, rfl⟩
        exact hlater''.written_eq.trans (hlater'.written_eq.trans (hwritten.trans hlater.written_eq))
  | isLogEnabled category level =>
      refine .bind (.bind ((loggerFor_meets hlib (v := v₀) rfl hlevel category).mono ?_))
      rintro _ v ⟨rfl, hknown, hv, hwritten⟩
      refine (shouldLog_meets hlib hknown hv level).mono ?_
      rintro _ v' ⟨-, hv', hwritten', state, hstate, rfl⟩ v'' hlater
      refine ⟨hlater.holding_eq.trans hv', state, hlater.seen_subset hstate, ?_, rfl⟩
      exact hlater.written_eq.trans (hwritten'.trans hwritten)
  | writeLog category level message =>
      refine .bind ((logged_meets hlib (v := v₀) rfl hlevel category level _ _).mono ?_)
      rintro _ v ⟨hv, state, hstate, hwritten⟩ v' hlater
      refine ⟨hlater.holding_eq.trans hv, state, hlater.seen_subset hstate, ?_, rfl⟩
      rw [hlater.written_eq, hwritten, hlib.format_message]
      rfl
  | writeSensitive category level fieldName value =>
      refine .bind ((logged_meets hlib (v := v₀) rfl hlevel category level _ _).mono ?_)
      rintro _ v ⟨hv, state, hstate, hwritten⟩ v' hlater
      refine ⟨hlater.holding_eq.trans hv, state, hlater.seen_subset hstate, ?_, rfl⟩
      rw [hlater.written_eq, hwritten, hlib.format_field, List.append_assoc]
      rfl

/-! ## Every schedule -/

section

variable {ι : Type}

/-- The threads from the start of the program. -/
def started (program : ι → List Call) : System ι Loggers Bytes (Option Bool) Call := .start {} program

/-- **What threads are to write** that make these calls. -/
structure LogsInForce [DecidableEq ι] (program : ι → List Call)
    (s : System ι Loggers Bytes (Option Bool) Call) : Prop where
  /-- A call that has returned made the records and gave the answer that are due by one level, and
      that level was in force at some moment of the call. -/
  returned : ∀ e ∈ s.returned, AsInForce e.op e.result e.seen e.written
  /-- Each thread makes its calls in order, and their records are its part of the output. -/
  accounts : ∀ i, Accounts (program i) i s
  /-- No logger is made twice. -/
  noException : ∀ i r, (s.thread i).current = some r → r.code ≠ .fail

variable [DecidableEq ι] {lib : Spdlog} (hlib : lib.Documented)

include hlib

theorem sound_run (program : ι → List Call) (schedule : List ι) :
    Sound (protocol none) (Keeping none) AsInForce
      ((started program).run (code lib) schedule) := by
  refine (sound_start ?_ ?_ fun _ _ _ _ _ => rfl).run (code_keeps hlib none) schedule
  · exact fun _ h => by cases h
  · exact fun _ _ h => by cases h

/-- **Every schedule of any threads**, whatever calls they make. -/
theorem logsInForce (program : ι → List Call) (schedule : List ι) :
    LogsInForce program ((started program).run (code lib) schedule) := by
  have hsound := sound_run hlib program schedule
  exact ⟨fun e he => (hsound.returned e he).1, fun i => (accounts_start ..).run schedule,
    fun _ _ => hsound.not_fail⟩

end

theorem logsInForce_overlapping :
    LogsInForce (fun thread : Bool => if thread then [.initializeLogging ⟨.off⟩]
        else [.writeLog .server .error (ascii "late")])
      ((started fun thread : Bool => if thread then [.initializeLogging ⟨.off⟩]
        else [.writeLog .server .error (ascii "late")]).run (code plainSpdlog)
          (List.replicate 12 false ++ List.replicate 40 true ++ [false, false])) :=
  logsInForce documented_plainSpdlog _ _

/-! ## A level set beforehand -/

section

variable {ι : Type} [DecidableEq ι] {lib : Spdlog}

/-- The threads after these calls, which were made before any of them began. -/
def startedAfter (lib : Spdlog) (before : List Call) (program : ι → List Call) :
    System ι Loggers Bytes (Option Bool) Call :=
  .start ⟨(Logging.run lib before {}).configuredLevel, (Logging.run lib before {}).registry⟩ program

theorem records_of_keeping {level : LogLevel} {calls : List Call}
    (h : ∀ call ∈ calls, Keeping (some level) call) :
    records passes level calls = calls.flatMap (callRecords passes level) := by
  induction calls with
  | nil => rfl
  | cons call calls ih =>
      obtain ⟨hcall, hcalls⟩ := List.forall_mem_cons.mp h
      have hlevel : levelAfter level call = level := by
        cases call with
        | initializeLogging settings => exact absurd (hcall settings rfl) (by simp)
        | _ => rfl
      rw [records, hlevel, ih hcalls, List.flatMap_cons]

/-- **With the level set beforehand**, each thread writes what it would write alone. -/
theorem outputOf_of_finished (hlib : lib.Documented) (before : List Call) {program : ι → List Call}
    (hprogram : ∀ i, ∀ call ∈ program i, ∀ settings, call ≠ .initializeLogging settings)
    (schedule : List ι) {i : ι}
    (hfinished : Finished ((startedAfter lib before program).run (code lib) schedule) i) :
    ((startedAfter lib before program).run (code lib) schedule).outputOf i =
      records passes (inForce before) (program i) ∧
    (((startedAfter lib before program).run (code lib) schedule).returnedBy i).map Returned.result =
      (program i).map (answer (inForce before)) := by
  obtain ⟨hpatterned, hlevel, -⟩ := run_eq hlib before (s := {}) (fun _ _ h => by simp at h)
  have hkeeping i call (h : call ∈ program i) : Keeping (some (inForce before)) call :=
    fun settings hsettings => absurd hsettings (hprogram i call h settings)
  have hsound : Sound (protocol (some (inForce before))) (Keeping (some (inForce before))) AsInForce
      ((startedAfter lib before program).run (code lib) schedule) := by
    refine (sound_start ?_ hpatterned hkeeping).run (code_keeps hlib _) schedule
    rintro level ⟨⟩
    exact hlevel
  obtain ⟨hcalls, houtput⟩ : Accounts (program i) i
      ((startedAfter lib before program).run (code lib) schedule) := (accounts_start ..).run schedule
  generalize (startedAfter lib before program).run (code lib) schedule = s at *
  rw [hfinished.1, hfinished.2] at hcalls
  rw [hfinished.2] at houtput
  replace hcalls : (s.returnedBy i).map Returned.op = program i := by simpa using hcalls
  -- the only level that a call can have seen
  have hreturned : ∀ e ∈ s.returnedBy i, e.written = callRecords passes (inForce before) e.op ∧
      e.result = answer (inForce before) e.op := by
    intro e he
    obtain ⟨⟨state, hstate, hspec⟩, hseen⟩ := hsound.returned e (List.mem_of_mem_filter he)
    rwa [hseen state hstate (inForce before) rfl] at hspec
  constructor
  · rw [houtput, records_of_keeping (hkeeping i), ← hcalls, List.flatMap_map]
    simpa using List.flatMap_congr fun e he => (hreturned e he).1
  · rw [← hcalls, List.map_map]
    exact List.map_congr_left fun e he => (hreturned e he).2

end

/-- Two threads, each with a write. -/
def reports (thread : Bool) : List Call :=
  if thread then [.writeLog .server .error (ascii "full")]
  else [.isLogEnabled .client .debug, .writeLog .client .debug (ascii "ready")]

theorem outputOf_reports :
    let s := (startedAfter plainSpdlog [.initializeLogging ⟨.info⟩] reports).run (code plainSpdlog)
      ((List.replicate 20 [true, false, false]).flatten)
    s.outputOf true = [ascii "[error] [server] full"] ∧ s.outputOf false = [] := by
  have hprogram : ∀ i, ∀ call ∈ reports i, ∀ settings, call ≠ .initializeLogging settings := by
    rintro i call hcall settings rfl
    cases i <;> simp [reports] at hcall
  have hfinished (i : Bool) : Finished ((startedAfter plainSpdlog [.initializeLogging ⟨.info⟩]
      reports).run (code plainSpdlog) ((List.replicate 20 [true, false, false]).flatten)) i := by
    cases i <;> exact ⟨by decide +kernel, Option.isNone_iff_eq_none.mp (by decide +kernel)⟩
  have houtput i := (outputOf_of_finished documented_plainSpdlog [.initializeLogging ⟨.info⟩] hprogram
    _ (hfinished i)).1
  exact ⟨(houtput true).trans (by decide +kernel), (houtput false).trans (by decide +kernel)⟩

end BranchTalk.Core.Logging.Concurrent
