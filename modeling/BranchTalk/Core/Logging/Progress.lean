import BranchTalk.Core.Logging.Schedules

set_option autoImplicit false

/-! # Threads that log come to their end

No call waits for anything but the mutex, and no call keeps it. -/

namespace BranchTalk.Core.Logging.Concurrent

open Threads

section

variable (lib : Spdlog)

theorem within_modify (f : Loggers → Loggers) : (Code.modify f : Action Unit).Within 1 :=
  ⟨by omega, fun _ => trivial⟩

theorem within_read {α : Type} (f : Loggers → α) : (Code.read f : Action α).Within 1 :=
  ⟨by omega, fun _ => trivial⟩

theorem within_loggerForUnlocked (category : LogCategory) :
    (loggerForUnlocked lib category).Within 5 := by
  have hset : (configuredLevel.bind fun level =>
      (setLevel (categoryName category) (toSpdlogLevel level)).bind fun _ =>
        (.done (categoryName category) : Action Bytes)).Within 2 :=
    (within_read _).bind fun _ => (within_modify _).bind fun _ => Code.within_done _ 0
  refine (within_read _).bind (n := 4) fun registered => ?_
  cases registered with
  | true => exact hset.mono (by omega)
  | false =>
      have hnew : (stdoutLoggerMt lib (categoryName category)).Within 1 := by
        refine ⟨by omega, fun s => ?_⟩
        dsimp only
        cases (s.registry (categoryName category)).isSome <;> trivial
      exact hnew.bind fun _ => (within_modify _).bind fun _ => hset

theorem within_initializeCategories (categories : List LogCategory) :
    (categories.forM (initializeCategory lib)).Within (categories.length * 8) := by
  induction categories with
  | nil => trivial
  | cons category rest ih =>
      have hcategory : (initializeCategory lib category).Within 8 :=
        (within_loggerForUnlocked lib category).bind fun _ => (within_modify _).bind fun _ =>
          (within_read _).bind fun _ => within_modify _
      exact (hcategory.bind fun _ => ih).mono (by simp only [List.length_cons]; omega)

theorem within_logged (category : LogCategory) (level : SpdlogLevel) (format : Bytes)
    (arguments : List Bytes) :
    ((loggerFor lib category).bind fun name => log lib name level format arguments).Within 9 := by
  refine (within_loggerForUnlocked lib category).locked.bind fun name =>
    (within_read _).bind (n := 1) fun passes => ?_
  cases passes with
  | true => exact ⟨by omega, trivial⟩
  | false => trivial

/-- The longest call initializes all four categories. -/
theorem within_code (call : Call) : (code lib call).Within 35 := by
  cases call with
  | initializeLogging settings =>
      have hcode : (initializeLogging lib settings).Within 35 :=
        ((within_modify _).bind fun _ => within_initializeCategories lib kCategories).locked
      exact hcode.bind fun _ => Code.within_done _ 0
  | isLogEnabled category level =>
      have hcode : (isLogEnabled lib category level).Within 8 :=
        (within_loggerForUnlocked lib category).locked.bind fun _ => within_read _
      exact (hcode.bind fun _ => Code.within_done _ 0).mono (by omega)
  | writeLog category level message =>
      exact ((within_logged lib _ _ _ _).bind fun _ => Code.within_done _ 0).mono (by omega)
  | writeSensitive category level fieldName value =>
      exact ((within_logged lib _ _ _ _).bind fun _ => Code.within_done _ 0).mono (by omega)

end

/-- **Threads that log do not hold each other up.** -/
structure Advances {ι : Type} [DecidableEq ι] (lib : Spdlog) (program : ι → List Call)
    (schedule : List ι) : Prop where
  /-- As long as a thread has something left to do, some thread can go on. -/
  noDeadlock : ∀ i, ¬ Finished ((started program).run (code lib) schedule) i →
    ∃ j, ((started program).run (code lib) schedule).goes j
  /-- A thread needs so many steps at most, those not counted that it waits for the mutex. -/
  bounded : ∀ i, (started program).steps (code lib) i schedule ≤ (program i).length * 37
  /-- Whatever has happened so far, all threads can still come to their end. -/
  finishes : Finite ι → ∃ rest, ∀ i, Finished ((started program).run (code lib) (schedule ++ rest)) i

theorem advances {ι : Type} [DecidableEq ι] {lib : Spdlog} (hlib : lib.Documented)
    (program : ι → List Call) (schedule : List ι) : Advances lib program schedule := by
  have hsound := sound_run hlib program schedule
  refine ⟨fun i hi => hsound.exists_goes hi, fun i => ?_, fun _ => ?_⟩
  · exact AtMost.steps_le (n := 35) schedule (fun call _ => within_code lib call) (Nat.le_refl _)
  · cases nonempty_fintype ι
    obtain ⟨rest, hrest⟩ := hsound.exists_finished (code_keeps hlib none) (within_code lib)
      fun i => AtMost.run (n := 35) schedule (fun call _ => within_code lib call) (Nat.le_refl _)
    refine ⟨rest, fun i => ?_⟩
    rw [System.run, List.foldl_append]
    exact hrest i

theorem advances_waiting :
    Advances plainSpdlog (fun thread : Bool => if thread then [.initializeLogging ⟨.off⟩]
      else [.writeLog .server .error (ascii "late")]) [true, true, false, false, false, true] :=
  advances documented_plainSpdlog _ _

end BranchTalk.Core.Logging.Concurrent
