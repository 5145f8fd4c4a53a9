import BranchTalk.Server.Steps
import Mathlib.Data.List.Induction

set_option autoImplicit false

/-! # Shutdown requests

The flag is cleared once, before a handler is installed, so no request is lost. It is set by a
delivery to the handler or by the smoke thread only, so none is invented. -/

namespace BranchTalk.Server

open BranchTalk.Core
open BranchTalk.Core.Logging (Call)

/-! ## Points of a run -/

/-- The loop has ended. -/
def Pc.stopping : Pc → Bool
  | .logStopped => true
  | .joinSmoke => true
  | .restoreInterrupt => true
  | .restoreTerminate => true
  | .leave => true
  | .returned .success => true
  | _ => false

theorem after_append (env : Environment) (events later : List Event) :
    after env (events ++ later) = later.foldl (exec env) (after env events) :=
  List.foldl_append ..

/-- Some event of the schedule requested the shutdown. -/
def Requested (env : Environment) (events : List Event) : Prop :=
  ∃ before event later, events = before ++ event :: later ∧
    requests (after env before) event = true

theorem Requested.concat {env : Environment} {events : List Event} (h : Requested env events)
    (event : Event) : Requested env (events ++ [event]) := by
  obtain ⟨before, event', later, rfl, hrequests⟩ := h
  exact ⟨before, event', later ++ [event], by simp, hrequests⟩

theorem Move.stopping {env : Environment} {s s' : State} (h : Move env s s')
    (hstopping : s'.pc.stopping = true) :
    s.pc.stopping = true ∨ s.pc = .poll ∧ s.shutdownRequested = true := by
  cases h with
  | pollEnds hpc h => exact Or.inr ⟨hpc, h⟩
  | stay hpc => exact Or.inl hstopping
  | parseThrows hpc | parseFails hpc | parse hpc | clear hpc | installInterrupt hpc
  | refuseInterrupt hpc | installTerminate hpc | refuseTerminate hpc | undoInterrupt hpc | report hpc
  | construct hpc | startSmoke hpc | logStarted hpc | poll hpc | wait hpc => cases hstopping
  | logStopped hpc | joinSmoke hpc | restoreInterrupt hpc | restoreNothing hpc
  | restoreTerminate hpc | leave hpc => exact Or.inl (by rw [hpc]; rfl)

/-- The message of the startup error, if the options or the installation fail. -/
def startupFailure (env : Environment) : Option Bytes :=
  match parsed env with
  | .ok (.error error) => some error.message
  | .ok (.ok _) =>
      if env.installs .interrupt && env.installs .terminate then none else some installError
  | .error _ => none

def startedCalls (options : ServerOptions) : List Call :=
  [.initializeLogging ⟨options.config.logLevel⟩, serverStarted]

/-- The logging calls made at each point, and what is known of the outcome. -/
def Follows (env : Environment) (s : State) : Prop :=
  match s.pc with
  | .parse => s.log = []
  | .clear => s.log = [] ∧ parsed env = .ok (.ok s.options)
  | .installInterrupt => s.log = [] ∧ parsed env = .ok (.ok s.options)
  | .installTerminate =>
      s.log = [] ∧ parsed env = .ok (.ok s.options) ∧ env.installs .interrupt = true
  | .undoInterrupt => s.log = [] ∧ startupFailure env = some installError
  | .report message => s.log = [] ∧ startupFailure env = some message
  | .construct => s.log = [] ∧ startupFailure env = none
  | .startSmoke => s.log = [] ∧ startupFailure env = none
  | .logStarted => s.log = [] ∧ startupFailure env = none
  | .poll => s.log = startedCalls s.options ∧ startupFailure env = none
  | .wait => s.log = startedCalls s.options ∧ startupFailure env = none
  | .logStopped => s.log = startedCalls s.options ∧ startupFailure env = none
  | .joinSmoke => s.log = startedCalls s.options ++ [serverStopped] ∧ startupFailure env = none
  | .restoreInterrupt =>
      s.log = startedCalls s.options ++ [serverStopped] ∧ startupFailure env = none
  | .restoreTerminate =>
      s.log = startedCalls s.options ++ [serverStopped] ∧ startupFailure env = none
  | .leave => s.log = startedCalls s.options ++ [serverStopped] ∧ startupFailure env = none
  | .returned .success =>
      s.log = startedCalls s.options ++ [serverStopped] ∧ startupFailure env = none
  | .returned .failure =>
      ∃ message, startupFailure env = some message ∧ s.log = writeServerError message
  | .threw => s.log = [] ∧ startupFailure env = none

theorem SamePoint.follows {env : Environment} {s s' : State} (h : SamePoint s s')
    (hs : Follows env s) : Follows env s' := by
  unfold Follows
  rw [h.pc, h.log, h.options]
  exact hs

theorem Move.follows {env : Environment} {s s' : State} (h : Move env s s') (hs : Follows env s) :
    Follows env s' := by
  unfold Follows at hs
  cases h with
  | stay hpc => exact hs
  | parseThrows hpc h =>
      rw [hpc] at hs
      exact ⟨hs, by simp [startupFailure, h]⟩
  | parseFails hpc h =>
      rw [hpc] at hs
      exact ⟨hs, by simp [startupFailure, h]⟩
  | parse hpc h =>
      rw [hpc] at hs
      exact ⟨hs, h⟩
  | installInterrupt hpc h =>
      rw [hpc] at hs
      exact ⟨hs.1, hs.2, h⟩
  | refuseInterrupt hpc h =>
      rw [hpc] at hs
      exact ⟨hs.1, by simp [startupFailure, hs.2, h]⟩
  | installTerminate hpc h =>
      rw [hpc] at hs
      obtain ⟨hlog, hparsed, hinterrupt⟩ := hs
      exact ⟨hlog, by simp [startupFailure, hparsed, hinterrupt, h]⟩
  | refuseTerminate hpc h =>
      rw [hpc] at hs
      obtain ⟨hlog, hparsed, -⟩ := hs
      exact ⟨hlog, by simp [startupFailure, hparsed, h]⟩
  | report hpc =>
      rw [hpc] at hs
      obtain ⟨hlog, hfailure⟩ := hs
      exact ⟨_, hfailure, by simp [hlog]⟩
  | logStarted hpc | logStopped hpc =>
      rw [hpc] at hs
      obtain ⟨hlog, hfailure⟩ := hs
      exact ⟨by simp [hlog, startedCalls], hfailure⟩
  | clear hpc | undoInterrupt hpc | construct hpc | startSmoke hpc | pollEnds hpc | poll hpc
  | wait hpc | joinSmoke hpc | restoreInterrupt hpc | restoreNothing hpc | restoreTerminate hpc
  | leave hpc =>
      rw [hpc] at hs
      exact hs

/-- **The logging calls of a run.** -/
theorem after_follows (env : Environment) (events : List Event) : Follows env (after env events) := by
  refine after_invariant env (P := Follows env) rfl ?_ ?_ events
  · intro s s' hs hmove
    exact hmove.follows hs
  · intro s event hs hevent
    exact (exec_samePoint env s hevent).follows hs

theorem Follows.log_cases {env : Environment} {s : State} (h : Follows env s) :
    s.log = [] ∨ (s.log = startedCalls s.options ∧ startupFailure env = none) ∨
      (s.log = startedCalls s.options ++ [serverStopped] ∧ startupFailure env = none ∧
        s.pc.stopping = true) ∨
      ∃ message, startupFailure env = some message ∧ s.log = writeServerError message := by
  unfold Follows at h
  cases hpc : s.pc with
  | parse =>
      rw [hpc] at h
      exact Or.inl h
  | clear | installInterrupt | installTerminate | undoInterrupt | report | construct | startSmoke
  | logStarted | threw =>
      rw [hpc] at h
      exact Or.inl h.1
  | poll | wait | logStopped =>
      rw [hpc] at h
      exact Or.inr (Or.inl h)
  | joinSmoke | restoreInterrupt | restoreTerminate | leave =>
      rw [hpc] at h
      exact Or.inr (Or.inr (Or.inl ⟨h.1, h.2, rfl⟩))
  | returned code =>
      rw [hpc] at h
      cases code with
      | success => exact Or.inr (Or.inr (Or.inl ⟨h.1, h.2, rfl⟩))
      | failure => exact Or.inr (Or.inr (Or.inr h))

theorem serverStarted_ne_serverStopped : serverStarted ≠ serverStopped := by decide

theorem not_stopped_mem_started (options : ServerOptions) : serverStopped ∉ startedCalls options := by
  have hinitialize : ∀ settings, serverStopped ≠ Call.initializeLogging settings := by
    simp [serverStopped]
  simp [startedCalls, hinitialize, serverStarted_ne_serverStopped.symm]

theorem not_mem_writeServerError (message : Bytes) :
    serverStarted ∉ writeServerError message ∧ serverStopped ∉ writeServerError message := by
  simp [writeServerError, serverStarted, serverStopped]

theorem Follows.stopping {env : Environment} {s : State} (h : Follows env s)
    (hstopped : serverStopped ∈ s.log) : s.pc.stopping = true := by
  rcases h.log_cases with hlog | ⟨hlog, -⟩ | ⟨-, -, hstopping⟩ | ⟨message, -, hlog⟩
  · simp [hlog] at hstopped
  · rw [hlog] at hstopped
    exact absurd hstopped (not_stopped_mem_started _)
  · exact hstopping
  · rw [hlog] at hstopped
    exact absurd hstopped (not_mem_writeServerError message).2

/-- The steps a failing run may still take. -/
def Pc.left : Pc → ℕ
  | .parse => 6
  | .clear => 5
  | .installInterrupt => 4
  | .installTerminate => 3
  | .undoInterrupt => 2
  | .report _ => 1
  | _ => 0

theorem killed_of_not_alive {s : State} (h : s.alive = false) (hpc : s.pc.over = false) :
    s.killed = true := by
  simpa [State.alive, hpc] using h

end BranchTalk.Server
