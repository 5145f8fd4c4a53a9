import BranchTalk.Server.Stopping

set_option autoImplicit false

/-! # The smoke test

`--smoke-test` starts the server with the default configuration and a thread that stops it. Where no
signal comes from outside, the thread raises the one signal of the run, and the handler is in place
whatever the platform does with it afterwards. -/

namespace BranchTalk.Server

open BranchTalk.Core
open BranchTalk.Core.Logging (Spdlog record plainSpdlog documented_plainSpdlog)

/-- No signal is delivered from outside. -/
def Quiet (events : List Event) : Prop := ∀ signal resets, Event.deliver signal resets ∉ events

theorem Quiet.of_concat {events : List Event} {event : Event} (h : Quiet (events ++ [event])) :
    Quiet events ∧ ∀ signal resets, event ≠ .deliver signal resets := by
  refine ⟨fun signal resets hmem => h signal resets (List.mem_append_left _ hmem), ?_⟩
  rintro signal resets rfl
  exact h signal resets (List.mem_append_right _ (List.mem_singleton_self _))

/-! ## The handler is in place -/

theorem delivery_smoke {s : State} {raises resets resets' : Bool} {signal : Signal}
    (h : delivery s (.smoke raises resets) = some (signal, resets')) :
    s.alive = true ∧ s.smoke = .running ∧ signal = .terminate := by
  simp only [delivery] at h
  split at h
  · next hraises =>
      simp only [Bool.and_eq_true, decide_eq_true_eq] at hraises
      simp only [Option.some.injEq, Prod.mk.injEq] at h
      exact ⟨hraises.1.1, hraises.1.2, h.1.symm⟩
  · cases h

/-- Until the thread has woken, no handler is reset. -/
theorem not_reset_of_quiet (env : Environment) {events : List Event} (hquiet : Quiet events)
    (h : (after env events).smoke ≠ .finished) (signal : Signal) :
    wasReset env events signal = false := by
  induction events using List.reverseRecOn with
  | nil => rfl
  | append_singleton events event ih =>
      obtain ⟨hevents, hdeliver⟩ := hquiet.of_concat
      rw [after_concat] at h
      have hbefore : (after env events).smoke ≠ .finished := fun hfinished =>
        h ((after_smoked env events).stays_finished hfinished event)
      have hnone : delivery (after env events) event ≠ some (signal, true) := by
        intro hdelivery
        cases event with
        | step => cases hdelivery
        | deliver signal' resets => exact hdeliver signal' resets rfl
        | smoke raises resets =>
            obtain ⟨halive, hrunning, -⟩ := delivery_smoke hdelivery
            exact h (exec_wakes env halive hrunning raises resets)
      rw [wasReset_concat, ih hevents hbefore]
      simp [hnone]

theorem AllSafe.concat {env : Environment} {events : List Event} {event : Event}
    (h : AllSafe env events) (hsafe : safe env events event = true) :
    AllSafe env (events ++ [event]) := by
  intro i hi
  rw [List.length_append, List.length_singleton] at hi
  by_cases hlast : i < events.length
  · rw [List.take_append_of_le_length (by omega), List.getElem_append_left hlast]
    exact h i hlast
  · obtain rfl : i = events.length := by omega
    simpa using hsafe

/-- A schedule without signals from outside meets the condition for an undisturbed run. -/
theorem allSafe_of_quiet (env : Environment) {events : List Event} (hquiet : Quiet events) :
    AllSafe env events := by
  induction events using List.reverseRecOn with
  | nil => exact fun i hi => absurd hi (Nat.not_lt_zero i)
  | append_singleton events event ih =>
      obtain ⟨hevents, hdeliver⟩ := hquiet.of_concat
      have hsafe := ih hevents
      refine hsafe.concat ?_
      unfold safe
      dsimp only
      split
      · rfl
      · next signal resets' hdelivery =>
          cases event with
          | step => cases hdelivery
          | deliver signal' resets => exact absurd rfl (hdeliver signal' resets)
          | smoke raises resets =>
              obtain ⟨halive, hrunning, rfl⟩ := delivery_smoke hdelivery
              have hholds := Pc.holds_of_smoking ((after_smoked env events).running hrunning) .terminate
              have hreset := not_reset_of_quiet env hevents (by rw [hrunning]; simp) .terminate
              have hshutdown := ((held env hsafe).own .terminate hholds).2.resolve_right (by simp [hreset])
              simp [hshutdown, Disposition.isOther, hholds, hreset]

/-! ## The way to the thread -/

/-- The steps to the start of the thread. -/
def Pc.untilSmoke : Pc → ℕ
  | .parse => 6
  | .clear => 5
  | .installInterrupt => 4
  | .installTerminate => 3
  | .construct => 2
  | .startSmoke => 1
  | _ => 0

/-- The process is on its way to the start of the thread, or has reached it. -/
def Starting (events : List Event) (s : State) : Prop :=
  s.killed = false ∧ 0 < s.pc.untilSmoke ∧ s.pc.untilSmoke + events.count .step = 6 ∨
    s.pc.watched = true

theorem Pc.not_watched_of_untilSmoke {pc : Pc} (h : 0 < pc.untilSmoke) :
    pc.watched = false ∧ pc.over = false := by
  cases pc <;> first | exact ⟨rfl, rfl⟩ | exact absurd h (lt_irrefl 0)

theorem Pc.accepted_of_watched {pc : Pc} (h : pc.watched = true) : pc.accepted = true := by
  cases pc with
  | returned code =>
      cases code with
      | success => rfl
      | failure => cases h
  | parse | report | threw => cases h
  | _ => rfl

theorem Move.untilSmoke {env : Environment} {s s' : State} (h : Move env s s')
    {options : ServerOptions} (hparsed : parsed env = .ok (.ok options))
    (hinstalls : ∀ signal, env.installs signal = true) (hpos : 0 < s.pc.untilSmoke) :
    0 < s'.pc.untilSmoke ∧ s'.pc.untilSmoke + 1 = s.pc.untilSmoke ∨ s'.pc.watched = true := by
  cases h with
  | parseThrows hpc h | parseFails hpc h =>
      rw [hparsed] at h
      cases h
  | refuseInterrupt hpc h | refuseTerminate hpc h =>
      rw [hinstalls] at h
      cases h
  | parse hpc | clear hpc | installInterrupt hpc | installTerminate hpc | construct hpc =>
      rw [hpc]
      exact Or.inl ⟨Nat.succ_pos _, rfl⟩
  | startSmoke hpc => exact Or.inr rfl
  | undoInterrupt hpc | report hpc | logStarted hpc | pollEnds hpc | poll hpc | wait hpc
  | logStopped hpc | joinSmoke hpc | restoreInterrupt hpc | restoreNothing hpc | restoreTerminate hpc
  | leave hpc =>
      rw [hpc] at hpos
      exact absurd hpos (lt_irrefl 0)
  | stay hpc =>
      rcases hpc with hpc | hover
      · rw [hpc] at hpos
        exact absurd hpos (lt_irrefl 0)
      · rw [(Pc.not_watched_of_untilSmoke hpos).2] at hover
        cases hover

theorem exec_watched {env : Environment} {s : State} (h : s.pc.watched = true) (event : Event) :
    (exec env s event).pc.watched = true := by
  refine exec_preserves (P := fun s => s.pc.watched = true) h ?_ ?_
  · intro s' _ hmove
    exact hmove.watched h
  · intro hevent
    rw [(exec_samePoint env s hevent).pc, h]

theorem foldl_watched {env : Environment} {s : State} (h : s.pc.watched = true)
    (later : List Event) : (later.foldl (exec env) s).pc.watched = true :=
  List.foldlRecOn (motive := fun s : State => s.pc.watched = true) later (exec env) h
    fun _ hs event _ => exec_watched hs event

theorem starting {env : Environment} {options : ServerOptions}
    (hparsed : parsed env = .ok (.ok options)) (hinstalls : ∀ signal, env.installs signal = true)
    {events : List Event} (hquiet : Quiet events) : Starting events (after env events) := by
  induction events using List.reverseRecOn with
  | nil => exact Or.inl ⟨rfl, Nat.succ_pos 5, rfl⟩
  | append_singleton events event ih =>
      obtain ⟨hevents, hdeliver⟩ := hquiet.of_concat
      rw [after_concat]
      rcases ih hevents with ⟨hkilled, hpos, hsum⟩ | hwatched
      · obtain ⟨hidle, hover⟩ := Pc.not_watched_of_untilSmoke hpos
        have halive : (after env events).alive = true := by simp [State.alive, hkilled, hover]
        cases event with
        | deliver signal resets => exact absurd rfl (hdeliver signal resets)
        | smoke raises resets =>
            -- there is no thread to wake
            have hnone := (after_smoked env events).idle hidle
            have hsame : exec env (after env events) (.smoke raises resets) = after env events := by
              simp [exec, hnone]
            rw [hsame]
            refine Or.inl ⟨hkilled, hpos, ?_⟩
            rw [List.count_append, List.count_singleton, if_neg (by simp)]
            exact hsum
        | step =>
            have hmove := step_move env (after env events)
            rw [exec, if_pos halive]
            rcases hmove.untilSmoke hparsed hinstalls hpos with ⟨hpos', hstep⟩ | hwatched
            · refine Or.inl ⟨hmove.killed.trans hkilled, hpos', ?_⟩
              rw [List.count_append, List.count_singleton_self]
              show (step env (after env events)).pc.untilSmoke + _ = 6
              omega
            · exact Or.inr hwatched
      · exact Or.inr (exec_watched hwatched event)

/-! ## The test -/

/-- **A smoke test passes.** Whatever flag and dispositions it finds, if the handlers can be installed
    and no signal comes from outside, then, whether the signal of the thread can be raised or not, and
    whether it resets the disposition or not, the run ends by the normal return within seven steps of
    the waking of its thread. It has then said that it started and stopped, and has put back what it
    found. -/
theorem smokeTest_passes {lib : Spdlog} (hlib : lib.Documented) {env : Environment} {program : Bytes}
    (hargv : env.argv = [program, ascii "--smoke-test"])
    (hinstalls : ∀ signal, env.installs signal = true) {before later : List Event}
    {raises resets : Bool} (hquiet : Quiet (before ++ .smoke raises resets :: later))
    (hbefore : 6 ≤ before.count .step) (hlater : 7 ≤ later.count .step) :
    (after env (before ++ .smoke raises resets :: later)).pc = .returned .success ∧
    (∀ signal, (after env (before ++ .smoke raises resets :: later)).disposition signal =
      .foreign (env.entry signal)) ∧
    output lib env (before ++ .smoke raises resets :: later) =
      [record .server .info (ascii "server started"), record .server .info (ascii "server stopped")] := by
  have hparsed : parsed env = .ok (.ok { smokeTest := true }) := by
    rw [parsed, hargv, parseOptions, if_pos rfl]
    rfl
  have hquiet' : Quiet before := fun signal resets hmem => hquiet signal resets (List.mem_append_left _ hmem)
  have hwatched : (after env before).pc.watched = true := by
    rcases starting hparsed hinstalls hquiet' with ⟨-, hpos, hsum⟩ | hwatched
    · omega
    · exact hwatched
  have htest : (after env before).options.smokeTest = true := by
    have hoptions := after_options env before (Pc.accepted_of_watched hwatched)
    rw [hparsed] at hoptions
    rw [← Except.ok.inj (Except.ok.inj hoptions)]
  have hheld := held env (allSafe_of_quiet env hquiet)
  have hinstalled : (after env (before ++ .smoke raises resets :: later)).installed = true := by
    rw [after_installed, after_append]
    exact Pc.armed_of_watched (foldl_watched hwatched _)
  rcases ended_of_woken hlib hwatched htest hlater raises resets with
    hkilled | ⟨hreturned, houtput⟩
  · rw [hheld.killed hinstalled] at hkilled
    cases hkilled
  · refine ⟨hreturned, fun signal => hheld.found signal (by rw [hreturned]; rfl), ?_⟩
    have hnone : startupFailure env = none := by simp [startupFailure, hparsed, hinstalls]
    rw [houtput, report_eq_of_options hnone hparsed, records_stopped]
    rfl

/-- The flag is set on entry, `SIGTERM` is ignored, and the raised signal resets the disposition. -/
theorem smokeTest_passes_reset :
    (after smokeEnvironment (List.replicate 6 .step ++ .smoke true true :: List.replicate 7 .step)).pc =
      .returned .success ∧
    (∀ signal, (after smokeEnvironment
        (List.replicate 6 .step ++ .smoke true true :: List.replicate 7 .step)).disposition signal =
      .foreign (smokeEnvironment.entry signal)) ∧
    output plainSpdlog smokeEnvironment
        (List.replicate 6 .step ++ .smoke true true :: List.replicate 7 .step) =
      [record .server .info (ascii "server started"), record .server .info (ascii "server stopped")] :=
  smokeTest_passes documented_plainSpdlog rfl (fun _ => rfl) (by simp [Quiet])
    (by decide) (by decide)

end BranchTalk.Server
