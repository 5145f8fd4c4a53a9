import BranchTalk.Server.Output

set_option autoImplicit false

/-! # How the process ends

The loop polls the flag, so a request is noticed within two steps of `run`. From then on only the smoke
thread can hold `run` back, and when that thread wakes, the flag is set or the process is over. -/

namespace BranchTalk.Server

open BranchTalk.Core
open BranchTalk.Core.Logging (Spdlog plainSpdlog documented_plainSpdlog)

/-! ## Points of a run -/

/-- The steps to the return, once the flag is set. -/
def Pc.remaining : Pc → ℕ
  | .construct => 9
  | .startSmoke => 8
  | .logStarted => 7
  | .poll => 6
  | .wait => 7
  | .logStopped => 5
  | .joinSmoke => 4
  | .restoreInterrupt => 3
  | .restoreTerminate => 2
  | .leave => 1
  | _ => 0

/-- The smoke thread has been started, if there is to be one. -/
def Pc.watched : Pc → Bool
  | .logStarted => true
  | .poll => true
  | .wait => true
  | .logStopped => true
  | .joinSmoke => true
  | .restoreInterrupt => true
  | .restoreTerminate => true
  | .leave => true
  | .returned .success => true
  | _ => false

theorem Pc.armed_of_watched {pc : Pc} (h : pc.watched = true) : pc.armed = true := by
  cases pc with
  | returned code =>
      cases code with
      | success => rfl
      | failure => cases h
  | parse | clear | installInterrupt | installTerminate | undoInterrupt | report | construct
  | startSmoke | threw => cases h
  | _ => rfl

theorem Pc.remaining_le_of_watched {pc : Pc} (h : pc.watched = true) : pc.remaining ≤ 7 := by
  cases pc with
  | construct | startSmoke | report => cases h
  | returned => exact Nat.zero_le 7
  | _ => decide

/-- Where `install` has returned true, only the normal return is left in the end. -/
theorem Pc.returned_of_armed {pc : Pc} (h : pc.armed = true) (hremaining : pc.remaining = 0) :
    pc = .returned .success := by
  cases pc with
  | returned code =>
      cases code with
      | success => rfl
      | failure => cases h
  | parse | clear | installInterrupt | installTerminate | undoInterrupt | report | threw => cases h
  | _ => cases hremaining

theorem Move.watched {env : Environment} {s s' : State} (h : Move env s s')
    (hwatched : s.pc.watched = true) : s'.pc.watched = true := by
  cases h with
  | stay hpc => exact hwatched
  | parseThrows hpc | parseFails hpc | parse hpc | clear hpc | installInterrupt hpc
  | refuseInterrupt hpc | installTerminate hpc | refuseTerminate hpc | undoInterrupt hpc | report hpc
  | construct hpc | startSmoke hpc =>
      rw [hpc] at hwatched
      cases hwatched
  | _ => rfl

/-! ## The smoke thread -/

theorem deliver_smoke (s : State) (signal : Signal) (resets : Bool) :
    (deliver s signal resets).smoke = s.smoke := by
  unfold deliver
  split
  · rfl
  · rfl
  · cases resets <;> rfl
  · cases resets <;> rfl

/-- The thread runs once. -/
theorem exec_smoke (env : Environment) (s : State) {event : Event} (h : event ≠ .step) :
    (exec env s event).smoke = s.smoke ∨
      (∃ raises resets, event = .smoke raises resets) ∧ s.alive = true ∧ s.smoke = .running ∧
        (exec env s event).smoke = .finished := by
  unfold exec
  split
  · next halive =>
      cases event with
      | step => exact absurd rfl h
      | deliver signal resets => exact Or.inl (deliver_smoke s signal resets)
      | smoke raises resets =>
          dsimp only
          split
          · next hsmoke =>
              refine Or.inr ⟨⟨raises, resets, rfl⟩, halive, hsmoke, ?_⟩
              cases raises with
              | false => rfl
              | true => exact deliver_smoke _ .terminate resets
          · exact Or.inl rfl
  · exact Or.inl rfl

theorem exec_wakes (env : Environment) {s : State} (halive : s.alive = true)
    (hrunning : s.smoke = .running) (raises resets : Bool) :
    (exec env s (.smoke raises resets)).smoke = .finished := by
  unfold exec
  rw [if_pos halive]
  dsimp only
  rw [if_pos hrunning]
  cases raises with
  | false => rfl
  | true => exact deliver_smoke _ .terminate resets

theorem Move.smoke {env : Environment} {s s' : State} (h : Move env s s') :
    s'.smoke = s.smoke ∨
      s.pc = .startSmoke ∧ s'.pc = .logStarted ∧
        s'.smoke = if s.options.smokeTest then .running else .none := by
  cases h with
  | startSmoke hpc => exact Or.inr ⟨hpc, rfl, rfl⟩
  | _ => exact Or.inl rfl

/-- No smoke thread is running, and none will be started. -/
def Unhindered (s : State) : Prop :=
  s.smoke ≠ .running ∧ (s.options.smokeTest = true → s.pc.watched = true)

instance (s : State) : Decidable (Unhindered s) :=
  inferInstanceAs (Decidable (s.smoke ≠ .running ∧ (s.options.smokeTest = true → s.pc.watched = true)))

theorem Move.sameOptions {env : Environment} {s s' : State} (h : Move env s s')
    (harmed : s.pc.armed = true) : s'.options = s.options := by
  cases h with
  | parse hpc =>
      rw [hpc] at harmed
      cases harmed
  | _ => rfl

theorem Move.unhindered {env : Environment} {s s' : State} (h : Move env s s')
    (harmed : s.pc.armed = true) (hs : Unhindered s) : Unhindered s' := by
  obtain ⟨hsmoke, hwatched⟩ := hs
  refine ⟨?_, fun htest => h.watched (hwatched (h.sameOptions harmed ▸ htest))⟩
  rcases h.smoke with heq | ⟨hpc, -, heq⟩
  · rw [heq]
    exact hsmoke
  · -- the thread is not started without the option
    rw [heq, if_neg]
    · simp
    · intro htest
      have hstarted := hwatched htest
      rw [hpc] at hstarted
      cases hstarted

theorem exec_unhindered {env : Environment} {s : State} {event : Event} (hevent : event ≠ .step)
    (hs : Unhindered s) : Unhindered (exec env s event) := by
  have hsame := exec_samePoint env s hevent
  unfold Unhindered
  rw [hsame.options, hsame.pc]
  refine ⟨?_, hs.2⟩
  rcases exec_smoke env s hevent with heq | ⟨-, -, -, heq⟩
  · rw [heq]
    exact hs.1
  · rw [heq]
    simp

/-! ## The way to the return -/

/-- `run` has been asked to stop, and has at most so many steps to go. -/
structure Stopping (n : ℕ) (s : State) : Prop where
  armed : s.pc.armed = true
  installed : s.installed = true
  requested : s.shutdownRequested = true
  unhindered : Unhindered s
  within : s.killed = true ∨ s.pc.remaining ≤ n

theorem step_remaining (env : Environment) {s : State} {n : ℕ} (hs : Stopping n s)
    (hover : s.pc.over = false) :
    (step env s).pc.armed = true ∧ (step env s).pc.remaining + 1 = s.pc.remaining := by
  obtain ⟨harmed, hinstalled, hrequested, ⟨hsmoke, -⟩, -⟩ := hs
  cases hpc : s.pc with
  | construct | startSmoke | logStarted | poll | wait | logStopped | joinSmoke | restoreInterrupt
  | restoreTerminate | leave =>
      simp [step, hpc, hinstalled, hrequested, hsmoke, Pc.armed, Pc.remaining]
  | returned code | threw => simp [hpc, Pc.over] at hover
  | parse | clear | installInterrupt | installTerminate | undoInterrupt | report message =>
      simp [hpc, Pc.armed] at harmed

theorem Stopping.step {env : Environment} {s : State} {n : ℕ} (hs : Stopping (n + 1) s) :
    Stopping n (exec env s .step) := by
  rcases exec_cases env s .step with ⟨halive, heq⟩ | ⟨halive, hmove⟩ | hevent
  · -- the process is over
    rw [heq]
    refine ⟨hs.armed, hs.installed, hs.requested, hs.unhindered, ?_⟩
    simp only [State.alive, Bool.and_eq_false_iff, Bool.not_eq_false'] at halive
    rcases halive with hkilled | hover
    · exact Or.inl hkilled
    · refine Or.inr ?_
      cases hpc : s.pc with
      | returned code | threw => exact Nat.zero_le n
      | _ => simp [hpc, Pc.over] at hover
  · have hexec : exec env s .step = Server.step env s := if_pos halive
    rw [hexec] at hmove ⊢
    simp only [State.alive, Bool.and_eq_true, Bool.not_eq_true'] at halive
    obtain ⟨harmed, hremaining⟩ := step_remaining env hs halive.2
    refine ⟨harmed, ?_, ?_, hmove.unhindered hs.armed hs.unhindered, Or.inr ?_⟩
    · rw [hmove.installed (hs.installed.trans hs.armed.symm), harmed]
    · rcases hmove.requested with h | ⟨hpc, -⟩
      · rw [h, hs.requested]
      · have harmed := hs.armed
        rw [hpc] at harmed
        cases harmed
    · rcases hs.within with h | h
      · rw [halive.1] at h
        cases h
      · omega
  · exact absurd rfl hevent

theorem exec_of_not_alive (env : Environment) {s : State} (h : ¬ s.alive = true) (event : Event) :
    exec env s event = s := by
  unfold exec
  rw [if_neg h]

theorem exec_of_killed (env : Environment) {s : State} (h : s.killed = true) (event : Event) :
    exec env s event = s :=
  exec_of_not_alive env (by simp [State.alive, h]) event

theorem Stopping.outside {env : Environment} {s : State} {n : ℕ} (hs : Stopping n s) {event : Event}
    (hevent : event ≠ .step) : Stopping n (exec env s event) := by
  have hsame := exec_samePoint env s hevent
  refine ⟨?_, ?_, ?_, exec_unhindered hevent hs.unhindered, ?_⟩
  · rw [hsame.pc, hs.armed]
  · rw [hsame.installed, hs.installed]
  · rw [exec_requested env s hevent, hs.requested, Bool.true_or]
  · rw [hsame.pc]
    refine hs.within.imp_left fun hkilled => ?_
    rw [exec_of_killed env hkilled, hkilled]

theorem Stopping.foldl {env : Environment} {s : State} {n : ℕ} (later : List Event)
    (hs : Stopping (n + later.count .step) s) : Stopping n (later.foldl (exec env) s) := by
  induction later generalizing s with
  | nil => exact hs
  | cons event later ih =>
      refine ih ?_
      by_cases hevent : event = .step
      · subst hevent
        rw [List.count_cons_self, ← Nat.add_assoc] at hs
        exact hs.step
      · rw [List.count_cons_of_ne hevent] at hs
        exact hs.outside hevent

/-! ## What the smoke thread does -/

/-- The smoke thread may be running. -/
def Pc.smoking : Pc → Bool
  | .logStarted => true
  | .poll => true
  | .wait => true
  | .logStopped => true
  | .joinSmoke => true
  | _ => false

theorem Pc.holds_of_smoking {pc : Pc} (h : pc.smoking = true) (signal : Signal) :
    pc.holds signal = true := by
  cases pc <;> first | rfl | cases h

/-- `run` does not end while the thread is running. -/
theorem killed_of_smoking {s : State} (h : s.pc.smoking = true) (halive : ¬ s.alive = true) :
    s.killed = true := by
  refine killed_of_not_alive (by simpa using halive) ?_
  cases hpc : s.pc <;> first | rfl | simp [hpc, Pc.smoking] at h

theorem Move.smoking {env : Environment} {s s' : State} (h : Move env s s')
    (hsmoking : s.pc.smoking = true) (hjoin : s.pc ≠ .joinSmoke) : s'.pc.smoking = true := by
  cases h with
  | joinSmoke hpc => exact absurd hpc hjoin
  | stay hpc => exact hsmoking
  | logStarted hpc | pollEnds hpc | poll hpc | wait hpc | logStopped hpc => rfl
  | parseThrows hpc | parseFails hpc | parse hpc | clear hpc | installInterrupt hpc
  | refuseInterrupt hpc | installTerminate hpc | refuseTerminate hpc | undoInterrupt hpc | report hpc
  | construct hpc | startSmoke hpc | restoreInterrupt hpc | restoreNothing hpc | restoreTerminate hpc
  | leave hpc =>
      rw [hpc] at hsmoking
      cases hsmoking

/-- Where the handler of `run` has been installed, a signal meets it, or the default disposition. -/
theorem after_holds (env : Environment) (events : List Event) {signal : Signal}
    (h : (after env events).pc.holds signal = true) :
    (after env events).disposition signal = .shutdown ∨
      (after env events).disposition signal = .foreign .default := by
  have hinv := after_invariant env
    (P := fun s => s.installed = s.pc.armed ∧ (s.pc.holds signal = true →
      s.disposition signal = .shutdown ∨ s.disposition signal = .foreign .default))
    ⟨rfl, nofun⟩ ?_ ?_ events
  · exact hinv.2 h
  · intro s s' hs hmove
    refine ⟨hmove.installed hs.1, fun hholds => ?_⟩
    rcases hmove.disposition hs.1 signal with ⟨heq, hd, -⟩ | ⟨-, -, hd, -⟩ | ⟨-, hafter, -⟩
    · rw [hd]
      exact hs.2 (heq ▸ hholds)
    · exact Or.inl hd
    · rw [hafter] at hholds
      cases hholds
  · intro s event hs hevent
    have hsame := exec_samePoint env s hevent
    refine ⟨hsame.armed hs.1, fun hholds => ?_⟩
    rcases exec_disposition env s hevent signal with heq | ⟨-, hdefault, -⟩
    · rw [heq]
      exact hs.2 (hsame.pc ▸ hholds)
    · exact Or.inr hdefault

/-- The smoke thread is started once, `run` waits for it, and what it is for has happened when it is
    finished. -/
structure Smoked (s : State) : Prop where
  idle : s.pc.watched = false → s.smoke = .none
  started : s.pc.watched = true → s.options.smokeTest = true → s.smoke ≠ .none
  running : s.smoke = .running → s.pc.smoking = true
  finished : s.smoke = .finished → s.shutdownRequested = true ∨ s.killed = true

theorem Smoked.watched_of_finished {s : State} (hs : Smoked s) (h : s.smoke = .finished) :
    s.pc.watched = true := by
  by_contra hwatched
  rw [hs.idle (by simpa using hwatched)] at h
  cases h

theorem Move.entersWatched {env : Environment} {s s' : State} (h : Move env s s')
    (hwatched : s'.pc.watched = true) :
    s.pc.watched = true ∨
      s'.options = s.options ∧ s'.smoke = if s.options.smokeTest then .running else .none := by
  cases h with
  | startSmoke hpc => exact Or.inr ⟨rfl, rfl⟩
  | stay hpc => exact Or.inl hwatched
  | parseThrows hpc | parseFails hpc | parse hpc | clear hpc | installInterrupt hpc
  | refuseInterrupt hpc | installTerminate hpc | refuseTerminate hpc | undoInterrupt hpc | report hpc
  | construct hpc => cases hwatched
  | logStarted hpc | pollEnds hpc | poll hpc | wait hpc | logStopped hpc | joinSmoke hpc
  | restoreInterrupt hpc | restoreNothing hpc | restoreTerminate hpc | leave hpc =>
      exact Or.inl (by rw [hpc]; rfl)

theorem Move.smoked {env : Environment} {s s' : State} (h : Move env s s') (hs : Smoked s)
    (hjoin : s.pc = .joinSmoke → s.smoke ≠ .running) : Smoked s' where
  idle hidle := by
    have hbefore : s.pc.watched = false := by
      by_contra hwatched
      rw [h.watched (by simpa using hwatched)] at hidle
      cases hidle
    rcases h.smoke with heq | ⟨-, hpc, -⟩
    · rw [heq, hs.idle hbefore]
    · rw [hpc] at hidle
      cases hidle
  started hwatched htest := by
    rcases h.entersWatched hwatched with hbefore | ⟨hoptions, heq⟩
    · rw [h.sameOptions (Pc.armed_of_watched hbefore)] at htest
      rcases h.smoke with heq | ⟨hpc, -⟩
      · rw [heq]
        exact hs.started hbefore htest
      · rw [hpc] at hbefore
        cases hbefore
    · rw [heq, if_pos (hoptions ▸ htest)]
      simp
  running hrunning := by
    rcases h.smoke with heq | ⟨-, hpc, -⟩
    · -- the only way out of these points is the join, which waits
      rw [heq] at hrunning
      exact h.smoking (hs.running hrunning) fun hpc => hjoin hpc hrunning
    · rw [hpc]
      rfl
  finished hfinished := by
    rcases h.smoke with heq | ⟨-, -, heq⟩
    · rw [heq] at hfinished
      rw [h.killed]
      refine (hs.finished hfinished).imp_left fun hrequested => ?_
      rcases h.requested with hsame | ⟨hpc, -⟩
      · rw [hsame, hrequested]
      · -- the flag is cleared before the thread is started
        have hwatched := hs.watched_of_finished hfinished
        rw [hpc] at hwatched
        cases hwatched
    · rw [heq] at hfinished
      split at hfinished <;> cases hfinished

/-- When the thread wakes, the flag is set, or its signal ends the process. -/
theorem exec_woken (env : Environment) {s : State} (halive : s.alive = true)
    (hrunning : s.smoke = .running)
    (hdisposition : s.disposition .terminate = .shutdown ∨
      s.disposition .terminate = .foreign .default) (raises resets : Bool) :
    (exec env s (.smoke raises resets)).shutdownRequested = true ∨
      (exec env s (.smoke raises resets)).killed = true := by
  unfold exec
  rw [if_pos halive]
  dsimp only
  rw [if_pos hrunning]
  cases raises with
  | false => exact Or.inl rfl
  | true =>
      rcases hdisposition with h | h
      · refine Or.inl ?_
        rw [if_pos rfl, deliver_requested]
        simp [h]
      · refine Or.inr ?_
        rw [if_pos rfl]
        simp [deliver, h]

theorem Smoked.outside {env : Environment} {s : State} {event : Event} (hs : Smoked s)
    (hevent : event ≠ .step)
    (hdisposition : s.pc.holds .terminate = true → s.disposition .terminate = .shutdown ∨
      s.disposition .terminate = .foreign .default) : Smoked (exec env s event) := by
  have hsame := exec_samePoint env s hevent
  have hsmoke := exec_smoke env s hevent
  constructor
  case idle =>
    intro hidle
    have hnone := hs.idle (hsame.pc ▸ hidle)
    rcases hsmoke with heq | ⟨-, -, hrunning, -⟩
    · rw [heq, hnone]
    · rw [hnone] at hrunning
      cases hrunning
  case started =>
    intro hwatched htest
    rcases hsmoke with heq | ⟨-, -, -, heq⟩
    · rw [heq]
      exact hs.started (hsame.pc ▸ hwatched) (hsame.options ▸ htest)
    · rw [heq]
      simp
  case running =>
    intro hrunning
    rcases hsmoke with heq | ⟨-, -, -, heq⟩
    · rw [hsame.pc]
      exact hs.running (heq ▸ hrunning)
    · rw [heq] at hrunning
      cases hrunning
  case finished =>
    intro hfinished
    rcases hsmoke with heq | ⟨⟨raises, resets, rfl⟩, halive, hrunning, -⟩
    · rcases hs.finished (heq ▸ hfinished) with hrequested | hkilled
      · rw [exec_requested env s hevent, hrequested]
        exact Or.inl rfl
      · rw [exec_of_killed env hkilled]
        exact Or.inr hkilled
    · -- the thread wakes, and where it runs the handler is meant to be installed
      have hholds := Pc.holds_of_smoking (hs.running hrunning) .terminate
      exact exec_woken env halive hrunning (hdisposition hholds) raises resets

theorem after_smoked (env : Environment) (events : List Event) : Smoked (after env events) := by
  induction events using List.reverseRecOn with
  | nil => exact ⟨fun _ => rfl, nofun, nofun, nofun⟩
  | append_singleton events event ih =>
      rw [after_concat]
      by_cases hevent : event = .step
      · subst hevent
        unfold exec
        split
        · by_cases hwaits : (after env events).pc = .joinSmoke ∧ (after env events).smoke = .running
          · -- the destructor of the thread waits
            have hstays : step env (after env events) = after env events := by
              simp [step, hwaits]
            rw [hstays]
            exact ih
          · exact (step_move env _).smoked ih fun hpc hrunning => hwaits ⟨hpc, hrunning⟩
        · exact ih
      · exact ih.outside hevent fun hholds => after_holds env events hholds

theorem Smoked.stays_finished {env : Environment} {s : State} (hs : Smoked s)
    (h : s.smoke = .finished) (event : Event) : (exec env s event).smoke = .finished := by
  rcases exec_cases env s event with ⟨-, heq⟩ | ⟨-, hmove⟩ | hevent
  · rw [heq, h]
  · rcases hmove.smoke with heq | ⟨hpc, -⟩
    · rw [heq, h]
    · have hwatched := hs.watched_of_finished h
      rw [hpc] at hwatched
      cases hwatched
  · rcases exec_smoke env s hevent with heq | ⟨-, -, -, heq⟩
    · rw [heq, h]
    · exact heq

/-! ## The end of a run -/

/-- The process is over: a signal has ended it, or it has returned with its report written. -/
def Ended (lib : Spdlog) (env : Environment) (events : List Event) : Prop :=
  (after env events).killed = true ∨
    (after env events).pc = .returned .success ∧ output lib env events = report env

theorem Stopping.mono {s : State} {n m : ℕ} (h : n ≤ m) (hs : Stopping n s) : Stopping m s :=
  ⟨hs.armed, hs.installed, hs.requested, hs.unhindered, hs.within.imp_right fun hn => hn.trans h⟩

theorem foldl_of_killed (env : Environment) {s : State} (h : s.killed = true) (later : List Event) :
    later.foldl (exec env) s = s := by
  induction later with
  | nil => rfl
  | cons event later ih => rw [List.foldl_cons, exec_of_killed env h, ih]

theorem ended_of_stopping {lib : Spdlog} (hlib : lib.Documented) {env : Environment}
    {events later : List Event} {n : ℕ}
    (h : (after env events).killed = true ∨ Stopping n (after env events))
    (hsteps : n ≤ later.count .step) : Ended lib env (events ++ later) := by
  rcases h with hkilled | hstopping
  · refine Or.inl ?_
    rw [after_append, foldl_of_killed env hkilled, hkilled]
  · have hend : Stopping 0 (after env (events ++ later)) := by
      rw [after_append]
      exact Stopping.foldl later (hstopping.mono (by omega))
    rcases hend.within with hkilled | hremaining
    · exact Or.inl hkilled
    · have hreturned := Pc.returned_of_armed hend.armed (Nat.le_zero.mp hremaining)
      exact Or.inr ⟨hreturned, (output_eq hlib env _).trans (records_of_returned hreturned).1⟩

/-- A smoke test whose thread has woken is on its way to the return. -/
theorem stopping_of_woken {env : Environment} {events : List Event}
    (hwatched : (after env events).pc.watched = true)
    (htest : (after env events).options.smokeTest = true) (raises resets : Bool) :
    (after env (events ++ [.smoke raises resets])).killed = true ∨
      Stopping 7 (after env (events ++ [.smoke raises resets])) := by
  have hevent : Event.smoke raises resets ≠ .step := by simp
  have hsame := exec_samePoint env (after env events) hevent
  have hstarted := (after_smoked env events).started hwatched htest
  have hsmoked := after_smoked env (events ++ [.smoke raises resets])
  have hpc : (after env (events ++ [.smoke raises resets])).pc.watched = true := by
    rw [after_concat, hsame.pc, hwatched]
  have harmed := Pc.armed_of_watched hpc
  by_cases hkilled : (after env (events ++ [.smoke raises resets])).killed = true
  · exact Or.inl hkilled
  · -- the thread has been started, and is not running any more
    have hfinished : (after env (events ++ [.smoke raises resets])).smoke = .finished := by
      have hconcat := after_concat env events (.smoke raises resets)
      rw [hconcat] at hkilled ⊢
      cases hsmoke : (after env events).smoke with
      | none => exact absurd hsmoke hstarted
      | running =>
          have hsmoking := (after_smoked env events).running hsmoke
          refine exec_wakes env ?_ hsmoke raises resets
          by_contra halive
          exact hkilled (by rw [exec_of_not_alive env halive]; exact killed_of_smoking hsmoking halive)
      | finished =>
          rcases exec_smoke env (after env events) hevent with heq | ⟨-, -, -, heq⟩
          · rw [heq, hsmoke]
          · exact heq
    have hrequested := (hsmoked.finished hfinished).resolve_right hkilled
    refine Or.inr ⟨harmed, ?_, hrequested, ⟨?_, fun _ => hpc⟩, Or.inr ?_⟩
    · rw [after_installed, harmed]
    · rw [hfinished]
      simp
    · exact Pc.remaining_le_of_watched hpc

theorem ended_of_woken {lib : Spdlog} (hlib : lib.Documented) {env : Environment}
    {events later : List Event} (hwatched : (after env events).pc.watched = true)
    (htest : (after env events).options.smokeTest = true) (hsteps : 7 ≤ later.count .step)
    (raises resets : Bool) : Ended lib env (events ++ .smoke raises resets :: later) := by
  have hend := ended_of_stopping hlib (stopping_of_woken hwatched htest raises resets) hsteps
  rwa [List.append_assoc] at hend

/-- **A run that has been asked to stop comes to its end**, unless it waits for the smoke thread; and
    when that thread wakes, it does. -/
theorem run_stops {lib : Spdlog} (hlib : lib.Documented) (env : Environment) (events later : List Event) :
    ((after env events).installed = true → (after env events).shutdownRequested = true →
      Unhindered (after env events) → (after env events).pc.remaining ≤ later.count .step →
      Ended lib env (events ++ later)) ∧
    ((after env events).pc.watched = true → (after env events).options.smokeTest = true →
      7 ≤ later.count .step →
      ∀ raises resets, Ended lib env (events ++ .smoke raises resets :: later)) := by
  refine ⟨?_, ?_⟩
  · intro hinstalled hrequested hunhindered hsteps
    have harmed : (after env events).pc.armed = true := by rw [← after_installed, hinstalled]
    refine ended_of_stopping hlib (Or.inr ?_) hsteps
    exact ⟨harmed, hinstalled, hrequested, hunhindered, Or.inr le_rfl⟩
  · intro hwatched htest hsteps raises resets
    exact ended_of_woken hlib hwatched htest hsteps raises resets

def smokeEnvironment : Environment where
  reader := Core.ApplicationConfig.plainReader
  openFile _ := .failed (some false)
  argv := [ascii "branchtalk_server", ascii "--smoke-test"]
  entry _ := .ignore
  requestedBefore := true
  installs _ := true

/-- An interrupt while `run` waits, and a smoke test whose thread wakes at the first poll. -/
theorem run_stops_interrupted :
    Ended plainSpdlog plainEnvironment
      ((toFirstPoll ++ [.step, .deliver .interrupt true]) ++ List.replicate 7 .step) ∧
    Ended plainSpdlog smokeEnvironment
      (toFirstPoll ++ .smoke true true :: List.replicate 7 .step) :=
  ⟨(run_stops documented_plainSpdlog plainEnvironment (toFirstPoll ++ [.step, .deliver .interrupt true])
      (List.replicate 7 .step)).1 (by decide +kernel) (by decide +kernel) (by decide +kernel)
      (by decide +kernel),
    (run_stops documented_plainSpdlog smokeEnvironment toFirstPoll (List.replicate 7 .step)).2
      (by decide +kernel) (by decide +kernel) (by decide +kernel) true true⟩

end BranchTalk.Server
