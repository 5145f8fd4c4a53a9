import BranchTalk.Server.Run

set_option autoImplicit false

/-! # What steps and deliveries change

A delivery changes the flag, the disposition of its signal and whether the process is still there;
everything else is changed by the steps of `run` alone. -/

namespace BranchTalk.Server

open BranchTalk.Core

/-! ## Deliveries -/

/-- The signal that an event delivers, and whether its disposition is reset if it has a handler. -/
def delivery (s : State) : Event → Option (Signal × Bool)
  | .step => none
  | .deliver signal resets => if s.alive then some (signal, resets) else none
  | .smoke raises resets =>
      if s.alive && decide (s.smoke = .running) && raises then some (.terminate, resets) else none

/-- The event requests the shutdown: a delivery reaches `handle_shutdown_signal`, or the smoke thread
    sets the flag itself. -/
def requests (s : State) (event : Event) : Bool :=
  match delivery s event, event with
  | some (signal, _), _ => decide (s.disposition signal = .shutdown)
  | none, .smoke raises _ => s.alive && decide (s.smoke = .running) && !raises
  | none, _ => false

/-- The two states are at the same point of `run`. -/
structure SamePoint (s s' : State) : Prop where
  pc : s'.pc = s.pc
  options : s'.options = s.options
  previous : s'.previous = s.previous
  installed : s'.installed = s.installed
  log : s'.log = s.log

theorem SamePoint.refl (s : State) : SamePoint s s := ⟨rfl, rfl, rfl, rfl, rfl⟩

theorem deliver_samePoint (s : State) (signal : Signal) (resets : Bool) :
    SamePoint s (deliver s signal resets) := by
  unfold deliver
  split
  · exact ⟨rfl, rfl, rfl, rfl, rfl⟩
  · exact .refl s
  · cases resets <;> exact ⟨rfl, rfl, rfl, rfl, rfl⟩
  · cases resets <;> exact ⟨rfl, rfl, rfl, rfl, rfl⟩

theorem deliver_requested (s : State) (signal : Signal) (resets : Bool) :
    (deliver s signal resets).shutdownRequested =
      (s.shutdownRequested || decide (s.disposition signal = .shutdown)) := by
  unfold deliver
  split <;> next h => cases resets <;> simp [h, State.setDisposition]

/-- A reset leaves the default disposition in the place of a handler. -/
theorem deliver_disposition (s : State) (signal : Signal) (resets : Bool) (signal' : Signal) :
    (deliver s signal resets).disposition signal' = s.disposition signal' ∨
      signal = signal' ∧ resets = true ∧
        (deliver s signal resets).disposition signal' = .foreign .default ∧
        (s.disposition signal' = .shutdown ∨ ∃ id, s.disposition signal' = .foreign (.handler id)) := by
  by_cases hsignal : signal = signal'
  · subst hsignal
    unfold deliver
    split
    · exact Or.inl rfl
    · exact Or.inl rfl
    · next id h =>
        cases resets with
        | false => exact Or.inl rfl
        | true => exact Or.inr ⟨rfl, rfl, by simp [State.setDisposition], Or.inr ⟨id, h⟩⟩
    · next h =>
        cases resets with
        | false => exact Or.inl rfl
        | true => exact Or.inr ⟨rfl, rfl, by simp [State.setDisposition], Or.inl h⟩
  · refine Or.inl ?_
    unfold deliver
    split
    · rfl
    · rfl
    · cases resets <;> simp [State.setDisposition, Function.update_of_ne (Ne.symm hsignal)]
    · cases resets <;> simp [State.setDisposition, Function.update_of_ne (Ne.symm hsignal)]

theorem deliver_killed {s : State} {signal : Signal} {resets : Bool}
    (h : (deliver s signal resets).killed = true) :
    s.killed = true ∨ s.disposition signal = .foreign .default := by
  unfold deliver at h
  split at h
  · next hdefault => exact Or.inr hdefault
  · exact Or.inl h
  · cases resets <;> exact Or.inl h
  · cases resets <;> exact Or.inl h

theorem exec_samePoint (env : Environment) (s : State) {event : Event} (h : event ≠ .step) :
    SamePoint s (exec env s event) := by
  unfold exec
  split
  · cases event with
    | step => exact absurd rfl h
    | deliver signal resets => exact deliver_samePoint s signal resets
    | smoke raises resets =>
        dsimp only
        split
        · cases raises with
          | false => exact ⟨rfl, rfl, rfl, rfl, rfl⟩
          | true =>
              obtain ⟨hpc, hoptions, hprevious, hinstalled, hlog⟩ :=
                deliver_samePoint { s with smoke := .finished } .terminate resets
              exact ⟨hpc, hoptions, hprevious, hinstalled, hlog⟩
        · exact .refl s
  · exact .refl s

theorem exec_requested (env : Environment) (s : State) {event : Event} (h : event ≠ .step) :
    (exec env s event).shutdownRequested = (s.shutdownRequested || requests s event) := by
  unfold exec requests
  cases halive : s.alive with
  | false => cases event <;> simp [delivery, halive]
  | true =>
      cases event with
      | step => exact absurd rfl h
      | deliver signal resets => simp [delivery, halive, deliver_requested]
      | smoke raises resets =>
          by_cases hsmoke : s.smoke = .running
          · cases raises with
            | false => simp [delivery, halive, hsmoke]
            | true => simp [delivery, halive, hsmoke, deliver_requested]
          · simp [delivery, hsmoke]

/-- What an event other than a step does to the dispositions. -/
theorem exec_disposition (env : Environment) (s : State) {event : Event} (h : event ≠ .step)
    (signal : Signal) :
    (exec env s event).disposition signal = s.disposition signal ∨
      delivery s event = some (signal, true) ∧
        (exec env s event).disposition signal = .foreign .default ∧
        (s.disposition signal = .shutdown ∨ ∃ id, s.disposition signal = .foreign (.handler id)) := by
  unfold exec
  split
  · next halive =>
      cases event with
      | step => exact absurd rfl h
      | deliver signal' resets =>
          rcases deliver_disposition s signal' resets signal with hsame | ⟨rfl, rfl, hreset⟩
          · exact Or.inl hsame
          · exact Or.inr ⟨if_pos halive, hreset⟩
      | smoke raises resets =>
          dsimp only
          split
          · next hsmoke =>
              cases raises with
              | false => exact Or.inl rfl
              | true =>
                  rcases deliver_disposition { s with smoke := .finished } .terminate resets signal
                    with hsame | ⟨rfl, rfl, hreset⟩
                  · exact Or.inl hsame
                  · exact Or.inr ⟨by simp [delivery, halive, hsmoke], hreset⟩
          · exact Or.inl rfl
  · exact Or.inl rfl

theorem exec_killed (env : Environment) (s : State) {event : Event} (h : event ≠ .step)
    (hkilled : (exec env s event).killed = true) :
    s.killed = true ∨
      ∃ signal resets, delivery s event = some (signal, resets) ∧
        s.disposition signal = .foreign .default := by
  unfold exec at hkilled
  split at hkilled
  · next halive =>
      cases event with
      | step => exact absurd rfl h
      | deliver signal resets =>
          rcases deliver_killed hkilled with hkilled | hdefault
          · exact Or.inl hkilled
          · exact Or.inr ⟨signal, resets, if_pos halive, hdefault⟩
      | smoke raises resets =>
          dsimp only at hkilled
          split at hkilled
          · next hsmoke =>
              cases raises with
              | false => exact Or.inl hkilled
              | true =>
                  rcases deliver_killed hkilled with hkilled | hdefault
                  · exact Or.inl hkilled
                  · exact Or.inr ⟨.terminate, resets, by simp [delivery, halive, hsmoke], hdefault⟩
          · exact Or.inl hkilled
  · exact Or.inl hkilled

/-! ## Steps -/

/-- **What one step of `run` can do**, by the point it is at. -/
inductive Move (env : Environment) (s : State) : State → Prop
  | parseThrows {e : LoadException} (hpc : s.pc = .parse) (h : parsed env = .error e) :
      Move env s { s with pc := .threw }
  | parseFails {error : Error} (hpc : s.pc = .parse) (h : parsed env = .ok (.error error)) :
      Move env s { s with pc := .report error.message }
  | parse {options : ServerOptions} (hpc : s.pc = .parse) (h : parsed env = .ok (.ok options)) :
      Move env s { s with options, pc := .clear }
  | clear (hpc : s.pc = .clear) :
      Move env s { s with shutdownRequested := false, pc := .installInterrupt }
  | installInterrupt (hpc : s.pc = .installInterrupt) (h : env.installs .interrupt = true) :
      Move env s { s.install .interrupt with pc := .installTerminate }
  | refuseInterrupt (hpc : s.pc = .installInterrupt) (h : env.installs .interrupt = false) :
      Move env s { s with pc := .report installError }
  | installTerminate (hpc : s.pc = .installTerminate) (h : env.installs .terminate = true) :
      Move env s { s.install .terminate with installed := true, pc := .construct }
  | refuseTerminate (hpc : s.pc = .installTerminate) (h : env.installs .terminate = false) :
      Move env s { s with pc := .undoInterrupt }
  | undoInterrupt (hpc : s.pc = .undoInterrupt) :
      Move env s { s.restore .interrupt with pc := .report installError }
  | report {message : Bytes} (hpc : s.pc = .report message) :
      Move env s { s with log := s.log ++ writeServerError message, pc := .returned .failure }
  | construct (hpc : s.pc = .construct) : Move env s { s with pc := .startSmoke }
  | startSmoke (hpc : s.pc = .startSmoke) :
      Move env s
        { s with smoke := if s.options.smokeTest then .running else .none, pc := .logStarted }
  | logStarted (hpc : s.pc = .logStarted) :
      Move env s
        { s with
          log := s.log ++ [.initializeLogging ⟨s.options.config.logLevel⟩, serverStarted]
          pc := .poll }
  | pollEnds (hpc : s.pc = .poll) (h : s.shutdownRequested = true) :
      Move env s { s with pc := .logStopped }
  | poll (hpc : s.pc = .poll) (h : s.shutdownRequested = false) : Move env s { s with pc := .wait }
  | wait (hpc : s.pc = .wait) : Move env s { s with pc := .poll }
  | logStopped (hpc : s.pc = .logStopped) :
      Move env s { s with log := s.log ++ [serverStopped], pc := .joinSmoke }
  | joinSmoke (hpc : s.pc = .joinSmoke) : Move env s { s with pc := .restoreInterrupt }
  | restoreInterrupt (hpc : s.pc = .restoreInterrupt) (h : s.installed = true) :
      Move env s { s.restore .interrupt with pc := .restoreTerminate }
  | restoreNothing (hpc : s.pc = .restoreInterrupt) (h : s.installed = false) :
      Move env s { s with pc := .leave }
  | restoreTerminate (hpc : s.pc = .restoreTerminate) :
      Move env s { s.restore .terminate with pc := .leave }
  | leave (hpc : s.pc = .leave) : Move env s { s with pc := .returned .success }
  | stay (hpc : s.pc = .joinSmoke ∨ s.pc.over = true) : Move env s s

theorem step_move (env : Environment) (s : State) : Move env s (step env s) := by
  unfold step
  split
  · next hpc =>
      split
      · next h => exact .parseThrows hpc h
      · next h => exact .parseFails hpc h
      · next h => exact .parse hpc h
  · next hpc => exact .clear hpc
  · next hpc =>
      split
      · next h => exact .installInterrupt hpc h
      · next h => exact .refuseInterrupt hpc (by simpa using h)
  · next hpc =>
      split
      · next h => exact .installTerminate hpc h
      · next h => exact .refuseTerminate hpc (by simpa using h)
  · next hpc => exact .undoInterrupt hpc
  · next message hpc => exact .report hpc
  · next hpc => exact .construct hpc
  · next hpc => exact .startSmoke hpc
  · next hpc => exact .logStarted hpc
  · next hpc =>
      by_cases h : s.shutdownRequested = true
      · rw [if_pos h]
        exact .pollEnds hpc h
      · rw [if_neg h]
        exact .poll hpc (by simpa using h)
  · next hpc => exact .wait hpc
  · next hpc => exact .logStopped hpc
  · next hpc =>
      split
      · exact .stay (Or.inl hpc)
      · exact .joinSmoke hpc
  · next hpc =>
      split
      · next h => exact .restoreInterrupt hpc h
      · next h => exact .restoreNothing hpc (by simpa using h)
  · next hpc => exact .restoreTerminate hpc
  · next hpc => exact .leave hpc
  · next code hpc => exact .stay (Or.inr (by rw [hpc]; rfl))
  · next hpc => exact .stay (Or.inr (by rw [hpc]; rfl))

/-- An event comes too late, is a move of `run`, or comes from outside. -/
theorem exec_cases (env : Environment) (s : State) (event : Event) :
    (s.alive = false ∧ exec env s event = s) ∨ (s.alive = true ∧ Move env s (exec env s event)) ∨
      event ≠ .step := by
  cases event with
  | step =>
      unfold exec
      split
      · next halive => exact Or.inr (Or.inl ⟨halive, step_move env s⟩)
      · next halive => exact Or.inl ⟨by simpa using halive, rfl⟩
  | deliver signal resets => exact Or.inr (Or.inr (by simp))
  | smoke raises resets => exact Or.inr (Or.inr (by simp))

theorem exec_preserves {env : Environment} {s : State} {event : Event} {P : State → Prop} (h : P s)
    (hmove : ∀ s', s.alive = true → Move env s s' → P s')
    (houtside : event ≠ .step → P (exec env s event)) : P (exec env s event) := by
  rcases exec_cases env s event with ⟨-, heq⟩ | ⟨halive, hm⟩ | hevent
  · rw [heq]
    exact h
  · exact hmove _ halive hm
  · exact houtside hevent

/-- **Invariants of the process**: what holds at the start and is kept by every move and by every
    event from outside holds after every schedule. -/
theorem after_invariant (env : Environment) {P : State → Prop} (hstart : P (start env))
    (hmove : ∀ s s', P s → Move env s s' → P s')
    (houtside : ∀ s event, P s → event ≠ .step → P (exec env s event)) (events : List Event) :
    P (after env events) := by
  refine List.foldlRecOn (motive := P) events (exec env) hstart ?_
  intro s hs event _
  exact exec_preserves hs (fun s' _ hm => hmove s s' hs hm) (houtside s event hs)

/-- Only one move changes the flag. -/
theorem Move.requested {env : Environment} {s s' : State} (h : Move env s s') :
    s'.shutdownRequested = s.shutdownRequested ∨
      s.pc = .clear ∧ s'.shutdownRequested = false ∧ s'.pc = .installInterrupt := by
  cases h with
  | clear hpc => exact Or.inr ⟨hpc, rfl, rfl⟩
  | _ => exact Or.inl rfl

theorem Move.killed {env : Environment} {s s' : State} (h : Move env s s') :
    s'.killed = s.killed := by
  cases h <;> rfl

/-! ## Handlers -/

/-- The handler of `run` is in place for the signal, unless a delivery has reset it. -/
def Pc.holds : Pc → Signal → Bool
  | .installTerminate, .interrupt => true
  | .undoInterrupt, .interrupt => true
  | .construct, _ => true
  | .startSmoke, _ => true
  | .logStarted, _ => true
  | .poll, _ => true
  | .wait, _ => true
  | .logStopped, _ => true
  | .joinSmoke, _ => true
  | .restoreInterrupt, _ => true
  | .restoreTerminate, .terminate => true
  | _, _ => false

/-- `install` has returned true. -/
def Pc.armed : Pc → Bool
  | .construct => true
  | .startSmoke => true
  | .logStarted => true
  | .poll => true
  | .wait => true
  | .logStopped => true
  | .joinSmoke => true
  | .restoreInterrupt => true
  | .restoreTerminate => true
  | .leave => true
  | .returned .success => true
  | _ => false

theorem Move.installed {env : Environment} {s s' : State} (h : Move env s s')
    (hinstalled : s.installed = s.pc.armed) : s'.installed = s'.pc.armed := by
  cases h with
  | installTerminate hpc => rfl
  | stay hpc => exact hinstalled
  | restoreNothing hpc h =>
      rw [hinstalled, hpc] at h
      cases h
  | parseThrows hpc | parseFails hpc | parse hpc | clear hpc | installInterrupt hpc
  | refuseInterrupt hpc | refuseTerminate hpc | undoInterrupt hpc | report hpc | construct hpc
  | startSmoke hpc | logStarted hpc | pollEnds hpc | poll hpc | wait hpc | logStopped hpc
  | joinSmoke hpc | restoreInterrupt hpc | restoreTerminate hpc | leave hpc =>
      rw [hpc] at hinstalled
      exact hinstalled

theorem SamePoint.armed {s s' : State} (h : SamePoint s s') (hs : s.installed = s.pc.armed) :
    s'.installed = s'.pc.armed := by
  rw [h.installed, h.pc, hs]

theorem after_installed (env : Environment) (events : List Event) :
    (after env events).installed = (after env events).pc.armed := by
  refine after_invariant env (P := fun s => s.installed = s.pc.armed) rfl ?_ ?_ events
  · intro s s' hs hmove
    exact hmove.installed hs
  · intro s event hs hevent
    exact (exec_samePoint env s hevent).armed hs

/-- What a move does to a signal: nothing, or it installs the handler, or it puts back what was there
    before. -/
theorem Move.disposition {env : Environment} {s s' : State} (h : Move env s s')
    (hinstalled : s.installed = s.pc.armed) (signal : Signal) :
    (s'.pc.holds signal = s.pc.holds signal ∧ s'.disposition signal = s.disposition signal ∧
      s'.previous signal = s.previous signal) ∨
    (s.pc.holds signal = false ∧ s'.pc.holds signal = true ∧ s'.disposition signal = .shutdown ∧
      s'.previous signal = s.disposition signal) ∨
    (s.pc.holds signal = true ∧ s'.pc.holds signal = false ∧
      s'.disposition signal = s.previous signal ∧ s'.previous signal = s.previous signal) := by
  cases h with
  | installInterrupt hpc | installTerminate hpc =>
      rw [hpc]
      cases signal <;>
        simp [Pc.holds, State.install, State.setDisposition]
  | undoInterrupt hpc | restoreInterrupt hpc | restoreTerminate hpc =>
      rw [hpc]
      cases signal <;> simp [Pc.holds, State.restore, State.setDisposition]
  | stay hpc => exact Or.inl ⟨rfl, rfl, rfl⟩
  | restoreNothing hpc h =>
      rw [hinstalled, hpc] at h
      cases h
  | parseThrows hpc | parseFails hpc | parse hpc | clear hpc
  | refuseInterrupt hpc | refuseTerminate hpc | report hpc | construct hpc
  | startSmoke hpc | logStarted hpc | pollEnds hpc | poll hpc | wait hpc | logStopped hpc
  | joinSmoke hpc | leave hpc =>
      refine Or.inl ⟨?_, rfl, rfl⟩
      rw [hpc]
      cases signal <;> rfl

end BranchTalk.Server
