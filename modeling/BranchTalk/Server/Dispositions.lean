import BranchTalk.Server.Steps
import Mathlib.Data.List.Induction

set_option autoImplicit false

/-! # Signal dispositions

`handle_shutdown_signal` does not install itself again. Where the platform resets a disposition before
it calls the handler, the next delivery of that signal meets the default disposition, and so does one
that comes after `run` has begun to put back what it found. -/

namespace BranchTalk.Server

/-! ## Deliveries that are met -/

/-- From this state on, a delivery of the signal reaches the handler of `run` and resets its
    disposition. -/
def resetFrom (env : Environment) (s : State) : List Event → Signal → Bool
  | [], _ => false
  | event :: events, signal =>
      (decide (delivery s event = some (signal, true)) && decide (s.disposition signal = .shutdown)) ||
        resetFrom env (exec env s event) events signal

def wasReset (env : Environment) (events : List Event) (signal : Signal) : Bool :=
  resetFrom env (start env) events signal

/-- The disposition is a handler other than that of `run`. -/
def Disposition.isOther : Disposition → Bool
  | .foreign (.handler _) => true
  | _ => false

/-- **The condition on an event**, in the state the events before it have led to. A delivery to another
    handler does not reset it. After the installation a signal is not delivered again once a delivery
    has reset the handler of `run`, and not after its disposition is put back if that is the default
    one. -/
def safe (env : Environment) (before : List Event) (event : Event) : Bool :=
  let s := after env before
  match delivery s event with
  | none => true
  | some (signal, resets) =>
      !((s.disposition signal).isOther && resets) &&
        (!s.installed ||
          if s.pc.holds signal then !wasReset env before signal
          else env.entry signal != .default)

/-- Once `install` has returned true, no signal meets the default disposition and the process ends
    through the normal return only; and whenever `run` returns, both dispositions are what they were
    on entry. -/
structure Undisturbed (env : Environment) (events : List Event) : Prop where
  survives : (after env events).installed = true →
    (after env events).killed = false ∧
      ((after env events).alive = true ∨ (after env events).pc = .returned .success)
  restored : ∀ code, (after env events).pc = .returned code →
    ∀ signal, (after env events).disposition signal = .foreign (env.entry signal)

theorem wasReset_concat (env : Environment) (events : List Event) (event : Event) (signal : Signal) :
    wasReset env (events ++ [event]) signal =
      (wasReset env events signal ||
        decide (delivery (after env events) event = some (signal, true)) &&
          decide ((after env events).disposition signal = .shutdown)) := by
  unfold wasReset after
  generalize start env = s
  induction events generalizing s with
  | nil =>
      rw [List.nil_append, resetFrom]
      show (_ || false) = (false || _)
      rw [Bool.or_false, Bool.false_or]
      rfl
  | cons first events ih =>
      rw [List.cons_append, resetFrom, ih, resetFrom, Bool.or_assoc]
      rfl

/-! ## The invariant -/

/-- Where the handler of `run` is in place, it has not been reset unnoticed; elsewhere the disposition
    is the one found. -/
structure Held (env : Environment) (events : List Event) (s : State) : Prop where
  found : ∀ signal, s.pc.holds signal = false → s.disposition signal = .foreign (env.entry signal)
  own : ∀ signal, s.pc.holds signal = true →
    s.previous signal = .foreign (env.entry signal) ∧
      (s.disposition signal = .shutdown ∨ wasReset env events signal = true)
  killed : s.installed = true → s.killed = false

theorem Held.concat {env : Environment} {events : List Event} {s : State} (h : Held env events s)
    (event : Event) : Held env (events ++ [event]) s where
  found := h.found
  own signal hholds := by
    refine ⟨(h.own signal hholds).1, (h.own signal hholds).2.imp_right fun hreset => ?_⟩
    rw [wasReset_concat, hreset, Bool.true_or]
  killed := h.killed

theorem Move.held {env : Environment} {events : List Event} {s s' : State} (h : Move env s s')
    (hinstalled : s.installed = s.pc.armed) (halive : s.alive = true) (hs : Held env events s) :
    Held env events s' := by
  have hdisposition := h.disposition hinstalled
  refine ⟨?_, ?_, ?_⟩
  · intro signal hholds
    rcases hdisposition signal with ⟨heq, hd, -⟩ | ⟨-, hafter, -⟩ | ⟨hbefore, -, hd, -⟩
    · rw [hd]
      exact hs.found signal (heq ▸ hholds)
    · rw [hafter] at hholds
      cases hholds
    · rw [hd]
      exact (hs.own signal hbefore).1
  · intro signal hholds
    rcases hdisposition signal with ⟨heq, hd, hp⟩ | ⟨hbefore, -, hd, hp⟩ | ⟨-, hafter, -⟩
    · rw [hd, hp]
      exact hs.own signal (heq ▸ hholds)
    · rw [hp]
      exact ⟨hs.found signal hbefore, Or.inl hd⟩
    · rw [hafter] at hholds
      cases hholds
  · intro _
    rw [h.killed]
    simp only [State.alive, Bool.and_eq_true, Bool.not_eq_true'] at halive
    exact halive.1

/-- A delivery under the condition does not come to the default disposition after the
    installation. -/
theorem Held.not_default {env : Environment} {events : List Event} {event : Event}
    (hs : Held env events (after env events)) (hsafe : safe env events event = true)
    (hinstalled : (after env events).installed = true) {signal : Signal} {resets : Bool}
    (hdelivery : delivery (after env events) event = some (signal, resets)) :
    (after env events).disposition signal ≠ .foreign .default := by
  intro hdefault
  simp only [safe, hdelivery, hinstalled, Bool.not_true, Bool.false_or, Bool.and_eq_true] at hsafe
  obtain ⟨-, hsafe⟩ := hsafe
  split at hsafe
  · next hholds =>
      -- the handler is in place and has not been reset
      rcases (hs.own signal hholds).2 with hshutdown | hreset
      · rw [hdefault] at hshutdown
        cases hshutdown
      · rw [hreset] at hsafe
        cases hsafe
  · next hholds =>
      -- the disposition is back to what it was, which is not the default one
      have hfound := hs.found signal (by simpa using hholds)
      rw [hdefault] at hfound
      rw [← Disposition.foreign.inj hfound] at hsafe
      cases hsafe

/-- Under the condition only the handler of `run` is reset. -/
theorem Held.reset_own {env : Environment} {events : List Event} {event : Event}
    (hsafe : safe env events event = true) {signal : Signal}
    (hdelivery : delivery (after env events) event = some (signal, true))
    (hhandler : (after env events).disposition signal = .shutdown ∨
      ∃ id, (after env events).disposition signal = .foreign (.handler id)) :
    (after env events).disposition signal = .shutdown := by
  rcases hhandler with hshutdown | ⟨id, hother⟩
  · exact hshutdown
  · simp [safe, hdelivery, hother, Disposition.isOther] at hsafe

/-- An event from outside that meets the condition keeps the invariant. -/
theorem Held.outside {env : Environment} {events : List Event} {event : Event}
    (hs : Held env events (after env events)) (hsafe : safe env events event = true)
    (hevent : event ≠ .step) :
    Held env (events ++ [event]) (exec env (after env events) event) := by
  have hsame := exec_samePoint env (after env events) hevent
  have hdisposition := exec_disposition env (after env events) hevent
  refine ⟨?_, ?_, ?_⟩
  · intro signal hholds
    rw [hsame.pc] at hholds
    have hfound := hs.found signal hholds
    rcases hdisposition signal with heq | ⟨hdelivery, -, hhandler⟩
    · rw [heq]
      exact hfound
    · rw [Held.reset_own hsafe hdelivery hhandler] at hfound
      cases hfound
  · intro signal hholds
    rw [hsame.pc] at hholds
    obtain ⟨hprevious, hown⟩ := hs.own signal hholds
    rw [hsame.previous, wasReset_concat, Bool.or_eq_true]
    refine ⟨hprevious, ?_⟩
    rcases hdisposition signal with heq | ⟨hdelivery, -, hhandler⟩
    · rw [heq]
      exact hown.imp_right Or.inl
    · have hshutdown := Held.reset_own hsafe hdelivery hhandler
      exact Or.inr (Or.inr (by simp [hdelivery, hshutdown]))
  · intro hinstalled
    rw [hsame.installed] at hinstalled
    by_contra hkilled
    rcases exec_killed env _ hevent (by simpa using hkilled) with
      hbefore | ⟨signal, resets, hdelivery, hdefault⟩
    · rw [hs.killed hinstalled] at hbefore
      cases hbefore
    · exact hs.not_default hsafe hinstalled hdelivery hdefault

/-! ## Whole schedules -/

/-- Each event meets the condition. -/
def AllSafe (env : Environment) (events : List Event) : Prop :=
  ∀ i, (hi : i < events.length) → safe env (events.take i) (events[i]) = true

instance (env : Environment) (events : List Event) : Decidable (AllSafe env events) :=
  inferInstanceAs (Decidable (∀ i, (hi : i < events.length) →
    safe env (events.take i) (events[i]) = true))

theorem AllSafe.of_concat {env : Environment} {events : List Event} {event : Event}
    (h : AllSafe env (events ++ [event])) : AllSafe env events ∧ safe env events event = true := by
  constructor
  · intro i hi
    have hsafe := h i (by simp; omega)
    rwa [List.take_append_of_le_length (by omega), List.getElem_append_left hi] at hsafe
  · have hsafe := h events.length (by simp)
    simpa using hsafe

theorem held (env : Environment) {events : List Event} (h : AllSafe env events) :
    Held env events (after env events) := by
  induction events using List.reverseRecOn with
  | nil => exact ⟨fun _ _ => rfl, nofun, nofun⟩
  | append_singleton events event ih =>
      obtain ⟨hevents, hsafe⟩ := h.of_concat
      have hs := ih hevents
      rw [after_concat]
      rcases exec_cases env (after env events) event with ⟨-, heq⟩ | ⟨halive, hmove⟩ | hevent
      · rw [heq]
        exact hs.concat event
      · exact (hmove.held (after_installed env events) halive hs).concat event
      · exact hs.outside hsafe hevent

/-- **The process is left undisturbed** in every schedule whose events all meet the condition. -/
theorem undisturbed_of_safe {env : Environment} {events : List Event} (h : AllSafe env events) :
    Undisturbed env events := by
  have hs := held env h
  refine ⟨fun hinstalled => ⟨hs.killed hinstalled, ?_⟩, fun code hcode signal => ?_⟩
  · have harmed : (after env events).pc.armed = true := by
      rw [← after_installed]
      exact hinstalled
    have hkilled := hs.killed hinstalled
    cases hpc : (after env events).pc with
    | returned code =>
        rw [hpc] at harmed
        cases code with
        | success => exact Or.inr rfl
        | failure => cases harmed
    | threw =>
        rw [hpc] at harmed
        cases harmed
    | _ => exact Or.inl (by simp [State.alive, hkilled, hpc, Pc.over])
  · refine hs.found signal ?_
    rw [hcode]
    rfl

/-! ## Two interrupts -/

/-- A server started from a shell without arguments. -/
def plainEnvironment : Environment where
  reader := Core.ApplicationConfig.plainReader
  openFile _ := .failed (some false)
  argv := [Core.ascii "branchtalk_server"]
  entry _ := .default
  requestedBefore := false
  installs _ := true

/-- The steps to the first poll. -/
def toFirstPoll : List Event := List.replicate 7 .step

theorem undisturbed_one_interrupt :
    Undisturbed plainEnvironment
      (toFirstPoll ++ .deliver .interrupt true :: List.replicate 6 .step) :=
  undisturbed_of_safe (by decide +kernel)

def twoInterrupts : List Event :=
  toFirstPoll ++ [.deliver .interrupt true, .deliver .interrupt true]

/-- The second of two interrupts kills the process. -/
theorem killed_by_second_interrupt :
    (after plainEnvironment twoInterrupts).installed = true ∧
    (after plainEnvironment twoInterrupts).killed = true ∧
    ¬ Undisturbed plainEnvironment twoInterrupts := by
  have hinstalled : (after plainEnvironment twoInterrupts).installed = true := by decide +kernel
  have hkilled : (after plainEnvironment twoInterrupts).killed = true := by decide +kernel
  refine ⟨hinstalled, hkilled, ?_⟩
  intro h
  rw [(h.survives hinstalled).1] at hkilled
  cases hkilled

end BranchTalk.Server
