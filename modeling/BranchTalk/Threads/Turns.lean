import BranchTalk.Threads.Code
import Mathlib.Data.List.Basic

set_option autoImplicit false

/-! # Threads that take turns

In some schedules the calls take turns: while a call is in progress, no other thread runs. The system
then does what a program does that makes the same calls one after another. -/

namespace Threads

variable {ι σ ω α β Op : Type}

/-- What a call leaves: its result unless an exception left it, the shared state and what it put
    out. -/
structure Outcome (σ ω α : Type) where
  result : Option α
  shared : σ
  written : List ω

def Outcome.after (written : List ω) (o : Outcome σ ω α) : Outcome σ ω α :=
  { o with written := written ++ o.written }

/-- The code without other threads. -/
def Code.solo : Code σ ω α → σ → Outcome σ ω α
  | .done a, s => ⟨some a, s, []⟩
  | .fail, s => ⟨none, s, []⟩
  | .act effect rest, s => (rest s).solo (effect s)
  | .emit output rest, s => (rest.solo s).after [output s]
  | .lock rest, s => rest.solo s
  | .unlock rest, s => rest.solo s

/-- What follows an outcome, unless it is an exception. -/
def Outcome.bind (o : Outcome σ ω α) (f : α → σ → Outcome σ ω β) : Outcome σ ω β :=
  match o.result with
  | some a => (f a o.shared).after o.written
  | none => ⟨none, o.shared, o.written⟩

theorem Outcome.bind_after (written : List ω) (o : Outcome σ ω α) (f : α → σ → Outcome σ ω β) :
    (o.after written).bind f = (o.bind f).after written := by
  unfold Outcome.bind Outcome.after
  cases o.result <;> simp

theorem Code.solo_bind (c : Code σ ω α) (f : α → Code σ ω β) (s : σ) :
    (c.bind f).solo s = (c.solo s).bind fun a s' => (f a).solo s' := by
  induction c generalizing s with
  | done a => rfl
  | fail => rfl
  | act effect rest ih => exact ih s (effect s)
  | emit output rest ih => rw [Code.solo, Outcome.bind_after, ← ih]; rfl
  | lock rest ih => exact ih s
  | unlock rest ih => exact ih s

theorem Code.solo_releasing (c : Code σ ω α) (s : σ) : c.releasing.solo s = c.solo s := by
  induction c generalizing s with
  | done a => rfl
  | fail => rfl
  | act effect rest ih => exact ih s (effect s)
  | emit output rest ih => rw [Code.releasing, Code.solo, ih]; rfl
  | lock rest ih => exact ih s
  | unlock rest ih => exact ih s

/-- The calls one after another, without other threads: the shared state and the output. -/
def inSequence (body : Op → Code σ ω α) (ops : List Op) (shared : σ) : σ × List ω :=
  ops.foldl (fun s op =>
    let o := (body op).solo s.1
    (o.shared, s.2 ++ o.written)) (shared, [])

theorem inSequence_concat (body : Op → Code σ ω α) (ops : List Op) (op : Op) (shared : σ) :
    inSequence body (ops ++ [op]) shared =
      (((body op).solo (inSequence body ops shared).1).shared,
        (inSequence body ops shared).2 ++
          ((body op).solo (inSequence body ops shared).1).written) := by
  unfold inSequence
  rw [List.foldl_concat]

theorem Outcome.after_after (written written' : List ω) (o : Outcome σ ω α) :
    (o.after written').after written = o.after (written ++ written') := by
  simp [Outcome.after]

/-- No other thread has a call in progress. -/
def Alone (s : System ι σ ω α Op) (i : ι) : Prop := ∀ j, j ≠ i → (s.thread j).current = none

def TakeTurns [DecidableEq ι] (body : Op → Code σ ω α) : List ι → System ι σ ω α Op → Prop
  | [], _ => True
  | i :: schedule, s => Alone s i ∧ TakeTurns body schedule (s.exec body i)

section

variable [DecidableEq ι] {body : Op → Code σ ω α} {s s' : System ι σ ω α Op} {i : ι}

theorem Alone.step (h : Alone s i) (hstep : Step body s i s') : Alone s' i := by
  intro j hji
  rcases hstep.thread_of_ne hji with heq | ⟨state, heq⟩ <;> rw [heq]
  · exact h j hji
  · simp [Thread.note, h j hji]

theorem takeTurns_replicate (h : Alone s i) (n : ℕ) : TakeTurns body (List.replicate n i) s := by
  induction n generalizing s with
  | zero => trivial
  | succ n ih => exact ⟨h, ih (h.step (exec_step body s i))⟩

theorem takeTurns_append {schedule schedule' : List ι} (h : TakeTurns body schedule s)
    (h' : TakeTurns body schedule' (s.run body schedule)) :
    TakeTurns body (schedule ++ schedule') s := by
  induction schedule generalizing s with
  | nil => exact h'
  | cons i schedule ih => exact ⟨h.1, ih h.2 h'⟩

end

/-- The system has done what the calls that have returned do one after another, and the call in
    progress, if there is one, goes on to do what it does after them. -/
structure InTurn (body : Op → Code σ ω α) (shared : σ) (s : System ι σ ω α Op) : Prop where
  idle : (∀ i, (s.thread i).current = none) →
    inSequence body (s.returned.map Returned.op) shared = (s.shared, s.output.map Prod.snd)
  current : ∀ i r, (s.thread i).current = some r → Alone s i →
    (inSequence body (s.returned.map Returned.op) shared).2 ++ r.written = s.output.map Prod.snd ∧
    (body r.op).solo (inSequence body (s.returned.map Returned.op) shared).1 =
      (r.code.solo s.shared).after r.written

namespace InTurn

variable {body : Op → Code σ ω α} {shared : σ} {s : System ι σ ω α Op} {i : ι}

theorem start (program : ι → List Op) :
    InTurn body shared (System.start shared program : System ι σ ω α Op) where
  idle _ := rfl
  current _ _ hr := by cases hr

/-- The call of a thread that is alone goes on. -/
theorem of_current {s' : System ι σ ω α Op} {r : Running σ ω α Op} (halone : Alone s' i)
    (hr : (s'.thread i).current = some r)
    (hwritten : (inSequence body (s'.returned.map Returned.op) shared).2 ++ r.written =
      s'.output.map Prod.snd)
    (hsolo : (body r.op).solo (inSequence body (s'.returned.map Returned.op) shared).1 =
      (r.code.solo s'.shared).after r.written) : InTurn body shared s' where
  idle h := by simp [h i] at hr
  current j r' hr' _ := by
    obtain rfl : j = i := by
      by_contra hji
      simp [halone j hji] at hr'
    obtain rfl : r = r' := Option.some.inj (hr.symm.trans hr')
    exact ⟨hwritten, hsolo⟩

variable [DecidableEq ι]

theorem step {s' : System ι σ ω α Op} (h : InTurn body shared s) (halone : Alone s i)
    (hstep : Step body s i s') : InTurn body shared s' := by
  have halone' := halone.step hstep
  cases hstep with
  | idle => exact h
  | @begins op left hcurrent hleft =>
      have hidle := h.idle fun j => by
        by_cases hji : j = i
        · exact hji ▸ hcurrent
        · exact halone j hji
      refine of_current (r := ⟨op, body op, [], {s.shared}⟩) halone' (by simp [System.put]) ?_ ?_
      · show (inSequence body (s.returned.map Returned.op) shared).2 ++ [] = s.output.map Prod.snd
        rw [hidle, List.append_nil]
      · show (body op).solo (inSequence body (s.returned.map Returned.op) shared).1 = _
        rw [hidle]
        rfl
  | returns hr hcode =>
      obtain ⟨hwritten, hsolo⟩ := h.current i _ hr halone
      rw [hcode] at hsolo
      refine ⟨fun _ => ?_, fun j r' hr' _ => ?_⟩
      · rw [List.map_append, List.map_singleton, inSequence_concat, hsolo]
        simpa [Code.solo, Outcome.after, System.put] using hwritten
      · -- no call is in progress any more
        by_cases hji : j = i
        · subst hji
          simp [System.put] at hr'
        · simp [System.put, hji, halone j hji] at hr'
  | @acts r effect rest hr hcode =>
      obtain ⟨hwritten, hsolo⟩ := h.current i _ hr halone
      rw [hcode] at hsolo
      exact of_current (i := i)
        (r := { r with code := rest s.shared, seen := insert (effect s.shared) r.seen })
        halone' (by simp [Thread.note]) hwritten hsolo
  | @emits r output rest hr hcode =>
      obtain ⟨hwritten, hsolo⟩ := h.current i _ hr halone
      rw [hcode] at hsolo
      refine of_current (i := i)
        (r := { r with code := rest, written := r.written ++ [output s.shared] })
        halone' (by simp [System.put]) ?_ ?_
      · simp only [System.put, List.map_append, List.map_singleton]
        rw [← hwritten, List.append_assoc]
      · rw [← Outcome.after_after]
        exact hsolo
  | @locks r rest hr hcode | @unlocks r rest hr hcode =>
      obtain ⟨hwritten, hsolo⟩ := h.current i _ hr halone
      rw [hcode] at hsolo
      exact of_current (i := i) (r := { r with code := rest }) halone' (by simp [System.put])
        hwritten hsolo

/-- **Every schedule in which the calls take turns.** -/
theorem run (schedule : List ι) (hturns : TakeTurns body schedule s) (h : InTurn body shared s) :
    InTurn body shared (s.run body schedule) := by
  induction schedule generalizing s with
  | nil => exact h
  | cons i schedule ih => exact ih hturns.2 (h.step hturns.1 (exec_step body s i))

end InTurn

end Threads
