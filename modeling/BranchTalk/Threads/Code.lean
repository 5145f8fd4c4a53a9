import Mathlib.Data.Set.Insert
import Mathlib.Logic.Function.Basic

set_option autoImplicit false

/-! # Threads that share a state and a mutex

Each thread has a list of calls to make. A call is a piece of code: atomic actions on the shared state
and outputs, between which any other thread may run, and the mutex, which one thread at a time can
hold. A schedule names the thread that runs next, step by step.

The system also keeps its history, which no code can look at: of each call, what it has put out and the
states that the shared state has been in since the call began. -/

namespace Threads

variable {ι σ ω α β Op : Type}

/-! ## Code -/

/-- The code of a call. `fail` is an exception that leaves it. -/
inductive Code (σ ω α : Type) where
  | done (result : α)
  | fail
  /-- An atomic action. What follows may depend on the state the action found. -/
  | act (effect : σ → σ) (rest : σ → Code σ ω α)
  | emit (output : σ → ω) (rest : Code σ ω α)
  | lock (rest : Code σ ω α)
  | unlock (rest : Code σ ω α)

namespace Code

def bind : Code σ ω α → (α → Code σ ω β) → Code σ ω β
  | .done a, f => f a
  | .fail, _ => .fail
  | .act effect rest, f => .act effect fun s => (rest s).bind f
  | .emit output rest, f => .emit output (rest.bind f)
  | .lock rest, f => .lock (rest.bind f)
  | .unlock rest, f => .unlock (rest.bind f)

instance : Monad (Code σ ω) where
  pure := .done
  bind := bind

@[simp] theorem pure_eq (a : α) : (pure a : Code σ ω α) = .done a := rfl

@[simp] theorem bind_eq (c : Code σ ω α) (f : α → Code σ ω β) : (c >>= f) = c.bind f := rfl

/-- Look at the shared state. -/
def read (f : σ → α) : Code σ ω α := .act id fun s => .done (f s)

def modify (f : σ → σ) : Code σ ω Unit := .act f fun _ => .done ()

/-- Put out what the shared state makes of it. -/
def write (output : σ → ω) : Code σ ω Unit := .emit output (.done ())

/-- Give the mutex back at the end, also when an exception leaves the code. -/
def releasing : Code σ ω α → Code σ ω α
  | .done a => .unlock (.done a)
  | .fail => .unlock .fail
  | .act effect rest => .act effect fun s => (rest s).releasing
  | .emit output rest => .emit output rest.releasing
  | .lock rest => .lock rest.releasing
  | .unlock rest => .unlock rest.releasing

/-- A scope that holds the mutex. -/
def locked (c : Code σ ω α) : Code σ ω α := .lock c.releasing

end Code

/-! ## Threads -/

/-- A call in progress, with its history. -/
structure Running (σ ω α Op : Type) where
  op : Op
  code : Code σ ω α
  written : List ω
  seen : Set σ

structure Thread (σ ω α Op : Type) where
  left : List Op
  current : Option (Running σ ω α Op)

/-- A call that has returned, with its history. -/
structure Returned (ι σ ω α Op : Type) where
  thread : ι
  op : Op
  result : α
  written : List ω
  seen : Set σ

structure System (ι σ ω α Op : Type) where
  shared : σ
  /-- The thread that holds the mutex. -/
  holder : Option ι
  thread : ι → Thread σ ω α Op
  /-- What has been put out, with the thread that did. -/
  output : List (ι × ω)
  /-- The calls that have returned, in that order. -/
  returned : List (Returned ι σ ω α Op)

/-- A state to be noted by a call in progress. -/
def Thread.note (state : σ) (t : Thread σ ω α Op) : Thread σ ω α Op :=
  { t with current := t.current.map fun r => { r with seen := insert state r.seen } }

@[simp] theorem left_note (state : σ) (t : Thread σ ω α Op) : (t.note state).left = t.left := rfl

@[simp] theorem current_op_note (state : σ) (t : Thread σ ω α Op) :
    (t.note state).current.map Running.op = t.current.map Running.op := by
  unfold Thread.note
  cases t.current <;> rfl

@[simp] theorem current_written_note (state : σ) (t : Thread σ ω α Op) :
    (t.note state).current.map Running.written = t.current.map Running.written := by
  unfold Thread.note
  cases t.current <;> rfl

/-- No call has begun. -/
def System.start (shared : σ) (program : ι → List Op) : System ι σ ω α Op where
  shared
  holder := none
  thread i := ⟨program i, none⟩
  output := []
  returned := []

section

variable [DecidableEq ι]

def System.put (s : System ι σ ω α Op) (i : ι) (t : Thread σ ω α Op) : System ι σ ω α Op :=
  { s with thread := Function.update s.thread i t }

/-- One step of a call in progress. -/
def System.advance (s : System ι σ ω α Op) (i : ι) (left : List Op) (r : Running σ ω α Op) :
    System ι σ ω α Op :=
  match r.code with
  | .done a =>
      { s.put i ⟨left, none⟩ with returned := s.returned ++ [⟨i, r.op, a, r.written, r.seen⟩] }
  | .fail => s
  | .act effect rest =>
      -- every call in progress notes the new state, this one too
      { s with
        shared := effect s.shared
        thread := fun j =>
          (Function.update s.thread i ⟨left, some { r with code := rest s.shared }⟩ j).note
            (effect s.shared) }
  | .emit output rest =>
      { s.put i ⟨left, some { r with code := rest, written := r.written ++ [output s.shared] }⟩ with
        output := s.output ++ [(i, output s.shared)] }
  | .lock rest =>
      if s.holder.isNone then { s.put i ⟨left, some { r with code := rest }⟩ with holder := some i }
      else s
  | .unlock rest => { s.put i ⟨left, some { r with code := rest }⟩ with holder := none }

/-- One step of a thread: its call in progress goes on, or its next call begins. -/
def System.exec (body : Op → Code σ ω α) (s : System ι σ ω α Op) (i : ι) : System ι σ ω α Op :=
  match (s.thread i).current, (s.thread i).left with
  | some r, left => s.advance i left r
  | none, op :: left => s.put i ⟨left, some ⟨op, body op, [], {s.shared}⟩⟩
  | none, [] => s

def System.run (body : Op → Code σ ω α) (schedule : List ι) (s : System ι σ ω α Op) :
    System ι σ ω α Op :=
  schedule.foldl (System.exec body) s

/-! ## One step -/

/-- The next step of the thread is not in vain. -/
def System.goes (s : System ι σ ω α Op) (i : ι) : Bool :=
  match (s.thread i).current with
  | none => !(s.thread i).left.isEmpty
  | some r =>
      match r.code with
      | .fail => false
      | .lock _ => s.holder.isNone
      | _ => true

variable {body : Op → Code σ ω α} {s s' : System ι σ ω α Op} {i j : ι}

/-- What a step of a thread can be. -/
inductive Step (body : Op → Code σ ω α) (s : System ι σ ω α Op) (i : ι) : System ι σ ω α Op → Prop
  | idle (h : s.goes i = false) : Step body s i s
  | begins {op : Op} {left : List Op} (hcurrent : (s.thread i).current = none)
      (hleft : (s.thread i).left = op :: left) :
      Step body s i (s.put i ⟨left, some ⟨op, body op, [], {s.shared}⟩⟩)
  | returns {r : Running σ ω α Op} {a : α} (hr : (s.thread i).current = some r)
      (hcode : r.code = .done a) :
      Step body s i
        { s.put i ⟨(s.thread i).left, none⟩ with
          returned := s.returned ++ [⟨i, r.op, a, r.written, r.seen⟩] }
  | acts {r : Running σ ω α Op} {effect : σ → σ} {rest : σ → Code σ ω α}
      (hr : (s.thread i).current = some r) (hcode : r.code = .act effect rest) :
      Step body s i
        { s with
          shared := effect s.shared
          thread := fun j =>
            (Function.update s.thread i
              ⟨(s.thread i).left, some { r with code := rest s.shared }⟩ j).note (effect s.shared) }
  | emits {r : Running σ ω α Op} {output : σ → ω} {rest : Code σ ω α}
      (hr : (s.thread i).current = some r) (hcode : r.code = .emit output rest) :
      Step body s i
        { s.put i ⟨(s.thread i).left,
            some { r with code := rest, written := r.written ++ [output s.shared] }⟩ with
          output := s.output ++ [(i, output s.shared)] }
  | locks {r : Running σ ω α Op} {rest : Code σ ω α} (hr : (s.thread i).current = some r)
      (hcode : r.code = .lock rest) (hfree : s.holder = none) :
      Step body s i
        { s.put i ⟨(s.thread i).left, some { r with code := rest }⟩ with holder := some i }
  | unlocks {r : Running σ ω α Op} {rest : Code σ ω α} (hr : (s.thread i).current = some r)
      (hcode : r.code = .unlock rest) :
      Step body s i { s.put i ⟨(s.thread i).left, some { r with code := rest }⟩ with holder := none }

theorem exec_step (body : Op → Code σ ω α) (s : System ι σ ω α Op) (i : ι) :
    Step body s i (s.exec body i) := by
  unfold System.exec
  cases hcurrent : (s.thread i).current with
  | none =>
      cases hleft : (s.thread i).left with
      | nil => exact .idle (by simp [System.goes, hcurrent, hleft])
      | cons op left => exact .begins hcurrent hleft
  | some r =>
      show Step body s i (s.advance i (s.thread i).left r)
      unfold System.advance
      cases hcode : r.code with
      | done a => exact .returns hcurrent hcode
      | fail => exact .idle (by simp [System.goes, hcurrent, hcode])
      | act effect rest => exact .acts hcurrent hcode
      | emit output rest => exact .emits hcurrent hcode
      | lock rest =>
          cases hholder : s.holder with
          | none => exact .locks hcurrent hcode hholder
          | some k => exact .idle (by simp [System.goes, hcurrent, hcode, hholder])
      | unlock rest => exact .unlocks hcurrent hcode

namespace Step

/-- To another thread a step is at most a state to be noted. -/
theorem thread_of_ne (h : Step body s i s') (hji : j ≠ i) :
    s'.thread j = s.thread j ∨ ∃ state, s'.thread j = (s.thread j).note state := by
  cases h with
  | idle => exact .inl rfl
  | @acts r effect => exact .inr ⟨effect s.shared, by simp [hji]⟩
  | _ => exact .inl (by simp [System.put, hji])

/-- A thread works off its list of calls. -/
theorem left_suffix (h : Step body s i s') : (s'.thread i).left <:+ (s.thread i).left := by
  cases h with
  | idle => exact List.suffix_rfl
  | begins hcurrent hleft => simp [System.put, hleft]
  | _ => simp [System.put, Thread.note]

/-- A step that is in vain changes nothing. -/
theorem eq_of_not_goes (h : Step body s i s') (hgoes : s.goes i = false) : s' = s := by
  unfold System.goes at hgoes
  cases h with
  | idle => rfl
  | begins hcurrent hleft => simp [hcurrent, hleft] at hgoes
  | locks hr hcode hfree => simp [hr, hcode, hfree] at hgoes
  | _ hr hcode => simp [hr, hcode] at hgoes

end Step

/-- What each step keeps, every schedule keeps. -/
theorem run_of_exec {p : System ι σ ω α Op → Prop} (hexec : ∀ s i, p s → p (s.exec body i))
    (schedule : List ι) (h : p s) : p (s.run body schedule) := by
  induction schedule generalizing s with
  | nil => exact h
  | cons i schedule ih => exact ih (hexec s i h)

end

end Threads
