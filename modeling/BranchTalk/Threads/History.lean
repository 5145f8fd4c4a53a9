import BranchTalk.Threads.Code

set_option autoImplicit false

/-! # The history of a schedule

Whatever the code, nothing is lost and nothing appears from nowhere: a thread makes its calls in the
order of its program, and its part of the output is what its calls have put out, in that order. -/

namespace Threads

variable {ι σ ω α Op : Type} [DecidableEq ι]

/-- The calls of a thread that have returned. -/
def System.returnedBy (s : System ι σ ω α Op) (i : ι) : List (Returned ι σ ω α Op) :=
  s.returned.filter fun e => e.thread = i

/-- The part of the output that a thread has put out. -/
def System.outputOf (s : System ι σ ω α Op) (i : ι) : List ω :=
  (s.output.filter fun o => o.1 = i).map Prod.snd

/-- The history accounts for a thread's program and for its output. -/
structure Accounts (program : List Op) (i : ι) (s : System ι σ ω α Op) : Prop where
  calls : (s.returnedBy i).map Returned.op ++
    ((s.thread i).current.map Running.op).toList ++ (s.thread i).left = program
  output : s.outputOf i = (s.returnedBy i).flatMap Returned.written ++
    ((s.thread i).current.map Running.written).getD []

theorem accounts_start (shared : σ) (program : ι → List Op) (i : ι) :
    Accounts (program i) i (System.start shared program : System ι σ ω α Op) :=
  ⟨rfl, rfl⟩

namespace Accounts

variable {body : Op → Code σ ω α} {program : List Op} {s s' : System ι σ ω α Op} {i j : ι}

/-- A step of another thread leaves no trace in this one's part. -/
theorem step_of_ne (h : Accounts program j s) (hji : j ≠ i) (hstep : Step body s i s') :
    Accounts program j s' := by
  have hreturned : s'.returnedBy j = s.returnedBy j := by
    cases hstep with
    | returns => simp [System.returnedBy, Ne.symm hji]
    | _ => rfl
  have houtput : s'.outputOf j = s.outputOf j := by
    cases hstep with
    | emits => simp [System.outputOf, Ne.symm hji]
    | _ => rfl
  obtain ⟨hcalls, hwritten⟩ := h
  constructor
  · rw [hreturned]
    rcases hstep.thread_of_ne hji with heq | ⟨state, heq⟩ <;> rw [heq]
    · exact hcalls
    · simpa using hcalls
  · rw [hreturned, houtput]
    rcases hstep.thread_of_ne hji with heq | ⟨state, heq⟩ <;> rw [heq]
    · exact hwritten
    · simpa using hwritten

/-- What is left becomes the call in progress, and that one is the next to have returned. -/
theorem step (h : Accounts program i s) (hstep : Step body s i s') : Accounts program i s' := by
  obtain ⟨hcalls, hwritten⟩ := h
  cases hstep with
  | idle => exact ⟨hcalls, hwritten⟩
  | begins hcurrent hleft =>
      rw [hcurrent, hleft] at hcalls
      rw [hcurrent] at hwritten
      constructor
      · simpa [System.put, System.returnedBy] using hcalls
      · simpa [System.put, System.returnedBy, System.outputOf] using hwritten
  | returns hr =>
      rw [hr] at hcalls hwritten
      unfold System.returnedBy at hcalls hwritten
      constructor
      · simpa [System.put, System.returnedBy] using hcalls
      · simpa [System.put, System.returnedBy, System.outputOf] using hwritten
  | emits hr =>
      rw [hr] at hcalls hwritten
      constructor
      · simpa [System.put, System.returnedBy] using hcalls
      · unfold System.outputOf System.returnedBy at hwritten
        simp only [Option.map_some, Option.getD_some] at hwritten
        simp [System.put, System.returnedBy, System.outputOf, hwritten]
  | _ hr =>
      -- neither the history nor the output has changed
      rw [hr] at hcalls hwritten
      constructor
      · simpa [System.put, System.returnedBy] using hcalls
      · simpa [System.put, System.returnedBy, System.outputOf] using hwritten

/-- **Every schedule**, for every thread. -/
theorem run (schedule : List ι) (h : Accounts program j s) :
    Accounts program j (s.run body schedule) := by
  refine run_of_exec (fun s i h => ?_) schedule h
  by_cases hji : j = i
  · subst hji
    exact h.step (exec_step body s j)
  · exact h.step_of_ne hji (exec_step body s i)

end Accounts

end Threads
