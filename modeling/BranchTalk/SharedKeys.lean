import Mathlib.Data.List.Basic
import Mathlib.Logic.Function.Basic

set_option autoImplicit false

/-! # Several writers of one store

Each writer has a list of writes to make, one key at a time. Their steps interleave in any order, and
a writer may stop for good between any two of its steps. The value of a key is then that of the last
write made to it. -/

namespace SharedKeys

variable {ι K V : Type}

/-- The store, and for each writer the writes it has still to make. -/
structure System (ι K V : Type) where
  store : K → V
  left : ι → List (K × V)

inductive Event (ι : Type) where
  | step (writer : ι)
  | stop (writer : ι)
  deriving DecidableEq, Repr

/-- The write an event makes, with its writer. -/
def made (s : System ι K V) : Event ι → List (ι × K × V)
  | .step writer => (s.left writer).head?.toList.map fun write => (writer, write)
  | .stop _ => []

section

variable [DecidableEq ι] [DecidableEq K]

/-- A writer with nothing left does nothing. -/
def exec (s : System ι K V) : Event ι → System ι K V
  | .step writer =>
      match s.left writer with
      | [] => s
      | write :: rest =>
          { store := Function.update s.store write.1 write.2
            left := Function.update s.left writer rest }
  | .stop writer => { s with left := Function.update s.left writer [] }

def run (events : List (Event ι)) (s : System ι K V) : System ι K V := events.foldl exec s

/-- The writes made in a run, in order. -/
def performed : List (Event ι) → System ι K V → List (ι × K × V)
  | [], _ => []
  | event :: events, s => made s event ++ performed events (exec s event)

end

def lastWrite [DecidableEq K] (key : K) (log : List (ι × K × V)) : Option (ι × K × V) :=
  (log.filter fun write => write.2.1 = key).getLast?

/-- Who made the last write to a key, if anyone did. -/
def lastWriter [DecidableEq K] (key : K) (log : List (ι × K × V)) : Option ι :=
  (lastWrite key log).map Prod.fst

/-! ## The last write -/

theorem lastWrite_append [DecidableEq K] (key : K) (log log' : List (ι × K × V)) :
    lastWrite key (log ++ log') = (lastWrite key log').or (lastWrite key log) := by
  unfold lastWrite
  rw [List.filter_append, List.getLast?_append]

theorem of_lastWrite_eq_some [DecidableEq K] {key : K} {log : List (ι × K × V)} {write : ι × K × V}
    (h : lastWrite key log = some write) : write ∈ log ∧ write.2.1 = key := by
  have hmem := List.mem_of_getLast? h
  simpa using List.mem_filter.mp hmem

section

variable [DecidableEq ι] [DecidableEq K]

theorem store_exec (s : System ι K V) (event : Event ι) (key : K) :
    (exec s event).store key =
      ((lastWrite key (made s event)).map fun write => write.2.2).getD (s.store key) := by
  cases event with
  | stop writer => rfl
  | step writer =>
      cases hleft : s.left writer with
      | nil => simp [exec, made, lastWrite, hleft]
      | cons write rest =>
          by_cases hkey : write.1 = key
          · subst hkey
            simp [exec, made, lastWrite, hleft]
          · simp [exec, made, lastWrite, hleft, hkey, Function.update_of_ne (Ne.symm hkey)]

/-- **The store after a run** holds, under each key, the value of the last write to it. -/
theorem store_run (events : List (Event ι)) (s : System ι K V) (key : K) :
    (run events s).store key =
      ((lastWrite key (performed events s)).map fun write => write.2.2).getD (s.store key) := by
  induction events generalizing s with
  | nil => rfl
  | cons event events ih =>
      have hrun : run (event :: events) s = run events (exec s event) := rfl
      rw [hrun, ih, performed, lastWrite_append, store_exec]
      cases lastWrite key (performed events (exec s event)) <;> rfl

/-- A writer that is alone makes its writes in order. -/
theorem run_alone (writer : ι) (steps : ℕ) (s : System ι K V) :
    (run (List.replicate steps (.step writer)) s).store =
      ((s.left writer).take steps).foldl (fun store write => Function.update store write.1 write.2)
        s.store := by
  induction steps generalizing s with
  | zero => rfl
  | succ steps ih =>
      have hrun := ih (exec s (.step writer))
      cases hleft : s.left writer with
      | nil =>
          have hexec : exec s (.step writer) = s := by simp only [exec, hleft]
          rw [hexec, hleft, List.take_nil] at hrun
          rw [List.replicate_succ, List.take_nil, ← hrun]
          exact congrArg (fun s' => (run (List.replicate steps (.step writer)) s').store) hexec
      | cons write rest =>
          have hexec : exec s (.step writer) =
              { store := Function.update s.store write.1 write.2
                left := Function.update s.left writer rest } := by
            simp only [exec, hleft]
          have hrest : (exec s (.step writer)).left writer = rest := by
            rw [hexec]
            exact Function.update_self ..
          rw [hrest] at hrun
          rw [List.replicate_succ, List.take_succ_cons, List.foldl_cons]
          show (run (List.replicate steps (.step writer)) (exec s (.step writer))).store = _
          rw [hrun, hexec]

/-- A writer only ever works off its list. -/
theorem left_exec (s : System ι K V) (event : Event ι) (writer : ι) :
    (exec s event).left writer ⊆ s.left writer := by
  cases event with
  | stop writer' =>
      by_cases h : writer = writer'
      · subst h
        simp [exec]
      · simp [exec, Function.update_of_ne h]
  | step writer' =>
      cases hleft : s.left writer' with
      | nil => simp [exec, hleft]
      | cons write rest =>
          by_cases h : writer = writer'
          · subst h
            simp [exec, hleft]
          · simp [exec, hleft, Function.update_of_ne h]

/-- Every write made is one its writer had to make. -/
theorem of_mem_performed {events : List (Event ι)} {s : System ι K V} {writer : ι} {write : K × V}
    (h : (writer, write) ∈ performed events s) : write ∈ s.left writer := by
  induction events generalizing s with
  | nil => simp [performed] at h
  | cons event events ih =>
      rw [performed, List.mem_append] at h
      rcases h with h | h
      · cases event with
        | stop writer' => simp [made] at h
        | step writer' =>
            cases hleft : s.left writer' with
            | nil => simp [made, hleft] at h
            | cons write' rest =>
                obtain ⟨rfl, rfl⟩ : writer = writer' ∧ write = write' := by simpa [made, hleft] using h
                rw [hleft]
                exact List.mem_cons_self ..
      · exact left_exec s event writer (ih h)

end

end SharedKeys
