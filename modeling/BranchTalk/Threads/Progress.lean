import BranchTalk.Threads.Rules
import Mathlib.Algebra.Order.BigOperators.Group.Finset

set_option autoImplicit false

/-! # Progress of threads

A step can be in vain: the thread has nothing left to do, or it waits for the mutex. Threads that keep
to a protocol never all wait for each other. If their code is bounded, each makes a bounded number of
steps that are not in vain, so every one of them comes to its end unless it is left waiting. -/

namespace Threads

variable {ι σ ω α β Op : Type}

def Finished (s : System ι σ ω α Op) (i : ι) : Prop :=
  (s.thread i).left = [] ∧ (s.thread i).current = none

section

variable [DecidableEq ι] {P : Protocol σ} {calls : Op → Prop} {Q : Spec σ ω α Op}
  {s : System ι σ ω α Op}

/-- A thread that does not go on has finished, or waits for the mutex. -/
theorem Sound.of_not_goes (hs : Sound P calls Q s) {i : ι} (h : s.goes i = false) :
    Finished s i ∨ s.holder ≠ none ∧ s.holder ≠ some i := by
  unfold System.goes at h
  cases hcurrent : (s.thread i).current with
  | none =>
      rw [hcurrent] at h
      exact .inl ⟨by simpa using h, hcurrent⟩
  | some r =>
      have hmeets := (hs.current i r hcurrent).meets
      rw [hcurrent] at h
      cases hcode : r.code with
      | fail => exact absurd hcode (hs.not_fail hcurrent)
      | lock rest =>
          rw [hcode] at hmeets
          refine .inr ⟨by simpa [hcode, ← Option.isNone_iff_eq_none] using h, ?_⟩
          simpa using hmeets.1
      | _ => simp [hcode] at h

/-- **No deadlock**: whoever holds the mutex goes on, so as long as a thread is not finished, some
    thread goes on. -/
theorem Sound.exists_goes (hs : Sound P calls Q s) {i : ι} (h : ¬ Finished s i) :
    ∃ j, s.goes j = true := by
  by_contra hnone
  have hwait j := hs.of_not_goes (i := j) (by simpa using fun hj => hnone ⟨j, hj⟩)
  obtain ⟨hholder, -⟩ := (hwait i).resolve_left h
  obtain ⟨j, hj⟩ := Option.ne_none_iff_exists'.mp hholder
  rcases hwait j with ⟨-, hcurrent⟩ | ⟨-, hne⟩
  · simpa [hcurrent] using hs.holder j hj
  · exact hne hj

end

/-! ## Bounded code -/

/-- The code ends after at most this many steps. -/
def Code.Within : Code σ ω α → ℕ → Prop
  | .done _, _ => True
  | .fail, _ => True
  | .act _ rest, n => 0 < n ∧ ∀ state, (rest state).Within (n - 1)
  | .emit _ rest, n => 0 < n ∧ rest.Within (n - 1)
  | .lock rest, n => 0 < n ∧ rest.Within (n - 1)
  | .unlock rest, n => 0 < n ∧ rest.Within (n - 1)

theorem Code.within_done (a : α) (n : ℕ) : (.done a : Code σ ω α).Within n := trivial

namespace Code.Within

variable {c : Code σ ω α} {m n : ℕ}

theorem mono (h : c.Within m) (hmn : m ≤ n) : c.Within n := by
  induction c generalizing m n with
  | done a => trivial
  | fail => trivial
  | act effect rest ih =>
      exact ⟨lt_of_lt_of_le h.1 hmn, fun state => ih state (h.2 state) (by omega)⟩
  | emit output rest ih => exact ⟨lt_of_lt_of_le h.1 hmn, ih h.2 (by omega)⟩
  | lock rest ih => exact ⟨lt_of_lt_of_le h.1 hmn, ih h.2 (by omega)⟩
  | unlock rest ih => exact ⟨lt_of_lt_of_le h.1 hmn, ih h.2 (by omega)⟩

theorem bind {f : α → Code σ ω β} (h : c.Within m) (hf : ∀ a, (f a).Within n) :
    (c.bind f).Within (m + n) := by
  induction c generalizing m with
  | done a => exact (hf a).mono (by omega)
  | fail => trivial
  | act effect rest ih =>
      obtain ⟨hm, h⟩ := h
      exact ⟨by omega, fun state => (ih state (h state)).mono (by omega)⟩
  | emit output rest ih =>
      obtain ⟨hm, h⟩ := h
      exact ⟨by omega, (ih h).mono (by omega)⟩
  | lock rest ih =>
      obtain ⟨hm, h⟩ := h
      exact ⟨by omega, (ih h).mono (by omega)⟩
  | unlock rest ih =>
      obtain ⟨hm, h⟩ := h
      exact ⟨by omega, (ih h).mono (by omega)⟩

theorem releasing (h : c.Within m) : c.releasing.Within (m + 1) := by
  induction c generalizing m with
  | done a => exact ⟨by omega, trivial⟩
  | fail => exact ⟨by omega, trivial⟩
  | act effect rest ih =>
      obtain ⟨hm, h⟩ := h
      exact ⟨by omega, fun state => (ih state (h state)).mono (by omega)⟩
  | emit output rest ih =>
      obtain ⟨hm, h⟩ := h
      exact ⟨by omega, (ih h).mono (by omega)⟩
  | lock rest ih =>
      obtain ⟨hm, h⟩ := h
      exact ⟨by omega, (ih h).mono (by omega)⟩
  | unlock rest ih =>
      obtain ⟨hm, h⟩ := h
      exact ⟨by omega, (ih h).mono (by omega)⟩

theorem locked (h : c.Within m) : c.locked.Within (m + 2) :=
  ⟨by omega, h.releasing⟩

end Code.Within

/-! ## Bounded threads -/

/-- The thread has at most this many steps to make: two for each call, its beginning and its return,
    and those of its code. -/
def AtMost (n : ℕ) (t : Thread σ ω α Op) (bound : ℕ) : Prop :=
  match t.current with
  | none => t.left.length * (n + 2) ≤ bound
  | some r => ∃ m, r.code.Within m ∧ t.left.length * (n + 2) + m + 1 ≤ bound

@[simp] theorem atMost_note {n bound : ℕ} {state : σ} {t : Thread σ ω α Op} :
    AtMost n (t.note state) bound ↔ AtMost n t bound := by
  unfold AtMost Thread.note
  cases t.current <;> rfl

theorem AtMost.mono {n bound bound' : ℕ} {t : Thread σ ω α Op} (h : AtMost n t bound)
    (hle : bound ≤ bound') : AtMost n t bound' := by
  unfold AtMost at *
  cases hcurrent : t.current with
  | none =>
      rw [hcurrent] at h
      exact Nat.le_trans h hle
  | some r =>
      rw [hcurrent] at h
      obtain ⟨m, hwithin, hm⟩ := h
      exact ⟨m, hwithin, Nat.le_trans hm hle⟩

section

variable [DecidableEq ι] {body : Op → Code σ ω α} {n bound : ℕ} {s s' : System ι σ ω α Op}

namespace AtMost

/-- A step of another thread. -/
theorem step_of_ne {i j : ι} (hji : j ≠ i) (hstep : Step body s i s')
    (h : AtMost n (s.thread j) bound) : AtMost n (s'.thread j) bound := by
  rcases hstep.thread_of_ne hji with heq | ⟨state, heq⟩ <;> rw [heq]
  · exact h
  · exact atMost_note.mpr h

/-- A step that is not in vain is one less to make. -/
theorem step {i : ι} (hbody : ∀ op ∈ (s.thread i).left, (body op).Within n)
    (hgoes : s.goes i = true) (hstep : Step body s i s') (h : AtMost n (s.thread i) bound) :
    0 < bound ∧ AtMost n (s'.thread i) (bound - 1) := by
  unfold AtMost at h
  cases hstep with
  | idle hidle => simp [hidle] at hgoes
  | @begins op left hcurrent hleft =>
      rw [hcurrent] at h
      rw [hleft] at h hbody
      rw [List.length_cons, Nat.add_mul] at h
      refine ⟨by omega, ?_⟩
      simp only [System.put, Function.update_self]
      exact ⟨n, hbody op (by simp), by show left.length * _ + n + 1 ≤ _; omega⟩
  | returns hr =>
      rw [hr] at h
      obtain ⟨m, hwithin, hle⟩ := h
      refine ⟨by omega, ?_⟩
      simp only [System.put, Function.update_self]
      show (s.thread i).left.length * (n + 2) ≤ _
      omega
  | acts hr hcode =>
      rw [hr] at h
      obtain ⟨m, hwithin, hle⟩ := h
      rw [hcode] at hwithin
      obtain ⟨hm, hrest⟩ := hwithin
      refine ⟨by omega, ?_⟩
      simp only [Function.update_self, atMost_note]
      exact ⟨m - 1, hrest _, by show (s.thread i).left.length * _ + _ + 1 ≤ _; omega⟩
  | _ hr hcode =>
      rw [hr] at h
      obtain ⟨m, hwithin, hle⟩ := h
      rw [hcode] at hwithin
      obtain ⟨hm, hrest⟩ := hwithin
      refine ⟨by omega, ?_⟩
      simp only [System.put, Function.update_self]
      exact ⟨m - 1, hrest, by show (s.thread i).left.length * _ + _ + 1 ≤ _; omega⟩

end AtMost

theorem exec_of_not_goes {i : ι} (h : s.goes i = false) : s.exec body i = s :=
  (exec_step body s i).eq_of_not_goes h

/-- The calls of a thread stay of one kind. -/
theorem forall_left_step {p : Op → Prop} {i j : ι} (hstep : Step body s i s')
    (h : ∀ op ∈ (s.thread j).left, p op) : ∀ op ∈ (s'.thread j).left, p op := by
  intro op hop
  by_cases hji : j = i
  · subst hji
    exact h op (hstep.left_suffix.subset hop)
  · rcases hstep.thread_of_ne hji with heq | ⟨state, heq⟩ <;>
      exact h op (by simpa [heq] using hop)

/-- The steps of a thread in a schedule that are not in vain. -/
def System.steps (body : Op → Code σ ω α) (i : ι) : List ι → System ι σ ω α Op → ℕ
  | [], _ => 0
  | j :: schedule, s =>
      (if j = i ∧ s.goes i then 1 else 0) + System.steps body i schedule (s.exec body j)

/-- **No thread runs forever.** -/
theorem AtMost.steps_le {i : ι} (schedule : List ι)
    (hbody : ∀ op ∈ (s.thread i).left, (body op).Within n) (h : AtMost n (s.thread i) bound) :
    s.steps body i schedule ≤ bound := by
  induction schedule generalizing s bound with
  | nil => exact Nat.zero_le _
  | cons j schedule ih =>
      have hstep := exec_step body s j
      have hbody' := forall_left_step hstep hbody
      rw [System.steps]
      by_cases hji : j = i
      · subst hji
        cases hgoes : s.goes j with
        | false =>
            rw [exec_of_not_goes hgoes]
            simpa using ih hbody h
        | true =>
            obtain ⟨hpos, h'⟩ := h.step hbody hgoes hstep
            have := ih hbody' h'
            simp only [true_and, if_true]
            omega
      · have := ih hbody' (h.step_of_ne (Ne.symm hji) hstep)
        simpa [hji] using this

theorem AtMost.run {i : ι} (schedule : List ι)
    (hbody : ∀ op ∈ (s.thread i).left, (body op).Within n) (h : AtMost n (s.thread i) bound) :
    AtMost n ((s.run body schedule).thread i) bound := by
  refine (run_of_exec (p := fun s => (∀ op ∈ (s.thread i).left, (body op).Within n) ∧
    AtMost n (s.thread i) bound) (fun s j ⟨hbody, h⟩ => ?_) schedule ⟨hbody, h⟩).2
  have hstep := exec_step body s j
  refine ⟨forall_left_step hstep hbody, ?_⟩
  by_cases hji : j = i
  · subst hji
    cases hgoes : s.goes j with
    | false => rwa [exec_of_not_goes hgoes]
    | true => exact (h.step hbody hgoes hstep).2.mono (Nat.sub_le ..)
  · exact h.step_of_ne (Ne.symm hji) hstep

/-- **All threads can come to their end**, whatever has happened so far. -/
theorem Sound.exists_finished [Fintype ι] {P : Protocol σ} {calls : Op → Prop} {Q : Spec σ ω α Op}
    (hkeeps : Keeps P body calls Q) (hbody : ∀ op, (body op).Within n) (hs : Sound P calls Q s)
    {bound : ι → ℕ} (h : ∀ i, AtMost n (s.thread i) (bound i)) :
    ∃ schedule, ∀ i, Finished (s.run body schedule) i := by
  -- by the number of all steps to make
  generalize htotal : ∑ i, bound i = total
  induction total using Nat.strong_induction_on generalizing s bound with
  | _ total ih =>
      by_cases hall : ∀ i, Finished s i
      · exact ⟨[], hall⟩
      · obtain ⟨i, hi⟩ := not_forall.mp hall
        obtain ⟨j, hgoes⟩ := hs.exists_goes hi
        have hstep := exec_step body s j
        obtain ⟨hpos, hj⟩ := (h j).step (fun op _ => hbody op) hgoes hstep
        have hless : ∑ k, Function.update bound j (bound j - 1) k < total := by
          rw [← htotal]
          refine Finset.sum_lt_sum (fun k _ => ?_) ⟨j, Finset.mem_univ j, ?_⟩
          · by_cases hkj : k = j
            · subst hkj
              simp
            · simp [hkj]
          · rw [Function.update_self]
            omega
        have hbounds k :
            AtMost n ((s.exec body j).thread k) (Function.update bound j (bound j - 1) k) := by
          by_cases hkj : k = j
          · subst hkj
            simpa using hj
          · simpa [hkj] using (h k).step_of_ne hkj hstep
        obtain ⟨schedule, hfinished⟩ := ih _ hless (hs.step hkeeps hstep) hbounds rfl
        exact ⟨j :: schedule, hfinished⟩

end

end Threads
