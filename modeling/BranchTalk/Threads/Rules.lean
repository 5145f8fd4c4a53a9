import BranchTalk.Threads.Code

set_option autoImplicit false

/-! # Reasoning about one thread at a time

The threads agree on a protocol: the shared state only changes under the mutex, by changes of an
allowed kind, and it is in good order whenever the mutex is free. A call that keeps to the protocol can
then be followed on its own. While it holds the mutex nobody changes anything, and otherwise any number
of allowed changes may come between two of its steps. What is proved of it so holds in every schedule. -/

namespace Threads

variable {ι σ ω α β Op : Type}

structure Protocol (σ : Type) where
  /-- What is true of the shared state at any time. -/
  Always : σ → Prop
  /-- The changes made under the mutex. -/
  Allowed : σ → σ → Prop
  /-- What the thread that gives the mutex back leaves behind. -/
  Free : σ → Prop
  always_of_allowed : ∀ {state state'}, Always state → Allowed state state' → Always state'

/-! ## One call -/

/-- What can be said of a call in progress. -/
structure View (σ ω : Type) where
  holding : Bool
  shared : σ
  seen : Set σ
  written : List ω
  now : shared ∈ seen

namespace View

/-- The shared state is brought into a state. -/
def moved (v : View σ ω) (state : σ) : View σ ω :=
  { v with shared := state, seen := insert state v.seen, now := Set.mem_insert .. }

def wrote (v : View σ ω) (output : ω) : View σ ω := { v with written := v.written ++ [output] }

def locked (v : View σ ω) : View σ ω := { v with holding := true }

def unlocked (v : View σ ω) : View σ ω := { v with holding := false }

@[simp] theorem moved_shared (v : View σ ω) : v.moved v.shared = v := by
  unfold moved
  simp only [Set.insert_eq_of_mem v.now]

theorem seen_subset_moved (v : View σ ω) (state : σ) : v.seen ⊆ (v.moved state).seen :=
  Set.subset_insert ..

end View

/-- What the other threads make of a view. -/
inductive Later (P : Protocol σ) : View σ ω → View σ ω → Prop where
  | refl (v : View σ ω) : Later P v v
  | step {v v' : View σ ω} {state : σ} (h : Later P v v') (holding : v'.holding = false)
      (allowed : P.Allowed v'.shared state) : Later P v (v'.moved state)

namespace Later

variable {P : Protocol σ} {v v' v'' : View σ ω}

theorem trans (h : Later P v v') (h' : Later P v' v'') : Later P v v'' := by
  induction h' with
  | refl => exact h
  | step _ holding allowed ih => exact .step ih holding allowed

theorem holding_eq (h : Later P v v') : v'.holding = v.holding := by
  induction h with
  | refl => rfl
  | step _ _ _ ih => exact ih

theorem written_eq (h : Later P v v') : v'.written = v.written := by
  induction h with
  | refl => rfl
  | step _ _ _ ih => exact ih

theorem seen_subset (h : Later P v v') : v.seen ⊆ v'.seen := by
  induction h with
  | refl => exact subset_rfl
  | step _ _ _ ih => exact ih.trans (View.seen_subset_moved ..)

theorem eq_of_holding (h : Later P v v') (hv : v.holding = true) : v' = v := by
  induction h with
  | refl => rfl
  | step h holding _ _ =>
      rw [h.holding_eq, hv] at holding
      cases holding

/-- What allowed changes keep. -/
theorem keeps {p : View σ ω → Prop}
    (hp : ∀ v state, p v → P.Allowed v.shared state → p (v.moved state)) (h : Later P v v')
    (hv : p v) : p v' := by
  induction h with
  | refl => exact hv
  | step _ _ allowed ih => exact hp _ _ ih allowed

theorem always (h : Later P v v') (hv : P.Always v.shared) : P.Always v'.shared :=
  h.keeps (p := fun v => P.Always v.shared) (fun _ _ => P.always_of_allowed) hv

end Later

/-- The code keeps to the protocol from this view on, never fails, and ends as the postcondition
    says, whatever the other threads do meanwhile. -/
def Code.Meets (P : Protocol σ) : Code σ ω α → (α → View σ ω → Prop) → View σ ω → Prop
  | .done a, post, v => ∀ v', Later P v v' → post a v'
  | .fail, _, _ => False
  | .act effect rest, post, v => ∀ v', Later P v v' →
      (effect v'.shared = v'.shared ∨
        v'.holding = true ∧ P.Allowed v'.shared (effect v'.shared)) ∧
      (rest v'.shared).Meets P post (v'.moved (effect v'.shared))
  | .emit output rest, post, v => ∀ v', Later P v v' →
      rest.Meets P post (v'.wrote (output v'.shared))
  | .lock rest, post, v => v.holding = false ∧ ∀ v', Later P v v' → P.Free v'.shared →
      rest.Meets P post v'.locked
  | .unlock rest, post, v => v.holding = true ∧ P.Free v.shared ∧ rest.Meets P post v.unlocked

namespace Code.Meets

variable {P : Protocol σ} {c : Code σ ω α} {post : α → View σ ω → Prop} {v v' : View σ ω}

theorem later (h : c.Meets P post v) (hv : Later P v v') : c.Meets P post v' := by
  cases c with
  | done a => exact fun v'' hv' => h v'' (hv.trans hv')
  | fail => exact h
  | act effect rest => exact fun v'' hv' => h v'' (hv.trans hv')
  | emit output rest => exact fun v'' hv' => h v'' (hv.trans hv')
  | lock rest => exact ⟨hv.holding_eq.trans h.1, fun v'' hv' => h.2 v'' (hv.trans hv')⟩
  | unlock rest =>
      rw [hv.eq_of_holding h.1]
      exact h

theorem mono {post' : α → View σ ω → Prop} (h : c.Meets P post v)
    (hpost : ∀ a v, post a v → post' a v) : c.Meets P post' v := by
  induction c generalizing v with
  | done a => exact fun v' hv => hpost a v' (h v' hv)
  | fail => exact h
  | act effect rest ih => exact fun v' hv => ⟨(h v' hv).1, ih _ (h v' hv).2⟩
  | emit output rest ih => exact fun v' hv => ih (h v' hv)
  | lock rest ih => exact ⟨h.1, fun v' hv hfree => ih (h.2 v' hv hfree)⟩
  | unlock rest ih => exact ⟨h.1, h.2.1, ih h.2.2⟩

/-- One part of a code after the other. -/
theorem bind {f : α → Code σ ω β} {post : β → View σ ω → Prop}
    (h : c.Meets P (fun a v => (f a).Meets P post v) v) : (c.bind f).Meets P post v := by
  induction c generalizing v with
  | done a => exact h v (.refl v)
  | fail => exact h
  | act effect rest ih => exact fun v' hv => ⟨(h v' hv).1, ih _ (h v' hv).2⟩
  | emit output rest ih => exact fun v' hv => ih (h v' hv)
  | lock rest ih => exact ⟨h.1, fun v' hv hfree => ih (h.2 v' hv hfree)⟩
  | unlock rest ih => exact ⟨h.1, h.2.1, ih h.2.2⟩

theorem releasing
    (h : c.Meets P (fun a v => v.holding = true ∧ P.Free v.shared ∧
      ∀ v', Later P v.unlocked v' → post a v') v) : c.releasing.Meets P post v := by
  induction c generalizing v with
  | done a => exact h v (.refl v)
  | fail => exact h.elim
  | act effect rest ih => exact fun v' hv => ⟨(h v' hv).1, ih _ (h v' hv).2⟩
  | emit output rest ih => exact fun v' hv => ih (h v' hv)
  | lock rest ih => exact ⟨h.1, fun v' hv hfree => ih (h.2 v' hv hfree)⟩
  | unlock rest ih => exact ⟨h.1, h.2.1, ih h.2.2⟩

/-- A scope that holds the mutex finds the shared state in good order and leaves it so. -/
theorem locked (hv : v.holding = false)
    (h : ∀ v', Later P v v' → P.Free v'.shared →
      c.Meets P (fun a v => v.holding = true ∧ P.Free v.shared ∧
        ∀ v', Later P v.unlocked v' → post a v') v'.locked) : c.locked.Meets P post v :=
  ⟨hv, fun v' hv' hfree => (h v' hv' hfree).releasing⟩

theorem read {f : σ → α}
    (h : ∀ v', Later P v v' → ∀ v'', Later P v' v'' → post (f v'.shared) v'') :
    (Code.read f).Meets P post v := by
  intro v' hv
  refine ⟨.inl rfl, fun v'' hv' => ?_⟩
  rw [id, View.moved_shared] at hv'
  exact h v' hv v'' hv'

theorem write {output : σ → ω} {post : Unit → View σ ω → Prop}
    (h : ∀ v', Later P v v' → ∀ v'', Later P (v'.wrote (output v'.shared)) v'' → post () v'') :
    (Code.write output).Meets P post v :=
  h

/-- Under the mutex nothing happens between the steps. -/
theorem done_of_holding {a : α} (hv : v.holding = true) (h : post a v) :
    (Code.done a).Meets P post v := by
  intro v' hv'
  rwa [hv'.eq_of_holding hv]

theorem act_of_holding {effect : σ → σ} {rest : σ → Code σ ω α} (hv : v.holding = true)
    (heffect : effect v.shared = v.shared ∨ P.Allowed v.shared (effect v.shared))
    (h : (rest v.shared).Meets P post (v.moved (effect v.shared))) :
    (Code.act effect rest).Meets P post v := by
  intro v' hv'
  rw [hv'.eq_of_holding hv]
  exact ⟨heffect.imp_right fun hallowed => ⟨hv, hallowed⟩, h⟩

theorem read_of_holding {f : σ → α} (hv : v.holding = true) (h : post (f v.shared) v) :
    (Code.read f).Meets P post v :=
  act_of_holding hv (.inl rfl) (done_of_holding hv (by rwa [id, View.moved_shared]))

theorem modify_of_holding {f : σ → σ} {post : Unit → View σ ω → Prop} (hv : v.holding = true)
    (hallowed : P.Allowed v.shared (f v.shared)) (h : post () (v.moved (f v.shared))) :
    (Code.modify f).Meets P post v :=
  act_of_holding hv (.inr hallowed) (done_of_holding hv h)

end Code.Meets

/-- What calls do: by the call, its result, the states seen meanwhile and what was put out. -/
abbrev Spec (σ ω α Op : Type) := Op → α → Set σ → List ω → Prop

/-- The end of a call as specified. -/
def ends (Q : Spec σ ω α Op) (op : Op) (a : α) (v : View σ ω) : Prop :=
  v.holding = false ∧ Q op a v.seen v.written

/-- The calls of this kind keep to the protocol and do what is specified, wherever they begin. -/
def Keeps (P : Protocol σ) (body : Op → Code σ ω α) (calls : Op → Prop) (Q : Spec σ ω α Op) : Prop :=
  ∀ op, calls op → ∀ state, P.Always state →
    (body op).Meets P (ends Q op) ⟨false, state, {state}, [], Set.mem_singleton _⟩

/-! ## All threads -/

/-- A call in progress keeps to the protocol from here on. -/
structure OnTrack (P : Protocol σ) (Q : Spec σ ω α Op) (holding : Bool) (shared : σ)
    (r : Running σ ω α Op) : Prop where
  now : shared ∈ r.seen
  seen : ∀ state ∈ r.seen, P.Always state
  meets : r.code.Meets P (ends Q r.op) ⟨holding, shared, r.seen, r.written, now⟩

/-- Every thread keeps to the protocol from here on, and every call that has returned did as
    specified. -/
structure Sound [DecidableEq ι] (P : Protocol σ) (calls : Op → Prop) (Q : Spec σ ω α Op)
    (s : System ι σ ω α Op) : Prop where
  always : P.Always s.shared
  free : s.holder = none → P.Free s.shared
  holder : ∀ i, s.holder = some i → (s.thread i).current.isSome
  left : ∀ i, ∀ op ∈ (s.thread i).left, calls op
  current : ∀ i r, (s.thread i).current = some r →
    OnTrack P Q (decide (s.holder = some i)) s.shared r
  returned : ∀ e ∈ s.returned,
    Q e.op e.result e.seen e.written ∧ ∀ state ∈ e.seen, P.Always state

section

variable [DecidableEq ι] {P : Protocol σ} {calls : Op → Prop} {Q : Spec σ ω α Op}
  {s : System ι σ ω α Op}

theorem sound_start {shared : σ} (halways : P.Always shared) (hfree : P.Free shared)
    {program : ι → List Op} (hcalls : ∀ i, ∀ op ∈ program i, calls op) :
    Sound P calls Q (System.start shared program : System ι σ ω α Op) where
  always := halways
  free _ := hfree
  holder _ hi := by cases hi
  left := hcalls
  current _ _ hr := by cases hr
  returned _ he := by cases he

namespace Sound

/-- A step of one thread that leaves the shared state as it is. -/
theorem put (hs : Sound P calls Q s) {i : ι} {t : Thread σ ω α Op} {holder : Option ι}
    {output : List (ι × ω)} {returned : List (Returned ι σ ω α Op)}
    (hfree : holder = none → P.Free s.shared)
    (hothers : ∀ j, j ≠ i → (holder = some j ↔ s.holder = some j))
    (hholder : holder = some i → t.current.isSome)
    (hleft : ∀ op ∈ t.left, calls op)
    (hcurrent : ∀ r, t.current = some r → OnTrack P Q (decide (holder = some i)) s.shared r)
    (hreturned : ∀ e ∈ returned,
      Q e.op e.result e.seen e.written ∧ ∀ state ∈ e.seen, P.Always state) :
    Sound P calls Q { s.put i t with holder, output, returned } where
  always := hs.always
  free := hfree
  holder j hj := by
    by_cases hji : j = i
    · subst hji
      simpa [System.put] using hholder hj
    · simpa [System.put, Function.update_of_ne hji] using hs.holder j ((hothers j hji).mp hj)
  left j := by
    by_cases hji : j = i
    · subst hji
      simpa [System.put] using hleft
    · simpa [System.put, Function.update_of_ne hji] using hs.left j
  current j r hr := by
    by_cases hji : j = i
    · subst hji
      exact hcurrent r (by simpa [System.put] using hr)
    · have hold := hs.current j r (by simpa [System.put, Function.update_of_ne hji] using hr)
      rwa [← decide_eq_decide.mpr (hothers j hji)] at hold
  returned := hreturned

/-- What an action is to the other threads: nothing, or an allowed change. -/
theorem note (hs : Sound P calls Q s) {i j : ι} (hji : j ≠ i) {state : σ}
    (halways : P.Always state)
    (hstate : state = s.shared ∨ s.holder = some i ∧ P.Allowed s.shared state)
    {r : Running σ ω α Op} (hr : (s.thread j).current = some r) :
    OnTrack P Q (decide (s.holder = some j)) state { r with seen := insert state r.seen } := by
  obtain ⟨hnow, hseen, hmeets⟩ := hs.current j r hr
  rcases hstate with rfl | ⟨hi, hallowed⟩
  · rw [Set.insert_eq_of_mem hnow]
    exact ⟨hnow, hseen, hmeets⟩
  · refine ⟨Set.mem_insert .., Set.forall_mem_insert.mpr ⟨halways, hseen⟩, ?_⟩
    -- the thread that acts holds the mutex, so this one does not
    have hj : decide (s.holder = some j) = false := by
      simpa [hi] using fun h => hji h.symm
    exact hmeets.later (.step (.refl _) hj hallowed)

theorem act (hs : Sound P calls Q s) {i : ι} {r : Running σ ω α Op} {effect : σ → σ}
    {rest : σ → Code σ ω α} (hr : (s.thread i).current = some r) (hcode : r.code = .act effect rest) :
    Sound P calls Q
      { s with
        shared := effect s.shared
        thread := fun j =>
          (Function.update s.thread i
            ⟨(s.thread i).left, some { r with code := rest s.shared }⟩ j).note (effect s.shared) } := by
  obtain ⟨hnow, hseen, hmeets⟩ := hs.current i r hr
  rw [hcode] at hmeets
  obtain ⟨hstate, hrest⟩ := hmeets _ (.refl _)
  replace hstate : effect s.shared = s.shared ∨
      s.holder = some i ∧ P.Allowed s.shared (effect s.shared) := by simpa using hstate
  have halways : P.Always (effect s.shared) := by
    rcases hstate with heq | ⟨-, hallowed⟩
    · exact heq.symm ▸ hs.always
    · exact P.always_of_allowed hs.always hallowed
  refine ⟨halways, ?_, ?_, ?_, ?_, hs.returned⟩
  · intro (hholder : s.holder = none)
    rcases hstate with heq | ⟨hi, -⟩
    · exact heq.symm ▸ hs.free hholder
    · -- only the thread that holds the mutex may have changed the state
      simp [hholder] at hi
  · intro j hj
    by_cases hji : j = i
    · subst hji
      simp [Thread.note]
    · simpa [Thread.note, Function.update_of_ne hji] using hs.holder j hj
  · intro j
    by_cases hji : j = i
    · subst hji
      simpa using hs.left j
    · simpa [Function.update_of_ne hji] using hs.left j
  · intro j r' hr'
    by_cases hji : j = i
    · subst hji
      obtain rfl : { r with code := rest s.shared, seen := insert (effect s.shared) r.seen } = r' := by
        simpa [Thread.note] using hr'
      exact ⟨Set.mem_insert .., Set.forall_mem_insert.mpr ⟨halways, hseen⟩, hrest⟩
    · obtain ⟨r₀, hr₀, rfl⟩ : ∃ r₀, (s.thread j).current = some r₀ ∧
          { r₀ with seen := insert (effect s.shared) r₀.seen } = r' := by
        simpa [Thread.note, Function.update_of_ne hji] using hr'
      exact hs.note hji halways hstate hr₀

/-- **One step** of any thread. -/
theorem step {body : Op → Code σ ω α} (hbody : Keeps P body calls Q) (hs : Sound P calls Q s)
    {i : ι} {s' : System ι σ ω α Op} (hstep : Step body s i s') : Sound P calls Q s' := by
  -- the mutex passes between this thread and nobody
  have hothers {holder : Option ι} (h : holder = none ∨ holder = some i)
      (hi : s.holder = none ∨ s.holder = some i) :
      ∀ j, j ≠ i → (holder = some j ↔ s.holder = some j) := by
    intro j hji
    rcases h with rfl | rfl <;> rcases hi with hi | hi <;> simp [hi, Ne.symm hji]
  cases hstep with
  | idle => exact hs
  | @begins op left hcurrent hleft =>
      have hops := hs.left i
      rw [hleft] at hops
      have hholder : s.holder ≠ some i := fun h => by simpa [hcurrent] using hs.holder i h
      refine hs.put hs.free (fun _ _ => .rfl) (fun _ => rfl)
        (fun op' hop' => hops op' (List.mem_cons_of_mem _ hop')) ?_ hs.returned
      rintro r ⟨⟩
      rw [decide_eq_false hholder]
      refine ⟨Set.mem_singleton _, ?_, hbody op (hops op (List.mem_cons_self ..)) _ hs.always⟩
      rintro state rfl
      exact hs.always
  | returns hr hcode =>
      obtain ⟨hnow, hseen, hmeets⟩ := hs.current i _ hr
      rw [hcode] at hmeets
      obtain ⟨hholding, hspec⟩ := hmeets _ (.refl _)
      refine hs.put hs.free (fun _ _ => .rfl) ?_ (hs.left i) (fun _ h => by cases h) ?_
      · intro (h : s.holder = some i)
        simp [h] at hholding
      · intro e he
        rcases List.mem_append.mp he with he | he
        · exact hs.returned e he
        · obtain rfl := List.mem_singleton.mp he
          exact ⟨hspec, hseen⟩
  | acts hr hcode => exact hs.act hr hcode
  | emits hr hcode =>
      obtain ⟨hnow, hseen, hmeets⟩ := hs.current i _ hr
      rw [hcode] at hmeets
      refine hs.put hs.free (fun _ _ => .rfl) (fun _ => rfl) (hs.left i) ?_ hs.returned
      rintro r' ⟨⟩
      exact ⟨hnow, hseen, hmeets _ (.refl _)⟩
  | locks hr hcode hfree =>
      obtain ⟨hnow, hseen, hmeets⟩ := hs.current i _ hr
      rw [hcode] at hmeets
      refine hs.put (by simp) (hothers (.inr rfl) (.inl hfree)) (fun _ => rfl) (hs.left i) ?_
        hs.returned
      rintro r' ⟨⟩
      exact ⟨hnow, hseen, by simpa [View.locked] using hmeets.2 _ (.refl _) (hs.free hfree)⟩
  | unlocks hr hcode =>
      obtain ⟨hnow, hseen, hmeets⟩ := hs.current i _ hr
      rw [hcode] at hmeets
      obtain ⟨hholding, hfree, hrest⟩ := hmeets
      refine hs.put (fun _ => hfree) (hothers (.inl rfl) (.inr (by simpa using hholding))) (by simp)
        (hs.left i) ?_ hs.returned
      rintro r' ⟨⟩
      exact ⟨hnow, hseen, by simpa [View.unlocked] using hrest⟩

/-- **Every schedule.** -/
theorem run {body : Op → Code σ ω α} (hbody : Keeps P body calls Q) (schedule : List ι)
    (hs : Sound P calls Q s) : Sound P calls Q (s.run body schedule) :=
  run_of_exec (fun s i hs => hs.step hbody (exec_step body s i)) schedule hs

/-- No call ends by an exception. -/
theorem not_fail (hs : Sound P calls Q s) {i : ι} {r : Running σ ω α Op}
    (hr : (s.thread i).current = some r) : r.code ≠ .fail := by
  intro hcode
  have hmeets := (hs.current i r hr).meets
  rw [hcode] at hmeets
  exact hmeets

end Sound

end

end Threads
