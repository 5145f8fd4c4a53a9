import BranchTalk.Emission.Proc

set_option autoImplicit false

/-! # Runs whose handlers call back

Handlers of a signal may call further methods of the component before the emitting method goes on,
and those calls emit in turn. A run is therefore a stack of calls, each but the innermost waiting
at an emission, and it is driven by two moves: a handler (or, with an empty stack, the outside)
calls a method, or the handlers of the innermost emission are done and its method goes on.

The moves of a finite tree of nested calls, listed in the order in which they happen, are one such
run, and every run that ends with an empty stack comes from one such tree; so a statement about
every run is a statement about every tree, nested to any depth. -/

namespace Emission

/-- A component: its methods, and which of them the handlers of a signal may call. -/
structure Component (σ Op Sig R : Type) where
  exec : Op → Method σ Sig R
  allows : Sig → Op → Bool

/-- A call as the run's log keeps it: the calls in progress when it was entered, innermost first,
    and its result once it has returned. -/
structure Call (Op R : Type) where
  op : Op
  within : List Op
  result : Option R

/-- A call that waits at an emission, with its position in the log, the state it was entered in and
    the rest of its method. -/
structure Frame (σ Op Sig R : Type) where
  call : Nat
  op : Op
  entered : σ
  signal : Sig
  resume : σ → Proc σ Sig R

/-- A run in progress: the state, the waiting calls (innermost first), and every call so far in the
    order in which they were entered. -/
structure Config (σ Op Sig R : Type) where
  state : σ
  stack : List (Frame σ Op Sig R)
  calls : List (Call Op R)

/-- What can happen next: a call is entered, or the innermost emission's handlers are done. -/
inductive Move (Op : Type) where
  | call (op : Op)
  | resume
  deriving DecidableEq

variable {σ Op Sig R : Type}

/-- The run before its first call. -/
def Config.start (s : σ) : Config σ Op Sig R := ⟨s, [], []⟩

/-- Record the result of a call. -/
def Call.finish (r : R) (c : Call Op R) : Call Op R := { c with result := some r }

/-- Let the call at log position `i` run to its next emission or to its end, on top of the calls
    that wait below it. -/
def settle (i : Nat) (op : Op) (entered : σ) (below : List (Frame σ Op Sig R))
    (calls : List (Call Op R)) : Proc σ Sig R → Config σ Op Sig R
  | .done s r => ⟨s, below, calls.modify i (Call.finish r)⟩
  | .emit s sig k => ⟨s, ⟨i, op, entered, sig, k⟩ :: below, calls⟩

theorem mem_settle_stack {i : Nat} {op : Op} {entered : σ} {below : List (Frame σ Op Sig R)}
    {calls : List (Call Op R)} (p : Proc σ Sig R) {f : Frame σ Op Sig R} (hf : f ∈ below) :
    f ∈ (settle i op entered below calls p).stack := by
  cases p with
  | done s r => exact hf
  | emit s sig k => exact List.mem_cons_of_mem _ hf

/-- What holds of the calls below, and of this one wherever it may wait, holds of the stack. -/
theorem forall_mem_settle_stack {i : Nat} {op : Op} {entered : σ} {below : List (Frame σ Op Sig R)}
    {calls : List (Call Op R)} {P : Frame σ Op Sig R → Prop} (hbelow : ∀ f ∈ below, P f)
    (p : Proc σ Sig R) (hp : ∀ s sig k, p = .emit s sig k → P ⟨i, op, entered, sig, k⟩) :
    ∀ f ∈ (settle i op entered below calls p).stack, P f := by
  cases p with
  | done s r => exact hbelow
  | emit s sig k => exact List.forall_mem_cons.mpr ⟨hp s sig k rfl, hbelow⟩

/-- The run after the innermost emission `f` is over. -/
def Config.leave (c : Config σ Op Sig R) (f : Frame σ Op Sig R) (below : List (Frame σ Op Sig R)) :
    Config σ Op Sig R :=
  settle f.call f.op f.entered below c.calls (f.resume c.state)

namespace Component

variable (C : Component σ Op Sig R)

/-- From outside any method may be called; inside an emission, those its signal allows. -/
def permits : List (Frame σ Op Sig R) → Op → Bool
  | [], _ => true
  | f :: _, op => C.allows f.signal op

/-- The run after a method is entered. -/
def enter (c : Config σ Op Sig R) (op : Op) : Config σ Op Sig R :=
  settle c.calls.length op c.state c.stack
    (c.calls ++ [⟨op, c.stack.map Frame.op, none⟩]) ((C.exec op).run c.state)

theorem enter_emit {c : Config σ Op Sig R} {op : Op} {s : σ} {sig : Sig} {k : σ → Proc σ Sig R}
    (h : (C.exec op).run c.state = .emit s sig k) :
    C.enter c op = ⟨s, ⟨c.calls.length, op, c.state, sig, k⟩ :: c.stack,
      c.calls ++ [⟨op, c.stack.map Frame.op, none⟩]⟩ := by
  rw [enter, h]
  rfl

theorem enter_done {c : Config σ Op Sig R} {op : Op} {s : σ} {r : R}
    (h : (C.exec op).run c.state = .done s r) :
    C.enter c op = ⟨s, c.stack, c.calls ++ [⟨op, c.stack.map Frame.op, some r⟩]⟩ := by
  rw [enter, h]
  simp [settle, List.modify_eq_take_drop, Call.finish]

/-- One move of a run. -/
def step (c : Config σ Op Sig R) : Move Op → Option (Config σ Op Sig R)
  | .call op => if C.permits c.stack op then some (C.enter c op) else none
  | .resume =>
      match c.stack with
      | [] => none
      | f :: below => some (c.leave f below)

/-- A run of moves. -/
def run (c : Config σ Op Sig R) : List (Move Op) → Option (Config σ Op Sig R)
  | [] => some c
  | mv :: rest => (C.step c mv).bind fun c' => run c' rest

/-- Every move of the run is made in a configuration that meets `P`. -/
def EachStep (P : Config σ Op Sig R → Move Op → Prop) (c : Config σ Op Sig R) :
    List (Move Op) → Prop
  | [] => True
  | mv :: rest => P c mv ∧ ∀ c', C.step c mv = some c' → EachStep P c' rest

instance EachStep.decidable {P : Config σ Op Sig R → Move Op → Prop} [∀ c mv, Decidable (P c mv)]
    (c : Config σ Op Sig R) : (mvs : List (Move Op)) → Decidable (C.EachStep P c mvs)
  | [] => isTrue trivial
  | mv :: rest =>
      match h : C.step c mv with
      | none => decidable_of_iff (P c mv) (by simp [EachStep, h])
      | some c' =>
          have := EachStep.decidable (P := P) c' rest
          decidable_of_iff (P c mv ∧ C.EachStep P c' rest) (by simp [EachStep, h])

/-- The signal that a move emits, with the state its handlers find. -/
def emits (c : Config σ Op Sig R) : Move Op → Option (Sig × σ)
  | .call op => ((C.exec op).run c.state).emission
  | .resume => c.stack.head?.bind fun f => (f.resume c.state).emission

theorem step_call {c c' : Config σ Op Sig R} {op : Op} (h : C.step c (.call op) = some c') :
    C.permits c.stack op = true ∧ c' = C.enter c op := by
  simp only [step] at h
  split at h
  · next hp => exact ⟨hp, (Option.some.inj h).symm⟩
  · simp at h

theorem step_resume {c c' : Config σ Op Sig R} (h : C.step c .resume = some c') :
    ∃ f below, c.stack = f :: below ∧ c' = c.leave f below := by
  simp only [step] at h
  split at h
  · simp at h
  · next f below hs => exact ⟨f, below, hs, (Option.some.inj h).symm⟩

/-- **Run induction.** What every allowed call and every resumption keeps, under a condition that
    each move meets, holds at the end of the run. -/
theorem run_invariant_of {P : Config σ Op Sig R → Move Op → Prop} {I : Config σ Op Sig R → Prop}
    (hcall : ∀ c op, I c → P c (.call op) → C.permits c.stack op = true → I (C.enter c op))
    (hresume : ∀ c f below, I c → P c .resume → c.stack = f :: below → I (c.leave f below))
    {c c' : Config σ Op Sig R} {mvs : List (Move Op)} (hc : I c) (hP : C.EachStep P c mvs)
    (h : C.run c mvs = some c') : I c' := by
  induction mvs generalizing c with
  | nil =>
      simp only [run, Option.some.injEq] at h
      exact h ▸ hc
  | cons mv rest ih =>
      obtain ⟨hp, hrest⟩ := hP
      simp only [run, Option.bind_eq_some_iff] at h
      obtain ⟨d, hd, h⟩ := h
      refine ih ?_ (hrest d hd) h
      cases mv with
      | call op =>
          obtain ⟨hperm, rfl⟩ := C.step_call hd
          exact hcall c op hc hp hperm
      | resume =>
          obtain ⟨f, below, hs, rfl⟩ := C.step_resume hd
          exact hresume c f below hc hp hs

/-- Every move trivially meets the condition that asks nothing. -/
theorem eachStep_true (c : Config σ Op Sig R) (mvs : List (Move Op)) :
    C.EachStep (fun _ _ => True) c mvs := by
  induction mvs generalizing c with
  | nil => trivial
  | cons mv rest ih => exact ⟨trivial, fun c' _ => ih c'⟩

/-- Two conditions on the moves that agree wherever an invariant of the run holds are met by the
    same runs. -/
theorem eachStep_iff {P Q : Config σ Op Sig R → Move Op → Prop} {I : Config σ Op Sig R → Prop}
    (hcall : ∀ c op, I c → C.permits c.stack op = true → I (C.enter c op))
    (hresume : ∀ c f below, I c → c.stack = f :: below → I (c.leave f below))
    (hPQ : ∀ c mv, I c → (P c mv ↔ Q c mv)) {c : Config σ Op Sig R} (hc : I c)
    (mvs : List (Move Op)) : C.EachStep P c mvs ↔ C.EachStep Q c mvs := by
  induction mvs generalizing c with
  | nil => exact Iff.rfl
  | cons mv rest ih =>
      refine and_congr (hPQ c mv hc) (forall_congr' fun c' => forall_congr' fun hstep => ih ?_)
      cases mv with
      | call op =>
          obtain ⟨hperm, rfl⟩ := C.step_call hstep
          exact hcall c op hc hperm
      | resume =>
          obtain ⟨f, below, hs, rfl⟩ := C.step_resume hstep
          exact hresume c f below hc hs

/-- Run induction without a condition on the moves. -/
theorem run_invariant {I : Config σ Op Sig R → Prop}
    (hcall : ∀ c op, I c → C.permits c.stack op = true → I (C.enter c op))
    (hresume : ∀ c f below, I c → c.stack = f :: below → I (c.leave f below))
    {c c' : Config σ Op Sig R} {mvs : List (Move Op)} (hc : I c) (h : C.run c mvs = some c') :
    I c' :=
  C.run_invariant_of (fun c op hi _ hp => hcall c op hi hp)
    (fun c f below hi _ hs => hresume c f below hi hs) hc (C.eachStep_true c mvs) h

end Component

/-! ## The log and the stack -/

/-- A waiting call as the log sees it. -/
def Frame.entry (f : Frame σ Op Sig R) : Nat × Op := (f.call, f.op)

/-- The log knows the stack: the waiting calls are its unfinished entries, the innermost is the one
    entered last, and every entry after a waiting call was made within it. -/
structure Logged (waiting : List (Nat × Op)) (calls : List (Call Op R)) : Prop where
  unfinished : ∀ w ∈ waiting, ∃ c, calls[w.1]? = some c ∧ c.op = w.2 ∧ c.result = none
  within : ∀ w ∈ waiting, ∀ j c, w.1 < j → calls[j]? = some c → w.2 ∈ c.within
  newest_first : (waiting.map Prod.fst).Pairwise (· > ·)
  only : ∀ i c, calls[i]? = some c → c.result = none → i ∈ waiting.map Prod.fst

theorem getElem?_modify_finish {i : Nat} {r : R} {calls : List (Call Op R)} {j : Nat} {c : Call Op R}
    (h : (calls.modify i (Call.finish r))[j]? = some c) :
    ∃ c₀, calls[j]? = some c₀ ∧ c₀.op = c.op ∧ c₀.within = c.within ∧
      c.result = if i = j then some r else c₀.result := by
  rw [List.getElem?_modify] at h
  cases hj : calls[j]? with
  | none => simp [hj] at h
  | some c₀ =>
      refine ⟨c₀, rfl, ?_⟩
      rw [hj, Option.map_eq_map, Option.map_some, Option.some.injEq] at h
      subst h
      split <;> exact ⟨rfl, rfl, rfl⟩

/-- A run that ends outside every call has finished every call. -/
theorem Logged.finished {calls : List (Call Op R)} (h : Logged [] calls) {i : Nat} {c : Call Op R}
    (hc : calls[i]? = some c) : ∃ r, c.result = some r := by
  cases hr : c.result with
  | some r => exact ⟨r, rfl⟩
  | none => simpa using h.only i c hc hr

/-- The innermost waiting call may finish. -/
theorem Logged.finish {i : Nat} {op : Op} {below : List (Nat × Op)} {calls : List (Call Op R)}
    (h : Logged ((i, op) :: below) calls) (r : R) :
    Logged below (calls.modify i (Call.finish r)) := by
  obtain ⟨hunfinished, hwithin, hnewest, honly⟩ := h
  simp only [List.map_cons, List.pairwise_cons, List.forall_mem_map] at hnewest
  refine ⟨?_, ?_, hnewest.2, ?_⟩
  · intro w hw
    obtain ⟨c, hc, hop, hr⟩ := hunfinished w (List.mem_cons_of_mem _ hw)
    have hne : i ≠ w.1 := Nat.ne_of_gt (hnewest.1 w hw)
    exact ⟨c, by simp [hne, hc], hop, hr⟩
  · intro w hw j c hj hc
    obtain ⟨c₀, hc₀, -, hw₀, -⟩ := getElem?_modify_finish hc
    exact hw₀ ▸ hwithin w (List.mem_cons_of_mem _ hw) j c₀ hj hc₀
  · intro j c hc hr
    obtain ⟨c₀, hc₀, -, -, hres⟩ := getElem?_modify_finish hc
    split at hres
    · simp [hr] at hres
    · next hne =>
        have hj := honly j c₀ hc₀ (by rw [← hres, hr])
        exact (List.mem_cons.mp hj).resolve_left (Ne.symm hne)

/-- A waiting call that runs to its next emission, or to its end, leaves the run logged. -/
theorem Logged.settle {i : Nat} {op : Op} {entered : σ} {below : List (Frame σ Op Sig R)}
    {calls : List (Call Op R)} (h : Logged ((i, op) :: below.map Frame.entry) calls)
    (p : Proc σ Sig R) :
    Logged ((settle i op entered below calls p).stack.map Frame.entry)
      (settle i op entered below calls p).calls := by
  cases p with
  | emit s sig k => exact h
  | done s r => exact h.finish r

/-- A call that is entered stands in the log after all others. -/
theorem Logged.enter {waiting : List (Nat × Op)} {calls : List (Call Op R)}
    (h : Logged waiting calls) (op : Op) :
    Logged ((calls.length, op) :: waiting) (calls ++ [⟨op, waiting.map Prod.snd, none⟩]) := by
  have hlt : ∀ w ∈ waiting, w.1 < calls.length := fun w hw => by
    obtain ⟨c, hc, -⟩ := h.unfinished w hw
    exact (List.getElem?_eq_some_iff.mp hc).1
  refine ⟨?_, ?_, ?_, ?_⟩
  · refine List.forall_mem_cons.mpr
      ⟨⟨⟨op, waiting.map Prod.snd, none⟩, by simp, rfl, rfl⟩, fun w hw => ?_⟩
    rw [List.getElem?_append_left (hlt w hw)]
    exact h.unfinished w hw
  · refine List.forall_mem_cons.mpr ⟨fun j c hj hc => ?_, fun w hw j c hj hc => ?_⟩
    · have := (List.getElem?_eq_some_iff.mp hc).1
      simp only [List.length_append, List.length_singleton] at this hj
      omega
    · rw [List.getElem?_append] at hc
      split at hc
      · exact h.within w hw j c hj hc
      · -- the entry just made lists every waiting call
        rw [List.getElem?_singleton] at hc
        split at hc
        · exact Option.some.inj hc ▸ List.mem_map_of_mem hw
        · simp at hc
  · simpa using ⟨fun i op hw => hlt _ hw, by simpa using h.newest_first⟩
  · intro i c hc hr
    rw [List.getElem?_append] at hc
    split at hc
    · exact List.mem_cons_of_mem _ (h.only i c hc hr)
    · have := (List.getElem?_eq_some_iff.mp hc).1
      simp only [List.length_singleton] at this
      exact List.mem_cons.mpr (Or.inl (by omega))

/-- The log of a run knows its stack. -/
def Config.Logged (c : Config σ Op Sig R) : Prop :=
  Emission.Logged (c.stack.map Frame.entry) c.calls

theorem Config.logged_start (s : σ) : (Config.start s : Config σ Op Sig R).Logged := by
  refine ⟨?_, ?_, ?_, ?_⟩ <;> simp [Config.start]

theorem Config.Logged.leave {c : Config σ Op Sig R} {f : Frame σ Op Sig R}
    {below : List (Frame σ Op Sig R)} (h : c.Logged) (hs : c.stack = f :: below) :
    (c.leave f below).Logged := by
  refine Emission.Logged.settle ?_ (f.resume c.state)
  rw [Config.Logged, hs] at h
  exact h

namespace Component

variable (C : Component σ Op Sig R)

theorem logged_enter {c : Config σ Op Sig R} (h : c.Logged) (op : Op) : (C.enter c op).Logged := by
  have henter := Emission.Logged.enter h op
  rw [List.map_map] at henter
  exact henter.settle ((C.exec op).run c.state)

end Component

end Emission
