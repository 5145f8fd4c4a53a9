set_option autoImplicit false

/-! # Methods that emit signals

A component keeps a state and its methods emit signals. Handlers connected to a signal run inside
the emission, so at that point they see the state as it is then, and they may call back and change
it before the method goes on.

`Proc` records exactly this: a method either is done, or stands at an emission and continues from
whatever state the handlers leave behind. `Method` is the monad in which methods are written, and
`Proc.quiet` is the run in which every handler only reads. -/

namespace Emission

variable {σ Sig R α β : Type}

/-- A method in progress: finished in a state with its result, or standing at the emission of a
    signal and waiting for the state its handlers leave. -/
inductive Proc (σ Sig R : Type) where
  | done (state : σ) (result : R)
  | emit (state : σ) (signal : Sig) (resume : σ → Proc σ Sig R)

/-- The state up to which the method has run: final, or the one its handlers find. -/
def Proc.now : Proc σ Sig R → σ
  | .done s _ => s
  | .emit s _ _ => s

/-- Run a second part from the result of the first and the state it leaves. -/
def Proc.bind : Proc σ Sig α → (α → σ → Proc σ Sig β) → Proc σ Sig β
  | .done s a, f => f a s
  | .emit s sig k, f => .emit s sig (fun s' => (k s').bind f)

/-- What is left of a method that changes nothing any more: it emits only signals of one kind, its
    handlers find the state it was resumed in, and it ends with the result `r` in the state the
    last of them leave. -/
def Proc.Passive (kind : Sig → Prop) (r : R) : Proc σ Sig R → σ → Prop
  | .done s' r', s => s' = s ∧ r' = r
  | .emit s' sig k, s => s' = s ∧ kind sig ∧ ∀ s'', (k s'').Passive kind r s''

theorem Proc.Passive.now_eq {kind : Sig → Prop} {r : R} {p : Proc σ Sig R} {s : σ}
    (h : p.Passive kind r s) : p.now = s := by
  cases p with
  | done s' r' => exact h.1
  | emit s' sig k => exact h.1

theorem Proc.Passive.bind {kind : Sig → Prop} {a : α} {r : β} {p : Proc σ Sig α} {s : σ}
    (h : p.Passive kind a s) {f : α → σ → Proc σ Sig β} (hf : ∀ s', (f a s').Passive kind r s') :
    (p.bind f).Passive kind r s := by
  induction p generalizing s with
  | done s' a' =>
      obtain ⟨rfl, rfl⟩ := h
      exact hf s'
  | emit s' sig k ih => exact ⟨h.1, h.2.1, fun s'' => ih s'' (h.2.2 s'')⟩

theorem Proc.Passive.mono {kind kind' : Sig → Prop} (hkind : ∀ sig, kind sig → kind' sig) {r : R}
    {p : Proc σ Sig R} {s : σ} (h : p.Passive kind r s) : p.Passive kind' r s := by
  induction p generalizing s with
  | done s' r' => exact h
  | emit s' sig k ih => exact ⟨h.1, hkind sig h.2.1, fun s'' => ih s'' (h.2.2 s'')⟩

/-- Whatever the handlers do, only signals of this kind are emitted. -/
def Proc.Only (kind : Sig → Prop) : Proc σ Sig R → Prop
  | .done _ _ => True
  | .emit _ sig k => kind sig ∧ ∀ s, (k s).Only kind

/-- The signal a method stands at, with the state its handlers find. -/
def Proc.emission : Proc σ Sig R → Option (Sig × σ)
  | .done _ _ => none
  | .emit s sig _ => some (sig, s)

theorem Proc.Only.emission {kind : Sig → Prop} {p : Proc σ Sig R} (h : p.Only kind) {sig : Sig}
    {s : σ} (hp : p.emission = some (sig, s)) : kind sig := by
  cases p with
  | done s' r => simp [Proc.emission] at hp
  | emit s' sig' k =>
      obtain ⟨rfl, -⟩ := Prod.mk.inj (Option.some.inj hp)
      exact h.1

/-! ## The monad of methods -/

/-- A method starts in the state it is called in. -/
def Method (σ Sig α : Type) : Type := σ → Proc σ Sig α

namespace Method

/-- The method's run from a state. -/
def run (m : Method σ Sig α) (s : σ) : Proc σ Sig α := m s

instance : Monad (Method σ Sig) where
  pure a := fun s => .done s a
  bind m f := fun s => (m.run s).bind fun a s' => (f a).run s'

instance : MonadStateOf σ (Method σ Sig) where
  get := fun s => .done s s
  set s := fun _ => .done s ()
  modifyGet f := fun s => .done (f s).2 (f s).1

/-- Emit a signal: its handlers run here. -/
def emit (sig : Sig) : Method σ Sig Unit := fun s => .emit s sig fun s' => .done s' ()

@[simp] theorem run_pure (a : α) (s : σ) : (pure a : Method σ Sig α).run s = .done s a := rfl

@[simp] theorem run_bind (m : Method σ Sig α) (f : α → Method σ Sig β) (s : σ) :
    (m >>= f).run s = (m.run s).bind fun a s' => (f a).run s' := rfl

@[simp] theorem run_get (s : σ) : (get : Method σ Sig σ).run s = .done s s := rfl

@[simp] theorem run_modify (f : σ → σ) (s : σ) :
    (modify f : Method σ Sig Unit).run s = .done (f s) () := rfl

@[simp] theorem run_emit (sig : Sig) (s : σ) :
    (emit sig : Method σ Sig Unit).run s = .emit s sig fun s' => .done s' () := rfl

@[simp] theorem run_ite (c : Prop) [Decidable c] (m n : Method σ Sig α) (s : σ) :
    (if c then m else n).run s = if c then m.run s else n.run s := by
  split <;> rfl

end Method

@[simp] theorem Proc.bind_done (s : σ) (a : α) (f : α → σ → Proc σ Sig β) :
    (Proc.done s a).bind f = f a s := rfl

@[simp] theorem Proc.bind_emit (s : σ) (sig : Sig) (k : σ → Proc σ Sig α)
    (f : α → σ → Proc σ Sig β) :
    (Proc.emit s sig k).bind f = .emit s sig fun s' => (k s').bind f := rfl

/-! ## Runs whose handlers only read -/

/-- What a method did while no handler called back: the state it left, its result, and every
    signal it emitted together with the state its handlers found. -/
structure Quiet (σ Sig R : Type) where
  state : σ
  result : R
  signals : List (Sig × σ)

/-- Run a method to its end with handlers that only read. -/
def Proc.quiet : Proc σ Sig R → Quiet σ Sig R
  | .done s r => ⟨s, r, []⟩
  | .emit s sig k =>
      let rest := (k s).quiet
      ⟨rest.state, rest.result, (sig, s) :: rest.signals⟩

@[simp] theorem Proc.quiet_done (s : σ) (r : R) :
    (Proc.done s r : Proc σ Sig R).quiet = ⟨s, r, []⟩ := rfl

@[simp] theorem Proc.quiet_emit (s : σ) (sig : Sig) (k : σ → Proc σ Sig R) :
    (Proc.emit s sig k).quiet =
      ⟨(k s).quiet.state, (k s).quiet.result, (sig, s) :: (k s).quiet.signals⟩ := rfl

theorem Proc.Passive.quiet_state {kind : Sig → Prop} {r : R} {p : Proc σ Sig R} {s : σ}
    (h : p.Passive kind r s) : p.quiet.state = s := by
  induction p generalizing s with
  | done s' r' => exact h.1
  | emit s' sig k ih =>
      obtain ⟨rfl, -, hk⟩ := h
      exact ih s' (hk s')

theorem Proc.Passive.quiet_result {kind : Sig → Prop} {r : R} {p : Proc σ Sig R} {s : σ}
    (h : p.Passive kind r s) : p.quiet.result = r := by
  induction p generalizing s with
  | done s' r' => exact h.2
  | emit s' sig k ih =>
      obtain ⟨rfl, -, hk⟩ := h
      exact ih s' (hk s')

/-- Every handler of a method that changes nothing any more finds the same state. -/
theorem Proc.Passive.quiet_signals {kind : Sig → Prop} {r : R} {p : Proc σ Sig R} {s : σ}
    (h : p.Passive kind r s) : ∀ e ∈ p.quiet.signals, kind e.1 ∧ e.2 = s := by
  induction p generalizing s with
  | done s' r' => simp
  | emit s' sig k ih =>
      obtain ⟨rfl, hsig, hk⟩ := h
      exact List.forall_mem_cons.mpr ⟨⟨hsig, rfl⟩, ih s' (hk s')⟩

/-- Run methods one after another, each to its end, with handlers that only read. -/
def sequence {Op : Type} (exec : Op → Method σ Sig R) (s : σ) (ops : List Op) : σ :=
  ops.foldl (fun s op => ((exec op).run s).quiet.state) s

theorem sequence_append {Op : Type} (exec : Op → Method σ Sig R) (s : σ) (ops ops' : List Op) :
    sequence exec s (ops ++ ops') = sequence exec (sequence exec s ops) ops' := by
  simp [sequence]

theorem sequence_concat {Op : Type} (exec : Op → Method σ Sig R) (s : σ) (ops : List Op) (op : Op) :
    sequence exec s (ops ++ [op]) = ((exec op).run (sequence exec s ops)).quiet.state := by
  simp [sequence]

/-- An invariant kept by every method holds after every sequence of them. -/
theorem sequence_invariant {Op : Type} {exec : Op → Method σ Sig R} {I : σ → Prop}
    (hstep : ∀ s op, I s → I ((exec op).run s).quiet.state) {s : σ} (hs : I s) (ops : List Op) :
    I (sequence exec s ops) := by
  induction ops generalizing s with
  | nil => exact hs
  | cons op rest ih => exact ih (hstep s op hs)

/-! ## Runs with a handler -/

/-- Run a method to its end with a handler that keeps a store of its own and may change the state. -/
def Proc.handled {τ : Type} (handler : Sig → σ × τ → Option (σ × τ)) :
    Proc σ Sig R → τ → Option (σ × τ)
  | .done s _, t => some (s, t)
  | .emit s sig k, t => (handler sig (s, t)).bind fun s' => (k s'.1).handled handler s'.2

/-- A handler that keeps more in its store than another, and otherwise does the same. -/
theorem Proc.handled_map {τ τ' : Type} {f : τ → τ'} {handler : Sig → σ × τ → Option (σ × τ)}
    {handler' : Sig → σ × τ' → Option (σ × τ')}
    (h : ∀ sig s t, (handler sig (s, t)).map (Prod.map id f) = handler' sig (s, f t))
    (p : Proc σ Sig R) (t : τ) :
    (p.handled handler t).map (Prod.map id f) = p.handled handler' (f t) := by
  induction p generalizing t with
  | done s r => rfl
  | emit s sig k ih =>
      rw [Proc.handled, Proc.handled, ← h sig s t]
      cases handler sig (s, t) with
      | none => rfl
      | some now => exact ih now.1 now.2

/-- A handler that does nothing at any signal of a kind is not noticed by a method that emits no
    others and changes nothing. -/
theorem Proc.Passive.handled_eq {τ : Type} {handler : Sig → σ × τ → Option (σ × τ)}
    {kind : Sig → Prop} {r : R} {p : Proc σ Sig R} {s : σ} (h : p.Passive kind r s)
    (hhandler : ∀ sig, kind sig → ∀ now, handler sig now = some now) (t : τ) :
    p.handled handler t = some (s, t) := by
  induction p generalizing s with
  | done s' r' =>
      obtain ⟨rfl, -⟩ := h
      rfl
  | emit s' sig k ih =>
      obtain ⟨rfl, hsig, hk⟩ := h
      rw [Proc.handled, hhandler sig hsig, Option.bind_some]
      exact ih s' (hk s')

end Emission
