import BranchTalk.Emission.Nested

set_option autoImplicit false

/-! # Prompt components and their observers

A component is prompt when every method changes the state before its first signal only, so that
nested calls find it finished. Two things follow for every tree of nested calls. The state is that
of the same calls made one after another, in the order in which they were entered. And an observer
that re-reads an item of the state only when a signal names it is up to date in the end, provided
that every method announces what it changed: a change that is not yet observed has a waiting
emission that will have it re-read. -/

namespace Emission

variable {σ Op Sig R Item Val : Type}

/-- Whatever the handlers do within `I`, a signal of this kind is still to come. -/
def Proc.Announces (I : σ → Prop) (kind : Sig → Prop) : Proc σ Sig R → Prop
  | .done _ _ => False
  | .emit _ sig k => kind sig ∨ ∀ s, I s → (k s).Announces I kind

theorem Proc.Announces.bind {α β : Type} {I : σ → Prop} {kind : Sig → Prop} {p : Proc σ Sig α}
    (h : p.Announces I kind) (f : α → σ → Proc σ Sig β) : (p.bind f).Announces I kind := by
  induction p with
  | done s a => exact h.elim
  | emit s sig k ih => exact h.imp_right fun hlater s' hs' => ih s' (hlater s' hs')

/-- What is left of a method after its last change. -/
def Proc.Settled (p : Proc σ Sig R) : Prop := ∃ r, p.Passive (fun _ => True) r p.now

/-- Every method changes the state before its first signal only. -/
def Component.Prompt (C : Component σ Op Sig R) : Prop := ∀ s op, ((C.exec op).run s).Settled

/-! ## The state of nested calls -/

/-- The state is that of the calls so far, one after another, and waiting calls will not change it. -/
structure Sequential (C : Component σ Op Sig R) (s₀ : σ) (c : Config σ Op Sig R) : Prop where
  state : c.state = sequence C.exec s₀ (c.calls.map Call.op)
  stack : ∀ f ∈ c.stack, ∃ r, ∀ s, (f.resume s).Passive (fun _ => True) r s

theorem map_op_modify_finish (i : Nat) (r : R) (calls : List (Call Op R)) :
    (calls.modify i (Call.finish r)).map Call.op = calls.map Call.op := by
  refine List.ext_getElem? fun n => ?_
  rw [List.getElem?_map, List.getElem?_map, List.getElem?_modify]
  cases calls[n]? with
  | none => rfl
  | some c => simp only [Option.map_eq_map, Option.map_some]; split <;> rfl

theorem settle_state (i : Nat) (op : Op) (entered : σ) (below : List (Frame σ Op Sig R))
    (calls : List (Call Op R)) (p : Proc σ Sig R) :
    (settle i op entered below calls p).state = p.now ∧
    (settle i op entered below calls p).calls.map Call.op = calls.map Call.op := by
  cases p with
  | done s r => exact ⟨rfl, map_op_modify_finish i r calls⟩
  | emit s sig k => exact ⟨rfl, rfl⟩

/-- A settled method leaves only waiting calls that change nothing. -/
theorem settle_stack_passive {i : Nat} {op : Op} {entered : σ} {below : List (Frame σ Op Sig R)}
    {calls : List (Call Op R)} {p : Proc σ Sig R} {r : R} {s : σ}
    (hp : p.Passive (fun _ => True) r s)
    (hbelow : ∀ f ∈ below, ∃ r, ∀ s, (f.resume s).Passive (fun _ => True) r s) :
    ∀ f ∈ (settle i op entered below calls p).stack,
      ∃ r, ∀ s, (f.resume s).Passive (fun _ => True) r s := by
  refine forall_mem_settle_stack hbelow p ?_
  rintro s' sig k rfl
  exact ⟨r, hp.2.2⟩

/-- **Nested calls of a prompt component** leave the state of the same calls made one after another,
    in the order in which they were entered. -/
theorem Component.Prompt.state_eq_sequence {C : Component σ Op Sig R} (hC : C.Prompt) {s₀ : σ}
    {mvs : List (Move Op)} {c : Config σ Op Sig R} (h : C.run (Config.start s₀) mvs = some c) :
    c.state = sequence C.exec s₀ (c.calls.map Call.op) := by
  refine (C.run_invariant (I := Sequential C s₀) (fun c op hc _ => ?_)
    (fun c f below hc hs => ?_) ⟨rfl, by simp [Config.start]⟩ h).state
  · obtain ⟨r, hp⟩ := hC c.state op
    obtain ⟨hstate, hcalls⟩ := settle_state c.calls.length op c.state c.stack
      (c.calls ++ [⟨op, c.stack.map Frame.op, none⟩]) ((C.exec op).run c.state)
    refine ⟨?_, settle_stack_passive hp hc.stack⟩
    rw [enter, hstate, hcalls, List.map_append, List.map_cons, List.map_nil, sequence_concat,
      ← hc.state, hp.quiet_state]
  · have hstack := hc.stack
    rw [hs] at hstack
    obtain ⟨⟨r, hp⟩, hbelow⟩ := List.forall_mem_cons.mp hstack
    obtain ⟨hstate, hcalls⟩ := settle_state f.call f.op f.entered below c.calls (f.resume c.state)
    have hnow := (hp c.state).now_eq
    refine ⟨?_, settle_stack_passive (hp c.state) hbelow⟩
    rw [Config.leave, hstate, hcalls, hnow]
    exact hc.state

/-! ## An observer among the handlers -/

/-- An observer keeps a copy of some items of the state and re-reads those that a signal names. -/
structure Observer (σ Sig Item Val : Type) where
  read : σ → Item → Val
  names : Sig → Item → Bool

/-- The copy after the observer's reaction to a signal. -/
def Observer.react (O : Observer σ Sig Item Val) (sig : Sig) (s : σ) (view : Item → Val) :
    Item → Val :=
  fun item => if O.names sig item then O.read s item else view item

/-- A method with an observer connected to its signals: at each emission some handlers run before
    the observer and some after it. -/
def Proc.watch (O : Observer σ Sig Item Val) :
    Proc σ Sig R → (Item → Val) → Proc (σ × (Item → Val)) Sig R
  | .done s r, view => .done (s, view) r
  | .emit s sig k, view =>
      .emit (s, view) sig fun before =>
        .emit (before.1, O.react sig before.1 before.2) sig fun after =>
          (k after.1).watch O after.2

/-- The component together with the observer's copy. -/
def Component.watched (C : Component σ Op Sig R) (O : Observer σ Sig Item Val) :
    Component (σ × (Item → Val)) Op Sig R where
  exec op := fun s => ((C.exec op).run s.1).watch O s.2
  allows := C.allows

/-- A method of the watched component that leaves the state alone and changes the copy only by
    re-reading. -/
def Proc.Copies (O : Observer σ Sig Item Val) :
    Proc (σ × (Item → Val)) Sig R → σ × (Item → Val) → Prop
  | .done now _, s =>
      now.1 = s.1 ∧ ∀ item, now.2 item = s.2 item ∨ now.2 item = O.read s.1 item
  | .emit now _ k, s =>
      (now.1 = s.1 ∧ ∀ item, now.2 item = s.2 item ∨ now.2 item = O.read s.1 item) ∧
      ∀ s', (k s').Copies O s'

/-- The item is copied as it is now, or it will be, whatever the handlers do within `I`. -/
def Proc.WillRead (I : σ → Prop) (O : Observer σ Sig Item Val) (item : Item) :
    Proc (σ × (Item → Val)) Sig R → Prop
  | .done now _ => now.2 item = O.read now.1 item
  | .emit now _ k => now.2 item = O.read now.1 item ∨ ∀ s, I s.1 → (k s).WillRead I O item

theorem Proc.Copies.now_eq {O : Observer σ Sig Item Val} {p : Proc (σ × (Item → Val)) Sig R}
    {s : σ × (Item → Val)} (h : p.Copies O s) :
    p.now.1 = s.1 ∧ ∀ item, p.now.2 item = s.2 item ∨ p.now.2 item = O.read s.1 item := by
  cases p with
  | done now r => exact h
  | emit now sig k => exact h.1

theorem Proc.Passive.copies_watch (O : Observer σ Sig Item Val) {kind : Sig → Prop} {r : R}
    {p : Proc σ Sig R} {s : σ} (h : p.Passive kind r s) (view : Item → Val) :
    (p.watch O view).Copies O (s, view) := by
  induction p generalizing s view with
  | done s' r' => exact ⟨h.1, fun _ => Or.inl rfl⟩
  | emit s' sig k ih =>
      obtain ⟨hs, -, hk⟩ := h
      refine ⟨⟨hs, fun _ => Or.inl rfl⟩, fun before => ⟨⟨rfl, fun item => ?_⟩, fun after =>
        ih after.1 (hk after.1) after.2⟩⟩
      by_cases hn : O.names sig item
      · exact Or.inr (if_pos hn)
      · exact Or.inl (if_neg hn)

theorem Proc.Announces.willRead_watch {I : σ → Prop} {O : Observer σ Sig Item Val} {item : Item}
    {p : Proc σ Sig R} (h : p.Announces I fun sig => O.names sig item = true) (view : Item → Val) :
    (p.watch O view).WillRead I O item := by
  induction p generalizing view with
  | done s r => exact h.elim
  | emit s sig k ih =>
      rcases h with hnames | hlater
      · exact Or.inr fun _ _ => Or.inl (if_pos hnames)
      · exact Or.inr fun _ _ => Or.inr fun after hI => ih after.1 (hlater after.1 hI) after.2

/-- The waiting call will yet have the item re-read. -/
def Due (I : σ → Prop) (O : Observer σ Sig Item Val) (item : Item)
    (f : Frame (σ × (Item → Val)) Op Sig R) : Prop :=
  ∀ s, I s.1 → (f.resume s).WillRead I O item

/-- Every item is copied as it is, or a waiting call will have it re-read. -/
structure Current (I : σ → Prop) (O : Observer σ Sig Item Val)
    (c : Config (σ × (Item → Val)) Op Sig R) : Prop where
  inv : I c.state.1
  stack : ∀ f ∈ c.stack, ∀ s, (f.resume s).Copies O s
  items : ∀ item, c.state.2 item = O.read c.state.1 item ∨ ∃ f ∈ c.stack, Due I O item f

/-- A call that runs to its next emission or to its end leaves every item copied or due, when it
    leaves each one copied, to be re-read by itself, or due already. -/
theorem Current.settle {I : σ → Prop} {O : Observer σ Sig Item Val} {i : Nat} {op : Op}
    {entered : σ × (Item → Val)} {below : List (Frame (σ × (Item → Val)) Op Sig R)}
    {calls : List (Call Op R)} {p : Proc (σ × (Item → Val)) Sig R} {s : σ × (Item → Val)}
    (hI : I p.now.1) (hbelow : ∀ f ∈ below, ∀ s, (f.resume s).Copies O s) (hp : p.Copies O s)
    (hitems : ∀ item, p.now.2 item = O.read p.now.1 item ∨ p.WillRead I O item ∨
      ∃ f ∈ below, Due I O item f) :
    Current I O (settle i op entered below calls p) := by
  cases p with
  | done now r => exact ⟨hI, hbelow, fun item => (hitems item).elim Or.inl id⟩
  | emit now sig k =>
      refine ⟨hI, List.forall_mem_cons.mpr ⟨hp.2, hbelow⟩, ?_⟩
      intro item
      rcases hitems item with hnow | (hnow | hlater) | ⟨f, hf, hdue⟩
      · exact Or.inl hnow
      · exact Or.inl hnow
      · exact Or.inr ⟨_, List.mem_cons_self .., hlater⟩
      · exact Or.inr ⟨f, List.mem_cons_of_mem _ hf, hdue⟩

/-- **An observer of a prompt component is up to date** once the outermost call has returned, when
    every method announces each item that it changes. -/
theorem Component.Prompt.view_eq_of_run {C : Component σ Op Sig R} (hC : C.Prompt) {I : σ → Prop}
    (hI : ∀ s op, I s → I ((C.exec op).run s).now) {O : Observer σ Sig Item Val}
    (hO : ∀ s op item, I s → O.read ((C.exec op).run s).now item = O.read s item ∨
      ((C.exec op).run s).Announces I fun sig => O.names sig item = true)
    {s₀ : σ} (hs₀ : I s₀) {mvs : List (Move Op)} {c : Config (σ × (Item → Val)) Op Sig R}
    (h : (C.watched O).run (Config.start (s₀, O.read s₀)) mvs = some c) (hstack : c.stack = []) :
    c.state.2 = O.read c.state.1 := by
  have hcurrent := (C.watched O).run_invariant (I := Current I O) (fun c op hc _ => ?_)
    (fun c f below hc hs => ?_) ⟨hs₀, by simp [Config.start], fun _ => Or.inl rfl⟩ h
  · funext item
    exact (hcurrent.items item).resolve_right (by simp [hstack])
  · obtain ⟨r, hp⟩ := hC c.state.1 op
    have hnow : (((C.exec op).run c.state.1).watch O c.state.2).now
        = (((C.exec op).run c.state.1).now, c.state.2) := by
      cases (C.exec op).run c.state.1 <;> rfl
    refine Current.settle (p := ((C.exec op).run c.state.1).watch O c.state.2) ?_ hc.stack
      (hp.copies_watch O c.state.2) fun item => ?_
    · rw [hnow]
      exact hI _ op hc.inv
    · rw [hnow]
      rcases hO c.state.1 op item hc.inv with hsame | hann
      · rcases hc.items item with hcopied | hdue
        · exact Or.inl (hcopied.trans hsame.symm)
        · exact Or.inr (Or.inr hdue)
      · exact Or.inr (Or.inl (hann.willRead_watch c.state.2))
  · have hframes := hc.stack
    have hitems := hc.items
    rw [hs] at hframes hitems
    obtain ⟨hf, hbelow⟩ := List.forall_mem_cons.mp hframes
    obtain ⟨hstate, hview⟩ := (hf c.state).now_eq
    refine Current.settle (by rw [hstate]; exact hc.inv) hbelow (hf c.state) fun item => ?_
    rcases hitems item with hcopied | ⟨g, hg, hdue⟩
    · rw [hstate]
      exact Or.inl ((hview item).elim (fun hv => hv.trans hcopied) id)
    · rcases List.mem_cons.mp hg with rfl | hg
      · exact Or.inr (Or.inl (hdue c.state hc.inv))
      · exact Or.inr (Or.inr ⟨g, hg, hdue⟩)

end Emission
