import BranchTalk.Emission.Watched

set_option autoImplicit false

/-! # Handlers that leave the state alone

When every handler leaves the state as it finds it, a method that has made its changes runs as if its
handlers only read, and what the handlers keep in their store comes from the signals in order. A
store that re-reads an item on the signals that name it is then up to date after every method that
announces what it changes, whatever else happens to the store. -/

namespace Emission

variable {σ Sig R Item Val τ : Type}

/-- The answer of a method is nothing to its handlers. -/
theorem Proc.handled_bind_done {α β : Type} (handler : Sig → σ × τ → Option (σ × τ)) (f : α → β)
    (p : Proc σ Sig α) (t : τ) :
    (p.bind fun a s => .done s (f a)).handled handler t = p.handled handler t := by
  induction p generalizing t with
  | done s a => rfl
  | emit s sig k ih =>
      rw [Proc.bind_emit, Proc.handled, Proc.handled]
      simp only [ih]

/-- A store that follows the signals of a method alone. -/
theorem Proc.Passive.handled_eq_foldl {handler : Sig → σ × τ → Option (σ × τ)}
    {react : Sig → τ → τ} {kind : Sig → Prop} {r : R} {p : Proc σ Sig R} {s : σ}
    (h : p.Passive kind r s) (hhandler : ∀ sig t, handler sig (s, t) = some (s, react sig t))
    (t : τ) :
    p.handled handler t =
      some (s, (p.quiet.signals.map Prod.fst).foldl (fun t sig => react sig t) t) := by
  induction p generalizing t with
  | done s' r' =>
      obtain ⟨rfl, -⟩ := h
      rfl
  | emit s' sig k ih =>
      obtain ⟨rfl, -, hk⟩ := h
      rw [Proc.handled, hhandler, Option.bind_some]
      exact ih s' (hk s') _

/-- What a method announces is among its signals. -/
theorem Proc.Announces.exists_signal {I : σ → Prop} {announced kind : Sig → Prop} {r : R}
    {p : Proc σ Sig R} {s : σ} (h : p.Announces I announced) (hp : p.Passive kind r s) (hs : I s) :
    ∃ sig ∈ p.quiet.signals.map Prod.fst, announced sig := by
  induction p generalizing s with
  | done s' r' => exact h.elim
  | emit s' sig k ih =>
      obtain ⟨rfl, -, hk⟩ := hp
      rcases h with hnow | hlater
      · exact ⟨sig, List.mem_cons_self .., hnow⟩
      · obtain ⟨sig', hmem, hsig'⟩ := ih s' (hlater s' hs) (hk s') hs
        exact ⟨sig', List.mem_cons_of_mem _ hmem, hsig'⟩

/-- On a signal that names the item the store reads it; otherwise it reads it or keeps it. -/
def Rereads (react : Sig → τ → τ) (kept : τ → Val) (names : Sig → Prop) (read : Val) : Prop :=
  ∀ sig t, kept (react sig t) = read ∨ ¬ names sig ∧ kept (react sig t) = kept t

theorem Rereads.foldl {react : Sig → τ → τ} {kept : τ → Val} {names : Sig → Prop} {read : Val}
    (h : Rereads react kept names read) (signals : List Sig) (t : τ) :
    let t' := signals.foldl (fun t sig => react sig t) t
    kept t' = read ∨ (∀ sig ∈ signals, ¬ names sig) ∧ kept t' = kept t := by
  induction signals generalizing t with
  | nil => exact .inr ⟨by simp, rfl⟩
  | cons sig signals ih =>
      rcases ih (react sig t) with hread | ⟨hnames, hkept⟩
      · exact .inl hread
      · rcases h sig t with hread | ⟨hname, hsame⟩
        · exact .inl (hkept.trans hread)
        · exact .inr ⟨List.forall_mem_cons.mpr ⟨hname, hnames⟩, hkept.trans hsame⟩

/-- **A store that re-reads is up to date** about an item after a method that announces it if it
    changes it; and it is up to date or as before in any case. -/
theorem Rereads.passive {react : Sig → τ → τ} {kept : τ → Val} {names : Sig → Prop} {read : Val}
    (h : Rereads react kept names read) {I : σ → Prop} {kind : Sig → Prop} {r : R}
    {p : Proc σ Sig R} {s : σ} (hp : p.Passive kind r s) (hs : I s) (t : τ) :
    let t' := (p.quiet.signals.map Prod.fst).foldl (fun t sig => react sig t) t
    kept t' = read ∨ ¬ p.Announces I names ∧ kept t' = kept t := by
  intro t'
  refine (h.foldl _ t).imp_right fun ⟨hnames, hkept⟩ => ⟨fun hannounces => ?_, hkept⟩
  obtain ⟨sig, hsig, hname⟩ := hannounces.exists_signal hp hs
  exact hnames sig hsig hname

/-- An observer re-reads. -/
theorem Observer.rereads (O : Observer σ Sig Item Val) (s : σ) (item : Item) :
    Rereads (fun sig view => O.react sig s view) (fun view => view item)
      (fun sig => O.names sig item = true) (O.read s item) := by
  intro sig view
  by_cases hname : O.names sig item = true
  · exact .inl (if_pos hname)
  · exact .inr ⟨hname, if_neg hname⟩

end Emission
