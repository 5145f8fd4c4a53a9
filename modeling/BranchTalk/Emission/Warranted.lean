import BranchTalk.Emission.Watched

set_option autoImplicit false

/-! # Signals that are warranted

The converse of what an observer asks for: a signal names an item only when the item has changed.
`Observer.names` is read as the claim a signal makes, and a run is warranted when every claim made
in it is true of the states before and after it. -/

namespace Emission

variable {σ Sig Item Val : Type} [DecidableEq Sig]

/-- A method that ran from a state has emitted only warranted signals: the items they name read
    differently before and after, a property signal came once at most, a reset not at all, and a
    call that answered `false` has done nothing. -/
structure Warranted (O : Observer σ Sig Item Val) (property reset : Sig → Prop) (s : σ)
    (ran : Quiet σ Sig Bool) : Prop where
  differs : ∀ e ∈ ran.signals, ∀ item, O.names e.1 item = true →
    O.read ran.state item ≠ O.read s item
  once : ∀ sig, property sig → (ran.signals.map Prod.fst).count sig ≤ 1
  noReset : ∀ e ∈ ran.signals, ¬ reset e.1
  rejected : ran.result = false → ran.state = s ∧ ran.signals = []

variable {O : Observer σ Sig Item Val} {property reset : Sig → Prop}

/-- Signals that are no property's, with one other at most, hold each property signal once at most. -/
theorem count_le_one (items : List Sig) {last : List Sig} (hitems : ∀ sig ∈ items, ¬ property sig)
    (hlast : last.length ≤ 1) (sig : Sig) (hsig : property sig) : (items ++ last).count sig ≤ 1 := by
  have hnone : items.count sig = 0 := List.count_eq_zero.mpr fun hmem => hitems sig hmem hsig
  rw [List.count_append, hnone, Nat.zero_add]
  exact Nat.le_trans List.count_le_length hlast

theorem Warranted.nothing (s : σ) (r : Bool) : Warranted O property reset s ⟨s, r, []⟩ where
  differs := by simp
  once := by simp
  noReset := by simp
  rejected _ := ⟨rfl, rfl⟩

/-- An accepted call, from the signals it emitted. -/
theorem Warranted.accepted {s : σ} {ran : Quiet σ Sig Bool} (hresult : ran.result = true)
    {sigs : List Sig} (hsigs : ran.signals.map Prod.fst = sigs)
    (hdiffers : ∀ sig ∈ sigs, ∀ item, O.names sig item = true →
      O.read ran.state item ≠ O.read s item)
    (honce : ∀ sig, property sig → sigs.count sig ≤ 1) (hreset : ∀ sig ∈ sigs, ¬ reset sig) :
    Warranted O property reset s ran where
  differs e he := hdiffers e.1 (hsigs ▸ List.mem_map_of_mem he)
  once sig hsig := by
    rw [hsigs]
    exact honce sig hsig
  noReset e he := hreset e.1 (hsigs ▸ List.mem_map_of_mem he)
  rejected hfalse := absurd (hresult.symm.trans hfalse) (by decide)

end Emission
