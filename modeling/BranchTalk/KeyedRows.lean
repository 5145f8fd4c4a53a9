import Mathlib.Data.List.Nodup
import Mathlib.Tactic.Push
import Mathlib.Tactic.Ring

set_option autoImplicit false

/-! # Rows found by a key

Lists of rows in which every row carries a key, looked up by a scan from the front. The row number
is an integer, `-1` standing for "no such row". While the keys are pairwise distinct, changing or
erasing the row that the scan finds is changing or dropping every row with that key, so the
positions can be forgotten. -/

namespace KeyedRows

variable {α κ : Type} [DecidableEq κ] (key : α → κ)

/-- The scan, with the number of the row it looks at. -/
def indexFrom (k : κ) (row : Int) : List α → Int
  | [] => -1
  | x :: rest => if key x = k then row else indexFrom k (row + 1) rest

/-- The number of the first row whose key is `k`, or `-1`. -/
def indexOf (k : κ) (rows : List α) : Int := indexFrom key k 0 rows

/-- The scan answers `-1` for an absent key and otherwise the first row that carries it. -/
theorem indexFrom_cases (k : κ) (row : Int) (rows : List α) :
    (indexFrom key k row rows = -1 ∧ ∀ x ∈ rows, key x ≠ k) ∨
    ∃ before x after, rows = before ++ x :: after ∧ key x = k ∧ (∀ y ∈ before, key y ≠ k) ∧
      indexFrom key k row rows = row + before.length := by
  induction rows generalizing row with
  | nil => exact Or.inl ⟨rfl, by simp⟩
  | cons x rest ih =>
      by_cases hx : key x = k
      · exact Or.inr ⟨[], x, rest, rfl, hx, by simp, by simp [indexFrom, hx]⟩
      · rcases ih (row + 1) with ⟨hi, hne⟩ | ⟨before, y, after, rfl, hy, hb, hi⟩
        · refine Or.inl ⟨by simpa [indexFrom, hx] using hi, fun z hz => ?_⟩
          rcases List.mem_cons.mp hz with rfl | hz
          · exact hx
          · exact hne z hz
        · refine Or.inr ⟨x :: before, y, after, rfl, hy, fun z hz => ?_, ?_⟩
          · rcases List.mem_cons.mp hz with rfl | hz
            · exact hx
            · exact hb z hz
          · simp only [indexFrom, if_neg hx, hi, List.length_cons]
            push_cast
            ring

/-- `indexFrom_cases` from the first row: the two answers a caller has to distinguish. -/
theorem indexOf_cases (k : κ) (rows : List α) :
    (indexOf key k rows = -1 ∧ ∀ x ∈ rows, key x ≠ k) ∨
    ∃ before x after, rows = before ++ x :: after ∧ key x = k ∧ (∀ y ∈ before, key y ≠ k) ∧
      indexOf key k rows = before.length := by
  simpa [indexOf] using indexFrom_cases key k 0 rows

theorem indexOf_neg_iff (k : κ) (rows : List α) :
    indexOf key k rows < 0 ↔ ∀ x ∈ rows, key x ≠ k := by
  rcases indexOf_cases key k rows with ⟨hi, hne⟩ | ⟨before, x, after, rfl, hx, -, hi⟩
  · exact ⟨fun _ => hne, fun _ => by rw [hi]; decide⟩
  · refine ⟨?_, fun h => absurd hx (h x (by simp))⟩
    intro h
    rw [hi] at h
    exact absurd h (by omega)

theorem indexOf_nonneg_iff (k : κ) (rows : List α) :
    0 ≤ indexOf key k rows ↔ ∃ x ∈ rows, key x = k := by
  rw [← Int.not_lt, indexOf_neg_iff]
  push Not
  rfl

/-- The row the scan finds carries the key. -/
theorem getElem?_indexOf {k : κ} {rows : List α} (h : 0 ≤ indexOf key k rows) :
    ∃ x, rows[(indexOf key k rows).toNat]? = some x ∧ key x = k := by
  rcases indexOf_cases key k rows with ⟨hi, -⟩ | ⟨before, x, after, rfl, hx, -, hi⟩
  · rw [hi] at h
    exact absurd h (by decide)
  · refine ⟨x, ?_, hx⟩
    rw [hi, Int.toNat_natCast, List.getElem?_append_right (le_refl _), Nat.sub_self,
      List.getElem?_cons_zero]

/-- The row the scan finds lies within the rows. -/
theorem indexOf_lt_length (k : κ) (rows : List α) : indexOf key k rows < rows.length := by
  rcases indexOf_cases key k rows with ⟨hi, -⟩ | ⟨before, x, after, rfl, -, -, hi⟩
  · rw [hi]; omega
  · rw [hi, List.length_append, List.length_cons]; omega

/-- The scan looks at keys only. -/
theorem indexOf_map (k : κ) (rows : List α) : indexOf id k (rows.map key) = indexOf key k rows := by
  unfold indexOf
  generalize (0 : Int) = row
  induction rows generalizing row with
  | nil => rfl
  | cons x rest ih => simp only [List.map_cons, indexFrom, ih, id]

/-! ## Distinct keys -/

omit [DecidableEq κ] in
/-- Keys that occur once: the two halves around a row do not carry its key. -/
theorem ne_of_nodup {before after : List α} {x : α}
    (h : ((before ++ x :: after).map key).Nodup) :
    (∀ y ∈ before, key y ≠ key x) ∧ ∀ y ∈ after, key y ≠ key x := by
  simp only [List.map_append, List.map_cons, List.nodup_append, List.nodup_cons,
    List.mem_cons, List.mem_map] at h
  obtain ⟨-, ⟨hafter, -⟩, hbefore⟩ := h
  exact ⟨fun y hy he => hbefore _ ⟨y, hy, rfl⟩ _ (Or.inl rfl) he, fun y hy he => hafter ⟨y, hy, he⟩⟩

theorem indexFrom_append_cons {before after : List α} {x : α} {k : κ} (hx : key x = k)
    (hb : ∀ y ∈ before, key y ≠ k) (row : Int) :
    indexFrom key k row (before ++ x :: after) = row + before.length := by
  induction before generalizing row with
  | nil => simp [indexFrom, hx]
  | cons y rest ih =>
      rw [List.cons_append, indexFrom, if_neg (hb y (List.mem_cons_self ..)),
        ih (fun z hz => hb z (List.mem_cons_of_mem _ hz)), List.length_cons]
      push_cast
      ring

/-- With distinct keys every row is the one its own key finds. -/
theorem indexOf_of_getElem? {rows : List α} (h : (rows.map key).Nodup) {n : ℕ} {x : α}
    (hn : rows[n]? = some x) : indexOf key (key x) rows = n := by
  obtain ⟨hlt, hx⟩ := List.getElem?_eq_some_iff.mp hn
  have hsplit : rows = rows.take n ++ x :: rows.drop (n + 1) := by
    rw [← hx, List.getElem_cons_drop, List.take_append_drop]
  have hb := (ne_of_nodup key (hsplit ▸ h)).1
  have hlen : (rows.take n).length = n := by rw [List.length_take]; omega
  calc indexOf key (key x) rows
      = indexOf key (key x) (rows.take n ++ x :: rows.drop (n + 1)) := by rw [← hsplit]
    _ = n := by rw [indexOf, indexFrom_append_cons key rfl hb, hlen]; simp

/-- Erasing the row found by a key drops the rows with that key. -/
theorem eraseIdx_indexOf {k : κ} {rows : List α} (h : (rows.map key).Nodup)
    (hk : 0 ≤ indexOf key k rows) :
    rows.eraseIdx (indexOf key k rows).toNat = rows.filter fun x => key x ≠ k := by
  rcases indexOf_cases key k rows with ⟨hi, -⟩ | ⟨before, x, after, rfl, rfl, hb, hi⟩
  · rw [hi] at hk; exact absurd hk (by decide)
  · have ha := (ne_of_nodup key h).2
    rw [hi, Int.toNat_natCast, List.eraseIdx_append_of_length_le (le_refl _), Nat.sub_self,
      List.eraseIdx_cons_zero, List.filter_append, List.filter_cons_of_neg (by simp),
      List.filter_eq_self.mpr (fun y hy => by simpa using hb y hy),
      List.filter_eq_self.mpr (fun y hy => by simpa using ha y hy)]

theorem map_of_ne {k : κ} {rows : List α} (h : ∀ x ∈ rows, key x ≠ k) (f : α → α) :
    rows.map (fun x => if key x = k then f x else x) = rows := by
  rw [List.map_congr_left (g := id) fun x hx => by rw [if_neg (h x hx)]; rfl, List.map_id]

theorem modify_append_cons (before after : List α) (x : α) (f : α → α) :
    (before ++ x :: after).modify before.length f = before ++ f x :: after := by
  induction before with
  | nil => simp
  | cons y rest ih => simp [ih]

/-- Changing the row found by a key changes the rows with that key. -/
theorem modify_indexOf {k : κ} {rows : List α} (h : (rows.map key).Nodup)
    (hk : 0 ≤ indexOf key k rows) (f : α → α) :
    rows.modify (indexOf key k rows).toNat f = rows.map fun x => if key x = k then f x else x := by
  rcases indexOf_cases key k rows with ⟨hi, -⟩ | ⟨before, x, after, rfl, rfl, hb, hi⟩
  · rw [hi] at hk; exact absurd hk (by decide)
  · have ha := (ne_of_nodup key h).2
    rw [hi, Int.toNat_natCast, modify_append_cons, List.map_append, List.map_cons,
      map_of_ne key hb, map_of_ne key ha, if_pos rfl]

/-- At most one row passes a test for a key. -/
theorem filter_key {k : κ} {rows : List α} (h : (rows.map key).Nodup) {p : α → Bool}
    (hp : ∀ x, p x = true ↔ key x = k) :
    rows.filter p = [] ∧ (∀ x ∈ rows, key x ≠ k) ∨
      ∃ x ∈ rows, key x = k ∧ rows.filter p = [x] := by
  rcases indexOf_cases key k rows with ⟨-, hne⟩ | ⟨before, x, after, rfl, rfl, hb, -⟩
  · exact Or.inl ⟨List.filter_eq_nil_iff.mpr fun x hx hpx => hne x hx ((hp x).mp hpx), hne⟩
  · have ha := (ne_of_nodup key h).2
    refine Or.inr ⟨x, by simp, rfl, ?_⟩
    rw [List.filter_append, List.filter_cons_of_pos ((hp x).mpr rfl),
      List.filter_eq_nil_iff.mpr fun y hy hpy => hb y hy ((hp y).mp hpy),
      List.filter_eq_nil_iff.mpr fun y hy hpy => ha y hy ((hp y).mp hpy), List.nil_append]

end KeyedRows
