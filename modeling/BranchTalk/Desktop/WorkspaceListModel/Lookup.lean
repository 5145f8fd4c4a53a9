import BranchTalk.Desktop.WorkspaceListModel.Observer

set_option autoImplicit false

/-! # Finding a workspace and its row

The selection and the lookups go by ID. In every reachable model an ID stands for at most one row,
so the scan for the first row with an ID finds the only one, and the `selected` role singles out one
row, or none when nothing is selected. -/

namespace BranchTalk.Desktop.WorkspaceListModel

open Emission

/-! ## What the cells show -/

/-- `data` at any index: the cell of a row of the first column, and nothing elsewhere. -/
theorem data_eq (m : WorkspaceListModel) (index : QModelIndex) (role : Role) :
    m.data index role =
      if index.column = 0 ∧ 0 ≤ index.row then
        (m.workspaces[index.row.toNat]?).elim .invalid fun w => cells m.selectedWorkspaceId w role
      else .invalid := by
  obtain ⟨row, column⟩ := index
  by_cases hin : column = 0 ∧ 0 ≤ row
  · obtain ⟨rfl, hrow⟩ := hin
    rw [if_pos ⟨rfl, hrow⟩]
    by_cases hlt : row < m.rowCount
    · have hindex : m.index row 0 = ⟨row, 0⟩ := listIndex_of_lt hrow hlt
      obtain ⟨n, rfl⟩ := Int.eq_ofNat_of_zero_le hrow
      have hn : n < m.workspaces.length := by
        rw [rowCount_eq] at hlt
        omega
      have hw := List.getElem?_eq_getElem hn
      have hread := congrFun (readRow_of_getElem? hw) role
      rw [readRow, hindex] at hread
      rw [hread, Int.toNat_natCast, hw, Option.elim_some]
    · have hnone : m.workspaces[row.toNat]? = none := by
        rw [rowCount_eq] at hlt
        exact List.getElem?_eq_none (by omega)
      rw [hnone, Option.elim_none, data, if_pos]
      simp [not_lt.mp hlt]
  · rw [if_neg hin, data, if_pos]
    by_cases hcolumn : column = 0
    · have hneg : row < 0 := not_le.mp fun hrow => hin ⟨hcolumn, hrow⟩
      simp [hneg]
    · simp [hcolumn]

/-- The cells read through `index(row, 0)`. -/
theorem data_index (m : WorkspaceListModel) (row : Int) (role : Role) :
    m.data (m.index row 0) role =
      if 0 ≤ row then
        (m.workspaces[row.toNat]?).elim .invalid fun w => cells m.selectedWorkspaceId w role
      else .invalid := by
  rw [data_eq]
  by_cases hin : 0 ≤ row ∧ row < m.rowCount
  · have hindex : m.index row 0 = ⟨row, 0⟩ := listIndex_of_lt hin.1 hin.2
    simp [hindex, hin.1]
  · have hindex : m.index row 0 = QModelIndex.none := if_neg fun hc => hin ⟨hc.1, hc.2.2.1⟩
    rw [hindex, if_neg (by decide)]
    split
    · next hrow =>
        have hnone : m.workspaces[row.toNat]? = none := by
          rw [rowCount_eq] at hin
          exact List.getElem?_eq_none (by omega)
        rw [hnone, Option.elim_none]
    · rfl

theorem selected_cell_iff (m : WorkspaceListModel) (row : Int) :
    m.data (m.index row 0) .selected = .bool true ↔
      0 ≤ row ∧ ∃ w, m.workspaces[row.toNat]? = some w ∧ w.stableId = m.selectedWorkspaceId := by
  rw [data_index]
  split
  · next hrow => cases m.workspaces[row.toNat]? <;> simp [cells, hrow]
  · next hrow => simp [hrow]

/-! ## One row for an ID -/

/-- The row the scan finds is the only one with the ID. -/
theorem indexOfStableId_eq_iff {m : WorkspaceListModel} (hm : m.Wf) (stableId : QString) (row : ℕ) :
    m.indexOfStableId stableId = row ↔
      m.workspaces[row]?.map Workspace.stableId = some stableId := by
  constructor
  · intro hrow
    have h₀ : 0 ≤ m.indexOfStableId stableId := by omega
    obtain ⟨w, hw, hid⟩ := KeyedRows.getElem?_indexOf Workspace.stableId h₀
    rw [← indexOfStableId, hrow, Int.toNat_natCast] at hw
    rw [hw, Option.map_some, hid]
  · intro hrow
    obtain ⟨w, hw, rfl⟩ := Option.map_eq_some_iff.mp hrow
    exact KeyedRows.indexOf_of_getElem? Workspace.stableId hm.nodup hw

theorem indexOfStableId_of_not_present {m : WorkspaceListModel} {stableId : QString}
    (h : ¬ m.Present stableId) : m.indexOfStableId stableId = -1 := by
  rcases KeyedRows.indexOf_cases Workspace.stableId stableId m.workspaces with
    ⟨hi, -⟩ | ⟨before, w, later, hsplit, hw, -⟩
  · exact hi
  · exact absurd ⟨w, by simp [hsplit], hw⟩ h

theorem not_present_nil {m : WorkspaceListModel} (hm : m.Wf) : ¬ m.Present [] := by
  rintro ⟨w, hw, hid⟩
  exact hm.stableId_ne w hw hid

/-- The selected ID has one row, and only that row shows as selected. -/
theorem existsUnique_selected {m : WorkspaceListModel} (hm : m.Wf) (h : m.selectedWorkspaceId ≠ []) :
    ∃! row : Int, m.data (m.index row 0) .selected = .bool true := by
  obtain ⟨w, hw, hid⟩ := hm.selected.resolve_left h
  obtain ⟨n, hn⟩ := List.getElem?_of_mem hw
  have hindex := (indexOfStableId_eq_iff hm m.selectedWorkspaceId n).mpr (by rw [hn, ← hid]; rfl)
  refine ⟨n, (m.selected_cell_iff n).mpr ⟨Int.natCast_nonneg n, w, hn, hid⟩, ?_⟩
  intro row hrow
  obtain ⟨h₀, w', hw', hid'⟩ := (m.selected_cell_iff row).mp hrow
  have hindex' := (indexOfStableId_eq_iff hm m.selectedWorkspaceId row.toNat).mpr
    (by rw [hw', ← hid']; rfl)
  omega

theorem not_selected_of_empty {m : WorkspaceListModel} (hm : m.Wf) (h : m.selectedWorkspaceId = [])
    (row : Int) : m.data (m.index row 0) .selected ≠ .bool true := by
  rw [Ne, selected_cell_iff]
  rintro ⟨-, w, hw, hid⟩
  exact hm.stableId_ne w (List.mem_of_getElem? hw) (hid.trans h)

/-- **Rows, selection and lookups of every reachable model.** The invariant holds; the selected ID,
    if there is one, shows in exactly one row, and otherwise no row shows as selected; and the scan
    answers the only row of an ID that has one, and `-1` for every other string. -/
theorem lookup_of_sequence (ops : List Op) :
    let m := sequence exec {} ops
    m.Wf ∧
    (m.selectedWorkspaceId ≠ [] →
      ∃! row : Int, m.data (m.index row 0) .selected = .bool true) ∧
    (m.selectedWorkspaceId = [] →
      ∀ row : Int, m.data (m.index row 0) .selected ≠ .bool true) ∧
    (∀ stableId, m.Present stableId → ∃ row : ℕ, m.indexOfStableId stableId = row ∧
      ∀ row' : ℕ, m.workspaces[row']?.map Workspace.stableId = some stableId ↔ row' = row) ∧
    (∀ stableId, ¬ m.Present stableId → m.indexOfStableId stableId = -1) ∧
    m.indexOfStableId [] = -1 := by
  intro m
  have hm : m.Wf := wf_sequence wf_initial ops
  refine ⟨hm, existsUnique_selected hm, not_selected_of_empty hm, ?_,
    fun stableId => indexOfStableId_of_not_present,
    indexOfStableId_of_not_present (not_present_nil hm)⟩
  intro stableId hpresent
  obtain ⟨row, hrow⟩ := Int.eq_ofNat_of_zero_le ((m.indexOfStableId_nonneg_iff stableId).mpr hpresent)
  refine ⟨row, hrow, fun row' => ?_⟩
  rw [← indexOfStableId_eq_iff hm stableId row', hrow]
  omega

end BranchTalk.Desktop.WorkspaceListModel
