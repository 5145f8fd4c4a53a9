import BranchTalk.Desktop.WorkspaceListModel.Effects
import Mathlib.Data.List.InsertIdx

set_option autoImplicit false

/-! # A view that only follows the signals

`View` is a copy of the model as a list view keeps it: every cell of every row, and the three
properties. It is filled once and afterwards changes only when a signal tells it to, and only where
the signal points. The theorem is that it never goes stale. -/

namespace BranchTalk.Desktop.WorkspaceListModel

open Emission

/-- The cells of a row, by role. -/
abbrev RowCells : Type := Role → QVariant

@[ext]
structure View where
  rows : List RowCells
  selectedWorkspaceId : QString
  empty : Bool
  loading : Bool

/-- Read every role of a row. -/
def readRow (m : WorkspaceListModel) (row : Int) : RowCells := fun role => m.data (m.index row 0) role

/-- Read the rows `first` to `last`. -/
def readRows (m : WorkspaceListModel) (first last : Int) : List RowCells :=
  (List.range (last - first + 1).toNat).map fun (k : ℕ) => m.readRow (first + (k : Int))

/-- Copy the whole model. -/
def View.copy (m : WorkspaceListModel) : View :=
  ⟨m.readRows 0 (m.rowCount - 1), m.selectedWorkspaceId, m.empty, m.loading⟩

/-- Read the given roles of the rows between two indexes again, and nothing else. -/
def refresh (m : WorkspaceListModel) (topLeft bottomRight : QModelIndex) (roles : List Role)
    (rows : List RowCells) : List RowCells :=
  rows.mapIdx fun r row role =>
    if topLeft.row ≤ r ∧ r ≤ bottomRight.row ∧ role ∈ roles then m.readRow r role else row role

/-- The view's reaction to a signal, reading from the model as it is at the emission. -/
def View.react (m : WorkspaceListModel) (v : View) : Signal → View
  | .item (.rowsInserted first last) =>
      { v with
        rows := v.rows.take first.toNat ++ m.readRows first last ++ v.rows.drop first.toNat }
  | .item (.rowsRemoved first last) =>
      { v with rows := v.rows.take first.toNat ++ v.rows.drop (last + 1).toNat }
  | .item (.dataChanged topLeft bottomRight roles) =>
      { v with rows := m.refresh topLeft bottomRight roles v.rows }
  | .item _ => v
  | .loadingChanged => { v with loading := m.loading }
  | .emptyChanged => { v with empty := m.empty }
  | .selectedWorkspaceIdChanged => { v with selectedWorkspaceId := m.selectedWorkspaceId }

/-- The view after the signals of an operation. -/
def View.follow (v : View) (signals : List (Signal × WorkspaceListModel)) : View :=
  signals.foldl (fun v e => v.react e.2 e.1) v

/-- The view after the operations of a session. -/
def View.watch (v : View) (m : WorkspaceListModel) : List Op → View
  | [] => v
  | op :: rest =>
      let ran := ((exec op).run m).quiet
      (v.follow ran.signals).watch ran.state rest

/-- The rows a signal speaks of exist: an insertion is announced at or before the end of the `old`
    rows, a removal for rows among them, and changed cells for rows the model has. -/
def Announceable (old : Int) (m : WorkspaceListModel) : Signal → Prop
  | .item (.rowsAboutToBeInserted first last) => 0 ≤ first ∧ first ≤ last ∧ first ≤ old
  | .item (.rowsInserted first last) => 0 ≤ first ∧ first ≤ last ∧ first ≤ old ∧ last < m.rowCount
  | .item (.rowsAboutToBeRemoved first last) => 0 ≤ first ∧ first ≤ last ∧ last < old
  | .item (.rowsRemoved first last) => 0 ≤ first ∧ first ≤ last ∧ last < old
  | .item (.dataChanged topLeft bottomRight _) =>
      topLeft.isValid ∧ bottomRight.isValid ∧ topLeft.row ≤ bottomRight.row ∧
        bottomRight.row < m.rowCount
  | _ => True

/-! ## Cells -/

/-- The cells of a row while `selected` is the selected ID. -/
def cells (selected : QString) (w : Workspace) : RowCells
  | .stableId => .string w.stableId
  | .name => .string w.name
  | .selected => .bool (w.stableId == selected)
  | .unreadCount => .int w.unreadCount
  | .other _ => .invalid

theorem rowCount_eq (m : WorkspaceListModel) : m.rowCount = m.workspaces.length := rfl

/-- A row of the model reads as its cells. -/
theorem readRow_of_getElem? {m : WorkspaceListModel} {n : ℕ} {w : Workspace}
    (h : m.workspaces[n]? = some w) : m.readRow n = cells m.selectedWorkspaceId w := by
  have hlt : (n : Int) < m.rowCount := by
    rw [rowCount_eq]
    exact_mod_cast (List.getElem?_eq_some_iff.mp h).1
  have hindex : m.index n 0 = ⟨n, 0⟩ := listIndex_of_lt (Int.natCast_nonneg n) hlt
  have hvalid : (m.index n 0).isValid = true :=
    (listIndex_isValid_iff _ _).mpr ⟨Int.natCast_nonneg n, hlt⟩
  funext role
  simp only [readRow, data, hvalid, QModelIndex.parent_isValid]
  rw [hindex, if_neg (by simpa using hlt)]
  simp only [Int.toNat_natCast, h]
  cases role <;> rfl

theorem getElem?_readRows (m : WorkspaceListModel) {first last : Int} {n : ℕ}
    (h : (n : Int) < last - first + 1) :
    (m.readRows first last)[n]? = some (m.readRow (first + (n : Int))) := by
  rw [readRows, List.getElem?_map, List.getElem?_range (by omega), Option.map_some]

theorem copy_rows (m : WorkspaceListModel) :
    (View.copy m).rows = m.workspaces.map (cells m.selectedWorkspaceId) := by
  refine List.ext_getElem? fun n => ?_
  by_cases hn : n < m.workspaces.length
  · have hrow := List.getElem?_eq_getElem hn
    rw [View.copy, getElem?_readRows m (by rw [rowCount_eq]; omega), zero_add,
      readRow_of_getElem? hrow, List.getElem?_map, hrow, Option.map_some]
  · rw [List.getElem?_eq_none, List.getElem?_eq_none (by simpa using hn)]
    simp [View.copy, readRows, rowCount_eq]
    omega

theorem getElem?_refresh (m : WorkspaceListModel) (topLeft bottomRight : QModelIndex)
    (roles : List Role) (rows : List RowCells) (n : ℕ) :
    (m.refresh topLeft bottomRight roles rows)[n]? = rows[n]?.map fun row role =>
      if topLeft.row ≤ n ∧ n ≤ bottomRight.row ∧ role ∈ roles then m.readRow n role
      else row role := by
  simp [refresh]

/-! ## Stale cells -/

/-- Copied rows that agree with the model except at some cells. -/
def FreshExcept (m : WorkspaceListModel) (stale : ℕ → Role → Prop) (rows : List RowCells) : Prop :=
  rows.length = m.workspaces.length ∧
  ∀ n w row, m.workspaces[n]? = some w → rows[n]? = some row →
    ∀ role, ¬ stale n role → row role = cells m.selectedWorkspaceId w role

/-- Rows without a stale cell are the model's. -/
theorem FreshExcept.eq_copy {m : WorkspaceListModel} {stale : ℕ → Role → Prop}
    {rows : List RowCells} (h : m.FreshExcept stale rows) (hnone : ∀ n role, ¬ stale n role) :
    rows = (View.copy m).rows := by
  rw [copy_rows]
  refine List.ext_getElem (by simpa using h.1) fun n hn hn' => ?_
  rw [List.length_map] at hn'
  funext role
  simpa using h.2 n _ _ (List.getElem?_eq_getElem hn') (List.getElem?_eq_getElem hn) role
    (hnone n role)

/-- A `dataChanged` about one row takes the cells it names out of the stale ones. -/
theorem FreshExcept.refresh {m : WorkspaceListModel} {stale : ℕ → Role → Prop}
    {rows : List RowCells} (h : m.FreshExcept stale rows) {row : Int} (h₀ : 0 ≤ row)
    (hlt : row < m.rowCount) (roles : List Role) :
    m.FreshExcept (fun n role => stale n role ∧ ¬ ((n : Int) = row ∧ role ∈ roles))
      (m.refresh (m.index row 0) (m.index row 0) roles rows) := by
  have hindex : m.index row 0 = ⟨row, 0⟩ := listIndex_of_lt h₀ hlt
  refine ⟨by simpa [WorkspaceListModel.refresh] using h.1, ?_⟩
  intro n w r hw hr role hstale
  rw [getElem?_refresh, hindex] at hr
  obtain ⟨old, hold, rfl⟩ := Option.map_eq_some_iff.mp hr
  dsimp only
  split
  · rw [readRow_of_getElem? hw]
  · next hnot =>
      exact h.2 n w old hw hold role fun hs => hstale ⟨hs, fun hn => hnot ⟨by omega, by omega, hn.2⟩⟩

/-! ## One operation -/

/-- The view follows the run and every range it is told lies in the rows. -/
def Followed (m : WorkspaceListModel) (ran : Quiet WorkspaceListModel Signal Bool) : Prop :=
  (View.copy m).follow ran.signals = View.copy ran.state ∧
  ∀ e ∈ ran.signals, Announceable m.rowCount e.2 e.1

theorem followed_setLoading (m : WorkspaceListModel) (loading : Bool) :
    m.Followed ((exec (.setLoading loading)).run m).quiet := by
  simp only [exec, Method.run_bind, setLoading_run]
  split
  · exact ⟨rfl, by simp⟩
  · exact ⟨rfl, by simp [Announceable]⟩

/-- Reading the inserted row at the end of the copy gives the copy of the longer model. -/
theorem copy_rows_append (m : WorkspaceListModel) (w : Workspace) :
    (View.copy m).rows.take m.rowCount.toNat ++ (m.append w).readRows m.rowCount m.rowCount
        ++ (View.copy m).rows.drop m.rowCount.toNat
      = (View.copy (m.append w)).rows := by
  have hread : (m.append w).readRow m.rowCount = cells m.selectedWorkspaceId w :=
    readRow_of_getElem? (by simp [append])
  have hone : (m.append w).readRows m.rowCount m.rowCount = [cells m.selectedWorkspaceId w] := by
    simp [readRows, hread]
  rw [hone, copy_rows, copy_rows, List.take_of_length_le (by simp [rowCount_eq]),
    List.drop_eq_nil_of_le (by simp [rowCount_eq])]
  simp [append]

/-- The end of either operation leaves a view that was right up to `empty` right. -/
theorem followed_finishRows (m : WorkspaceListModel) {v : View}
    (hv : v = { View.copy m with empty := v.empty }) (emptyDiffers : Bool)
    (hempty : emptyDiffers = false → v.empty = m.empty) (old : Int) :
    v.follow (finishRows emptyDiffers m).quiet.signals
      = View.copy (finishRows emptyDiffers m).quiet.state ∧
    ∀ e ∈ (finishRows emptyDiffers m).quiet.signals, Announceable old e.2 e.1 := by
  cases emptyDiffers with
  | true => exact ⟨by rw [hv]; rfl, by simp [finishRows, Announceable]⟩
  | false => exact ⟨by rw [hv, hempty rfl]; rfl, by simp [finishRows]⟩

theorem followed_addWorkspace {m : WorkspaceListModel} {stableId name : QString} {count : Int}
    (h : m.Accepts (.addWorkspace stableId name count)) :
    m.Followed ((exec (.addWorkspace stableId name count)).run m).quiet := by
  obtain ⟨hid, hname, habs⟩ := h
  have hneg := (m.indexOfStableId_neg_iff stableId).mpr habs
  simp only [exec, addWorkspace_run]
  rw [if_neg (by simp [hid, hname]; omega)]
  have hnonneg : (0 : Int) ≤ m.rowCount := by rw [rowCount_eq]; omega
  have hrows := copy_rows_append m ⟨stableId, name, max 0 count⟩
  have hlt : m.rowCount < (m.append ⟨stableId, name, max 0 count⟩).rowCount := by
    simp [rowCount_eq, append]
  have hempty : (m.append ⟨stableId, name, max 0 count⟩).empty = false := by simp [empty, append]
  generalize hm' : m.append ⟨stableId, name, max 0 count⟩ = m' at hrows hlt hempty
  have hsel : m'.selectedWorkspaceId = m.selectedWorkspaceId := by rw [← hm']; rfl
  have hload : m'.loading = m.loading := by rw [← hm']; rfl
  simp only [Proc.quiet_emit, hm']
  obtain ⟨hfollow, hann⟩ := followed_finishRows m' (v := { View.copy m' with empty := m.empty }) rfl
    m.empty (fun he => he.trans hempty.symm) m.rowCount
  refine ⟨?_, ?_⟩
  · rw [← hfollow]
    simp only [View.follow, List.foldl, View.react, hrows]
    refine congrArg (List.foldl _ · _) ?_
    exact View.ext rfl hsel.symm rfl hload.symm
  · simp only [List.forall_mem_cons]
    exact ⟨⟨hnonneg, le_refl _, le_refl _⟩, ⟨hnonneg, le_refl _, le_refl _, hlt⟩, hann⟩

/-- Dropping the copied row of a removed workspace leaves copies of the rows that stay. -/
theorem copy_rows_removeAt {m : WorkspaceListModel} {row : Int} (h₀ : 0 ≤ row) :
    (View.copy m).rows.take row.toNat ++ (View.copy m).rows.drop (row + 1).toNat
      = (View.copy (m.removeAt row)).rows := by
  have hsucc : (row + 1).toNat = row.toNat + 1 := by omega
  rw [hsucc, ← List.eraseIdx_eq_take_drop_succ, copy_rows, copy_rows, List.eraseIdx_map]
  rfl

/-- Rows of other workspaces read alike whether the selection is a removed ID or empty. -/
theorem copy_rows_clearSelection {m : WorkspaceListModel} (hne : ∀ w ∈ m.workspaces, w.stableId ≠ [])
    (hsel : ¬ m.Present m.selectedWorkspaceId) :
    (View.copy m).rows = (View.copy m.clearSelection).rows := by
  rw [copy_rows, copy_rows]
  refine List.map_congr_left fun w hw => funext fun role => ?_
  cases role with
  | selected =>
      have hother : (w.stableId == m.selectedWorkspaceId) = false := by
        simpa using fun h => hsel ⟨w, hw, h⟩
      have hempty : (w.stableId == ([] : QString)) = false := by simpa using hne w hw
      simp only [cells, clearSelection, hother, hempty]
  | _ => rfl

theorem empty_removeAt {m : WorkspaceListModel} {row : Int} (h₀ : 0 ≤ row) (hlt : row < m.rowCount)
    (hne : m.rowCount ≠ 1) : (m.removeAt row).empty = m.empty := by
  rw [rowCount_eq] at hlt hne
  have hlen : (m.removeAt row).workspaces.length = m.workspaces.length - 1 := by
    rw [removeAt, List.length_eraseIdx, if_pos (by omega)]
  rw [empty, empty, Bool.eq_iff_iff, List.isEmpty_iff_length_eq_zero,
    List.isEmpty_iff_length_eq_zero, hlen]
  omega

theorem followed_removeWorkspace {m : WorkspaceListModel} (hm : m.Wf) {stableId : QString}
    (h : m.Present stableId) :
    m.Followed ((exec (.removeWorkspace stableId)).run m).quiet := by
  have h₀ := (m.indexOfStableId_nonneg_iff stableId).mpr h
  have hlt : m.indexOfStableId stableId < m.rowCount :=
    KeyedRows.indexOf_lt_length Workspace.stableId stableId m.workspaces
  have hrows := copy_rows_removeAt (m := m) h₀
  have hempty := empty_removeAt h₀ hlt
  have hgone : ∀ w ∈ (m.removeAt (m.indexOfStableId stableId)).workspaces,
      w.stableId ≠ stableId ∧ w.stableId ≠ [] := by
    intro w hw
    rw [removeAt_indexOfStableId hm h] at hw
    obtain ⟨hw, hid⟩ := List.mem_filter.mp hw
    exact ⟨by simpa using hid, hm.stableId_ne w hw⟩
  simp only [exec, removeWorkspace_run, if_neg (not_indexOfStableId_neg h)]
  generalize m.indexOfStableId stableId = row at *
  by_cases hsel : stableId = m.selectedWorkspaceId
  · have hclear : (View.copy (m.removeAt row)).rows
        = (View.copy (m.removeAt row).clearSelection).rows := by
      refine copy_rows_clearSelection (fun w hw => (hgone w hw).2) ?_
      rintro ⟨w, hw, hid⟩
      exact (hgone w hw).1 (hid.trans hsel.symm)
    obtain ⟨hfollow, hann⟩ := followed_finishRows (m.removeAt row).clearSelection
      (v := { View.copy (m.removeAt row).clearSelection with empty := m.empty }) rfl
      (m.rowCount == 1) (fun hne => (hempty (by simpa using hne)).symm) m.rowCount
    simp only [afterRemoved, hsel, beq_self_eq_true, if_true, Proc.quiet_emit]
    refine ⟨?_, ?_⟩
    · rw [← hfollow]
      simp only [View.follow, List.foldl, View.react, hrows, hclear]
      rfl
    · simp only [List.forall_mem_cons]
      exact ⟨⟨h₀, le_refl _, hlt⟩, ⟨h₀, le_refl _, hlt⟩, trivial, hann⟩
  · have hbeq : (stableId == m.selectedWorkspaceId) = false := by simpa using hsel
    obtain ⟨hfollow, hann⟩ := followed_finishRows (m.removeAt row)
      (v := { View.copy (m.removeAt row) with empty := m.empty }) rfl
      (m.rowCount == 1) (fun hne => (hempty (by simpa using hne)).symm) m.rowCount
    simp only [afterRemoved, hbeq, Bool.false_eq_true, if_false, Proc.quiet_emit]
    refine ⟨?_, ?_⟩
    · rw [← hfollow]
      simp only [View.follow, List.foldl, View.react, hrows]
      rfl
    · simp only [List.forall_mem_cons]
      exact ⟨⟨h₀, le_refl _, hlt⟩, ⟨h₀, le_refl _, hlt⟩, hann⟩

/-- The row a `dataChanged` names is a row of the model. -/
theorem announceable_dataChanged {m : WorkspaceListModel} {row old : Int} (h₀ : 0 ≤ row)
    (hlt : row < m.rowCount) (roles : List Role) :
    Announceable old m (.item (.dataChanged (m.index row 0) (m.index row 0) roles)) := by
  have hvalid : (m.index row 0).isValid = true := (listIndex_isValid_iff _ _).mpr ⟨h₀, hlt⟩
  have hrow : (m.index row 0).row = row := by rw [index, listIndex_of_lt h₀ hlt]
  exact ⟨hvalid, hvalid, le_refl _, by rwa [hrow]⟩

theorem empty_storeUnreadCount (m : WorkspaceListModel) (row count : Int) :
    (m.storeUnreadCount row count).empty = m.empty := by
  rw [empty, empty, Bool.eq_iff_iff, List.isEmpty_iff_length_eq_zero,
    List.isEmpty_iff_length_eq_zero, storeUnreadCount, List.length_modify]

/-- Storing a count leaves only the `unreadCount` cell of its row stale. -/
theorem freshExcept_storeUnreadCount (m : WorkspaceListModel) {row : Int} (h₀ : 0 ≤ row)
    (count : Int) :
    (m.storeUnreadCount row count).FreshExcept
      (fun n role => (n : Int) = row ∧ role = .unreadCount) (View.copy m).rows := by
  rw [copy_rows]
  refine ⟨by simp [storeUnreadCount], ?_⟩
  intro n w cs hw hcs role hfresh
  rw [storeUnreadCount, List.getElem?_modify] at hw
  rw [List.getElem?_map] at hcs
  obtain ⟨w₀, hw₀, rfl⟩ := Option.map_eq_some_iff.mp hcs
  rw [hw₀, Option.map_eq_map, Option.map_some, Option.some.injEq] at hw
  subst hw
  split
  · cases role with
    | unreadCount => exact absurd ⟨by omega, rfl⟩ hfresh
    | _ => rfl
  · rfl

theorem followed_setUnreadCount {m : WorkspaceListModel} {stableId : QString}
    (h : m.Present stableId) (count : Int) :
    m.Followed ((exec (.setUnreadCount stableId count)).run m).quiet := by
  have h₀ := (m.indexOfStableId_nonneg_iff stableId).mpr h
  have hlt : m.indexOfStableId stableId < m.rowCount :=
    KeyedRows.indexOf_lt_length Workspace.stableId stableId m.workspaces
  simp only [exec, setUnreadCount_run, if_neg (not_indexOfStableId_neg h)]
  split
  · exact ⟨rfl, by simp⟩
  generalize m.indexOfStableId stableId = row at *
  have hlt' : row < (m.storeUnreadCount row (max 0 count)).rowCount := by
    simpa [rowCount_eq, storeUnreadCount] using hlt
  have hrows := ((freshExcept_storeUnreadCount m h₀ (max 0 count)).refresh h₀ hlt'
    [.unreadCount]).eq_copy fun n role hn => hn.2 ⟨hn.1.1, by simp [hn.1.2]⟩
  refine ⟨?_, ?_⟩
  · simp only [Proc.quiet, View.follow, List.foldl, View.react, hrows]
    exact View.ext rfl rfl (empty_storeUnreadCount m row _).symm rfl
  · simp only [Proc.quiet, List.forall_mem_cons]
    exact ⟨announceable_dataChanged h₀ hlt' _, by simp⟩

/-- Selecting another row leaves only the `selected` cells of the two rows stale. -/
theorem freshExcept_select {m : WorkspaceListModel} (hm : m.Wf) (stableId : QString) :
    (m.select stableId).FreshExcept (fun n role => role = .selected ∧
        ((n : Int) = m.indexOfStableId m.selectedWorkspaceId ∨ (n : Int) = m.indexOfStableId stableId))
      (View.copy m).rows := by
  rw [copy_rows]
  refine ⟨by simp [select], ?_⟩
  intro n w cs hw hcs role hfresh
  have hw : m.workspaces[n]? = some w := hw
  rw [List.getElem?_map, hw, Option.map_some, Option.some.injEq] at hcs
  subst hcs
  have hindex : m.indexOfStableId w.stableId = n :=
    KeyedRows.indexOf_of_getElem? Workspace.stableId hm.nodup hw
  cases role with
  | selected =>
      have hprevious : (w.stableId == m.selectedWorkspaceId) = false := by
        simpa using fun he => hfresh ⟨rfl, Or.inl (by rw [← he, hindex])⟩
      have hselected : (w.stableId == stableId) = false := by
        simpa using fun he => hfresh ⟨rfl, Or.inr (by rw [← he, hindex])⟩
      simp only [cells, select, hprevious, hselected]
  | _ => rfl

theorem followed_selectWorkspace {m : WorkspaceListModel} (hm : m.Wf) {stableId : QString}
    (h : m.Present stableId) :
    m.Followed ((exec (.selectWorkspace stableId)).run m).quiet := by
  have h₀ := (m.indexOfStableId_nonneg_iff stableId).mpr h
  have hlt : m.indexOfStableId stableId < (m.select stableId).rowCount :=
    KeyedRows.indexOf_lt_length Workspace.stableId stableId m.workspaces
  have hlt' : m.indexOfStableId m.selectedWorkspaceId < (m.select stableId).rowCount :=
    KeyedRows.indexOf_lt_length Workspace.stableId m.selectedWorkspaceId m.workspaces
  have hstale := freshExcept_select hm stableId
  simp only [exec, selectWorkspace_run, if_neg (not_indexOfStableId_neg h)]
  split
  · exact ⟨rfl, by simp⟩
  generalize m.indexOfStableId stableId = row at *
  generalize m.indexOfStableId m.selectedWorkspaceId = previousRow at *
  split
  · next hprevious =>
      have hrows := ((hstale.refresh hprevious hlt' [.selected]).refresh h₀ hlt [.selected]).eq_copy
        fun n role hn => by
          obtain ⟨⟨⟨rfl, hp | hr⟩, hnp⟩, hnr⟩ := hn
          · exact hnp ⟨hp, by simp⟩
          · exact hnr ⟨hr, by simp⟩
      refine ⟨?_, ?_⟩
      · simp only [finishSelect, Proc.quiet, View.follow, List.foldl, View.react, hrows]
        rfl
      · simp only [finishSelect, Proc.quiet, List.forall_mem_cons]
        exact ⟨announceable_dataChanged hprevious hlt' _, announceable_dataChanged h₀ hlt _,
          trivial, by simp⟩
  · next hprevious =>
      have hrows := (hstale.refresh h₀ hlt [.selected]).eq_copy fun n role hn => by
        obtain ⟨⟨rfl, hp | hr⟩, hnr⟩ := hn
        · exact hprevious (by omega)
        · exact hnr ⟨hr, by simp⟩
      refine ⟨?_, ?_⟩
      · simp only [finishSelect, Proc.quiet, View.follow, List.foldl, View.react, hrows]
        rfl
      · simp only [finishSelect, Proc.quiet, List.forall_mem_cons]
        exact ⟨announceable_dataChanged h₀ hlt _, trivial, by simp⟩

/-- One operation is followed, accepted or not. -/
theorem followed_exec {m : WorkspaceListModel} (hm : m.Wf) (op : Op) :
    m.Followed ((exec op).run m).quiet := by
  by_cases h : m.Accepts op
  · cases op with
    | setLoading loading => exact followed_setLoading m loading
    | addWorkspace stableId name count => exact followed_addWorkspace h
    | removeWorkspace stableId => exact followed_removeWorkspace hm h
    | setUnreadCount stableId count => exact followed_setUnreadCount h count
    | selectWorkspace stableId => exact followed_selectWorkspace hm h
  · rw [exec_rejected h]
    exact ⟨rfl, by simp⟩

/-! ## A session -/

/-- What a session announces, each signal with the row count its operation found. -/
def announced (m : WorkspaceListModel) : List Op → List (Int × Signal × WorkspaceListModel)
  | [] => []
  | op :: rest =>
      let ran := ((exec op).run m).quiet
      ran.signals.map (fun e => (m.rowCount, e)) ++ announced ran.state rest

/-- **A view that only follows the signals never goes stale.** From a copy of any reachable model it
    equals the model after every further session, and every range it was told lies in the rows. -/
theorem watch_eq_copy (before ops : List Op) :
    (View.copy (sequence exec {} before)).watch (sequence exec {} before) ops
      = View.copy (sequence exec (sequence exec {} before) ops) ∧
    ∀ e ∈ announced (sequence exec {} before) ops, Announceable e.1 e.2.2 e.2.1 := by
  have hm := wf_sequence wf_initial before
  generalize sequence exec {} before = m at hm
  induction ops generalizing m with
  | nil => exact ⟨rfl, by simp [announced]⟩
  | cons op rest ih =>
      obtain ⟨hfollow, hann⟩ := followed_exec hm op
      obtain ⟨hwatch, hrest⟩ := ih _ (wf_sequence hm [op])
      refine ⟨?_, ?_⟩
      · rw [View.watch, hfollow]
        exact hwatch
      · intro e he
        rcases List.mem_append.mp he with he | he
        · obtain ⟨s, hs, rfl⟩ := List.mem_map.mp he
          exact hann s hs
        · exact hrest e he

end BranchTalk.Desktop.WorkspaceListModel
