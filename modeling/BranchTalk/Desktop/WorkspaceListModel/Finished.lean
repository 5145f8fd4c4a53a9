import BranchTalk.Desktop.WorkspaceListModel.Lookup
import BranchTalk.Desktop.WorkspaceListModel.Reentrancy

set_option autoImplicit false

/-! # What the handlers of one operation read

An operation that has made all its changes before it announces the first of them shows its handlers
only finished states. Every operation of the model is of this kind, with one exception: the removal
of the selected workspace announces the removed row while the selection still is the removed ID. -/

namespace BranchTalk.Desktop.WorkspaceListModel

open Emission

/-! ## Readings -/

/-- Every getter, and `data` for every index and role, reads alike. -/
structure SameReadings (m m' : WorkspaceListModel) : Prop where
  rowCount : ∀ parent, m.rowCount parent = m'.rowCount parent
  data : ∀ index role, m.data index role = m'.data index role
  loading : m.loading = m'.loading
  empty : m.empty = m'.empty
  selectedWorkspaceId : m.selectedWorkspaceId = m'.selectedWorkspaceId

/-- The readings determine the rows: three roles spell out a workspace. -/
theorem SameReadings.workspaces {m m' : WorkspaceListModel} (h : SameReadings m m') :
    m.workspaces = m'.workspaces := by
  have hlength : m.workspaces.length = m'.workspaces.length := by
    have := h.rowCount QModelIndex.none
    rw [rowCount_eq, rowCount_eq] at this
    exact_mod_cast this
  refine List.ext_getElem hlength fun n hn hn' => ?_
  have hcell : ∀ role, cells m.selectedWorkspaceId m.workspaces[n] role
      = cells m'.selectedWorkspaceId m'.workspaces[n] role := by
    intro role
    have hrow : ∀ m : WorkspaceListModel, ∀ hn : n < m.workspaces.length,
        m.data ⟨n, 0⟩ role = cells m.selectedWorkspaceId m.workspaces[n] role := fun m hn => by
      simp [data_eq, List.getElem?_eq_getElem hn]
    rw [← hrow, ← hrow]
    exact h.data ⟨n, 0⟩ role
  have hid := QVariant.string.inj (hcell .stableId)
  have hname := QVariant.string.inj (hcell .name)
  have hcount := QVariant.int.inj (hcell .unreadCount)
  cases hw : m.workspaces[n]
  cases hw' : m'.workspaces[n]
  simp only [hw, hw'] at hid hname hcount
  rw [hid, hname, hcount]

theorem sameReadings_iff (m m' : WorkspaceListModel) : SameReadings m m' ↔ m = m' := by
  constructor
  · intro h
    obtain ⟨rows, selected, loading⟩ := m
    obtain ⟨rows', selected', loading'⟩ := m'
    have hrows : rows = rows' := h.workspaces
    have hselected : selected = selected' := h.selectedWorkspaceId
    have hloading : loading = loading' := h.loading
    rw [hrows, hselected, hloading]
  · rintro rfl
    exact ⟨fun _ => rfl, fun _ _ => rfl, rfl, rfl, rfl⟩

/-! ## Finished operations -/

/-- A signal that tells of a change already made. -/
def FollowsChange : Signal → Prop
  | .item (.rowsAboutToBeInserted ..) | .item (.rowsAboutToBeRemoved ..) => False
  | _ => True

/-- Whoever is told of a change reads what the operation leaves. -/
def FinishedWhenTold (p : Proc WorkspaceListModel Signal Bool) : Prop :=
  ∀ e ∈ p.quiet.signals, FollowsChange e.1 → SameReadings e.2 p.quiet.state

theorem finished_of_passive {kind : Signal → Prop} {r : Bool} {m : WorkspaceListModel}
    {p : Proc WorkspaceListModel Signal Bool} (h : p.Passive kind r m) : FinishedWhenTold p := by
  intro e he _
  rw [sameReadings_iff, (h.quiet_signals e he).2, h.quiet_state]

theorem finished_done (m : WorkspaceListModel) (r : Bool) : FinishedWhenTold (.done m r) := by
  simp [FinishedWhenTold]

theorem finished_once (m : WorkspaceListModel) (sig : Signal) (r : Bool) :
    FinishedWhenTold (.emit m sig fun m₁ => .done m₁ r) := by
  simp [FinishedWhenTold, sameReadings_iff]

/-- What handlers of an `AboutToBe` signal read does not count. -/
theorem finished_emit_iff {m : WorkspaceListModel} {sig : Signal} (hsig : ¬ FollowsChange sig)
    (k : WorkspaceListModel → Proc WorkspaceListModel Signal Bool) :
    FinishedWhenTold (.emit m sig k) ↔ FinishedWhenTold (k m) := by
  simp [FinishedWhenTold, hsig]

/-- The operation removes the workspace that is selected. -/
def RemovesSelected (m : WorkspaceListModel) (op : Op) : Prop :=
  m.selectedWorkspaceId ≠ [] ∧ op = .removeWorkspace m.selectedWorkspaceId

instance (m : WorkspaceListModel) (op : Op) : Decidable (m.RemovesSelected op) :=
  inferInstanceAs (Decidable (_ ∧ _))

theorem finished_setLoading (m : WorkspaceListModel) (loading : Bool) :
    FinishedWhenTold ((exec (.setLoading loading)).run m) := by
  simp only [exec, Method.run_bind, setLoading_run]
  split
  · exact finished_done _ _
  · exact finished_once _ _ _

theorem finished_addWorkspace (m : WorkspaceListModel) (stableId name : QString) (count : Int) :
    FinishedWhenTold ((exec (.addWorkspace stableId name count)).run m) := by
  simp only [exec, addWorkspace_run]
  split
  · exact finished_done _ _
  · refine (finished_emit_iff (by simp [FollowsChange]) _).mpr ?_
    exact finished_of_passive ⟨rfl, by simp [NotRowsRemoved], fun m₁ => passive_finishRows _ m₁⟩

theorem finished_setUnreadCount (m : WorkspaceListModel) (stableId : QString) (count : Int) :
    FinishedWhenTold ((exec (.setUnreadCount stableId count)).run m) := by
  simp only [exec, setUnreadCount_run]
  split
  · exact finished_done _ _
  · split
    · exact finished_done _ _
    · exact finished_once _ _ _

theorem finished_selectWorkspace (m : WorkspaceListModel) (stableId : QString) :
    FinishedWhenTold ((exec (.selectWorkspace stableId)).run m) := by
  simp only [exec, selectWorkspace_run]
  split
  · exact finished_done _ _
  · split
    · exact finished_done _ _
    · split
      · exact finished_of_passive
          ⟨rfl, by simp [NotRowsRemoved], fun m₁ => passive_finishSelect _ m₁⟩
      · exact finished_of_passive (passive_finishSelect _ _)

/-- A removal is finished when it is told of, unless it has the selection yet to clear. -/
theorem finished_removeWorkspace_iff {m : WorkspaceListModel} (hm : m.Wf) (stableId : QString) :
    FinishedWhenTold ((exec (.removeWorkspace stableId)).run m) ↔
      ¬ m.RemovesSelected (.removeWorkspace stableId) := by
  by_cases hpresent : m.Present stableId
  · have hne : stableId ≠ [] := by
      rintro rfl
      exact not_present_nil hm hpresent
    simp only [exec, removeWorkspace_run, if_neg (not_indexOfStableId_neg hpresent)]
    rw [finished_emit_iff (by simp [FollowsChange])]
    generalize m.indexOfStableId stableId = row
    by_cases hsel : stableId = m.selectedWorkspaceId
    · -- the handlers of `rowsRemoved` read the removed ID, the operation leaves an empty one
      refine iff_of_false (fun hfinished => ?_) (not_not.mpr ⟨hsel ▸ hne, by rw [hsel]⟩)
      have hread := hfinished _ (List.mem_cons_self ..) trivial
      have hleft : (afterRemoved (stableId == m.selectedWorkspaceId) (m.rowCount == 1)
          (m.removeAt row)).quiet.state = (m.removeAt row).clearSelection := by
        simp only [afterRemoved, hsel, beq_self_eq_true, if_true, Proc.quiet_emit]
        exact (passive_finishRows _ _).quiet_state
      have hselected := hread.selectedWorkspaceId
      simp only [Proc.quiet_emit, hleft] at hselected
      exact hne (hsel.trans hselected)
    · refine iff_of_true ?_ fun hremoves => hsel (Op.removeWorkspace.inj hremoves.2)
      have hbeq : (stableId == m.selectedWorkspaceId) = false := by simpa using hsel
      have hrest : ∀ m₁, (afterRemoved (stableId == m.selectedWorkspaceId) (m.rowCount == 1)
          m₁).Passive NotRowsRemoved true m₁ := by
        intro m₁
        simp only [afterRemoved, hbeq, Bool.false_eq_true, if_false]
        exact passive_finishRows _ m₁
      intro e he _
      rcases List.mem_cons.mp he with rfl | he
      · rw [sameReadings_iff]
        exact (hrest _).quiet_state.symm
      · rw [sameReadings_iff, ((hrest _).quiet_signals e he).2]
        exact (hrest _).quiet_state.symm
  · refine iff_of_true ?_ fun hremoves => hpresent ?_
    · have hrejected : ¬ m.Accepts (.removeWorkspace stableId) := hpresent
      rw [exec_rejected hrejected]
      exact finished_done _ _
    · obtain ⟨hne, hop⟩ := hremoves
      rw [Op.removeWorkspace.inj hop]
      exact hm.selected.resolve_left hne

/-- **Only the removal of the selected workspace shows a half-done state.** In every reachable model
    the handlers of the signals that tell of a change read what the operation leaves, for every
    operation but this one. -/
theorem finishedWhenTold_iff (ops : List Op) (op : Op) :
    FinishedWhenTold ((exec op).run (sequence exec {} ops)) ↔
      ¬ (sequence exec {} ops).RemovesSelected op := by
  have hm := wf_sequence wf_initial ops
  generalize sequence exec {} ops = m at hm
  cases op with
  | setLoading loading => simp [RemovesSelected, finished_setLoading]
  | addWorkspace stableId name count => simp [RemovesSelected, finished_addWorkspace]
  | removeWorkspace stableId => exact finished_removeWorkspace_iff hm stableId
  | setUnreadCount stableId count => simp [RemovesSelected, finished_setUnreadCount]
  | selectWorkspace stableId => simp [RemovesSelected, finished_selectWorkspace]

/-- **A handler reads the ID of a row that is gone.** With one workspace, selected, the handlers of
    the `rowsRemoved` that announces its removal read its ID as the selected one. -/
theorem removed_still_selected :
    ¬ FinishedWhenTold ((exec (.removeWorkspace [65])).run
      (sequence exec {} [.addWorkspace [65] [65] 0, .selectWorkspace [65]])) := by
  intro hfinished
  have hread := hfinished (.item (.rowsRemoved 0 0), ⟨[], [65], false⟩) (by decide) trivial
  exact absurd hread.selectedWorkspaceId (by decide)

end BranchTalk.Desktop.WorkspaceListModel
