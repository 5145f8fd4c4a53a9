import BranchTalk.Desktop.WorkspaceListModel

set_option autoImplicit false

/-! # What the workspace operations do

First every mutator written out as the emissions it passes through, then its effect when handlers
only read: an operation is accepted or rejected by a condition on the state, a rejected one changes
nothing, and an accepted one changes rows and selection by key, with no row number left. -/

namespace BranchTalk.Desktop.WorkspaceListModel

open Emission

/-! ## The mutators, emission by emission -/

theorem setLoading_run (loading : Bool) (m : WorkspaceListModel) :
    (setLoading loading).run m =
      if m.loading = loading then .done m ()
      else .emit { m with loading := loading } .loadingChanged fun m₁ => .done m₁ () := by
  simp [setLoading]

/-- The end of `addWorkspace`, from its test of `was_empty`, and of `removeWorkspace`, from that of
    `becomes_empty`. -/
def finishRows (emptyDiffers : Bool) (m : WorkspaceListModel) :
    Proc WorkspaceListModel Signal Bool :=
  if emptyDiffers then .emit m .emptyChanged fun m₁ => .done m₁ true else .done m true

theorem addWorkspace_run (stableId name : QString) (unreadCount : Int) (m : WorkspaceListModel) :
    (addWorkspace stableId name unreadCount).run m =
      if stableId.isEmpty ∨ name.isEmpty ∨ m.indexOfStableId stableId ≥ 0 then .done m false
      else .emit m (.item (.rowsAboutToBeInserted m.rowCount m.rowCount)) fun m₁ =>
        .emit (m₁.append ⟨stableId, name, max 0 unreadCount⟩)
          (.item (.rowsInserted m.rowCount m.rowCount)) (finishRows m.empty) := by
  simp only [addWorkspace, Method.run_bind, Method.run_get, Method.run_ite, Method.run_emit,
    Method.run_modify, Method.run_pure, Proc.bind_done, Proc.bind_emit]
  rfl

/-- The rest of `removeWorkspace` after `rowsRemoved`, with the two flags it captured on entry. -/
def afterRemoved (removedSelection becomesEmpty : Bool) (m : WorkspaceListModel) :
    Proc WorkspaceListModel Signal Bool :=
  if removedSelection then
    .emit m.clearSelection .selectedWorkspaceIdChanged (finishRows becomesEmpty)
  else finishRows becomesEmpty m

theorem removeWorkspace_run (stableId : QString) (m : WorkspaceListModel) :
    (removeWorkspace stableId).run m =
      if m.indexOfStableId stableId < 0 then .done m false
      else
        .emit m (.item (.rowsAboutToBeRemoved (m.indexOfStableId stableId)
          (m.indexOfStableId stableId))) fun m₁ =>
        .emit (m₁.removeAt (m.indexOfStableId stableId))
          (.item (.rowsRemoved (m.indexOfStableId stableId) (m.indexOfStableId stableId)))
          (afterRemoved (stableId == m.selectedWorkspaceId) (m.rowCount == 1)) := by
  simp only [removeWorkspace, Method.run_bind, Method.run_get, Method.run_ite, Method.run_emit,
    Method.run_modify, Method.run_pure, Proc.bind_done, Proc.bind_emit]
  rfl

theorem setUnreadCount_run (stableId : QString) (unreadCount : Int) (m : WorkspaceListModel) :
    (setUnreadCount stableId unreadCount).run m =
      if m.indexOfStableId stableId < 0 then .done m false
      else if m.unreadCountAt (m.indexOfStableId stableId) = some (max 0 unreadCount) then
        .done m true
      else
        let m' := m.storeUnreadCount (m.indexOfStableId stableId) (max 0 unreadCount)
        let changed := m'.index (m.indexOfStableId stableId) 0
        .emit m' (.item (.dataChanged changed changed [.unreadCount])) fun m₁ => .done m₁ true := by
  simp only [setUnreadCount, Method.run_bind, Method.run_get, Method.run_ite, Method.run_emit,
    Method.run_modify, Method.run_pure, Proc.bind_done, Proc.bind_emit]

/-- The end of `selectWorkspace`, from the signal about the row selected. -/
def finishSelect (selectedRow : Int) (m : WorkspaceListModel) :
    Proc WorkspaceListModel Signal Bool :=
  .emit m (.item (.dataChanged (m.index selectedRow 0) (m.index selectedRow 0) [.selected]))
    fun m₁ => .emit m₁ .selectedWorkspaceIdChanged fun m₂ => .done m₂ true

theorem selectWorkspace_run (stableId : QString) (m : WorkspaceListModel) :
    (selectWorkspace stableId).run m =
      if m.indexOfStableId stableId < 0 then .done m false
      else if m.selectedWorkspaceId = stableId then .done m true
      else
        let previousRow := m.indexOfStableId m.selectedWorkspaceId
        let m' := m.select stableId
        if previousRow ≥ 0 then
          .emit m' (.item (.dataChanged (m'.index previousRow 0) (m'.index previousRow 0)
            [.selected])) (finishSelect (m.indexOfStableId stableId))
        else finishSelect (m.indexOfStableId stableId) m' := by
  simp only [selectWorkspace, Method.run_bind, Method.run_get, Method.run_ite, Method.run_emit,
    Method.run_modify, Method.run_pure, Proc.bind_done, Proc.bind_emit]
  rfl

/-! ## The invariant -/

/-- Some row has this ID. -/
def Present (m : WorkspaceListModel) (stableId : QString) : Prop :=
  ∃ w ∈ m.workspaces, w.stableId = stableId

instance (m : WorkspaceListModel) (stableId : QString) : Decidable (m.Present stableId) :=
  inferInstanceAs (Decidable (∃ w ∈ m.workspaces, w.stableId = stableId))

theorem indexOfStableId_neg_iff (m : WorkspaceListModel) (stableId : QString) :
    m.indexOfStableId stableId < 0 ↔ ¬ m.Present stableId := by
  simp [indexOfStableId, KeyedRows.indexOf_neg_iff, Present]

theorem indexOfStableId_nonneg_iff (m : WorkspaceListModel) (stableId : QString) :
    0 ≤ m.indexOfStableId stableId ↔ m.Present stableId :=
  KeyedRows.indexOf_nonneg_iff Workspace.stableId stableId m.workspaces

/-- What every operation keeps: distinct non-empty IDs, non-empty names, counts from 0 on, and a
    selection that is empty or the ID of a row. -/
structure Wf (m : WorkspaceListModel) : Prop where
  nodup : (m.workspaces.map Workspace.stableId).Nodup
  stableId_ne : ∀ w ∈ m.workspaces, w.stableId ≠ []
  name_ne : ∀ w ∈ m.workspaces, w.name ≠ []
  unreadCount_nonneg : ∀ w ∈ m.workspaces, 0 ≤ w.unreadCount
  selected : m.selectedWorkspaceId = [] ∨ m.Present m.selectedWorkspaceId

theorem wf_initial : Wf {} where
  nodup := List.nodup_nil
  stableId_ne := by simp
  name_ne := by simp
  unreadCount_nonneg := by simp
  selected := Or.inl rfl

/-! ## Effects by key -/

/-- The condition under which an operation is accepted. -/
def Accepts (m : WorkspaceListModel) : Op → Prop
  | .setLoading _ => True
  | .addWorkspace stableId name _ => stableId ≠ [] ∧ name ≠ [] ∧ ¬ m.Present stableId
  | .removeWorkspace stableId => m.Present stableId
  | .setUnreadCount stableId _ => m.Present stableId
  | .selectWorkspace stableId => m.Present stableId

instance (m : WorkspaceListModel) (op : Op) : Decidable (m.Accepts op) := by
  cases op <;> simp only [Accepts] <;> infer_instance

/-- The state after an accepted operation, with rows and selection changed by key. -/
def after (m : WorkspaceListModel) : Op → WorkspaceListModel
  | .setLoading loading => { m with loading := loading }
  | .addWorkspace stableId name unreadCount => m.append ⟨stableId, name, max 0 unreadCount⟩
  | .removeWorkspace stableId =>
      { m with
        workspaces := m.workspaces.filter fun w => w.stableId ≠ stableId
        selectedWorkspaceId :=
          if m.selectedWorkspaceId = stableId then [] else m.selectedWorkspaceId }
  | .setUnreadCount stableId unreadCount =>
      { m with
        workspaces := m.workspaces.map fun w =>
          if w.stableId = stableId then { w with unreadCount := max 0 unreadCount } else w }
  | .selectWorkspace stableId => m.select stableId

/-- The state after any operation: an accepted one has its effect, a rejected one none. -/
def next (m : WorkspaceListModel) (op : Op) : WorkspaceListModel :=
  if m.Accepts op then m.after op else m

theorem removeAt_indexOfStableId {m : WorkspaceListModel} (hm : m.Wf) {stableId : QString}
    (h : m.Present stableId) :
    (m.removeAt (m.indexOfStableId stableId)).workspaces
      = m.workspaces.filter fun w => w.stableId ≠ stableId :=
  KeyedRows.eraseIdx_indexOf Workspace.stableId hm.nodup
    ((m.indexOfStableId_nonneg_iff stableId).mpr h)

theorem storeUnreadCount_indexOfStableId {m : WorkspaceListModel} (hm : m.Wf) {stableId : QString}
    (h : m.Present stableId) (count : Int) :
    (m.storeUnreadCount (m.indexOfStableId stableId) count).workspaces
      = m.workspaces.map fun w =>
          if w.stableId = stableId then { w with unreadCount := count } else w :=
  KeyedRows.modify_indexOf Workspace.stableId hm.nodup
    ((m.indexOfStableId_nonneg_iff stableId).mpr h) _

/-- Storing the count a row already holds changes nothing. -/
theorem storeUnreadCount_same {m : WorkspaceListModel} {row count : Int}
    (h : m.unreadCountAt row = some count) : m.storeUnreadCount row count = m := by
  have hrows : (m.workspaces.modify row.toNat fun w => { w with unreadCount := count })
      = m.workspaces := by
    refine List.ext_getElem? fun n => ?_
    rw [List.getElem?_modify]
    by_cases hn : row.toNat = n
    · subst hn
      obtain ⟨w, hw, hc⟩ := Option.map_eq_some_iff.mp h
      simp [hw, ← hc]
    · simp [hn]
  simp only [storeUnreadCount, hrows]

theorem setLoading_quiet (loading : Bool) (m : WorkspaceListModel) :
    ((exec (.setLoading loading)).run m).quiet.state = { m with loading := loading } ∧
    ((exec (.setLoading loading)).run m).quiet.result = true := by
  simp only [exec, Method.run_bind, setLoading_run]
  split
  · next h => subst h; exact ⟨rfl, rfl⟩
  · exact ⟨rfl, rfl⟩

theorem addWorkspace_quiet {m : WorkspaceListModel} {stableId name : QString} {unreadCount : Int}
    (h : m.Accepts (.addWorkspace stableId name unreadCount)) :
    ((exec (.addWorkspace stableId name unreadCount)).run m).quiet.state
      = m.append ⟨stableId, name, max 0 unreadCount⟩ ∧
    ((exec (.addWorkspace stableId name unreadCount)).run m).quiet.result = true := by
  obtain ⟨hid, hname, habs⟩ := h
  have hneg := (m.indexOfStableId_neg_iff stableId).mpr habs
  simp only [exec, addWorkspace_run]
  rw [if_neg (by simp [hid, hname]; omega)]
  cases he : m.empty <;> exact ⟨rfl, rfl⟩

/-- An operation whose condition fails is done at once, with the state it found. -/
theorem exec_rejected {m : WorkspaceListModel} {op : Op} (h : ¬ m.Accepts op) :
    (exec op).run m = .done m false := by
  cases op with
  | setLoading loading => exact absurd trivial h
  | addWorkspace stableId name unreadCount =>
      simp only [exec, addWorkspace_run]
      refine if_pos ?_
      rw [ge_iff_le, indexOfStableId_nonneg_iff]
      simpa [Accepts, imp_iff_not_or, or_assoc] using h
  | removeWorkspace stableId =>
      simp only [exec, removeWorkspace_run]
      exact if_pos ((m.indexOfStableId_neg_iff stableId).mpr h)
  | setUnreadCount stableId unreadCount =>
      simp only [exec, setUnreadCount_run]
      exact if_pos ((m.indexOfStableId_neg_iff stableId).mpr h)
  | selectWorkspace stableId =>
      simp only [exec, selectWorkspace_run]
      exact if_pos ((m.indexOfStableId_neg_iff stableId).mpr h)

theorem not_indexOfStableId_neg {m : WorkspaceListModel} {stableId : QString}
    (h : m.Present stableId) : ¬ m.indexOfStableId stableId < 0 :=
  fun hneg => (m.indexOfStableId_neg_iff stableId).mp hneg h

theorem removeWorkspace_quiet {m : WorkspaceListModel} (hm : m.Wf) {stableId : QString}
    (h : m.Present stableId) :
    ((exec (.removeWorkspace stableId)).run m).quiet.state = m.after (.removeWorkspace stableId) ∧
    ((exec (.removeWorkspace stableId)).run m).quiet.result = true := by
  have hrows := removeAt_indexOfStableId hm h
  simp only [exec, removeWorkspace_run, if_neg (not_indexOfStableId_neg h), Proc.quiet_emit]
  have hfinish : ∀ (b : Bool) (m' : WorkspaceListModel),
      (finishRows b m').quiet.state = m' ∧ (finishRows b m').quiet.result = true := by
    intro b m'
    cases b <;> exact ⟨rfl, rfl⟩
  by_cases hsel : stableId = m.selectedWorkspaceId
  · simp only [afterRemoved, hsel, beq_self_eq_true, if_true, Proc.quiet_emit, hfinish, and_true]
    simp only [clearSelection, after, if_true, ← hsel, hrows]
    rfl
  · have hbeq : (stableId == m.selectedWorkspaceId) = false := by simpa using hsel
    simp only [afterRemoved, hbeq, Bool.false_eq_true, if_false, hfinish, and_true]
    simp only [after, if_neg (Ne.symm hsel), ← hrows]
    rfl

theorem setUnreadCount_quiet {m : WorkspaceListModel} (hm : m.Wf) {stableId : QString}
    (h : m.Present stableId) (unreadCount : Int) :
    ((exec (.setUnreadCount stableId unreadCount)).run m).quiet.state
      = m.after (.setUnreadCount stableId unreadCount) ∧
    ((exec (.setUnreadCount stableId unreadCount)).run m).quiet.result = true := by
  have hrows := storeUnreadCount_indexOfStableId hm h (max 0 unreadCount)
  have hstore : m.storeUnreadCount (m.indexOfStableId stableId) (max 0 unreadCount)
      = m.after (.setUnreadCount stableId unreadCount) := by
    simp only [after, ← hrows]
    rfl
  simp only [exec, setUnreadCount_run, if_neg (not_indexOfStableId_neg h)]
  split
  · next hsame => exact ⟨by rw [← hstore, storeUnreadCount_same hsame]; rfl, rfl⟩
  · exact ⟨hstore, rfl⟩

theorem selectWorkspace_quiet {m : WorkspaceListModel} {stableId : QString}
    (h : m.Present stableId) :
    ((exec (.selectWorkspace stableId)).run m).quiet.state = m.select stableId ∧
    ((exec (.selectWorkspace stableId)).run m).quiet.result = true := by
  simp only [exec, selectWorkspace_run, if_neg (not_indexOfStableId_neg h)]
  split
  · next hsame => subst hsame; exact ⟨rfl, rfl⟩
  · split <;> exact ⟨rfl, rfl⟩

/-- **Effects by key.** With handlers that only read, an operation answers whether it is accepted
    and leaves the state `next` describes. -/
theorem exec_quiet {m : WorkspaceListModel} (hm : m.Wf) (op : Op) :
    ((exec op).run m).quiet.state = m.next op ∧
    ((exec op).run m).quiet.result = decide (m.Accepts op) := by
  by_cases h : m.Accepts op
  · simp only [next, if_pos h, decide_eq_true h]
    cases op with
    | setLoading loading => exact setLoading_quiet loading m
    | addWorkspace stableId name unreadCount => exact addWorkspace_quiet h
    | removeWorkspace stableId => exact removeWorkspace_quiet hm h
    | setUnreadCount stableId unreadCount => exact setUnreadCount_quiet hm h unreadCount
    | selectWorkspace stableId => exact selectWorkspace_quiet h
  · simp [exec_rejected h, next, h]

/-! ## The invariant is kept -/

theorem present_append_iff {m : WorkspaceListModel} {w : Workspace} {stableId : QString} :
    (m.append w).Present stableId ↔ m.Present stableId ∨ w.stableId = stableId := by
  simp only [Present, append, List.mem_append, List.mem_singleton]
  constructor
  · rintro ⟨x, hx | rfl, hid⟩
    · exact Or.inl ⟨x, hx, hid⟩
    · exact Or.inr hid
  · rintro (⟨x, hx, hid⟩ | hid)
    · exact ⟨x, Or.inl hx, hid⟩
    · exact ⟨w, Or.inr rfl, hid⟩

theorem wf_append {m : WorkspaceListModel} (hm : m.Wf) {stableId name : QString}
    {unreadCount : Int} (h : m.Accepts (.addWorkspace stableId name unreadCount)) :
    (m.append ⟨stableId, name, max 0 unreadCount⟩).Wf := by
  obtain ⟨hid, hname, habs⟩ := h
  have hmem : ∀ {P : Workspace → Prop}, (∀ w ∈ m.workspaces, P w) →
      P ⟨stableId, name, max 0 unreadCount⟩ →
      ∀ w ∈ (m.append ⟨stableId, name, max 0 unreadCount⟩).workspaces, P w := by
    intro P hold hnew w hw
    rcases List.mem_append.mp hw with hw | hw
    · exact hold w hw
    · exact List.mem_singleton.mp hw ▸ hnew
  refine ⟨?_, hmem hm.stableId_ne hid, hmem hm.name_ne hname,
    hmem hm.unreadCount_nonneg (le_max_left 0 unreadCount),
    hm.selected.imp id fun hp => present_append_iff.mpr (Or.inl hp)⟩
  simp only [append, List.map_append, List.map_cons, List.map_nil]
  refine List.nodup_append.mpr ⟨hm.nodup, List.nodup_singleton _, ?_⟩
  rintro _ ha _ hb rfl
  obtain ⟨w, hw, rfl⟩ := List.mem_map.mp ha
  exact habs ⟨w, hw, List.mem_singleton.mp hb⟩

theorem wf_after_remove {m : WorkspaceListModel} (hm : m.Wf) (stableId : QString) :
    (m.after (.removeWorkspace stableId)).Wf where
  nodup := hm.nodup.sublist (List.filter_sublist.map _)
  stableId_ne w hw := hm.stableId_ne w (List.mem_of_mem_filter hw)
  name_ne w hw := hm.name_ne w (List.mem_of_mem_filter hw)
  unreadCount_nonneg w hw := hm.unreadCount_nonneg w (List.mem_of_mem_filter hw)
  selected := by
    by_cases hsel : m.selectedWorkspaceId = stableId
    · exact Or.inl (by simp [after, hsel])
    · refine hm.selected.imp (fun h => by simp [after, h]) fun ⟨w, hw, hid⟩ => ⟨w, ?_, ?_⟩
      · exact List.mem_filter.mpr ⟨hw, by simpa [hid] using hsel⟩
      · simpa [after, hsel] using hid

theorem map_stableId_after_setUnreadCount (m : WorkspaceListModel) (stableId : QString)
    (unreadCount : Int) :
    (m.after (.setUnreadCount stableId unreadCount)).workspaces.map Workspace.stableId
      = m.workspaces.map Workspace.stableId := by
  simp only [after, List.map_map]
  refine List.map_congr_left fun w _ => ?_
  simp only [Function.comp_apply]
  split <;> rfl

theorem present_iff_mem (m : WorkspaceListModel) (stableId : QString) :
    m.Present stableId ↔ stableId ∈ m.workspaces.map Workspace.stableId := by
  simp [Present]

theorem present_after_setUnreadCount_iff {m : WorkspaceListModel} {stableId : QString}
    {unreadCount : Int} {id : QString} :
    (m.after (.setUnreadCount stableId unreadCount)).Present id ↔ m.Present id := by
  rw [present_iff_mem, present_iff_mem, map_stableId_after_setUnreadCount]

theorem wf_after_setUnreadCount {m : WorkspaceListModel} (hm : m.Wf) (stableId : QString)
    (unreadCount : Int) : (m.after (.setUnreadCount stableId unreadCount)).Wf := by
  have hmem : ∀ {P : Workspace → Prop}, (∀ w ∈ m.workspaces, P w) →
      (∀ w, P w → P { w with unreadCount := max 0 unreadCount }) →
      ∀ w ∈ (m.after (.setUnreadCount stableId unreadCount)).workspaces, P w := by
    intro P hold hset w hw
    obtain ⟨w₀, hw₀, rfl⟩ := List.mem_map.mp hw
    split
    · exact hset w₀ (hold w₀ hw₀)
    · exact hold w₀ hw₀
  refine ⟨?_, hmem hm.stableId_ne fun _ h => h, hmem hm.name_ne fun _ h => h,
    hmem hm.unreadCount_nonneg fun _ _ => le_max_left 0 unreadCount,
    hm.selected.imp id fun h => present_after_setUnreadCount_iff.mpr h⟩
  rw [map_stableId_after_setUnreadCount]
  exact hm.nodup

/-- **The invariant is kept** by every operation, accepted or not. -/
theorem wf_next {m : WorkspaceListModel} (hm : m.Wf) (op : Op) : (m.next op).Wf := by
  unfold next
  split
  · next h =>
      cases op with
      | setLoading loading =>
          exact ⟨hm.nodup, hm.stableId_ne, hm.name_ne, hm.unreadCount_nonneg, hm.selected⟩
      | addWorkspace stableId name unreadCount => exact wf_append hm h
      | removeWorkspace stableId => exact wf_after_remove hm stableId
      | setUnreadCount stableId unreadCount => exact wf_after_setUnreadCount hm stableId unreadCount
      | selectWorkspace stableId =>
          exact ⟨hm.nodup, hm.stableId_ne, hm.name_ne, hm.unreadCount_nonneg, Or.inr h⟩
  · exact hm

/-- Every sequence of operations with reading handlers keeps the invariant. -/
theorem wf_sequence {m : WorkspaceListModel} (hm : m.Wf) (ops : List Op) :
    (sequence exec m ops).Wf :=
  sequence_invariant (fun _ op hs => (exec_quiet hs op).1 ▸ wf_next hs op) hm ops

end BranchTalk.Desktop.WorkspaceListModel
