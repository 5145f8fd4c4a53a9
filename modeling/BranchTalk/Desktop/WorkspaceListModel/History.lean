import BranchTalk.Desktop.WorkspaceListModel.Effects
import Mathlib.Data.List.Induction

set_option autoImplicit false

/-! # The history determines the workspace model

A history lists the calls of a session with their answers. `rowsOf` and `selectedOf` read rows and
selection off a history alone: each entry looks only at the entries after it, and no row number
appears. The theorem is that the model's rows and selection are those, after every session. -/

namespace BranchTalk.Desktop.WorkspaceListModel

open Emission

/-- A call and the answer it got. -/
abbrev Entry : Type := Op × Bool

/-- The calls of a session from a state, in order, each with its answer. -/
def history (m : WorkspaceListModel) : List Op → List Entry
  | [] => []
  | op :: rest =>
      let ran := ((exec op).run m).quiet
      (op, ran.result) :: history ran.state rest

/-! ## Reading a history -/

/-- An accepted `addWorkspace` of this ID. -/
def adds (stableId : QString) : Entry → Bool
  | (.addWorkspace id _ _, true) => id == stableId
  | _ => false

/-- An accepted `removeWorkspace` of this ID. -/
def removes (stableId : QString) : Entry → Bool
  | (.removeWorkspace id, true) => id == stableId
  | _ => false

/-- An accepted `selectWorkspace`. -/
def selects : Entry → Bool
  | (.selectWorkspace _, true) => true
  | _ => false

/-- The value of an accepted `setUnreadCount` on this ID. -/
def countSet (stableId : QString) : Entry → Option Int
  | (.setUnreadCount id count, true) => if id = stableId then some count else none
  | _ => none

/-- The value of the last accepted `setUnreadCount` on this ID. -/
def lastCount (stableId : QString) : List Entry → Option Int
  | [] => none
  | e :: later => (lastCount stableId later).or (countSet stableId e)

/-- The rows: one for each accepted add that is the latest of its ID and has no accepted removal of
    its ID after it, in the order of these adds. -/
def rowsOf : List Entry → List Workspace
  | [] => []
  | (.addWorkspace id name count, true) :: later =>
      if later.any (adds id) || later.any (removes id) then rowsOf later
      else ⟨id, name, max 0 ((lastCount id later).getD count)⟩ :: rowsOf later
  | _ :: later => rowsOf later

/-- The selection: the ID of the last accepted select, unless it was removed after that. -/
def selectedOf : List Entry → QString
  | [] => []
  | (.selectWorkspace id, true) :: later =>
      if later.any selects then selectedOf later
      else if later.any (removes id) then [] else id
  | _ :: later => selectedOf later

/-! ## One more entry -/

/-- What one more entry does to the rows. -/
def onRows (rows : List Workspace) : Entry → List Workspace
  | (.addWorkspace id name count, true) =>
      rows.filter (fun w => w.stableId ≠ id) ++ [⟨id, name, max 0 count⟩]
  | (.removeWorkspace id, true) => rows.filter fun w => w.stableId ≠ id
  | (.setUnreadCount id count, true) =>
      rows.map fun w => if w.stableId = id then { w with unreadCount := max 0 count } else w
  | _ => rows

/-- What one more entry does to the selection. -/
def onSelected (selected : QString) : Entry → QString
  | (.selectWorkspace id, true) => id
  | (.removeWorkspace id, true) => if selected = id then [] else selected
  | _ => selected

theorem lastCount_concat (stableId : QString) (h : List Entry) (e : Entry) :
    lastCount stableId (h ++ [e]) = (countSet stableId e).or (lastCount stableId h) := by
  induction h with
  | nil => simp [lastCount]
  | cons e₀ later ih => simp only [List.cons_append, lastCount, ih, Option.or_assoc]

/-- An entry that adds nothing contributes no row. -/
theorem rowsOf_cons_of_not_adds {e : Entry} (h : ∀ id name count, e ≠ (.addWorkspace id name count, true))
    (later : List Entry) : rowsOf (e :: later) = rowsOf later := by
  obtain ⟨op, r⟩ := e
  cases op <;> cases r <;> first | rfl | exact absurd rfl (h _ _ _)

theorem rowsOf_concat (h : List Entry) (e : Entry) : rowsOf (h ++ [e]) = onRows (rowsOf h) e := by
  induction h with
  | nil => obtain ⟨op, r⟩ := e; cases op <;> cases r <;> simp [rowsOf, onRows, lastCount]
  | cons e₀ later ih =>
      by_cases hadd : ∃ id name count, e₀ = (.addWorkspace id name count, true)
      · obtain ⟨id, name, count, rfl⟩ := hadd
        simp only [List.cons_append, rowsOf, ih, List.any_append, lastCount_concat]
        by_cases hdead : (later.any (adds id) || later.any (removes id)) = true
        · -- the add was already superseded, and stays so
          rw [if_pos hdead, if_pos]
          simp only [Bool.or_eq_true] at hdead ⊢
          tauto
        · rw [if_neg hdead]
          simp only [Bool.not_eq_true, Bool.or_eq_false_iff] at hdead
          obtain ⟨op, r⟩ := e
          cases r with
          | false => cases op <;> simp [adds, removes, countSet, onRows, hdead]
          | true =>
              cases op with
              | setLoading loading => simp [adds, removes, countSet, onRows, hdead]
              | selectWorkspace id' => simp [adds, removes, countSet, onRows, hdead]
              | addWorkspace id' name' count' =>
                  by_cases hid : id' = id
                  · simp [adds, removes, onRows, hid]
                  · simp [adds, removes, countSet, onRows, hdead, hid, Ne.symm hid]
              | removeWorkspace id' =>
                  by_cases hid : id' = id
                  · simp [adds, removes, onRows, hid]
                  · simp [adds, removes, countSet, onRows, hdead, hid, Ne.symm hid]
              | setUnreadCount id' count' =>
                  by_cases hid : id' = id
                  · simp [adds, removes, countSet, onRows, hdead, hid]
                  · simp [adds, removes, countSet, onRows, hdead, hid, Ne.symm hid]
      · simp only [not_exists] at hadd
        rw [List.cons_append, rowsOf_cons_of_not_adds hadd, rowsOf_cons_of_not_adds hadd, ih]

/-- An entry that selects nothing leaves the selection to the entries after it. -/
theorem selectedOf_cons_of_not_selects {e : Entry} (h : selects e = false) (later : List Entry) :
    selectedOf (e :: later) = selectedOf later := by
  obtain ⟨op, r⟩ := e
  cases op <;> cases r <;> first | rfl | simp [selects] at h

theorem selectedOf_concat (h : List Entry) (e : Entry) :
    selectedOf (h ++ [e]) = onSelected (selectedOf h) e := by
  induction h with
  | nil => obtain ⟨op, r⟩ := e; cases op <;> cases r <;> simp [selectedOf, onSelected]
  | cons e₀ later ih =>
      by_cases hsel : selects e₀ = true
      · obtain ⟨id, rfl⟩ : ∃ id, e₀ = (.selectWorkspace id, true) := by
          obtain ⟨op, r⟩ := e₀
          cases op <;> cases r <;> simp_all [selects]
        simp only [List.cons_append, selectedOf, ih, List.any_append, List.any_cons, List.any_nil,
          Bool.or_false]
        by_cases hlater : later.any selects = true
        · simp [hlater]
        · -- no later select: the entry is the last one, or keeps or drops the selection
          rw [Bool.not_eq_true] at hlater
          rw [hlater, Bool.false_or, if_neg Bool.false_ne_true]
          generalize later.any (removes id) = removed
          obtain ⟨op, r⟩ := e
          cases r with
          | false => cases op <;> simp [selects, removes, onSelected]
          | true =>
              cases op with
              | removeWorkspace id' =>
                  by_cases hid : id' = id
                  · cases removed <;> simp [selects, removes, onSelected, hid]
                  · cases removed <;> simp [selects, removes, onSelected, hid, Ne.symm hid]
              | _ => simp [selects, removes, onSelected]
      · rw [Bool.not_eq_true] at hsel
        rw [List.cons_append, selectedOf_cons_of_not_selects hsel,
          selectedOf_cons_of_not_selects hsel, ih]

/-! ## The model follows its history -/

theorem history_concat (m : WorkspaceListModel) (ops : List Op) (op : Op) :
    history m (ops ++ [op])
      = history m ops ++ [(op, ((exec op).run (sequence exec m ops)).quiet.result)] := by
  induction ops generalizing m with
  | nil => rfl
  | cons op₀ rest ih => simp only [List.cons_append, history, ih]; rfl

/-- One operation and one more entry agree on the rows. -/
theorem onRows_next (m : WorkspaceListModel) (op : Op) :
    onRows m.workspaces (op, decide (m.Accepts op)) = (m.next op).workspaces := by
  by_cases h : m.Accepts op
  · simp only [decide_eq_true h, next, if_pos h]
    cases op with
    | addWorkspace id name count =>
        -- the ID is new, so no row is superseded
        have hnew : m.workspaces.filter (fun w => w.stableId ≠ id) = m.workspaces :=
          List.filter_eq_self.mpr fun w hw => by
            simpa using fun hid : w.stableId = id => h.2.2 ⟨w, hw, hid⟩
        simp only [onRows, hnew]
        rfl
    | _ => rfl
  · simp only [decide_eq_false h, next, if_neg h]
    cases op <;> rfl

/-- One operation and one more entry agree on the selection. -/
theorem onSelected_next (m : WorkspaceListModel) (op : Op) :
    onSelected m.selectedWorkspaceId (op, decide (m.Accepts op))
      = (m.next op).selectedWorkspaceId := by
  by_cases h : m.Accepts op
  · simp only [decide_eq_true h, next, if_pos h]
    cases op <;> rfl
  · simp only [decide_eq_false h, next, if_neg h]
    cases op <;> rfl

theorem sequence_eq_history (ops : List Op) :
    (sequence exec {} ops).workspaces = rowsOf (history {} ops) ∧
    (sequence exec {} ops).selectedWorkspaceId = selectedOf (history {} ops) := by
  induction ops using List.reverseRecOn with
  | nil => exact ⟨rfl, rfl⟩
  | append_singleton ops op ih =>
      have hwf := wf_sequence wf_initial ops
      obtain ⟨hstate, hresult⟩ := exec_quiet hwf op
      rw [sequence_concat, history_concat, rowsOf_concat, selectedOf_concat, ← ih.1, ← ih.2,
        hstate, hresult, onRows_next, onSelected_next]
      exact ⟨rfl, rfl⟩

/-- A rejected call leaves nothing behind, whatever is called later. -/
theorem sequence_rejected (ops later : List Op) {op : Op}
    (h : ((exec op).run (sequence exec {} ops)).quiet.result = false) :
    sequence exec {} (ops ++ op :: later) = sequence exec {} (ops ++ later) := by
  have hrej : ¬ (sequence exec {} ops).Accepts op := by
    rw [(exec_quiet (wf_sequence wf_initial ops) op).2] at h
    simpa using h
  rw [sequence_append, sequence_append]
  show sequence exec ((exec op).run (sequence exec {} ops)).quiet.state later = _
  rw [exec_rejected hrej]
  rfl

/-- **The history determines the state.** After every session from the empty model the rows and the
    selection are those its history spells out. In particular the removal of another row keeps the
    selection, a rejected call changes no later state, and an added ID starts unselected and with
    the count it is added with, whatever it had before. -/
theorem state_of_history (ops : List Op) :
    (sequence exec {} ops).workspaces = rowsOf (history {} ops) ∧
    (sequence exec {} ops).selectedWorkspaceId = selectedOf (history {} ops) ∧
    (∀ id, id ≠ (sequence exec {} ops).selectedWorkspaceId →
      (sequence exec {} (ops ++ [.removeWorkspace id])).selectedWorkspaceId
        = (sequence exec {} ops).selectedWorkspaceId) ∧
    (∀ op later, ((exec op).run (sequence exec {} ops)).quiet.result = false →
      sequence exec {} (ops ++ op :: later) = sequence exec {} (ops ++ later)) ∧
    (∀ id name count,
      ((exec (.addWorkspace id name count)).run (sequence exec {} ops)).quiet.result = true →
      (sequence exec {} (ops ++ [.addWorkspace id name count])).workspaces
        = (sequence exec {} ops).workspaces ++ [⟨id, name, max 0 count⟩] ∧
      (sequence exec {} (ops ++ [.addWorkspace id name count])).selectedWorkspaceId ≠ id) := by
  have hwf := wf_sequence wf_initial ops
  refine ⟨(sequence_eq_history ops).1, (sequence_eq_history ops).2, fun id hid => ?_,
    fun op later h => sequence_rejected ops later h, fun id name count h => ?_⟩
  · rw [sequence_concat, (exec_quiet hwf _).1, next]
    split
    · simp [after, Ne.symm hid]
    · rfl
  · rw [(exec_quiet hwf _).2, decide_eq_true_eq] at h
    rw [sequence_concat, (exec_quiet hwf _).1, next, if_pos h]
    refine ⟨rfl, ?_⟩
    intro hsel
    rcases hwf.selected with hempty | hpresent
    · exact h.1 (hsel.symm.trans hempty)
    · exact h.2.2 (hsel ▸ hpresent)

end BranchTalk.Desktop.WorkspaceListModel
