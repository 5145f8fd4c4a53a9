import BranchTalk.Desktop.ChannelListModel.Invariant
import BranchTalk.Desktop.WorkspaceListModel.Lookup
import BranchTalk.Emission.Warranted

set_option autoImplicit false

/-! # No signal without a change

The guards of the mutators compare what a call asks for, normalized, with what the model holds.
For both list models and every call these comparisons come to the same as comparing what can be
read before and after: a signal names only what reads differently. -/

namespace BranchTalk.Desktop

open Emission

/-! ## The workspace model -/

namespace WorkspaceListModel

/-- What there is to read: the cells by row and role, and the properties. -/
inductive Item where
  | cell (row : ℕ) (role : Role)
  | loading
  | empty
  | selectedWorkspaceId

/-- What the signals say has changed. -/
def notices : Observer WorkspaceListModel Signal Item QVariant where
  read m
    | .cell row role => m.data (m.index row 0) role
    | .loading => .bool m.loading
    | .empty => .bool m.empty
    | .selectedWorkspaceId => .string m.selectedWorkspaceId
  names
    | .item (.dataChanged topLeft bottomRight roles), .cell row role =>
        topLeft.row ≤ row && row ≤ bottomRight.row && roles.contains role
    | .loadingChanged, .loading => true
    | .emptyChanged, .empty => true
    | .selectedWorkspaceIdChanged, .selectedWorkspaceId => true
    | _, _ => false

/-- The signals of properties. -/
def IsProperty (sig : Signal) : Prop := ∀ item, sig ≠ .item item

def IsReset (sig : Signal) : Prop := sig = .item .modelReset

/-- What a run of an operation from a state owes. -/
abbrev Warrants (m : WorkspaceListModel) (op : Op) : Prop :=
  Warranted notices IsProperty IsReset m ((exec op).run m).quiet

theorem not_isProperty_item (signal : ItemSignal Role) : ¬ IsProperty (.item signal) :=
  fun h => h signal rfl

/-! ### What a signal names -/

theorem names_loadingChanged {item : Item} (h : notices.names .loadingChanged item = true) :
    item = .loading := by
  cases item with
  | loading => rfl
  | _ => exact absurd h Bool.false_ne_true

theorem names_emptyChanged {item : Item} (h : notices.names .emptyChanged item = true) :
    item = .empty := by
  cases item with
  | empty => rfl
  | _ => exact absurd h Bool.false_ne_true

theorem names_selectedWorkspaceIdChanged {item : Item}
    (h : notices.names .selectedWorkspaceIdChanged item = true) : item = .selectedWorkspaceId := by
  cases item with
  | selectedWorkspaceId => rfl
  | _ => exact absurd h Bool.false_ne_true

/-- A `dataChanged` about one row names that row's cells of its roles, and nothing else. -/
theorem names_row {m : WorkspaceListModel} {row : Int} (h₀ : 0 ≤ row) (hlt : row < m.rowCount)
    {role : Role} {item : Item}
    (h : notices.names (.item (.dataChanged (m.index row 0) (m.index row 0) [role])) item = true) :
    item = .cell row.toNat role := by
  have hindex : m.index row 0 = ⟨row, 0⟩ := listIndex_of_lt h₀ hlt
  cases item with
  | cell n role' =>
      simp only [notices, hindex, Bool.and_eq_true, decide_eq_true_eq, List.contains_iff_mem,
        List.mem_singleton] at h
      obtain ⟨⟨hle, hge⟩, rfl⟩ := h
      refine congrArg (Item.cell · role') ?_
      omega
  | _ => exact absurd h Bool.false_ne_true

/-- The signals that rows come or go speak of no cell and of no property. -/
theorem not_names_item {signal : ItemSignal Role} {item : Item}
    (hsignal : ∀ topLeft bottomRight roles, signal ≠ .dataChanged topLeft bottomRight roles) :
    notices.names (.item signal) item ≠ true := by
  cases signal with
  | dataChanged topLeft bottomRight roles => exact absurd rfl (hsignal _ _ _)
  | _ => cases item <;> exact Bool.false_ne_true

/-- The cell of a row, as it is read. -/
theorem read_cell {m : WorkspaceListModel} {n : ℕ} {w : Workspace} (h : m.workspaces[n]? = some w)
    (role : Role) : notices.read m (.cell n role) = cells m.selectedWorkspaceId w role := by
  simp [notices, data_index, h]

/-- A row found by the scan, and what it holds. -/
theorem row_of_present {m : WorkspaceListModel} {stableId : QString} (h : m.Present stableId) :
    0 ≤ m.indexOfStableId stableId ∧ m.indexOfStableId stableId < m.rowCount ∧
    ∃ w, m.workspaces[(m.indexOfStableId stableId).toNat]? = some w ∧ w.stableId = stableId :=
  have h₀ := (m.indexOfStableId_nonneg_iff stableId).mpr h
  ⟨h₀, KeyedRows.indexOf_lt_length Workspace.stableId stableId m.workspaces,
    KeyedRows.getElem?_indexOf Workspace.stableId h₀⟩

/-! ### The operations -/

theorem warrants_setLoading (m : WorkspaceListModel) (loading : Bool) :
    m.Warrants (.setLoading loading) := by
  unfold Warrants
  simp only [exec, Method.run_bind, setLoading_run]
  split
  · exact Warranted.nothing m true
  · next hother =>
      refine Warranted.accepted rfl rfl ?_ (count_le_one [] (by simp) (le_refl 1))
        (by simp [IsReset])
      intro sig hsig item hitem
      obtain rfl := List.mem_singleton.mp hsig
      obtain rfl := names_loadingChanged hitem
      simpa [notices] using Ne.symm hother

theorem signals_finishRows (emptyDiffers : Bool) (m : WorkspaceListModel) :
    (finishRows emptyDiffers m).quiet.signals.map Prod.fst =
      if emptyDiffers then [.emptyChanged] else [] := by
  cases emptyDiffers <;> rfl

theorem warrants_addWorkspace {m : WorkspaceListModel} {stableId name : QString} {count : Int}
    (h : m.Accepts (.addWorkspace stableId name count)) :
    m.Warrants (.addWorkspace stableId name count) := by
  obtain ⟨hstate, hresult⟩ := addWorkspace_quiet h
  have hneg := (m.indexOfStableId_neg_iff stableId).mpr h.2.2
  have hsignals : ((exec (.addWorkspace stableId name count)).run m).quiet.signals.map Prod.fst =
      [.item (.rowsAboutToBeInserted m.rowCount m.rowCount),
        .item (.rowsInserted m.rowCount m.rowCount)] ++
      if m.empty then [.emptyChanged] else [] := by
    simp only [exec, addWorkspace_run]
    rw [if_neg (by simp [h.1, h.2.1]; omega)]
    simp only [Proc.quiet_emit, List.map_cons, signals_finishRows]
    rfl
  refine Warranted.accepted hresult hsignals ?_ (count_le_one _ ?_ ?_) ?_
  · intro sig hsig item hitem
    rw [hstate]
    simp only [List.mem_append, List.mem_cons, List.not_mem_nil, or_false] at hsig
    rcases hsig with (rfl | rfl) | hsig
    · exact absurd hitem (not_names_item (by simp))
    · exact absurd hitem (not_names_item (by simp))
    · split at hsig
      · next hempty =>
          have hafter : (m.append ⟨stableId, name, max 0 count⟩).empty = false := by
            simp [empty, append]
          obtain rfl := List.mem_singleton.mp hsig
          obtain rfl := names_emptyChanged hitem
          simp only [notices, hempty, hafter]
          decide
      · cases hsig
  · simp [not_isProperty_item]
  · split <;> simp
  · split <;> simp [IsReset]

/-- The signals after `rowsRemoved`. -/
def removalSignals (removedSelection becomesEmpty : Bool) : List Signal :=
  (if removedSelection then [.selectedWorkspaceIdChanged] else []) ++
    if becomesEmpty then [.emptyChanged] else []

theorem signals_afterRemoved (removedSelection becomesEmpty : Bool) (m : WorkspaceListModel) :
    (afterRemoved removedSelection becomesEmpty m).quiet.signals.map Prod.fst =
      removalSignals removedSelection becomesEmpty := by
  cases removedSelection with
  | true => exact congrArg (List.cons _) (signals_finishRows becomesEmpty m.clearSelection)
  | false => exact signals_finishRows becomesEmpty m

theorem mem_removalSignals {removedSelection becomesEmpty : Bool} {sig : Signal} :
    sig ∈ removalSignals removedSelection becomesEmpty ↔
      sig = .selectedWorkspaceIdChanged ∧ removedSelection = true ∨
      sig = .emptyChanged ∧ becomesEmpty = true := by
  cases removedSelection <;> cases becomesEmpty <;> simp [removalSignals]

theorem nodup_removalSignals (removedSelection becomesEmpty : Bool) :
    (removalSignals removedSelection becomesEmpty).Nodup := by
  cases removedSelection <;> cases becomesEmpty <;> decide

/-- Only the last row leaves none when it is removed. -/
theorem empty_after_removeWorkspace {m : WorkspaceListModel} (hm : m.Wf) {stableId : QString}
    (h : m.Present stableId) (hone : m.rowCount = 1) :
    m.empty = false ∧ (m.after (.removeWorkspace stableId)).empty = true := by
  obtain ⟨h₀, hlt, -⟩ := row_of_present h
  have hrows : (m.after (.removeWorkspace stableId)).workspaces =
      (m.removeAt (m.indexOfStableId stableId)).workspaces := (removeAt_indexOfStableId hm h).symm
  rw [rowCount_eq] at hone hlt
  have hlength : (m.removeAt (m.indexOfStableId stableId)).workspaces.length = 0 := by
    rw [removeAt, List.length_eraseIdx, if_pos (by omega)]
    omega
  refine ⟨?_, ?_⟩
  · rw [empty, Bool.eq_false_iff, Ne, List.isEmpty_iff_length_eq_zero]
    omega
  · rw [empty, hrows, List.isEmpty_iff_length_eq_zero]
    exact hlength

theorem warrants_removeWorkspace {m : WorkspaceListModel} (hm : m.Wf) {stableId : QString}
    (h : m.Present stableId) : m.Warrants (.removeWorkspace stableId) := by
  obtain ⟨hstate, hresult⟩ := removeWorkspace_quiet hm h
  have hne : stableId ≠ [] := by
    rintro rfl
    exact not_present_nil hm h
  have hsignals : ((exec (.removeWorkspace stableId)).run m).quiet.signals.map Prod.fst =
      .item (.rowsAboutToBeRemoved (m.indexOfStableId stableId) (m.indexOfStableId stableId)) ::
      .item (.rowsRemoved (m.indexOfStableId stableId) (m.indexOfStableId stableId)) ::
      removalSignals (stableId == m.selectedWorkspaceId) (m.rowCount == 1) := by
    simp only [exec, removeWorkspace_run, if_neg (not_indexOfStableId_neg h), Proc.quiet_emit,
      List.map_cons, signals_afterRemoved]
  refine Warranted.accepted hresult hsignals ?_ ?_ ?_
  · intro sig hsig item hitem
    rw [hstate]
    simp only [List.mem_cons, mem_removalSignals, beq_iff_eq] at hsig
    rcases hsig with rfl | rfl | ⟨rfl, hsel⟩ | ⟨rfl, hone⟩
    · exact absurd hitem (not_names_item (by simp))
    · exact absurd hitem (not_names_item (by simp))
    · obtain rfl := names_selectedWorkspaceIdChanged hitem
      simpa [notices, after, ← hsel] using Ne.symm hne
    · obtain ⟨hbefore, hafter⟩ := empty_after_removeWorkspace hm h hone
      obtain rfl := names_emptyChanged hitem
      simp only [notices, hbefore, hafter]
      decide
  · intro sig hsig
    rw [List.count_cons_of_ne (Ne.symm (hsig _)), List.count_cons_of_ne (Ne.symm (hsig _))]
    exact List.nodup_iff_count_le_one.mp (nodup_removalSignals _ _) sig
  · simp only [List.forall_mem_cons, mem_removalSignals]
    refine ⟨by simp [IsReset], by simp [IsReset], ?_⟩
    rintro sig (⟨rfl, -⟩ | ⟨rfl, -⟩) <;> simp [IsReset]

theorem warrants_setUnreadCount {m : WorkspaceListModel} {stableId : QString}
    (h : m.Present stableId) (count : Int) : m.Warrants (.setUnreadCount stableId count) := by
  obtain ⟨h₀, hlt, w, hw, -⟩ := row_of_present h
  unfold Warrants
  simp only [exec, setUnreadCount_run, if_neg (not_indexOfStableId_neg h)]
  generalize m.indexOfStableId stableId = row at *
  split
  · exact Warranted.nothing m true
  · next hother =>
      have hlt' : row < (m.storeUnreadCount row (max 0 count)).rowCount := by
        simpa [rowCount_eq, storeUnreadCount] using hlt
      have hw' : (m.storeUnreadCount row (max 0 count)).workspaces[row.toNat]? =
          some { w with unreadCount := max 0 count } := by
        simp [storeUnreadCount, hw]
      have hcount : w.unreadCount ≠ max 0 count := by simpa [unreadCountAt, hw] using hother
      refine Warranted.accepted rfl rfl ?_
        (count_le_one [_] (by simp [not_isProperty_item]) (Nat.zero_le 1)) (by simp [IsReset])
      intro sig hsig item hitem
      obtain rfl := List.mem_singleton.mp hsig
      obtain rfl := names_row h₀ hlt' hitem
      simp only [Proc.quiet]
      rw [read_cell hw', read_cell hw]
      simpa [cells] using Ne.symm hcount

/-- Of the row selected and the row de-selected, `selected` reads differently. -/
theorem read_select_ne {m : WorkspaceListModel} {stableId id : QString} (h : m.Present id)
    (hother : m.selectedWorkspaceId ≠ stableId) (hid : id = stableId ∨ id = m.selectedWorkspaceId)
    {item : Item}
    (hitem : notices.names (.item (.dataChanged ((m.select stableId).index (m.indexOfStableId id) 0)
      ((m.select stableId).index (m.indexOfStableId id) 0) [.selected])) item = true) :
    notices.read (m.select stableId) item ≠ notices.read m item := by
  obtain ⟨h₀, hlt, w, hw, rfl⟩ := row_of_present h
  obtain rfl := names_row (m := m.select stableId) h₀ hlt hitem
  rw [read_cell (m := m.select stableId) hw, read_cell hw]
  rcases hid with hid | hid
  · simpa [cells, select, hid] using Ne.symm hother
  · simpa [cells, select, hid] using hother

theorem warrants_selectWorkspace {m : WorkspaceListModel} {stableId : QString}
    (h : m.Present stableId) : m.Warrants (.selectWorkspace stableId) := by
  unfold Warrants
  simp only [exec, selectWorkspace_run, if_neg (not_indexOfStableId_neg h)]
  split
  · exact Warranted.nothing m true
  next hother =>
  have hselection : ∀ item, notices.names .selectedWorkspaceIdChanged item = true →
      notices.read (m.select stableId) item ≠ notices.read m item := by
    intro item hitem
    obtain rfl := names_selectedWorkspaceIdChanged hitem
    simpa [notices, select] using Ne.symm hother
  split
  · next hprevious =>
      have hpresent := (m.indexOfStableId_nonneg_iff _).mp hprevious
      refine Warranted.accepted rfl rfl ?_
        (count_le_one [_, _] (by simp [not_isProperty_item]) (le_refl 1))
        (by simp [IsReset, finishSelect])
      refine List.forall_mem_cons.mpr ⟨fun item hitem => ?_, List.forall_mem_cons.mpr
        ⟨fun item hitem => ?_, List.forall_mem_singleton.mpr hselection⟩⟩
      · exact read_select_ne hpresent hother (Or.inr rfl) hitem
      · exact read_select_ne h hother (Or.inl rfl) hitem
  · refine Warranted.accepted rfl rfl ?_
      (count_le_one [_] (by simp [not_isProperty_item]) (le_refl 1))
      (by simp [IsReset, finishSelect])
    refine List.forall_mem_cons.mpr
      ⟨fun item hitem => ?_, List.forall_mem_singleton.mpr hselection⟩
    exact read_select_ne h hother (Or.inl rfl) hitem

/-- Every call of the workspace model, accepted or not. -/
theorem warrants_exec {m : WorkspaceListModel} (hm : m.Wf) (op : Op) : m.Warrants op := by
  by_cases h : m.Accepts op
  · cases op with
    | setLoading loading => exact warrants_setLoading m loading
    | addWorkspace stableId name count => exact warrants_addWorkspace h
    | removeWorkspace stableId => exact warrants_removeWorkspace hm h
    | setUnreadCount stableId count => exact warrants_setUnreadCount h count
    | selectWorkspace stableId => exact warrants_selectWorkspace h
  · unfold Warrants
    rw [exec_rejected h]
    exact Warranted.nothing m false

end WorkspaceListModel

/-! ## The channel model -/

namespace ChannelListModel

variable (text : QtText)

/-- What the signals say has changed. A `dataChanged` about `matchesSearch` speaks of the query, and
    the selection is the selected ID. -/
def notices : Observer ChannelListModel Signal Item QVariant where
  read := (observer text).read
  names
    | .item (.dataChanged topLeft bottomRight roles), .cell row role =>
        topLeft.row ≤ row && row ≤ bottomRight.row && roles.contains role && role != .matchesSearch
    | .item (.dataChanged _ _ roles), .searchQuery => roles.contains .matchesSearch
    | .searchQueryChanged, .searchQuery => true
    | .matchingChannelCountChanged, .matchingChannelCount => true
    | .selectedChannelChanged, .selectedChannelId => true
    | _, _ => false

/-- The signals of properties. -/
def IsProperty (sig : Signal) : Prop := ∀ item, sig ≠ .item item

def IsReset (sig : Signal) : Prop := sig = .item .modelReset

/-- What a run of an operation from a state owes. -/
abbrev Warrants (m : ChannelListModel) (op : Op) : Prop :=
  Warranted (notices text) IsProperty IsReset m ((exec text op).run m).quiet

variable {text}

theorem not_isProperty_item (signal : ItemSignal Role) : ¬ IsProperty (.item signal) :=
  fun h => h signal rfl

/-! ### What a signal names -/

theorem names_searchQueryChanged {item : Item}
    (h : (notices text).names .searchQueryChanged item = true) : item = .searchQuery := by
  cases item with
  | searchQuery => rfl
  | _ => exact absurd h Bool.false_ne_true

theorem names_matchingChannelCountChanged {item : Item}
    (h : (notices text).names .matchingChannelCountChanged item = true) :
    item = .matchingChannelCount := by
  cases item with
  | matchingChannelCount => rfl
  | _ => exact absurd h Bool.false_ne_true

theorem names_selectedChannelChanged {item : Item}
    (h : (notices text).names .selectedChannelChanged item = true) : item = .selectedChannelId := by
  cases item with
  | selectedChannelId => rfl
  | _ => exact absurd h Bool.false_ne_true

/-- The cells of `matchesSearch` are left to the query. -/
theorem names_matchesSearch {topLeft bottomRight : QModelIndex} {item : Item}
    (h : (notices text).names (.item (.dataChanged topLeft bottomRight [.matchesSearch])) item
      = true) : item = .searchQuery := by
  cases item with
  | searchQuery => rfl
  | cell row role =>
      simp only [notices, Bool.and_eq_true, List.contains_iff_mem, List.mem_singleton,
        bne_iff_ne] at h
      exact absurd h.1.2 h.2
  | _ => exact absurd h Bool.false_ne_true

theorem names_cell_row {m : ChannelListModel} {row : Int} (h₀ : 0 ≤ row) (hlt : row < m.rowCount)
    {role : Role} (hrole : role ≠ .matchesSearch) {item : Item}
    (h : (notices text).names (.item (.dataChanged (m.index row 0) (m.index row 0) [role])) item
      = true) : item = .cell row.toNat role := by
  have hindex : m.index row 0 = ⟨row, 0⟩ := listIndex_of_lt h₀ hlt
  cases item with
  | cell n role' =>
      simp only [notices, hindex, Bool.and_eq_true, decide_eq_true_eq, List.contains_iff_mem,
        List.mem_singleton] at h
      obtain ⟨⟨⟨hle, hge⟩, rfl⟩, -⟩ := h
      refine congrArg (Item.cell · role') ?_
      omega
  | searchQuery =>
      simp only [notices, List.contains_iff_mem, List.mem_singleton] at h
      exact absurd h.symm hrole
  | _ => exact absurd h Bool.false_ne_true

theorem read_cell {m : ChannelListModel} {n : ℕ} {channel : Channel}
    (h : m.channels[n]? = some channel) (role : Role) :
    (notices text).read m (.cell n role) = m.cell text channel role := by
  simp [notices, observer, data_index, h]

theorem row_of_present {m : ChannelListModel} {stableId : QString}
    (h₀ : 0 ≤ m.indexOfStableId stableId) :
    m.indexOfStableId stableId < m.rowCount ∧
    ∃ channel, m.channels[(m.indexOfStableId stableId).toNat]? = some channel ∧
      channel.stableId = stableId :=
  ⟨KeyedRows.indexOf_lt_length Channel.stableId stableId m.channels,
    KeyedRows.getElem?_indexOf Channel.stableId h₀⟩

/-- The signals after `searchQueryChanged`. -/
def searchSignals (m : ChannelListModel) (countChanged : Bool) : List Signal :=
  (if m.rowCount > 0 then
    [.item (.dataChanged (m.index 0 0) (m.index (m.rowCount - 1) 0) [.matchesSearch])]
  else []) ++ if countChanged then [.matchingChannelCountChanged] else []

theorem signals_afterQueryChanged (previous current : Int) (m : ChannelListModel) :
    ((afterQueryChanged previous current m).bind fun _ s => .done s true).quiet.signals.map
        Prod.fst = m.searchSignals (previous != current) := by
  unfold afterQueryChanged finishSearch searchSignals
  by_cases hcount : previous = current
  · simp only [hcount, bne_self_eq_false, ne_eq, not_true_eq_false, if_false, Bool.false_eq_true]
    split <;> rfl
  · have hne : (previous != current) = true := by simpa using hcount
    simp only [hne, ne_eq, hcount, not_false_eq_true, if_true]
    split <;> rfl

theorem mem_searchSignals {m : ChannelListModel} {countChanged : Bool} {sig : Signal}
    (h : sig ∈ m.searchSignals countChanged) :
    sig = .item (.dataChanged (m.index 0 0) (m.index (m.rowCount - 1) 0) [.matchesSearch]) ∨
    sig = .matchingChannelCountChanged ∧ countChanged = true := by
  unfold searchSignals at h
  rcases List.mem_append.mp h with h | h
  · split at h
    · exact Or.inl (List.mem_singleton.mp h)
    · simp at h
  · split at h
    · next hcount => exact Or.inr ⟨List.mem_singleton.mp h, hcount⟩
    · simp at h

theorem nodup_searchSignals (m : ChannelListModel) (countChanged : Bool) :
    (.searchQueryChanged :: m.searchSignals countChanged).Nodup := by
  unfold searchSignals
  split <;> split <;> simp

/-! ### The operations -/

theorem warrants_setSearchQuery (m : ChannelListModel) (searchQuery : QString) :
    m.Warrants text (.setSearchQuery searchQuery) := by
  have hpassive := exec_passive text m (.setSearchQuery searchQuery)
  have hstate := hpassive.quiet_state
  have hresult := hpassive.quiet_result
  unfold Warrants
  simp only [exec, Method.run_bind, Method.run_pure, setSearchQuery_run, next, answer]
    at hstate hresult ⊢
  split at hstate
  · next hsame =>
      rw [if_pos hsame]
      exact Warranted.nothing m true
  · next hother =>
      rw [if_neg hother] at hresult ⊢
      have hquery : (notices text).read (m.search (text.trimmed searchQuery)) .searchQuery
          ≠ (notices text).read m .searchQuery := by
        simpa [notices, observer, search] using Ne.symm hother
      refine Warranted.accepted hresult
        (congrArg (Signal.searchQueryChanged :: ·) (signals_afterQueryChanged ..)) ?_ ?_ ?_
      · intro sig hsig item hitem
        rw [hstate]
        rcases List.mem_cons.mp hsig with rfl | hsig
        · obtain rfl := names_searchQueryChanged hitem
          exact hquery
        rcases mem_searchSignals hsig with rfl | ⟨rfl, hcount⟩
        · obtain rfl := names_matchesSearch hitem
          exact hquery
        · obtain rfl := names_matchingChannelCountChanged hitem
          simpa [notices, observer] using Ne.symm (bne_iff_ne.mp hcount)
      · exact fun sig _ => List.nodup_iff_count_le_one.mp (nodup_searchSignals _ _) sig
      · intro sig hsig
        rcases List.mem_cons.mp hsig with rfl | hsig
        · simp [IsReset]
        · rcases mem_searchSignals hsig with rfl | ⟨rfl, -⟩ <;> simp [IsReset]

/-- Of the row selected and the row de-selected, `selected` reads differently. -/
theorem read_select_ne {m : ChannelListModel} {stableId id : QString}
    (h₀ : 0 ≤ m.indexOfStableId id) (hother : m.selectedChannelId ≠ stableId)
    (hid : id = stableId ∨ id = m.selectedChannelId) {item : Item}
    (hitem : (notices text).names (.item (.dataChanged
      ((m.select stableId).index (m.indexOfStableId id) 0)
      ((m.select stableId).index (m.indexOfStableId id) 0) [.selected])) item = true) :
    (notices text).read (m.select stableId) item ≠ (notices text).read m item := by
  obtain ⟨hlt, channel, hchannel, rfl⟩ := row_of_present h₀
  obtain rfl := names_cell_row (m := m.select stableId) h₀ hlt (by decide) hitem
  rw [read_cell (m := m.select stableId) hchannel, read_cell hchannel]
  rcases hid with hid | hid
  · simpa [cell, select, hid] using Ne.symm hother
  · simpa [cell, select, hid] using hother

theorem warrants_selectChannel (m : ChannelListModel) (stableId : QString) :
    m.Warrants text (.selectChannel stableId) := by
  unfold Warrants
  simp only [exec, selectChannel_run]
  split
  · exact Warranted.nothing m false
  next hpresent =>
  split
  · exact Warranted.nothing m true
  next hother =>
  have hselection : ∀ item, (notices text).names .selectedChannelChanged item = true →
      (notices text).read (m.select stableId) item ≠ (notices text).read m item := by
    intro item hitem
    obtain rfl := names_selectedChannelChanged hitem
    simpa [notices, observer, select] using Ne.symm hother
  split
  · next hprevious =>
      refine Warranted.accepted rfl rfl ?_
        (count_le_one [_, _] (by simp [not_isProperty_item]) (le_refl 1))
        (by simp [IsReset, finishSelect])
      refine List.forall_mem_cons.mpr ⟨fun item hitem => ?_, List.forall_mem_cons.mpr
        ⟨fun item hitem => ?_, List.forall_mem_singleton.mpr hselection⟩⟩
      · exact read_select_ne hprevious hother (Or.inr rfl) hitem
      · exact read_select_ne (not_lt.mp hpresent) hother (Or.inl rfl) hitem
  · refine Warranted.accepted rfl rfl ?_
      (count_le_one [_] (by simp [not_isProperty_item]) (le_refl 1))
      (by simp [IsReset, finishSelect])
    refine List.forall_mem_cons.mpr
      ⟨fun item hitem => ?_, List.forall_mem_singleton.mpr hselection⟩
    exact read_select_ne (not_lt.mp hpresent) hother (Or.inl rfl) hitem

/-- `setUnreadCount` and `setMuted`: a field that is not yet as asked reads differently after. -/
theorem warrants_setField (m : ChannelListModel) (stableId : QString) (isSet : Channel → Bool)
    (change : Channel → Channel) {role : Role} (hrole : role ≠ .matchesSearch)
    (hcell : ∀ (m m' : ChannelListModel) channel, isSet channel = false →
      m'.cell text (change channel) role ≠ m.cell text channel role) :
    Warranted (notices text) IsProperty IsReset m
      ((setField stableId isSet change role).run m).quiet := by
  rw [setField_run]
  split
  · exact Warranted.nothing m false
  next hpresent =>
  obtain ⟨hlt, channel, hchannel, -⟩ := row_of_present (not_lt.mp hpresent)
  generalize m.indexOfStableId stableId = row at *
  split
  · exact Warranted.nothing m true
  · next hother =>
      have hnot : isSet channel = false := by simpa [hchannel] using hother
      have hlt' : row < (m.modifyRow row change).rowCount := by
        simpa [rowCount, modifyRow] using hlt
      have hchannel' : (m.modifyRow row change).channels[row.toNat]? = some (change channel) := by
        simp [modifyRow, hchannel]
      refine Warranted.accepted rfl rfl ?_
        (count_le_one [_] (by simp [not_isProperty_item]) (Nat.zero_le 1)) (by simp [IsReset])
      intro sig hsig item hitem
      obtain rfl := List.mem_singleton.mp hsig
      obtain rfl := names_cell_row (not_lt.mp hpresent) hlt' hrole hitem
      simp only [Proc.quiet]
      rw [read_cell hchannel', read_cell hchannel]
      exact hcell _ _ channel hnot

/-- Every call of the channel model, in any state. -/
theorem warrants_exec (m : ChannelListModel) (op : Op) : m.Warrants text op := by
  cases op with
  | setSearchQuery searchQuery => exact warrants_setSearchQuery m searchQuery
  | selectChannel stableId => exact warrants_selectChannel m stableId
  | setUnreadCount stableId unreadCount =>
      refine warrants_setField m stableId _ _ (by simp) fun m m' channel hother => ?_
      have hne : channel.unreadCount ≠ max 0 unreadCount := by simpa using hother
      simpa [cell] using Ne.symm hne
  | setMuted stableId muted =>
      refine warrants_setField m stableId _ _ (by simp) fun m m' channel hother => ?_
      have hne : channel.muted ≠ muted := by simpa using hother
      simpa [cell] using Ne.symm hne

end ChannelListModel

/-- **No signal without a change**, in every reachable state of either list model and for every
    call. -/
theorem signals_warranted (text : QtText) :
    (∀ ops op, (sequence WorkspaceListModel.exec {} ops).Warrants op) ∧
    ∀ channels ops op,
      (sequence (ChannelListModel.exec text) (ChannelListModel.construct channels) ops).Warrants
        text op :=
  ⟨fun ops op => WorkspaceListModel.warrants_exec
      (WorkspaceListModel.wf_sequence WorkspaceListModel.wf_initial ops) op,
    fun _ _ op => ChannelListModel.warrants_exec _ op⟩

end BranchTalk.Desktop
