import BranchTalk.Desktop.WorkspaceListModel.Reentrancy

set_option autoImplicit false

/-! # Row numbers kept across an emission

`selectWorkspace` looks up two rows before its first signal, the one it de-selects and the one it
selects, and announces them one after the other. Handlers of the first announcement may remove rows,
and the second one is about a row number looked up before that. `setUnreadCount` announces its row
right after it has looked it up, so nothing can happen in between.

The results are over every run of nested calls, whichever signals have handlers that call back. -/

namespace BranchTalk.Desktop.WorkspaceListModel

open Emission

/-! ## What an announced index should be -/

/-- The workspace that the `dataChanged` of a move is about: a call that has been entered announces
    the workspace whose count it changes, or the one it de-selects, or, with none to de-select, the
    one it selects; a call that goes on announces the one it selects. -/
def subject (c : Session) : Move Op → Option QString
  | .call (.setUnreadCount stableId _) => some stableId
  | .call (.selectWorkspace stableId) =>
      if c.state.Present c.state.selectedWorkspaceId then some c.state.selectedWorkspaceId
      else some stableId
  | .call _ => none
  | .resume =>
      match c.stack.head?.map Frame.op with
      | some (.selectWorkspace stableId) => some stableId
      | _ => none

/-- A `dataChanged` carries a valid index, that of the row its workspace is in, if it is in any. -/
def RowAnnounced (about : Option QString) (m : WorkspaceListModel) : Signal → Prop
  | .item (.dataChanged topLeft bottomRight _) =>
      topLeft.isValid = true ∧ bottomRight = topLeft ∧
      ∀ stableId, about = some stableId → m.Present stableId →
        topLeft.row = m.indexOfStableId stableId
  | _ => True

/-- What every move of a run should announce. -/
def AnnouncesRow (allows : Signal → Op → Bool) (c : Session) (mv : Move Op) : Prop :=
  ∀ sig m, Component.emits ⟨exec, allows⟩ c mv = some (sig, m) → RowAnnounced (subject c mv) m sig

/-! ## The condition on the moves -/

/-- A `selectWorkspace` that has announced the row it de-selects and not yet the row it selects. -/
def BetweenRows (entered : WorkspaceListModel) (op : Op) (sig : Signal) : Prop :=
  ∃ stableId topLeft bottomRight roles, op = .selectWorkspace stableId ∧
    sig = .item (.dataChanged topLeft bottomRight roles) ∧
    topLeft.row = entered.indexOfStableId entered.selectedWorkspaceId

/-- The row that the workspace had on entry is still a row, and still that workspace's, unless the
    workspace is gone. -/
def RowKept (entered m : WorkspaceListModel) (stableId : QString) : Prop :=
  entered.indexOfStableId stableId < m.rowCount ∧
  (m.Present stableId → m.indexOfStableId stableId = entered.indexOfStableId stableId)

/-- The condition on the moves of a run: a `selectWorkspace` between its two rows goes on only when
    the handlers have kept the row it is about to announce. -/
def KeepsRow (c : Session) : Move Op → Prop
  | .call _ => True
  | .resume => ∀ f ∈ c.stack.head?, BetweenRows f.entered f.op f.signal →
      ∀ stableId, f.op = .selectWorkspace stableId → RowKept f.entered c.state stableId

/-! ## Where a row is still to be announced -/

/-- A signal without an index. -/
def NotDataChanged (sig : Signal) : Prop :=
  ∀ topLeft bottomRight roles, sig ≠ .item (.dataChanged topLeft bottomRight roles)

/-- A waiting call either has a row to announce, the one it looked up on entry, or announces no row
    any more. -/
inductive Traced (entered : WorkspaceListModel) :
    Op → Signal → (WorkspaceListModel → Proc WorkspaceListModel Signal Bool) → Prop where
  | between {stableId : QString} {sig : Signal}
      (hsig : BetweenRows entered (.selectWorkspace stableId) sig)
      (hprevious : 0 ≤ entered.indexOfStableId entered.selectedWorkspaceId)
      (hselected : 0 ≤ entered.indexOfStableId stableId)
      (hne : entered.indexOfStableId stableId
        ≠ entered.indexOfStableId entered.selectedWorkspaceId) :
      Traced entered (.selectWorkspace stableId) sig
        (finishSelect (entered.indexOfStableId stableId))
  | announced {op : Op} {sig : Signal} {k : WorkspaceListModel → Proc WorkspaceListModel Signal Bool}
      (hsig : ¬ BetweenRows entered op sig) (hrest : ∀ m, (k m).Only NotDataChanged) :
      Traced entered op sig k

theorem not_betweenRows {entered : WorkspaceListModel} {op : Op} {sig : Signal}
    (h : NotDataChanged sig) : ¬ BetweenRows entered op sig := by
  rintro ⟨stableId, topLeft, bottomRight, roles, -, hsig, -⟩
  exact h _ _ _ hsig

/-- What goes on without announcing a row is still such a call when it waits again. -/
theorem Traced.of_only {entered m : WorkspaceListModel} {op : Op} {sig : Signal}
    {k : WorkspaceListModel → Proc WorkspaceListModel Signal Bool}
    (h : (Proc.emit m sig k).Only NotDataChanged) : Traced entered op sig k :=
  .announced (not_betweenRows h.1) h.2

theorem only_finishRows (emptyDiffers : Bool) (m : WorkspaceListModel) :
    (finishRows emptyDiffers m).Only NotDataChanged := by
  cases emptyDiffers
  · trivial
  · exact ⟨by simp [NotDataChanged], fun _ => trivial⟩

theorem only_afterRemoved (removedSelection becomesEmpty : Bool) (m : WorkspaceListModel) :
    (afterRemoved removedSelection becomesEmpty m).Only NotDataChanged := by
  cases removedSelection
  · exact only_finishRows becomesEmpty m
  · exact ⟨by simp [NotDataChanged], fun m₁ => only_finishRows becomesEmpty m₁⟩

/-- The operations that change no cell of a row that stays. -/
theorem only_exec (m : WorkspaceListModel) {op : Op}
    (hselect : ∀ stableId, op ≠ .selectWorkspace stableId)
    (hcount : ∀ stableId count, op ≠ .setUnreadCount stableId count) :
    ((exec op).run m).Only NotDataChanged := by
  cases op with
  | setLoading loading =>
      simp only [exec, Method.run_bind, setLoading_run]
      split
      · trivial
      · exact ⟨by simp [NotDataChanged], fun _ => trivial⟩
  | addWorkspace stableId name count =>
      simp only [exec, addWorkspace_run]
      split
      · trivial
      · exact ⟨by simp [NotDataChanged], fun m₁ => ⟨by simp [NotDataChanged],
          fun m₂ => only_finishRows _ m₂⟩⟩
  | removeWorkspace stableId =>
      simp only [exec, removeWorkspace_run]
      split
      · trivial
      · exact ⟨by simp [NotDataChanged], fun m₁ => ⟨by simp [NotDataChanged],
          fun m₂ => only_afterRemoved _ _ m₂⟩⟩
  | setUnreadCount stableId count => exact absurd rfl (hcount stableId count)
  | selectWorkspace stableId => exact absurd rfl (hselect stableId)

/-! ## Rows that have just been looked up -/

/-- An index made from a row found by the scan points at that row. -/
theorem index_indexOfStableId {m : WorkspaceListModel} {stableId : QString}
    (h : m.Present stableId) :
    m.index (m.indexOfStableId stableId) 0 = ⟨m.indexOfStableId stableId, 0⟩ :=
  listIndex_of_lt ((m.indexOfStableId_nonneg_iff stableId).mpr h)
    (KeyedRows.indexOf_lt_length Workspace.stableId stableId m.workspaces)

/-- Two IDs that have rows have different rows. -/
theorem indexOfStableId_ne {m : WorkspaceListModel} {id id' : QString} (h : m.Present id)
    (hne : id ≠ id') : m.indexOfStableId id ≠ m.indexOfStableId id' := by
  intro heq
  have h₀ := (m.indexOfStableId_nonneg_iff id).mpr h
  obtain ⟨w, hw, hid⟩ := KeyedRows.getElem?_indexOf Workspace.stableId h₀
  obtain ⟨w', hw', hid'⟩ := KeyedRows.getElem?_indexOf Workspace.stableId (heq ▸ h₀)
  rw [← indexOfStableId] at hw hw'
  rw [← heq, hw, Option.some.injEq] at hw'
  exact hne (hid.symm.trans ((congrArg Workspace.stableId hw').trans hid'))

/-- The index of a row just looked up is announced rightly in a state with the same rows. -/
theorem rowAnnounced_of_present {m : WorkspaceListModel} (m' : WorkspaceListModel)
    {stableId : QString} (h : m.Present stableId)
    (hids : m'.workspaces.map Workspace.stableId = m.workspaces.map Workspace.stableId)
    (roles : List Role) :
    RowAnnounced (some stableId) m' (.item (.dataChanged (m'.index (m.indexOfStableId stableId) 0)
      (m'.index (m.indexOfStableId stableId) 0) roles)) := by
  have hpresent : m'.Present stableId := by rwa [present_iff_mem, hids, ← present_iff_mem]
  have hindex : m.indexOfStableId stableId = m'.indexOfStableId stableId := by
    unfold indexOfStableId
    rw [← KeyedRows.indexOf_map Workspace.stableId, ← hids, KeyedRows.indexOf_map]
  rw [hindex, index_indexOfStableId hpresent]
  refine ⟨?_, rfl, ?_⟩
  · simpa [QModelIndex.isValid] using (m'.indexOfStableId_nonneg_iff stableId).mpr hpresent
  · rintro id hid -
    rw [Option.some.inj hid]

theorem rowAnnounced_of_notDataChanged (about : Option QString) (m : WorkspaceListModel)
    {sig : Signal} (h : NotDataChanged sig) : RowAnnounced about m sig := by
  unfold RowAnnounced
  split
  · exact absurd rfl (h _ _ _)
  · trivial

/-! ## A call that is entered -/

/-- Every call announces the right row when it is entered, in any state. -/
theorem announcesRow_call (allows : Signal → Op → Bool) (c : Session) (op : Op) :
    AnnouncesRow allows c (.call op) := by
  intro sig m hemits
  simp only [Component.emits] at hemits
  cases op with
  | setUnreadCount stableId count =>
      simp only [exec, setUnreadCount_run] at hemits
      split at hemits
      · simp [Proc.emission] at hemits
      next hrow =>
      split at hemits
      · simp [Proc.emission] at hemits
      · obtain ⟨rfl, rfl⟩ := Prod.mk.inj (Option.some.inj hemits)
        have hpresent := (c.state.indexOfStableId_nonneg_iff stableId).mp (by omega)
        exact rowAnnounced_of_present _ hpresent (map_stableId_storeUnreadCount ..) _
  | selectWorkspace stableId =>
      simp only [exec, selectWorkspace_run] at hemits
      split at hemits
      · simp [Proc.emission] at hemits
      next hrow =>
      split at hemits
      · simp [Proc.emission] at hemits
      split at hemits
      · next hprevious =>
          obtain ⟨rfl, rfl⟩ := Prod.mk.inj (Option.some.inj hemits)
          have hpresent := (c.state.indexOfStableId_nonneg_iff _).mp hprevious
          rw [subject, if_pos hpresent]
          exact rowAnnounced_of_present (c.state.select stableId) hpresent rfl _
      · next hprevious =>
          obtain ⟨rfl, rfl⟩ := Prod.mk.inj (Option.some.inj hemits)
          have habsent : ¬ c.state.Present c.state.selectedWorkspaceId := fun hp =>
            hprevious ((c.state.indexOfStableId_nonneg_iff _).mpr hp)
          have hpresent := (c.state.indexOfStableId_nonneg_iff stableId).mp (by omega)
          rw [subject, if_neg habsent]
          exact rowAnnounced_of_present (c.state.select stableId) hpresent rfl _
  | setLoading loading =>
      exact rowAnnounced_of_notDataChanged _ _
        ((only_exec c.state (by simp) (by simp)).emission hemits)
  | addWorkspace stableId name count =>
      exact rowAnnounced_of_notDataChanged _ _
        ((only_exec c.state (by simp) (by simp)).emission hemits)
  | removeWorkspace stableId =>
      exact rowAnnounced_of_notDataChanged _ _
        ((only_exec c.state (by simp) (by simp)).emission hemits)

theorem traced_exec {m m' : WorkspaceListModel} {op : Op} {sig : Signal}
    {k : WorkspaceListModel → Proc WorkspaceListModel Signal Bool}
    (h : (exec op).run m = .emit m' sig k) : Traced m op sig k := by
  cases op with
  | selectWorkspace stableId =>
      simp only [exec, selectWorkspace_run] at h
      split at h
      · simp at h
      next hrow =>
      split at h
      · simp at h
      next hother =>
      have hpresent := (m.indexOfStableId_nonneg_iff stableId).mp (by omega)
      split at h
      · next hprevious =>
          obtain ⟨-, rfl, rfl⟩ := Proc.emit.inj h
          have hselected := (m.indexOfStableId_nonneg_iff _).mp hprevious
          refine .between ⟨stableId, _, _, _, rfl, rfl, ?_⟩ hprevious (by omega)
            (indexOfStableId_ne hpresent (Ne.symm hother))
          exact congrArg QModelIndex.row (index_indexOfStableId hselected)
      · next hprevious =>
          obtain ⟨-, rfl, rfl⟩ := Proc.emit.inj h
          refine .announced ?_ fun _ => ⟨by simp [NotDataChanged], fun _ => trivial⟩
          rintro ⟨id, topLeft, bottomRight, roles, -, hsig, htop⟩
          simp only [Signal.item.injEq, ItemSignal.dataChanged.injEq] at hsig
          have hindex : (m.select stableId).index (m.indexOfStableId stableId) 0
              = ⟨m.indexOfStableId stableId, 0⟩ := index_indexOfStableId hpresent
          rw [← hsig.1, hindex] at htop
          simp only at htop
          omega
  | setUnreadCount stableId count =>
      simp only [exec, setUnreadCount_run] at h
      split at h
      · simp at h
      split at h
      · simp at h
      · obtain ⟨-, rfl, rfl⟩ := Proc.emit.inj h
        refine .announced ?_ fun _ => trivial
        rintro ⟨id, topLeft, bottomRight, roles, hop, -⟩
        simp at hop
  | setLoading loading => exact Traced.of_only (h ▸ only_exec m (by simp) (by simp))
  | addWorkspace stableId name count => exact Traced.of_only (h ▸ only_exec m (by simp) (by simp))
  | removeWorkspace stableId => exact Traced.of_only (h ▸ only_exec m (by simp) (by simp))

/-! ## A call that goes on -/

theorem index_row (m : WorkspaceListModel) (row : Int) :
    (m.index row 0).row = row ∨ (m.index row 0).row = -1 := by
  by_cases h : 0 ≤ row ∧ row < m.rowCount
  · exact Or.inl (congrArg QModelIndex.row (listIndex_of_lt h.1 h.2))
  · have hnone : m.index row 0 = QModelIndex.none := if_neg fun hc => h ⟨hc.1, hc.2.2.1⟩
    exact Or.inr (congrArg QModelIndex.row hnone)

theorem Traced.resume {entered m m' : WorkspaceListModel} {op : Op} {sig sig' : Signal}
    {k k' : WorkspaceListModel → Proc WorkspaceListModel Signal Bool} (h : Traced entered op sig k)
    (hk : k m = .emit m' sig' k') : Traced entered op sig' k' := by
  cases h with
  | between hsig hprevious hselected hne =>
      obtain ⟨-, rfl, rfl⟩ := Proc.emit.inj hk
      refine .announced ?_ fun _ => ⟨by simp [NotDataChanged], fun _ => trivial⟩
      rintro ⟨id, topLeft, bottomRight, roles, -, hsig', htop⟩
      simp only [Signal.item.injEq, ItemSignal.dataChanged.injEq] at hsig'
      rw [← hsig'.1] at htop
      rcases index_row m (entered.indexOfStableId _) with hrow | hrow
      · exact hne (hrow.symm.trans htop)
      · omega
  | announced hsig hrest => exact Traced.of_only (hk ▸ hrest m)

/-- The row announced on going on is right exactly when the handlers have kept it. -/
theorem rowAnnounced_iff_kept {entered m : WorkspaceListModel} {stableId : QString}
    (h₀ : 0 ≤ entered.indexOfStableId stableId) (roles : List Role) :
    RowAnnounced (some stableId) m (.item (.dataChanged
        (m.index (entered.indexOfStableId stableId) 0)
        (m.index (entered.indexOfStableId stableId) 0) roles)) ↔
      RowKept entered m stableId := by
  simp only [RowAnnounced, RowKept, index, listIndex_isValid_iff]
  constructor
  · rintro ⟨⟨-, hlt⟩, -, hrow⟩
    refine ⟨hlt, fun hpresent => ?_⟩
    rw [← hrow stableId rfl hpresent, listIndex_of_lt h₀ hlt]
  · rintro ⟨hlt, hkept⟩
    refine ⟨⟨h₀, hlt⟩, trivial, ?_⟩
    rintro id hid hpresent
    obtain rfl := Option.some.inj hid
    rw [listIndex_of_lt h₀ hlt, hkept hpresent]

/-- Every waiting call is traced. -/
def AllTraced (c : Session) : Prop := ∀ f ∈ c.stack, Traced f.entered f.op f.signal f.resume

theorem announcesRow_iff (allows : Signal → Op → Bool) {c : Session} (hc : AllTraced c)
    (mv : Move Op) : AnnouncesRow allows c mv ↔ KeepsRow c mv := by
  cases mv with
  | call op => exact iff_of_true (announcesRow_call allows c op) trivial
  | resume =>
      obtain ⟨m, stack, calls⟩ := c
      cases stack with
      | nil => exact iff_of_true (by simp [AnnouncesRow, Component.emits]) (by simp [KeepsRow])
      | cons f below =>
          obtain ⟨call, op, entered, sig, k⟩ := f
          have htraced : Traced entered op sig k := hc _ (List.mem_cons_self ..)
          cases htraced with
          | @between stableId _ hsig hprevious hselected hne =>
              have hkept := rowAnnounced_iff_kept (m := m) hselected [.selected]
              constructor
              · intro hann f hf _ id hid
                obtain rfl := Option.some.inj hf
                obtain rfl := Op.selectWorkspace.inj hid
                exact hkept.mp (hann _ _ rfl)
              · intro hkeeps sig' m' hemits
                obtain ⟨rfl, rfl⟩ := Prod.mk.inj (Option.some.inj hemits)
                exact hkept.mpr (hkeeps _ rfl hsig stableId rfl)
          | announced hsig hrest =>
              refine iff_of_true (fun sig' m' hemits => ?_) ?_
              · exact rowAnnounced_of_notDataChanged _ _ ((hrest m).emission hemits)
              · intro f hf hbetween
                obtain rfl := Option.some.inj hf
                exact absurd hbetween hsig

/-! ## Whole runs -/

/-- **Announced rows are right exactly in the runs that keep them.** In a run of nested calls from
    the empty model, with handlers of any signals, every `dataChanged` carries a valid index, that of
    its workspace's row if the workspace is still there, if and only if each `selectWorkspace` that
    goes on from the row it de-selects finds the row it is about to announce kept. -/
theorem announcesRow_run_iff (allows : Signal → Op → Bool) (mvs : List (Move Op)) :
    Component.EachStep ⟨exec, allows⟩ (AnnouncesRow allows) (Config.start {}) mvs ↔
      Component.EachStep ⟨exec, allows⟩ KeepsRow (Config.start {}) mvs := by
  refine Component.eachStep_iff _ (I := AllTraced) ?_ ?_
    (fun c mv hc => announcesRow_iff allows hc mv) (by simp [AllTraced, Config.start]) mvs
  · intro c op hc _
    exact forall_mem_settle_stack hc _ fun _ _ _ hp => traced_exec hp
  · intro c f below hc hs
    unfold AllTraced at hc
    rw [hs, List.forall_mem_cons] at hc
    exact forall_mem_settle_stack hc.2 _ fun _ _ _ hp => hc.1.resume hp

/-- Only `dataChanged` has handlers that call back. -/
def onlyDataChanged : Signal → Op → Bool
  | .item (.dataChanged ..), _ => true
  | _, _ => false

/-- **An index can be invalid.** With two workspaces, the first one selected, a handler of the first
    `dataChanged` of a selection of the other removes the first one; the row the selection then
    announces is beyond the only row left. -/
theorem announcesRow_removed :
    ∃ c : Session, Component.run ⟨exec, onlyDataChanged⟩ (Config.start {})
      [.call (.addWorkspace [65] [65] 0), .resume, .resume, .resume,
        .call (.addWorkspace [66] [66] 0), .resume, .resume,
        .call (.selectWorkspace [65]), .resume, .resume,
        .call (.selectWorkspace [66]), .call (.removeWorkspace [65]), .resume, .resume]
        = some c ∧
      ¬ AnnouncesRow onlyDataChanged c .resume := by
  refine ⟨_, rfl, fun hann => ?_⟩
  exact absurd (hann _ _ rfl).1 (by decide)

end BranchTalk.Desktop.WorkspaceListModel
