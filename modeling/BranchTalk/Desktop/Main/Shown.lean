import BranchTalk.Desktop.Main.Bindings
import BranchTalk.Desktop.WorkspaceListModel.Lookup

set_option autoImplicit false

/-! # What the window shows is consistent

The window's parts are computed one by one, from properties and roles that signals bring up to date
one by one. Together they still make sense: one view, one of the three states of each list, one entry
for each row and at most one of them active, and a conversation that is that of the active channel. -/

namespace BranchTalk.Desktop.Main

open Emission

variable {text : QtText}

/-! ## The shown parts in terms of the models -/

theorem shown_workspaceActions {w : Window} (h : w.Bound text) :
    w.shown.workspaceActions = w.workspaceModel.workspaces.map fun workspace =>
      workspaceAction (WorkspaceListModel.cells w.workspaceModel.selectedWorkspaceId workspace) := by
  rw [Window.shown, h.workspaces, WorkspaceListModel.copy_rows, List.map_map]
  rfl

theorem shown_channelActions {w : Window} (h : w.Bound text) :
    w.shown.channelActions = w.channelModel.channels.map fun channel =>
      channelAction (w.channelModel.cell text channel) := by
  simp only [Window.shown, h.channels, ChannelListModel.observer, asInt,
    ChannelListModel.data_index]
  refine List.ext_getElem (by simp [ChannelListModel.rowCount]) fun n hn hn' => ?_
  rw [List.length_map] at hn'
  simp [hn']

/-- The title of a conversation in this channel. -/
def titleOf (channel : Channel) : QString := kindSign channel.kind.toInt ++ channel.name

theorem kindSign_eq {channel : Channel} (h : ChannelListModel.Valid channel) :
    kindSign channel.kind.toInt =
      if channel.kind = .textChannel then qStringLiteral "# " else qStringLiteral "◉ " := by
  rcases h.kind with hkind | hkind <;> rw [hkind] <;> rfl

/-- **The shown title is that of the channel model**, whose names are compared by kind. -/
theorem shown_conversationTitle {w : Window} (h : w.Bound text) :
    w.shown.conversationTitle = conversationTitle w.channelModel := by
  simp only [Window.shown, h.channels, ChannelListModel.observer, asString, asInt,
    conversationTitle]
  by_cases hselected : w.channelModel.selectedChannelId = []
  · rw [ChannelListModel.selectedChannelName_of_empty h.channelModel hselected]
    rfl
  · obtain ⟨row, channel, hrow, -, -, -, hkind⟩ :=
      ChannelListModel.selected_row h.channelModel hselected
    have hvalid := h.channelModel.valid channel (List.mem_of_getElem? hrow)
    rw [hkind, kindSign_eq hvalid]

/-- The title is that of the selected channel. -/
theorem conversationTitle_of_selected {m : ChannelListModel} (hm : m.Wf text) {channel : Channel}
    (hmem : channel ∈ m.channels) (hid : channel.stableId = m.selectedChannelId) :
    conversationTitle m = titleOf channel := by
  have hvalid := hm.valid channel hmem
  have hselected : m.selectedChannelId ≠ [] := hid ▸ hvalid.stableId_ne
  obtain ⟨row, other, hrow, hother, -, hname, hkind⟩ :=
    ChannelListModel.selected_row hm hselected
  have hsame : other = channel := by
    obtain ⟨n, hn⟩ := List.getElem?_of_mem hmem
    have h₁ := KeyedRows.indexOf_of_getElem? Channel.stableId hm.nodup hrow
    have h₂ := KeyedRows.indexOf_of_getElem? Channel.stableId hm.nodup hn
    rw [hother, ← hid, h₂] at h₁
    rw [Nat.cast_inj.mp h₁, hrow] at hn
    exact Option.some.inj hn
  subst hsame
  have hlength : other.name.length > 0 := List.length_pos_iff.mpr hvalid.name_ne
  rw [conversationTitle, hname, hkind, if_pos hlength, titleOf, kindSign_eq hvalid]

/-! ## Consistency -/

/-- What is to be expected of a window, in terms of what it shows. -/
structure Consistent (text : QtText) (s : Shown) : Prop where
  one_view : [s.loginView, s.mainView, s.settingsView].count true = 1
  one_workspace_state :
    [s.workspaceLoadingState, s.workspaceEmptyState, s.workspaceList].count true = 1
  workspaceList : s.workspaceLoadingState = false → (s.workspaceList = true ↔ s.workspaceActions ≠ [])
  workspace_ids : (s.workspaceActions.map AppButton.stableId).Nodup
  workspace_active : (s.workspaceActions.filter AppButton.active).length ≤ 1
  one_channel_state : [s.channelNoMatchesState, s.channelList].count true = 1
  channelList : s.channelList = true ↔ ∃ action ∈ s.channelActions, action.visible = true
  channel_ids : (s.channelActions.map AppButton.stableId).Nodup
  all_visible : text.trimmed s.searchText = [] → ∀ action ∈ s.channelActions, action.visible = true
  /-- No channel is active, or one is and its text begins with the title. -/
  conversation :
    s.channelActions.filter AppButton.active = [] ∧
      s.conversationTitle = qStringLiteral "No channel selected" ∨
    ∃ action, s.channelActions.filter AppButton.active = [action] ∧
      s.conversationTitle <+: action.text

theorem count_currentScreen (screen : Screen) :
    [screen == .loginScreen, screen == .mainScreen, screen == .settingsScreen].count true = 1 := by
  cases screen <;> rfl

theorem count_loading (loading empty : Bool) :
    [loading, !loading && empty, !loading && !empty].count true = 1 := by
  cases loading <;> cases empty <;> rfl

theorem count_matching {n : Int} (h : 0 ≤ n) : [n == 0, decide (n > 0)].count true = 1 := by
  by_cases hzero : n = 0
  · simp [hzero]
  · have hpos : n > 0 := by omega
    simp [hzero, hpos]

theorem active_channels (m : ChannelListModel) :
    (m.channels.map fun channel => channelAction (m.cell text channel)).filter AppButton.active =
      (m.channels.filter fun channel => channel.stableId == m.selectedChannelId).map fun channel =>
        channelAction (m.cell text channel) := by
  rw [List.filter_map]
  rfl

theorem active_workspaces (m : WorkspaceListModel) :
    (m.workspaces.map fun workspace => workspaceAction
        (WorkspaceListModel.cells m.selectedWorkspaceId workspace)).filter AppButton.active =
      (m.workspaces.filter fun workspace => workspace.stableId == m.selectedWorkspaceId).map
        fun workspace => workspaceAction
          (WorkspaceListModel.cells m.selectedWorkspaceId workspace) := by
  rw [List.filter_map]
  rfl

/-- The text of an entry begins with the title of its channel. -/
theorem titleOf_prefix (m : ChannelListModel) (channel : Channel) :
    titleOf channel <+: (channelAction (m.cell text channel)).text := by
  rw [titleOf]
  simp only [channelAction, ChannelListModel.cell, asInt, asString, List.append_assoc]
  exact ⟨_, List.append_assoc ..⟩

theorem conversation_shown {w : Window} (h : w.Bound text) :
    w.channelModel.selectedChannelId = [] ∧
      w.shown.channelActions.filter AppButton.active = [] ∧
      w.shown.conversationTitle = qStringLiteral "No channel selected" ∨
    ∃ channel ∈ w.channelModel.channels, channel.stableId = w.channelModel.selectedChannelId ∧
      w.shown.channelActions.filter AppButton.active =
        [channelAction (w.channelModel.cell text channel)] ∧
      w.shown.conversationTitle = titleOf channel := by
  have hrows := KeyedRows.filter_key Channel.stableId h.channelModel.nodup
    (p := fun channel => channel.stableId == w.channelModel.selectedChannelId) fun _ => beq_iff_eq
  rw [shown_channelActions h, shown_conversationTitle h, active_channels]
  rcases hrows with ⟨hnone, habsent⟩ | ⟨channel, hmem, hid, hone⟩
  · have hselected : w.channelModel.selectedChannelId = [] :=
      h.channelModel.selected.resolve_right fun ⟨channel, hmem, hid⟩ => habsent channel hmem hid
    rw [hnone]
    exact .inl ⟨hselected, rfl, (conversationTitle_eq_iff h.channelModel).mpr hselected⟩
  · rw [hone]
    exact .inr ⟨channel, hmem, hid, rfl, conversationTitle_of_selected h.channelModel hmem hid⟩

theorem channelList_iff {w : Window} (h : w.Bound text) :
    w.shown.channelList = true ↔ ∃ action ∈ w.shown.channelActions, action.visible = true := by
  rw [shown_channelActions h]
  simp only [Window.shown, h.channels, ChannelListModel.observer, asInt,
    ChannelListModel.matchingChannelCount, decide_eq_true_eq]
  rw [gt_iff_lt, Int.natCast_pos, List.countP_pos_iff]
  constructor
  · rintro ⟨channel, hmem, hmatches⟩
    exact ⟨_, List.mem_map_of_mem hmem, hmatches⟩
  · rintro ⟨action, haction, hvisible⟩
    obtain ⟨channel, hmem, rfl⟩ := List.mem_map.mp haction
    exact ⟨channel, hmem, hvisible⟩

/-- **Everything shown is consistent** whenever nothing read is out of date. -/
theorem Window.Bound.consistent {w : Window} (h : w.Bound text) : Consistent text w.shown where
  one_view := count_currentScreen _
  one_workspace_state := count_loading _ _
  workspaceList hloading := by
    rw [shown_workspaceActions h]
    simp only [Window.shown, h.workspaces] at hloading ⊢
    rw [hloading]
    simp [WorkspaceListModel.View.copy, WorkspaceListModel.empty]
  workspace_ids := by
    rw [shown_workspaceActions h, List.map_map]
    exact h.workspaceModel.nodup
  workspace_active := by
    have hrows := KeyedRows.filter_key Workspace.stableId h.workspaceModel.nodup
      (p := fun workspace => workspace.stableId == w.workspaceModel.selectedWorkspaceId)
      fun _ => beq_iff_eq
    rw [shown_workspaceActions h, active_workspaces, List.length_map]
    rcases hrows with ⟨hnone, -⟩ | ⟨workspace, -, -, hone⟩
    · simp [hnone]
    · simp [hone]
  one_channel_state := by
    simp only [Window.shown, h.channels, ChannelListModel.observer, asInt]
    exact count_matching (Int.natCast_nonneg _)
  channelList := channelList_iff h
  channel_ids := by
    rw [shown_channelActions h, List.map_map]
    exact h.channelModel.nodup
  all_visible hblank := by
    rw [shown_channelActions h, List.forall_mem_map]
    intro channel _
    have hquery : w.channelModel.searchQuery = [] := h.channelSearch.symm.trans hblank
    simp [channelAction, ChannelListModel.cell, ChannelListModel.matchesSearch, asBool, hquery]
  conversation := by
    rcases conversation_shown h with ⟨-, hnone, htitle⟩ | ⟨channel, -, -, hone, htitle⟩
    · exact .inl ⟨hnone, htitle⟩
    · exact .inr ⟨_, hone, htitle ▸ titleOf_prefix _ channel⟩

/-- **Every window is consistent** after every session, whatever its models were used for before. -/
theorem always_consistent (text : QtText) (appViewModel : AppViewModel)
    (workspaceOps : List WorkspaceListModel.Op) (channels : List Channel)
    (channelOps : List ChannelListModel.Op) (events : List Window.Event) :
    ∃ w, (∀ depth, (Window.load text appViewModel (sequence WorkspaceListModel.exec {} workspaceOps)
        (sequence (ChannelListModel.exec text) (.construct channels) channelOps)).session text
          (depth + 2) events = some w) ∧
      Consistent text w.shown := by
  have h₀ := Window.bound_load text appViewModel
    (WorkspaceListModel.wf_sequence WorkspaceListModel.wf_initial workspaceOps)
    (ChannelListModel.wf_sequence (ChannelListModel.wf_construct text channels) channelOps).1
  exact ⟨_, fun depth => Window.session_eq h₀ depth events, (Window.bound_after h₀ events).consistent⟩

/-! ## The window of `run` -/

variable (text) in
/-- An event is at most one call of the channel model. -/
theorem channelModel_next (w : Window) (event : Window.Event) :
    (w.next text event).channelModel = w.channelModel ∨
      ∃ op, (w.next text event).channelModel = w.channelModel.next text op := by
  cases event with
  | channel op => exact .inr ⟨op, rfl⟩
  | edit new => exact .inr ⟨.setSearchQuery new, rfl⟩
  | click action =>
      cases action with
      | channelAction stableId => exact .inr ⟨.selectChannel stableId, rfl⟩
      | _ => exact .inl rfl
  | _ => exact .inl rfl

/-- A selection is never lost, only replaced. -/
theorem selected_next {m : ChannelListModel} (hm : m.Wf text) (h : m.selectedChannelId ≠ [])
    (op : ChannelListModel.Op) : (m.next text op).selectedChannelId ≠ [] := by
  cases op with
  | setSearchQuery searchQuery => exact h
  | setUnreadCount stableId unreadCount => exact (ChannelListModel.withField_kept m ..).2 ▸ h
  | setMuted stableId muted => exact (ChannelListModel.withField_kept m ..).2 ▸ h
  | selectChannel stableId =>
      simp only [ChannelListModel.next]
      split
      · exact h
      · next hrow =>
          obtain ⟨channel, hmem, rfl⟩ := (m.indexOfStableId_nonneg_iff stableId).mp (by omega)
          exact (hm.valid channel hmem).stableId_ne

/-- The channels stay, and so does their being selected from. -/
theorem channels_after {w : Window} (h : w.Bound text) (events : List Window.Event) :
    (w.after text events).channelModel.channels.map Channel.identity =
      w.channelModel.channels.map Channel.identity ∧
    (w.channelModel.selectedChannelId ≠ [] →
      (w.after text events).channelModel.selectedChannelId ≠ []) := by
  induction events generalizing w with
  | nil => exact ⟨rfl, id⟩
  | cons event rest ih =>
      obtain ⟨hrows, hselected⟩ := ih (h.next event)
      rcases channelModel_next text w event with hsame | ⟨op, hop⟩
      · rw [hsame] at hrows hselected
        exact ⟨hrows, hselected⟩
      · rw [hop] at hrows hselected
        exact ⟨hrows.trans (ChannelListModel.wf_next h.channelModel op).2,
          fun hw => hselected (selected_next h.channelModel hw op)⟩

theorem allSucceed_eq_sequence {σ Op Sig : Type} {exec : Op → Method σ Sig Bool} {s s' : σ}
    {ops : List Op} (h : allSucceed exec s ops = some s') : s' = sequence exec s ops := by
  induction ops generalizing s with
  | nil => exact (Option.some.inj h).symm
  | cons op rest ih =>
      rw [allSucceed] at h
      split at h
      · exact ih h
      · cases h

/-- The channel model that `run` makes. -/
theorem initialModels_eq (text : QtText) :
    initialModels text = some (sequence WorkspaceListModel.exec {} initialWorkspaceOps,
      sequence (ChannelListModel.exec text) (.construct initialChannels)
        [.selectChannel (qStringLiteral "channel-general")]) := by
  have hworkspace : (allSucceed WorkspaceListModel.exec {} initialWorkspaceOps).isSome = true := by
    decide +kernel
  have hresult := (ChannelListModel.exec_passive text (.construct initialChannels)
    (.selectChannel (qStringLiteral "channel-general"))).quiet_result
  have hanswer : (ChannelListModel.construct initialChannels).answer
      (.selectChannel (qStringLiteral "channel-general")) = true := by
    decide +kernel
  obtain ⟨workspaceModel, hworkspaceModel⟩ := Option.isSome_iff_exists.mp hworkspace
  rw [initialModels, hworkspaceModel, allSucceed_eq_sequence hworkspaceModel]
  simp only [Option.bind_some, allSucceed, hresult, hanswer, if_true, Option.map_some]
  rfl

/-- The title is made of what no operation changes. -/
theorem titleOf_of_identity {channel channel' : Channel} (h : channel'.identity = channel.identity) :
    titleOf channel' = titleOf channel := by
  obtain ⟨-, hrest⟩ := Prod.mk.inj h
  obtain ⟨hname, hkind⟩ := Prod.mk.inj hrest
  rw [titleOf, titleOf, hname, hkind]

/-- The constructor keeps the four channels, and one of them is selected then. -/
theorem initialChannels_kept (text : QtText) :
    let m := sequence (ChannelListModel.exec text) (.construct initialChannels)
      [.selectChannel (qStringLiteral "channel-general")]
    m.channels.map Channel.identity = initialChannels.map Channel.identity ∧
      m.selectedChannelId ≠ [] := by
  have hkept : (ChannelListModel.construct initialChannels).channels = initialChannels := by
    decide +kernel
  have hpresent : ¬ (ChannelListModel.construct initialChannels).indexOfStableId
      (qStringLiteral "channel-general") < 0 := by
    decide +kernel
  have hnext : sequence (ChannelListModel.exec text) (.construct initialChannels)
      [.selectChannel (qStringLiteral "channel-general")] =
      (ChannelListModel.construct initialChannels).select (qStringLiteral "channel-general") := by
    refine (ChannelListModel.exec_passive text _ _).quiet_state.trans ?_
    rw [ChannelListModel.next, if_neg hpresent]
  intro m
  rw [show m = _ from hnext]
  exact ⟨congrArg (List.map Channel.identity) hkept, by decide⟩

/-- **There is always a conversation** in the program's window. After every session the entries of the
    channel list are those of the four channels in their order, exactly one is active, and the title is
    that of its channel. -/
theorem conversation_always (text : QtText) (events : List Window.Event) :
    ∃ w₀ w, initialWindow text = some w₀ ∧
      (∀ depth, w₀.session text (depth + 2) events = some w) ∧ Consistent text w.shown ∧
      w.shown.channelActions.map AppButton.stableId = initialChannels.map Channel.stableId ∧
      ∃ action, w.shown.channelActions.filter AppButton.active = [action] ∧
        ∃ channel ∈ initialChannels, action.stableId = channel.stableId ∧
          w.shown.conversationTitle = titleOf channel := by
  have h₀ := Window.bound_load text {}
    (WorkspaceListModel.wf_sequence WorkspaceListModel.wf_initial initialWorkspaceOps)
    (ChannelListModel.wf_sequence (ChannelListModel.wf_construct text initialChannels)
      [.selectChannel (qStringLiteral "channel-general")]).1
  have h := Window.bound_after h₀ events
  obtain ⟨hkept, hselected₀⟩ := initialChannels_kept text
  obtain ⟨hrows, hselected⟩ := channels_after h₀ events
  have hidentity := hrows.trans hkept
  refine ⟨_, _, by rw [initialWindow, initialModels_eq]; rfl,
    fun depth => Window.session_eq h₀ depth events, h.consistent, ?_, ?_⟩
  · rw [shown_channelActions h, List.map_map]
    exact ChannelListModel.stableId_of_identity (m := ⟨initialChannels, [], []⟩) hidentity
  · rcases conversation_shown h with ⟨hnone, -⟩ | ⟨channel, hmem, -, hone, htitle⟩
    · exact absurd hnone (hselected hselected₀)
    · -- the active channel is one of the four, by what no operation changes
      obtain ⟨first, hfirst, hsame⟩ := List.mem_map.mp (hidentity ▸ List.mem_map_of_mem hmem)
      exact ⟨_, hone, first, hfirst, (congrArg Prod.fst hsame).symm,
        htitle.trans (titleOf_of_identity hsame).symm⟩

end BranchTalk.Desktop.Main
