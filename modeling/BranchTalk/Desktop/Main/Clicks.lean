import BranchTalk.Desktop.Main.Shown

set_option autoImplicit false

/-! # What a click changes of what is shown

Seen from outside the window is a machine of its own: what is shown after a click is what was shown
before it, with a view exchanged, an entry made active, a panel folded or a text replaced. The models,
their signals and the bindings do not show through, except that a channel brings its title along.

A user who only clicks what is to be seen still gets everywhere. -/

namespace BranchTalk.Desktop.Main

open Emission
open Window (Action)

variable {text : QtText}

/-! ## Clicks on what is shown -/

/-- Make the entry of an ID the active one. -/
def activate (stableId : QString) (action : AppButton) : AppButton :=
  { action with active := action.stableId == stableId }

/-- The titles of the conversations, by the ID of the channel. -/
def titles (channels : List Channel) (stableId : QString) : QString :=
  (channels.find? fun channel => channel.stableId == stableId).elim [] titleOf

namespace Shown

/-- Show one of the three views. -/
def view (s : Shown) (screen : Screen) : Shown :=
  { s with
    loginView := screen == .loginScreen
    mainView := screen == .mainScreen
    settingsView := screen == .settingsScreen }

/-- What is shown after a click. -/
def clicked (title : QString → QString) (s : Shown) : Action → Shown
  | .enterMainAction => s.view .mainScreen
  | .openSettingsAction => s.view .settingsScreen
  | .settingsBackAction => s.view .mainScreen
  | .returnToLoginAction => s.view .loginScreen
  | .themeToggle =>
      { s with
        themeToggle :=
          if s.themeToggle = qStringLiteral "Use light theme" then qStringLiteral "Use dark theme"
          else qStringLiteral "Use light theme" }
  | .channelCollapseAction =>
      { s with
        channelCollapseAction :=
          if s.channelContent then qStringLiteral "Channels ▸" else qStringLiteral "Channels ▾"
        channelSearch := !s.channelSearch
        channelContent := !s.channelContent }
  | .workspaceAction stableId =>
      if (s.workspaceActions.map AppButton.stableId).contains stableId then
        { s with workspaceActions := s.workspaceActions.map (activate stableId) }
      else s
  | .channelAction stableId =>
      if (s.channelActions.map AppButton.stableId).contains stableId then
        { s with
          channelActions := s.channelActions.map (activate stableId)
          conversationTitle := title stableId }
      else s

end Shown

/-! ## One click -/

theorem titles_of_mem {m : ChannelListModel} (hm : m.Wf text) {channel : Channel}
    (hmem : channel ∈ m.channels) : titles m.channels channel.stableId = titleOf channel := by
  have hrows := KeyedRows.filter_key Channel.stableId hm.nodup
    (p := fun other => other.stableId == channel.stableId) fun _ => beq_iff_eq
  rcases hrows with ⟨-, habsent⟩ | ⟨other, -, -, hone⟩
  · exact absurd rfl (habsent channel hmem)
  · have hsame : channel ∈ [other] := hone ▸ List.mem_filter.mpr ⟨hmem, by simp⟩
    rw [titles, ← List.head?_filter, hone, List.mem_singleton.mp hsame]
    rfl

theorem titles_of_identity {channels channels' : List Channel}
    (h : channels'.map Channel.identity = channels.map Channel.identity) :
    titles channels' = titles channels := by
  have htitle : ∀ channels : List Channel, ∀ stableId, titles channels stableId =
      ((channels.map Channel.identity).find? fun e => e.1 == stableId).elim []
        fun e => kindSign e.2.2.toInt ++ e.2.1 := by
    intro channels stableId
    rw [List.find?_map, Option.elim_map]
    rfl
  funext stableId
  rw [htitle, htitle, h]

theorem mem_channelActions {w : Window} (h : w.Bound text) (stableId : QString) :
    stableId ∈ w.shown.channelActions.map AppButton.stableId ↔ w.channelModel.Present stableId := by
  rw [shown_channelActions h, List.map_map, ChannelListModel.present_iff_mem]
  rfl

theorem mem_workspaceActions {w : Window} (h : w.Bound text) (stableId : QString) :
    stableId ∈ w.shown.workspaceActions.map AppButton.stableId ↔
      w.workspaceModel.Present stableId := by
  rw [shown_workspaceActions h, List.map_map, WorkspaceListModel.present_iff_mem]
  rfl

/-- What is shown is what everything read again shows. -/
theorem shown_reread {w : Window} (h : w.Bound text) : (w.reread text).shown = w.shown :=
  congrArg Window.shown h.current

variable (text) in
/-- A click on an entry of the workspace list. -/
theorem next_workspaceAction (w : Window) {stableId : QString}
    (hpresent : w.workspaceModel.Present stableId) :
    w.next text (.click (.workspaceAction stableId)) =
      ({ w with workspaceModel := w.workspaceModel.select stableId } : Window).reread text := by
  have hmodel : w.workspaceModel.next (.selectWorkspace stableId) =
      w.workspaceModel.select stableId := if_pos hpresent
  rw [Window.next, Window.effect, hmodel]

variable (text) in
/-- A click on an entry of the channel list, which leaves the query alone. -/
theorem next_channelAction (w : Window) {stableId : QString}
    (hpresent : w.channelModel.Present stableId) :
    w.next text (.click (.channelAction stableId)) =
      ({ w with channelModel := w.channelModel.select stableId } : Window).reread text := by
  have hrow := (w.channelModel.indexOfStableId_nonneg_iff stableId).mpr hpresent
  have hmodel : w.channelModel.next text (.selectChannel stableId) =
      w.channelModel.select stableId := if_neg (by omega)
  rw [Window.next, Window.effect, hmodel, Window.setChannels]
  simp only [ChannelListModel.select, if_true]

theorem shown_selectWorkspace {w : Window} (h : w.Bound text) (stableId : QString)
    (title : QString → QString) :
    (w.next text (.click (.workspaceAction stableId))).shown =
      w.shown.clicked title (.workspaceAction stableId) := by
  have hnext := h.next (.click (.workspaceAction stableId))
  by_cases hpresent : w.workspaceModel.Present stableId
  · rw [next_workspaceAction text w hpresent] at hnext ⊢
    have hactions := shown_workspaceActions hnext
    have hmap : w.shown.workspaceActions.map (activate stableId) =
        (({ w with workspaceModel := w.workspaceModel.select stableId } : Window).reread
          text).shown.workspaceActions := by
      rw [hactions, shown_workspaceActions h, List.map_map]
      rfl
    have hmem := List.contains_iff_mem.mpr ((mem_workspaceActions h stableId).mpr hpresent)
    rw [Shown.clicked, if_pos hmem, hmap, ← shown_reread h]
    rfl
  · have hmodel : w.workspaceModel.next (.selectWorkspace stableId) = w.workspaceModel :=
      if_neg hpresent
    have habsent : ¬ (w.shown.workspaceActions.map AppButton.stableId).contains stableId = true := by
      rwa [List.contains_iff_mem, mem_workspaceActions h]
    rw [Shown.clicked, if_neg habsent, ← shown_reread h, Window.next, Window.effect, hmodel]

theorem shown_selectChannel {w : Window} (h : w.Bound text) (stableId : QString) :
    (w.next text (.click (.channelAction stableId))).shown =
      w.shown.clicked (titles w.channelModel.channels) (.channelAction stableId) := by
  have hnext := h.next (.click (.channelAction stableId))
  by_cases hpresent : w.channelModel.Present stableId
  · rw [next_channelAction text w hpresent] at hnext ⊢
    have hmap : w.shown.channelActions.map (activate stableId) =
        (({ w with channelModel := w.channelModel.select stableId } : Window).reread
          text).shown.channelActions := by
      rw [shown_channelActions hnext, shown_channelActions h, List.map_map]
      rfl
    have htitle : titles w.channelModel.channels stableId =
        (({ w with channelModel := w.channelModel.select stableId } : Window).reread
          text).shown.conversationTitle := by
      obtain ⟨channel, hmem, rfl⟩ := hpresent
      rw [shown_conversationTitle hnext, titles_of_mem h.channelModel hmem]
      exact (conversationTitle_of_selected hnext.channelModel hmem rfl).symm
    have hmem := List.contains_iff_mem.mpr ((mem_channelActions h stableId).mpr hpresent)
    rw [Shown.clicked, if_pos hmem, hmap, htitle, ← shown_reread h]
    rfl
  · have hrow := mt (w.channelModel.indexOfStableId_nonneg_iff stableId).mp hpresent
    have hmodel : w.channelModel.next text (.selectChannel stableId) = w.channelModel :=
      if_pos (by omega)
    have habsent : ¬ (w.shown.channelActions.map AppButton.stableId).contains stableId = true := by
      rwa [List.contains_iff_mem, mem_channelActions h]
    rw [Shown.clicked, if_neg habsent, ← shown_reread h, Window.next, Window.effect, hmodel,
      Window.setChannels, if_pos rfl]

/-- **What a click changes of what is shown.** -/
theorem shown_click {w : Window} (h : w.Bound text) (action : Action) :
    (w.next text (.click action)).shown =
      w.shown.clicked (titles w.channelModel.channels) action := by
  have hview : ∀ screen, (({ w with appViewModel := ⟨screen⟩ } : Window).reread text).shown =
      w.shown.view screen := fun screen => by
    rw [← shown_reread h]
    rfl
  cases action with
  | enterMainAction => exact hview .mainScreen
  | openSettingsAction => exact hview .settingsScreen
  | settingsBackAction => exact hview .mainScreen
  | returnToLoginAction => exact hview .loginScreen
  | themeToggle =>
      rw [← shown_reread h]
      cases hdark : w.darkMode <;> simp [Window.next, Window.effect, Window.reread, Window.shown,
        Shown.clicked, hdark, Window.compactLayout, qStringLiteral]
  | channelCollapseAction =>
      rw [← shown_reread h]
      cases hcollapsed : w.channelsCollapsed <;> simp [Window.next, Window.effect, Window.reread,
        Window.shown, Shown.clicked, hcollapsed, Window.compactLayout]
  | workspaceAction stableId => exact shown_selectWorkspace h stableId _
  | channelAction stableId => exact shown_selectChannel h stableId

/-! ## Any number of clicks -/

/-- The titles are those of the channels at first. -/
theorem titles_after {w : Window} (h : w.Bound text) (events : List Window.Event) :
    titles (w.after text events).channelModel.channels = titles w.channelModel.channels :=
  titles_of_identity (channels_after h events).1

theorem shown_clicks {w : Window} (h : w.Bound text) (actions : List Action) :
    (w.after text (actions.map .click)).shown =
      actions.foldl (Shown.clicked (titles w.channelModel.channels)) w.shown := by
  induction actions generalizing w with
  | nil => rfl
  | cons action rest ih =>
      have htitles := titles_after h [.click action]
      rw [List.map_cons, List.foldl_cons, ← shown_click h action, ← htitles]
      exact ih (h.next (.click action))

/-- **Clicks do to what is shown what they say.** After any session on any models, whatever is shown
    then, any clicks turn it into what those clicks make of it, from the texts and entries shown and the
    titles of the channels alone. -/
theorem clicks_shown (text : QtText) (appViewModel : AppViewModel)
    (workspaceOps : List WorkspaceListModel.Op) (channels : List Channel)
    (channelOps : List ChannelListModel.Op) (events : List Window.Event) (actions : List Action) :
    ∃ w w', (∀ depth, (Window.load text appViewModel (sequence WorkspaceListModel.exec {} workspaceOps)
        (sequence (ChannelListModel.exec text) (.construct channels) channelOps)).session text
          (depth + 2) events = some w) ∧
      (∀ depth, w.session text (depth + 2) (actions.map .click) = some w') ∧
      w'.shown = actions.foldl
        (Shown.clicked (titles (ChannelListModel.construct channels).channels)) w.shown := by
  obtain ⟨hchannels, hrows⟩ :=
    ChannelListModel.wf_sequence (ChannelListModel.wf_construct text channels) channelOps
  have h₀ := Window.bound_load text appViewModel
    (WorkspaceListModel.wf_sequence WorkspaceListModel.wf_initial workspaceOps) hchannels
  have h := Window.bound_after h₀ events
  refine ⟨_, _, fun depth => Window.session_eq h₀ depth events,
    fun depth => Window.session_eq h depth _, ?_⟩
  rw [shown_clicks h, titles_after h₀ events]
  exact congrArg (fun title => actions.foldl (Shown.clicked title) _) (titles_of_identity hrows)

/-! ## Where a user can get -/

/-- The button is to be seen, and so are the items it lies in. -/
def Shown.offers (s : Shown) : Action → Bool
  | .enterMainAction => s.loginView
  | .openSettingsAction | .themeToggle | .channelCollapseAction => s.mainView
  | .settingsBackAction | .returnToLoginAction => s.settingsView
  | .workspaceAction stableId => s.mainView && s.workspaceList &&
      s.workspaceActions.any fun action => action.stableId == stableId && action.visible
  | .channelAction stableId => s.mainView && s.channelContent && s.channelList &&
      s.channelActions.any fun action => action.stableId == stableId && action.visible

/-- What a user can do with what is shown. -/
def Shown.allows (s : Shown) : Window.Event → Bool
  | .click action => s.offers action
  | .edit _ => s.mainView && s.channelSearch
  | .resize _ _ => true
  | .app _ | .workspace _ | .channel _ => false

/-- Every event is one that the user can cause in the window as it is then. -/
def ByUser (text : QtText) : Window → List Window.Event → Prop
  | _, [] => True
  | w, event :: rest => w.shown.allows event = true ∧ ByUser text (w.next text event) rest

theorem byUser_append {w : Window} {events events' : List Window.Event} (h : ByUser text w events)
    (h' : ByUser text (w.after text events) events') : ByUser text w (events ++ events') := by
  induction events generalizing w with
  | nil => exact h'
  | cons event rest ih => exact ⟨h.1, ih h.2 h'⟩

theorem after_append (w : Window) (events events' : List Window.Event) :
    w.after text (events ++ events') = (w.after text events).after text events' :=
  List.foldl_append ..

theorem shown_mainView {w : Window} (h : w.Bound text) :
    w.shown.mainView = (w.appViewModel.currentScreen == .mainScreen) := by
  rw [Window.shown, h.currentScreen]
  rfl

/-- One click leads to the main view, or none, and changes nothing else. -/
theorem exists_main {w : Window} (h : w.Bound text) :
    ∃ actions : List Action, actions.length ≤ 1 ∧ ByUser text w (actions.map .click) ∧
      w.after text (actions.map .click) =
        ({ w with appViewModel := ⟨.mainScreen⟩ } : Window).reread text := by
  cases hscreen : w.appViewModel.currentScreen with
  | loginScreen =>
      refine ⟨[.enterMainAction], le_refl 1, ⟨?_, trivial⟩, rfl⟩
      simp only [Shown.allows, Shown.offers, Window.shown, h.currentScreen,
        AppViewModel.observer, hscreen]
      rfl
  | settingsScreen =>
      refine ⟨[.settingsBackAction], le_refl 1, ⟨?_, trivial⟩, rfl⟩
      simp only [Shown.allows, Shown.offers, Window.shown, h.currentScreen,
        AppViewModel.observer, hscreen]
      rfl
  | mainScreen =>
      have hsame : w.appViewModel = ⟨.mainScreen⟩ := congrArg AppViewModel.mk hscreen
      refine ⟨[], Nat.zero_le 1, trivial, ?_⟩
      rw [← hsame]
      exact h.current.symm

/-- The clicks from one screen to another. -/
def path : Screen → Screen → List Action
  | .loginScreen, .mainScreen => [.enterMainAction]
  | .loginScreen, .settingsScreen => [.enterMainAction, .openSettingsAction]
  | .mainScreen, .settingsScreen => [.openSettingsAction]
  | .mainScreen, .loginScreen => [.openSettingsAction, .returnToLoginAction]
  | .settingsScreen, .mainScreen => [.settingsBackAction]
  | .settingsScreen, .loginScreen => [.returnToLoginAction]
  | _, _ => []

theorem byUser_path {w : Window} (h : w.Bound text) (screen : Screen) :
    ByUser text w ((path w.appViewModel.currentScreen screen).map .click) ∧
      (w.after text ((path w.appViewModel.currentScreen screen).map
        .click)).appViewModel.currentScreen = screen := by
  have hread := h.currentScreen
  cases hscreen : w.appViewModel.currentScreen <;> cases screen <;>
    simp [path, ByUser, Shown.allows, Shown.offers, Window.shown, Window.after, Window.next,
      Window.effect, Window.reread, AppViewModel.observer, hread, hscreen]

theorem allows_edit {w : Window} (h : w.Bound text)
    (hscreen : w.appViewModel.currentScreen = .mainScreen) (hcollapsed : w.channelsCollapsed = false)
    (new : QString) : w.shown.allows (.edit new) = true := by
  rw [Shown.allows, shown_mainView h, hscreen, Window.shown, hcollapsed]
  rfl

/-- One click unfolds the channels, or none, and leaves the models alone. -/
theorem exists_unfolded {w : Window} (h : w.Bound text)
    (hscreen : w.appViewModel.currentScreen = .mainScreen) :
    ∃ actions : List Action, actions.length ≤ 1 ∧ ByUser text w (actions.map .click) ∧
      (w.after text (actions.map .click)).channelsCollapsed = false ∧
      (w.after text (actions.map .click)).appViewModel = w.appViewModel ∧
      (w.after text (actions.map .click)).channelModel = w.channelModel := by
  cases hcollapsed : w.channelsCollapsed with
  | false => exact ⟨[], Nat.zero_le 1, trivial, hcollapsed, rfl, rfl⟩
  | true =>
      refine ⟨[.channelCollapseAction], le_refl 1, ⟨?_, trivial⟩, congrArg Bool.not hcollapsed, rfl,
        rfl⟩
      exact (shown_mainView h).trans (by rw [hscreen]; rfl)

/-- An entry that nothing hides can be clicked. -/
theorem offers_channelAction {w : Window} (h : w.Bound text)
    (hscreen : w.appViewModel.currentScreen = .mainScreen) (hcollapsed : w.channelsCollapsed = false)
    (hquery : w.channelModel.searchQuery = []) {stableId : QString}
    (hpresent : w.channelModel.Present stableId) :
    w.shown.offers (.channelAction stableId) = true := by
  have hmain : w.shown.mainView = true := by rw [shown_mainView h, hscreen]; rfl
  have hcontent : w.shown.channelContent = true := by simp [Window.shown, hcollapsed]
  obtain ⟨action, hmem, hid⟩ := List.mem_map.mp ((mem_channelActions h stableId).mpr hpresent)
  have hvisible := h.consistent.all_visible (h.channelSearch.trans hquery) action hmem
  have hlist := h.consistent.channelList.mpr ⟨action, hmem, hvisible⟩
  rw [Shown.offers, hmain, hcontent, hlist]
  simpa using ⟨action, hmem, hid, hvisible⟩

theorem offers_workspaceAction {w : Window} (h : w.Bound text)
    (hscreen : w.appViewModel.currentScreen = .mainScreen) (hloading : w.workspaceModel.loading = false)
    {stableId : QString} (hpresent : w.workspaceModel.Present stableId) :
    w.shown.offers (.workspaceAction stableId) = true := by
  have hmain : w.shown.mainView = true := by rw [shown_mainView h, hscreen]; rfl
  obtain ⟨action, hmem, hid⟩ := List.mem_map.mp ((mem_workspaceActions h stableId).mpr hpresent)
  have hstate : w.shown.workspaceLoadingState = false := by
    rw [Window.shown, h.workspaces]
    exact hloading
  have hlist := (h.consistent.workspaceList hstate).mpr (List.ne_nil_of_mem hmem)
  have hvisible : action.visible = true := by
    rw [shown_workspaceActions h] at hmem
    obtain ⟨workspace, -, rfl⟩ := List.mem_map.mp hmem
    rfl
  rw [Shown.offers, hmain, hlist]
  simpa using ⟨action, hmem, hid, hvisible⟩

/-- A user can cause these events one after the other, and they lead to a window. -/
def Leads (text : QtText) (w : Window) (events : List Window.Event) (w' : Window) : Prop :=
  ByUser text w events ∧ ∀ depth, w.session text (depth + 2) events = some w'

theorem exists_screen {w : Window} (h : w.Bound text) (screen : Screen) :
    ∃ (actions : List Action) (w' : Window), actions.length ≤ 2 ∧
      Leads text w (actions.map .click) w' ∧ w'.appViewModel.currentScreen = screen := by
  obtain ⟨hbyUser, hscreen⟩ := byUser_path h screen
  refine ⟨_, _, ?_, ⟨hbyUser, fun depth => Window.session_eq h depth _⟩, hscreen⟩
  cases w.appViewModel.currentScreen <;> cases screen <;> decide

/-- The window shows the conversation of a channel, and its entry is the active one. -/
structure Shown.Opened (s : Shown) (channel : Channel) : Prop where
  mainView : s.mainView = true
  conversationTitle : s.conversationTitle = titleOf channel
  active : (s.channelActions.filter AppButton.active).map AppButton.stableId = [channel.stableId]

/-- A click on the entry of a channel leads to its conversation. -/
theorem shown_opened {w : Window} (h : w.Bound text) (hmain : w.shown.mainView = true)
    {channel : Channel} (hmem : channel ∈ w.channelModel.channels) :
    (w.next text (.click (.channelAction channel.stableId))).shown.Opened channel := by
  have hpresent : w.channelModel.Present channel.stableId := ⟨channel, hmem, rfl⟩
  have hclick := shown_click h (.channelAction channel.stableId)
  rw [Shown.clicked,
    if_pos (List.contains_iff_mem.mpr ((mem_channelActions h channel.stableId).mpr hpresent))] at hclick
  constructor
  case mainView =>
    rw [hclick]
    exact hmain
  case conversationTitle =>
    rw [hclick]
    exact titles_of_mem h.channelModel hmem
  case active =>
    -- the selection is the ID of the channel, and that is no empty one
    have hselected : (w.next text (.click (.channelAction
        channel.stableId))).channelModel.selectedChannelId = channel.stableId := by
      rw [next_channelAction text w hpresent]
      rfl
    rcases conversation_shown (h.next (.click (.channelAction channel.stableId))) with
      ⟨hnone, -⟩ | ⟨other, -, hid, hone, -⟩
    · exact absurd (hselected.symm.trans hnone) (h.channelModel.valid channel hmem).stableId_ne
    · rw [hone, List.map_singleton, ← hselected, ← hid]
      rfl

/-- **Every channel can be opened**, wherever the user is. -/
theorem exists_channel {w : Window} (h : w.Bound text) {channel : Channel}
    (hmem : channel ∈ w.channelModel.channels) :
    ∃ (actions : List Action) (w' : Window), actions.length ≤ 2 ∧
      Leads text w (actions.map .click ++ [.edit [], .click (.channelAction channel.stableId)]) w' ∧
      w'.shown.Opened channel := by
  -- to the main view, to an unfolded list, to a list with every entry shown, then the click
  obtain ⟨actions₁, hlength₁, hbyUser₁, hafter₁⟩ := exists_main h
  have h₁ := Window.bound_after h (actions₁.map .click)
  have hscreen₁ : (w.after text (actions₁.map .click)).appViewModel.currentScreen = .mainScreen := by
    rw [hafter₁]
    rfl
  obtain ⟨actions₂, hlength₂, hbyUser₂, hcollapsed, happ, hmodel⟩ := exists_unfolded h₁ hscreen₁
  have h₂ := Window.bound_after h₁ (actions₂.map .click)
  rw [← after_append, ← List.map_append] at h₂ hcollapsed happ hmodel
  have hbyUser := byUser_append hbyUser₁ hbyUser₂
  rw [← List.map_append] at hbyUser
  generalize hw₂ : w.after text ((actions₁ ++ actions₂).map .click) = w₂ at *
  have hscreen₂ : w₂.appViewModel.currentScreen = .mainScreen := by rw [happ, hscreen₁]
  have h₃ := h₂.next (.edit [])
  have hmem₃ : channel ∈ (w₂.next text (.edit [])).channelModel.channels := by
    show channel ∈ w₂.channelModel.channels
    rw [hmodel, hafter₁]
    exact hmem
  have hmain₃ : (w₂.next text (.edit [])).shown.mainView = true := by
    rw [shown_mainView h₃]
    exact beq_iff_eq.mpr hscreen₂
  have hlast : ByUser text w₂ [.edit [], .click (.channelAction channel.stableId)] :=
    ⟨allows_edit h₂ hscreen₂ hcollapsed [],
      offers_channelAction h₃ hscreen₂ hcollapsed rfl ⟨channel, hmem₃, rfl⟩, trivial⟩
  refine ⟨actions₁ ++ actions₂, _, ?_,
    ⟨byUser_append hbyUser (hw₂ ▸ hlast), fun depth => Window.session_eq h depth _⟩, ?_⟩
  · rw [List.length_append]
    omega
  · rw [after_append, hw₂]
    exact shown_opened h₃ hmain₃ hmem₃

theorem exists_workspace {w : Window} (h : w.Bound text) (hloading : w.workspaceModel.loading = false)
    {stableId : QString} (hpresent : w.workspaceModel.Present stableId) :
    ∃ (actions : List Action) (w' : Window), actions.length ≤ 2 ∧
      Leads text w (actions.map .click) w' ∧ w'.shown.mainView = true ∧
      w'.workspaceModel = w.workspaceModel.select stableId := by
  obtain ⟨actions₁, hlength₁, hbyUser₁, hafter₁⟩ := exists_main h
  have h₁ := Window.bound_after h (actions₁.map .click)
  rw [hafter₁] at h₁
  have hoffers := offers_workspaceAction h₁ rfl hloading hpresent
  refine ⟨actions₁ ++ [.workspaceAction stableId], _, ?_,
    ⟨?_, fun depth => Window.session_eq h depth _⟩, ?_, ?_⟩
  · simp only [List.length_append, List.length_singleton]
    omega
  · rw [List.map_append]
    exact byUser_append hbyUser₁ ⟨hafter₁ ▸ hoffers, trivial⟩
  · rw [List.map_append, after_append, hafter₁]
    exact shown_mainView (h₁.next _)
  · rw [List.map_append, after_append, hafter₁]
    exact congrArg Window.workspaceModel (next_workspaceAction text _ hpresent)

/-- The screens next to a screen. -/
def neighbours : Screen → List Screen
  | .loginScreen => [.mainScreen]
  | .mainScreen => [.settingsScreen]
  | .settingsScreen => [.mainScreen, .loginScreen]

/-- What a user does changes the screen to one next to it, if at all. -/
theorem screen_of_allowed {w : Window} (h : w.Bound text) {event : Window.Event}
    (hallows : w.shown.allows event = true) :
    (w.next text event).appViewModel.currentScreen = w.appViewModel.currentScreen ∨
      (w.next text event).appViewModel.currentScreen ∈ neighbours w.appViewModel.currentScreen := by
  have hread := h.currentScreen
  cases event with
  | click action =>
      simp only [Shown.allows, Window.shown, hread, AppViewModel.observer] at hallows
      cases action with
      | enterMainAction =>
          exact .inr (by rw [beq_iff_eq.mp hallows]; exact List.mem_singleton_self _)
      | openSettingsAction =>
          exact .inr (by rw [beq_iff_eq.mp hallows]; exact List.mem_singleton_self _)
      | settingsBackAction => exact .inr (by rw [beq_iff_eq.mp hallows]; exact List.mem_cons_self ..)
      | returnToLoginAction =>
          refine .inr ?_
          rw [beq_iff_eq.mp hallows]
          exact List.mem_cons_of_mem _ (List.mem_singleton_self _)
      | _ => exact .inl rfl
  | edit new => exact .inl rfl
  | resize width height => exact .inl rfl
  | _ => cases hallows

/-- **A user gets everywhere, by what is shown.** From every window after every session, each screen is
    at most two clicks away; at most two clicks, an empty search and the click on its entry open each
    channel; each workspace is selected within two clicks unless the list is loading; and nothing a user
    can do leads from one screen to another that is not next to it. -/
theorem user_reaches (text : QtText) (appViewModel : AppViewModel)
    (workspaceOps : List WorkspaceListModel.Op) (channels : List Channel)
    (channelOps : List ChannelListModel.Op) (before : List Window.Event) :
    ∃ w, (∀ depth, (Window.load text appViewModel (sequence WorkspaceListModel.exec {} workspaceOps)
        (sequence (ChannelListModel.exec text) (.construct channels) channelOps)).session text
          (depth + 2) before = some w) ∧
      (∀ screen, ∃ (actions : List Action) (w' : Window), actions.length ≤ 2 ∧
        Leads text w (actions.map .click) w' ∧ w'.appViewModel.currentScreen = screen) ∧
      (∀ channel ∈ w.channelModel.channels, ∃ (actions : List Action) (w' : Window),
        actions.length ≤ 2 ∧
        Leads text w (actions.map .click ++ [.edit [], .click (.channelAction channel.stableId)]) w' ∧
        w'.shown.Opened channel) ∧
      (w.workspaceModel.loading = false → ∀ stableId, w.workspaceModel.Present stableId →
        ∃ (actions : List Action) (w' : Window), actions.length ≤ 2 ∧
          Leads text w (actions.map .click) w' ∧ w'.shown.mainView = true ∧
          w'.workspaceModel = w.workspaceModel.select stableId) ∧
      ∀ event w', Leads text w [event] w' →
        w'.appViewModel.currentScreen = w.appViewModel.currentScreen ∨
          w'.appViewModel.currentScreen ∈ neighbours w.appViewModel.currentScreen := by
  have h₀ := Window.bound_load text appViewModel
    (WorkspaceListModel.wf_sequence WorkspaceListModel.wf_initial workspaceOps)
    (ChannelListModel.wf_sequence (ChannelListModel.wf_construct text channels) channelOps).1
  have h := Window.bound_after h₀ before
  refine ⟨_, fun depth => Window.session_eq h₀ depth before, exists_screen h,
    fun channel hmem => exists_channel h hmem,
    fun hloading stableId hpresent => exists_workspace h hloading hpresent, ?_⟩
  rintro event w' ⟨⟨hallows, -⟩, hsession⟩
  -- the event leads to one window only
  obtain rfl := Option.some.inj ((Window.session_eq h 0 [event]).symm.trans (hsession 0))
  exact screen_of_allowed h hallows

end BranchTalk.Desktop.Main
