import BranchTalk.Desktop.Main.Window

set_option autoImplicit false

/-! # The window never falls behind

The abstract window reads everything again after every event. The window of the program reads only
what signals tell it to read, within a search field and a model that set each other. Both are the same
after every session, and the changes of the search field need only be followed two deep. -/

namespace BranchTalk.Desktop.Main

open Emission

namespace Window

variable (text : QtText)

/-! ## The abstract window -/

/-- The window with everything read again. -/
def reread (w : Window) : Window :=
  { w with
    currentScreen := AppViewModel.observer.read w.appViewModel
    workspaces := WorkspaceListModel.View.copy w.workspaceModel
    channels := (ChannelListModel.observer text).read w.channelModel }

/-- The channel model changed and the field has a text; a new query replaces the text. -/
def setChannels (w : Window) (m : ChannelListModel) (field : QString) : Window :=
  { w with
    channelModel := m
    channelSearch := if w.channelModel.searchQuery = m.searchQuery then field else m.searchQuery }

/-- What an event comes to, before anything is read. -/
def effect (w : Window) : Event → Window
  | .app op => { w with appViewModel := ⟨op.screen⟩ }
  | .workspace op => { w with workspaceModel := w.workspaceModel.next op }
  | .channel op => w.setChannels (w.channelModel.next text op) w.channelSearch
  | .edit new => w.setChannels (w.channelModel.search (text.trimmed new)) new
  | .resize width height => { w with width, height }
  | .click .enterMainAction => { w with appViewModel := ⟨.mainScreen⟩ }
  | .click .openSettingsAction => { w with appViewModel := ⟨.settingsScreen⟩ }
  | .click .settingsBackAction => { w with appViewModel := ⟨.mainScreen⟩ }
  | .click .returnToLoginAction => { w with appViewModel := ⟨.loginScreen⟩ }
  | .click .themeToggle => { w with darkMode := !w.darkMode }
  | .click .channelCollapseAction => { w with channelsCollapsed := !w.channelsCollapsed }
  | .click (.workspaceAction stableId) =>
      { w with workspaceModel := w.workspaceModel.next (.selectWorkspace stableId) }
  | .click (.channelAction stableId) =>
      w.setChannels (w.channelModel.next text (.selectChannel stableId)) w.channelSearch

/-- The window after an event, with everything read again. -/
def next (w : Window) (event : Event) : Window := (w.effect text event).reread text

/-! ## What holds between the events -/

/-- Nothing read is out of date, the field agrees with the query, and the models are well-formed. -/
structure Bound (w : Window) : Prop where
  current : w.reread text = w
  channelSearch : text.trimmed w.channelSearch = w.channelModel.searchQuery
  workspaceModel : w.workspaceModel.Wf
  channelModel : w.channelModel.Wf text

variable {text}

theorem Bound.currentScreen {w : Window} (h : w.Bound text) :
    w.currentScreen = AppViewModel.observer.read w.appViewModel :=
  (congrArg Window.currentScreen h.current).symm

theorem Bound.workspaces {w : Window} (h : w.Bound text) :
    w.workspaces = WorkspaceListModel.View.copy w.workspaceModel :=
  (congrArg Window.workspaces h.current).symm

theorem Bound.channels {w : Window} (h : w.Bound text) :
    w.channels = (ChannelListModel.observer text).read w.channelModel :=
  (congrArg Window.channels h.current).symm

theorem trimmed_setChannels {w : Window} {m : ChannelListModel} (hm : m.Wf text) {field : QString}
    (h : w.channelModel.searchQuery = m.searchQuery → text.trimmed field = m.searchQuery) :
    text.trimmed (w.setChannels m field).channelSearch = m.searchQuery := by
  unfold setChannels
  dsimp only
  split
  · next hsame => exact h hsame
  · exact hm.searchQuery

theorem wf_search {m : ChannelListModel} (hm : m.Wf text) (searchQuery : QString) :
    (m.search (text.trimmed searchQuery)).Wf text :=
  (ChannelListModel.wf_next hm (.setSearchQuery searchQuery)).1

/-- Every event keeps it, when everything is read again. -/
theorem Bound.next {w : Window} (h : w.Bound text) (event : Event) : (w.next text event).Bound text := by
  have hworkspace := fun op => WorkspaceListModel.wf_next h.workspaceModel op
  have hchannel := fun op => (ChannelListModel.wf_next h.channelModel op).1
  have hkept : ∀ m : ChannelListModel, m.Wf text →
      text.trimmed (w.setChannels m w.channelSearch).channelSearch = m.searchQuery :=
    fun m hm => trimmed_setChannels hm fun hsame => h.channelSearch.trans hsame
  constructor
  case current => rfl
  case channelSearch =>
    cases event with
    | channel op => exact hkept _ (hchannel op)
    | edit new => exact trimmed_setChannels (wf_search h.channelModel new) fun _ => rfl
    | click action =>
        cases action with
        | channelAction stableId => exact hkept _ (hchannel _)
        | _ => exact h.channelSearch
    | _ => exact h.channelSearch
  case workspaceModel =>
    cases event with
    | workspace op => exact hworkspace op
    | click action =>
        cases action with
        | workspaceAction stableId => exact hworkspace (.selectWorkspace stableId)
        | _ => exact h.workspaceModel
    | _ => exact h.workspaceModel
  case channelModel =>
    cases event with
    | channel op => exact hchannel op
    | edit new => exact wf_search h.channelModel new
    | click action =>
        cases action with
        | channelAction stableId => exact hchannel (.selectChannel stableId)
        | _ => exact h.channelModel
    | _ => exact h.channelModel

/-! ## The application view model and the workspaces -/

theorem callApp_eq {w : Window} (h : w.Bound text) (op : AppViewModel.Op) :
    w.callApp op = ({ w with appViewModel := ⟨op.screen⟩ } : Window).reread text := by
  have hchannels := h.channels
  have hworkspaces := h.workspaces
  have hscreen := h.currentScreen
  simp only [callApp, AppViewModel.exec_run, reread, ← hchannels, ← hworkspaces]
  split
  · next hsame =>
      rw [show w.appViewModel = ⟨op.screen⟩ from congrArg AppViewModel.mk hsame] at hscreen ⊢
      simp [← hscreen]
  · simp [AppViewModel.observer]
    rfl

theorem callWorkspace_eq {w : Window} (h : w.Bound text) (op : WorkspaceListModel.Op) :
    w.callWorkspace op =
      ({ w with workspaceModel := w.workspaceModel.next op } : Window).reread text := by
  have hfollowed := (WorkspaceListModel.followed_exec h.workspaceModel op).1
  have hstate := (WorkspaceListModel.exec_quiet h.workspaceModel op).1
  rw [hstate, ← h.workspaces] at hfollowed
  simp only [callWorkspace, reread, hfollowed, hstate, ← h.channels, ← h.currentScreen]

/-! ## The channels and the search field -/

/-- What the handlers of a signal do while the model is and stays `m`. -/
def follow (text : QtText) (m : ChannelListModel) (signal : ChannelListModel.Signal)
    (panel : ChannelPanel) : ChannelPanel :=
  ((ChannelListModel.observer text).react signal m panel.1,
    if signal = .searchQueryChanged then m.searchQuery else panel.2)

/-- **The write-back ends at once**: the model has that query already. -/
theorem setSearchText_searchQuery {m : ChannelListModel} (hm : m.Wf text) (depth : ℕ)
    (panel : ChannelPanel) :
    setSearchText text (depth + 1) m.searchQuery (m, panel) = some (m, panel.1, m.searchQuery) := by
  rw [setSearchText]
  split
  · next hsame => rw [← hsame]
  · rw [ChannelListModel.setSearchQuery_run, if_pos hm.searchQuery.symm]
    rfl

theorem react_eq {m : ChannelListModel} (hm : m.Wf text) (depth : ℕ)
    (signal : ChannelListModel.Signal) (panel : ChannelPanel) :
    react text (setSearchText text (depth + 1)) signal (m, panel) =
      some (m, follow text m signal panel) := by
  unfold react follow
  dsimp only
  split
  · exact setSearchText_searchQuery hm depth _
  · rfl

/-- What the window keeps after the signals of a call. -/
def followed (text : QtText) (m : ChannelListModel) (op : ChannelListModel.Op)
    (panel : ChannelPanel) : ChannelPanel :=
  ((((ChannelListModel.exec text op).run m).quiet.signals.map Prod.fst).foldl
    (fun panel signal => follow text (m.next text op) signal panel) panel)

theorem handled_exec {m : ChannelListModel} (hm : m.Wf text) (depth : ℕ)
    (op : ChannelListModel.Op) (panel : ChannelPanel) :
    ((ChannelListModel.exec text op).run m).handled (react text (setSearchText text (depth + 1)))
      panel = some (m.next text op, followed text m op panel) :=
  (ChannelListModel.exec_passive text m op).handled_eq_foldl
    (react_eq (ChannelListModel.wf_next hm op).1 depth) panel

theorem keyed_of_wf {m : ChannelListModel} (hm : m.Wf text) :
    ChannelListModel.Keyed (m.channels.map Channel.stableId) m :=
  ⟨rfl, hm.nodup⟩

/-- **Whatever a call changes is read again.** -/
theorem followed_channels {m : ChannelListModel} (hm : m.Wf text) (op : ChannelListModel.Op)
    (field : QString) :
    (followed text m op ((ChannelListModel.observer text).read m, field)).1 =
      (ChannelListModel.observer text).read (m.next text op) := by
  funext item
  have hkeyed := keyed_of_wf hm
  have hrereads : Rereads (fun signal panel => follow text (m.next text op) signal panel)
      (fun panel => panel.1 item) (fun sig => (ChannelListModel.observer text).names sig item = true)
      ((ChannelListModel.observer text).read (m.next text op) item) := fun sig panel =>
    (ChannelListModel.observer text).rereads (m.next text op) item sig panel.1
  rcases hrereads.passive (ChannelListModel.exec_passive text m op)
    (ChannelListModel.keyed_next text hkeyed op)
    ((ChannelListModel.observer text).read m, field) with hread | ⟨hsilent, hkept⟩
  · exact hread
  · exact hkept.trans ((ChannelListModel.announced_exec text hkeyed op item).resolve_right hsilent).symm

variable (text) in
/-- Calls that do not set the query leave it and do not announce it. -/
theorem signals_of_kept (m : ChannelListModel) {op : ChannelListModel.Op}
    (hop : ∀ searchQuery, op ≠ .setSearchQuery searchQuery) :
    (m.next text op).searchQuery = m.searchQuery ∧
    .searchQueryChanged ∉ ((ChannelListModel.exec text op).run m).quiet.signals.map Prod.fst := by
  have hset : ∀ stableId isSet change role,
      (m.withField stableId isSet change).searchQuery = m.searchQuery ∧
      .searchQueryChanged ∉
        ((ChannelListModel.setField stableId isSet change role).run m).quiet.signals.map Prod.fst := by
    intro stableId isSet change role
    refine ⟨(ChannelListModel.withField_kept m stableId isSet change).1, ?_⟩
    rw [ChannelListModel.setField_run]
    split
    · simp
    · split <;> simp
  cases op with
  | setSearchQuery searchQuery => exact absurd rfl (hop searchQuery)
  | setUnreadCount stableId unreadCount => exact hset ..
  | setMuted stableId muted => exact hset ..
  | selectChannel stableId =>
      simp only [ChannelListModel.next, ChannelListModel.exec, ChannelListModel.selectChannel_run]
      split
      · exact ⟨rfl, by simp⟩
      · refine ⟨rfl, ?_⟩
        split
        · simp
        · split <;> simp [ChannelListModel.finishSelect]

theorem foldl_follow_snd {m : ChannelListModel} {signals : List ChannelListModel.Signal}
    (h : .searchQueryChanged ∉ signals) (panel : ChannelPanel) :
    (signals.foldl (fun panel signal => follow text m signal panel) panel).2 = panel.2 := by
  induction signals generalizing panel with
  | nil => rfl
  | cons signal rest ih =>
      obtain ⟨hsignal, hrest⟩ := not_or.mp (mt List.mem_cons.mpr h)
      rw [List.foldl_cons, ih hrest, follow, if_neg (Ne.symm hsignal)]

/-- **The field takes on a new query**, and keeps its text otherwise. -/
theorem followed_field {m : ChannelListModel} (hm : m.Wf text) (op : ChannelListModel.Op)
    (panel : ChannelPanel) :
    (followed text m op panel).2 =
      if m.searchQuery = (m.next text op).searchQuery then panel.2
      else (m.next text op).searchQuery := by
  by_cases hop : ∃ searchQuery, op = .setSearchQuery searchQuery
  · obtain ⟨searchQuery, rfl⟩ := hop
    split
    · next hsame =>
        -- the same query is not announced again
        have hsame : m.searchQuery = text.trimmed searchQuery := hsame
        simp [followed, ChannelListModel.exec, ChannelListModel.setSearchQuery_run, hsame]
    · next hother =>
        -- the field re-reads the query, and the model announces that it has changed
        have hkeyed := keyed_of_wf hm
        have hrereads : Rereads
            (fun signal panel => follow text (m.next text (.setSearchQuery searchQuery)) signal panel)
            Prod.snd (fun sig => (ChannelListModel.observer text).names sig .searchQuery = true)
            (m.next text (.setSearchQuery searchQuery)).searchQuery := by
          intro sig panel
          by_cases hsig : sig = .searchQueryChanged
          · exact .inl (if_pos hsig)
          · refine .inr ⟨fun hname => hsig ?_, if_neg hsig⟩
            revert hname
            cases sig with
            | item signal => cases signal <;> simp [ChannelListModel.observer]
            | _ => simp [ChannelListModel.observer]
        rcases hrereads.passive (ChannelListModel.exec_passive text m (.setSearchQuery searchQuery))
          (ChannelListModel.keyed_next text hkeyed _) panel with hread | ⟨hsilent, -⟩
        · exact hread
        · have hsame := (ChannelListModel.announced_exec text hkeyed (.setSearchQuery searchQuery)
            .searchQuery).resolve_right hsilent
          exact absurd (QVariant.string.inj hsame).symm hother
  · obtain ⟨hquery, hsignals⟩ := signals_of_kept text m
      fun searchQuery heq => hop ⟨searchQuery, heq⟩
    rw [hquery, if_pos rfl]
    exact foldl_follow_snd hsignals panel

theorem callChannel_eq {w : Window} (h : w.Bound text) (depth : ℕ) (op : ChannelListModel.Op) :
    w.callChannel text (depth + 1) op =
      some ((w.setChannels (w.channelModel.next text op) w.channelSearch).reread text) := by
  have hchannels := followed_channels h.channelModel op w.channelSearch
  rw [callChannel, handled_exec h.channelModel, Option.map_some, Option.some.injEq]
  rw [← h.channels] at hchannels
  simp only [withChannels, followed_field h.channelModel, hchannels, setChannels, reread,
    ← h.currentScreen, ← h.workspaces]

/-- The user changes the text of the field. -/
theorem setSearchText_eq {w : Window} (h : w.Bound text) (depth : ℕ) (new : QString) :
    (setSearchText text (depth + 2) new (w.channelModel, w.channels, w.channelSearch)).map
      w.withChannels =
      some ((w.setChannels (w.channelModel.search (text.trimmed new)) new).reread text) := by
  rw [setSearchText]
  split
  · next hsame =>
      have hsame : w.channelSearch = new := hsame
      have hquery : w.channelModel.searchQuery = text.trimmed new := by rw [← h.channelSearch, hsame]
      have hmodel : w.channelModel.search (text.trimmed new) = w.channelModel := by
        rw [← hquery]
        rfl
      rw [hmodel, Option.map_some, setChannels, if_pos rfl, ← hsame]
      exact congrArg some h.current.symm
  · -- the call is that of the model, followed by its answer
    have hexec := handled_exec h.channelModel depth (.setSearchQuery new) (w.channels, new)
    have hquiet : ((ChannelListModel.setSearchQuery text new).run w.channelModel).handled
        (react text (setSearchText text (depth + 1))) (w.channels, new) =
        some (w.channelModel.search (text.trimmed new),
          followed text w.channelModel (.setSearchQuery new) (w.channels, new)) := by
      rw [← Proc.handled_bind_done _ fun _ => true]
      exact hexec
    have hchannels := followed_channels h.channelModel (.setSearchQuery new) new
    rw [← h.channels] at hchannels
    rw [hquiet, Option.map_some, Option.some.injEq]
    simp only [withChannels, followed_field h.channelModel, hchannels, setChannels, reread,
      ← h.currentScreen, ← h.workspaces]
    rfl

/-! ## Sessions -/

theorem step_eq {w : Window} (h : w.Bound text) (depth : ℕ) (event : Event) :
    w.step text (depth + 2) event = some (w.next text event) := by
  cases event with
  | app op => exact congrArg some (callApp_eq h op)
  | workspace op => exact congrArg some (callWorkspace_eq h op)
  | channel op => exact callChannel_eq h (depth + 1) op
  | edit new => exact setSearchText_eq h depth new
  | resize width height => exact congrArg (fun v : Window => some { v with width, height }) h.current.symm
  | click action =>
      cases action with
      | themeToggle =>
          exact congrArg (fun v : Window => some { v with darkMode := !v.darkMode }) h.current.symm
      | channelCollapseAction =>
          exact congrArg (fun v : Window => some { v with channelsCollapsed := !v.channelsCollapsed })
            h.current.symm
      | workspaceAction stableId => exact congrArg some (callWorkspace_eq h _)
      | channelAction stableId => exact callChannel_eq h (depth + 1) _
      | _ => exact congrArg some (callApp_eq h _)

/-- The abstract window after the events of a session. -/
def after (text : QtText) (w : Window) (events : List Event) : Window :=
  events.foldl (Window.next text) w

theorem bound_after {w : Window} (h : w.Bound text) (events : List Event) :
    (w.after text events).Bound text := by
  induction events generalizing w with
  | nil => exact h
  | cons event rest ih => exact ih (h.next event)

theorem session_eq {w : Window} (h : w.Bound text) (depth : ℕ) (events : List Event) :
    w.session text (depth + 2) events = some (w.after text events) := by
  induction events generalizing w with
  | nil => rfl
  | cons event rest ih =>
      rw [session, step_eq h, Option.bind_some]
      exact ih (h.next event)

variable (text) in
theorem bound_load (appViewModel : AppViewModel) {workspaceModel : WorkspaceListModel}
    (hworkspace : workspaceModel.Wf) {channelModel : ChannelListModel} (hchannel : channelModel.Wf text) :
    (load text appViewModel workspaceModel channelModel).Bound text :=
  ⟨rfl, hchannel.searchQuery, hworkspace, hchannel⟩

/-- **The window never falls behind its models.** It may be made for models that were used in any way
    before, and then go through any session of clicks, edits of the search field and calls of the
    models. It comes to what a window comes to that reads everything again after every event: each
    change of the search field ends by itself within two changes, nothing that was read is out of date,
    and the field and the query agree. -/
theorem session_current (text : QtText) (appViewModel : AppViewModel)
    (workspaceOps : List WorkspaceListModel.Op) (channels : List Channel)
    (channelOps : List ChannelListModel.Op) (events : List Event) :
    let w₀ := load text appViewModel (sequence WorkspaceListModel.exec {} workspaceOps)
      (sequence (ChannelListModel.exec text) (.construct channels) channelOps)
    ∃ w, (∀ depth, w₀.session text (depth + 2) events = some w) ∧ w = w₀.after text events ∧
      w.reread text = w ∧ text.trimmed w.channelSearch = w.channelModel.searchQuery := by
  intro w₀
  have h₀ : w₀.Bound text := bound_load text appViewModel
    (WorkspaceListModel.wf_sequence WorkspaceListModel.wf_initial workspaceOps)
    (ChannelListModel.wf_sequence (ChannelListModel.wf_construct text channels) channelOps).1
  have h := bound_after h₀ events
  exact ⟨_, fun depth => session_eq h₀ depth events, rfl, h.current, h.channelSearch⟩

end Window

end BranchTalk.Desktop.Main
