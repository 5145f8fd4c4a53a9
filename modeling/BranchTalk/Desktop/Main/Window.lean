import BranchTalk.Desktop.AppViewModel
import BranchTalk.Desktop.Main.Settling
import BranchTalk.Desktop.WorkspaceListModel.Observer
import BranchTalk.Emission.Reading

set_option autoImplicit false

/-! # The window and its bindings

`apps/desktop/Main.qml` as a whole, and the part of `apps/desktop/main.cpp` that makes the models.

What the window shows is computed from values that its bindings and its two lists have read. Each is
read when the window is made and again only when a signal of its model says so; so a signal that was
missing, or came too early, would leave the window behind its models. The search field is the one
place where a binding calls back into a model. -/

namespace BranchTalk.Desktop.Main

open Emission

/-- The three models, what the window has read of them, and what it keeps itself. -/
structure Window where
  appViewModel : AppViewModel
  workspaceModel : WorkspaceListModel
  channelModel : ChannelListModel
  currentScreen : Unit → Screen
  workspaces : WorkspaceListModel.View
  channels : ChannelListModel.Item → QVariant
  /-- The text of `channelSearch`. -/
  channelSearch : QString
  channelsCollapsed : Bool := false
  /-- `Theme.darkMode`. -/
  darkMode : Bool := false
  width : Int := 800
  height : Int := 600

/-! ## What it shows -/

/-- An `int` in a text. -/
def number (n : Int) : QString := qStringLiteral (toString n)

/-- The properties of a delegate have the types of its roles. -/
def asString : QVariant → QString
  | .string value => value
  | _ => []

def asBool : QVariant → Bool
  | .bool value => value
  | _ => false

def asInt : QVariant → Int
  | .int value => value
  | _ => 0

/-- `AppButton`. -/
structure AppButton where
  stableId : QString
  text : QString
  active : Bool
  visible : Bool := true
  deriving DecidableEq, Repr

/-- The delegate of `workspaceList`. -/
def workspaceAction (cells : WorkspaceListModel.Role → QVariant) : AppButton where
  stableId := asString (cells .stableId)
  text :=
    let name := asString (cells .name)
    let unreadCount := asInt (cells .unreadCount)
    if unreadCount > 0 then name ++ qStringLiteral " · " ++ number unreadCount else name
  active := asBool (cells .selected)

/-- The sign of a text channel, and the sign of the others. -/
def kindSign (kind : Int) : QString :=
  if kind = ChannelKind.toInt .textChannel then qStringLiteral "# " else qStringLiteral "◉ "

/-- The delegate of `channelList`. -/
def channelAction (cells : ChannelListModel.Role → QVariant) : AppButton where
  stableId := asString (cells .stableId)
  text :=
    let unreadCount := asInt (cells .unreadCount)
    kindSign (asInt (cells .kind)) ++ asString (cells .name) ++
      (if unreadCount > 0 then qStringLiteral " · " ++ number unreadCount else []) ++
      (if asBool (cells .muted) then qStringLiteral " · muted" else [])
  active := asBool (cells .selected)
  visible := asBool (cells .matchesSearch)

/-- What is to be seen: the `visible` of each item with one of its own, and the texts that change. -/
structure Shown where
  loginView : Bool
  mainView : Bool
  settingsView : Bool
  workspaceLoadingState : Bool
  workspaceEmptyState : Bool
  workspaceList : Bool
  workspaceActions : List AppButton
  channelCollapseAction : QString
  channelSearch : Bool
  searchText : QString
  channelContent : Bool
  channelNoMatchesState : Bool
  channelList : Bool
  channelActions : List AppButton
  themeToggle : QString
  conversationPanel : Bool
  conversationTitle : QString
  deriving DecidableEq, Repr

namespace Window

/-- `width < Theme.rightPanelBreakpoint`. -/
def compactLayout (w : Window) : Bool := decide (w.width < 760)

/-- Every binding of the window, from what was read last. -/
def shown (w : Window) : Shown where
  loginView := w.currentScreen () == .loginScreen
  mainView := w.currentScreen () == .mainScreen
  settingsView := w.currentScreen () == .settingsScreen
  workspaceLoadingState := w.workspaces.loading
  workspaceEmptyState := !w.workspaces.loading && w.workspaces.empty
  workspaceList := !w.workspaces.loading && !w.workspaces.empty
  workspaceActions := w.workspaces.rows.map workspaceAction
  channelCollapseAction :=
    if w.channelsCollapsed then qStringLiteral "Channels ▸" else qStringLiteral "Channels ▾"
  channelSearch := !w.channelsCollapsed
  searchText := w.channelSearch
  channelContent := !w.channelsCollapsed
  channelNoMatchesState := asInt (w.channels .matchingChannelCount) == 0
  channelList := decide (asInt (w.channels .matchingChannelCount) > 0)
  channelActions := (List.range (asInt (w.channels .rowCount)).toNat).map fun row =>
    channelAction fun role => w.channels (.cell row role)
  themeToggle :=
    if w.darkMode then qStringLiteral "Use light theme" else qStringLiteral "Use dark theme"
  conversationPanel := !w.compactLayout
  conversationTitle :=
    let name := asString (w.channels .selectedChannelName)
    if name.length > 0 then kindSign (asInt (w.channels .selectedChannelKind)) ++ name
    else qStringLiteral "No channel selected"

/-! ## Calls of the models -/

/-- A call of the application view model. -/
def callApp (op : AppViewModel.Op) (w : Window) : Window :=
  let ran := ((AppViewModel.exec op).run w.appViewModel).quiet
  { w with
    appViewModel := ran.state
    currentScreen := ran.signals.foldl
      (fun view e => AppViewModel.observer.react e.1 e.2 view) w.currentScreen }

/-- A call of the workspace model. -/
def callWorkspace (op : WorkspaceListModel.Op) (w : Window) : Window :=
  let ran := ((WorkspaceListModel.exec op).run w.workspaceModel).quiet
  { w with workspaceModel := ran.state, workspaces := w.workspaces.follow ran.signals }

/-- What the window keeps of the channel model: what it has read, and the search field. -/
abbrev ChannelPanel : Type := (ChannelListModel.Item → QVariant) × QString

/-- The bindings read what a signal names, and the one of the search field writes a new query back. -/
def react (text : QtText)
    (writeBack : QString → ChannelListModel × ChannelPanel →
      Option (ChannelListModel × ChannelPanel))
    (signal : ChannelListModel.Signal) (now : ChannelListModel × ChannelPanel) :
    Option (ChannelListModel × ChannelPanel) :=
  let read := ((ChannelListModel.observer text).react signal now.1 now.2.1, now.2.2)
  if signal = .searchQueryChanged then writeBack now.1.searchQuery (now.1, read)
  else some (now.1, read)

/-- Give the search field a text, as `setText` does. -/
def setSearchText (text : QtText) :
    ℕ → QString → ChannelListModel × ChannelPanel → Option (ChannelListModel × ChannelPanel)
  | 0, _, _ => none
  | depth + 1, new, (channelModel, panel) =>
      if panel.2 = new then some (channelModel, panel)
      else
        ((ChannelListModel.setSearchQuery text new).run channelModel).handled
          (react text (setSearchText text depth)) (panel.1, new)

/-- The window with another state of the channel model and what it keeps of it. -/
def withChannels (w : Window) (now : ChannelListModel × ChannelPanel) : Window :=
  { w with channelModel := now.1, channels := now.2.1, channelSearch := now.2.2 }

/-- A call of the channel model. -/
def callChannel (text : QtText) (depth : ℕ) (op : ChannelListModel.Op) (w : Window) :
    Option Window :=
  (((ChannelListModel.exec text op).run w.channelModel).handled
    (react text (setSearchText text depth)) (w.channels, w.channelSearch)).map w.withChannels

/-! ## Events -/

/-- The buttons, by `objectName`; those of the lists by the stable ID in it. -/
inductive Action where
  | enterMainAction
  | openSettingsAction
  | settingsBackAction
  | returnToLoginAction
  | themeToggle
  | channelCollapseAction
  | workspaceAction (stableId : QString)
  | channelAction (stableId : QString)
  deriving DecidableEq, Repr

/-- What happens to the program: the user, or the rest of the program calling a model. -/
inductive Event where
  | click (action : Action)
  | edit (new : QString)
  | resize (width height : Int)
  | app (op : AppViewModel.Op)
  | workspace (op : WorkspaceListModel.Op)
  | channel (op : ChannelListModel.Op)
  deriving DecidableEq, Repr

section

variable (text : QtText) (depth : ℕ)

/-- The `onClicked` of each button. -/
def click (w : Window) : Action → Option Window
  | .enterMainAction => some (w.callApp .showMain)
  | .openSettingsAction => some (w.callApp .showSettings)
  | .settingsBackAction => some (w.callApp .showMain)
  | .returnToLoginAction => some (w.callApp .showLogin)
  | .themeToggle => some { w with darkMode := !w.darkMode }
  | .channelCollapseAction => some { w with channelsCollapsed := !w.channelsCollapsed }
  | .workspaceAction stableId => some (w.callWorkspace (.selectWorkspace stableId))
  | .channelAction stableId => w.callChannel text depth (.selectChannel stableId)

def step (w : Window) : Event → Option Window
  | .click action => w.click text depth action
  | .edit new =>
      (setSearchText text depth new (w.channelModel, w.channels, w.channelSearch)).map
        w.withChannels
  | .resize width height => some { w with width, height }
  | .app op => some (w.callApp op)
  | .workspace op => some (w.callWorkspace op)
  | .channel op => w.callChannel text depth op

/-- The events of a session. The depth bounds the changes of the search field within changes. -/
def session (w : Window) : List Event → Option Window
  | [] => some w
  | event :: rest => (w.step text depth event).bind fun w' => w'.session rest

/-- The window that the engine makes for three models. -/
def load (appViewModel : AppViewModel) (workspaceModel : WorkspaceListModel)
    (channelModel : ChannelListModel) : Window where
  appViewModel := appViewModel
  workspaceModel := workspaceModel
  channelModel := channelModel
  currentScreen := AppViewModel.observer.read appViewModel
  workspaces := WorkspaceListModel.View.copy workspaceModel
  channels := (ChannelListModel.observer text).read channelModel
  channelSearch := channelModel.searchQuery

end

end Window

/-! ## The models of `run` -/

/-- The argument of the channel model's constructor. -/
def initialChannels : List Channel :=
  [⟨qStringLiteral "channel-general", qStringLiteral "general", .textChannel, 3, false⟩,
    ⟨qStringLiteral "channel-product", qStringLiteral "product", .textChannel, 0, false⟩,
    ⟨qStringLiteral "channel-support", qStringLiteral "support", .textChannel, 7, true⟩,
    ⟨qStringLiteral "channel-daily", qStringLiteral "daily-standup", .voiceChannel, 1, false⟩]

/-- The calls of the workspace model, each of which must succeed. -/
def initialWorkspaceOps : List WorkspaceListModel.Op :=
  [.addWorkspace (qStringLiteral "workspace-bt") (qStringLiteral "BT") 0,
    .addWorkspace (qStringLiteral "workspace-dev") (qStringLiteral "DEV") 4,
    .addWorkspace (qStringLiteral "workspace-ops") (qStringLiteral "OPS") 1,
    .selectWorkspace (qStringLiteral "workspace-bt")]

/-- Calls joined by `||` on their failure: the state they leave, unless one of them fails. -/
def allSucceed {σ Op Sig : Type} (exec : Op → Method σ Sig Bool) : σ → List Op → Option σ
  | s, [] => some s
  | s, op :: rest =>
      let ran := ((exec op).run s).quiet
      if ran.result then allSucceed exec ran.state rest else none

/-- The models before the window is made; `none` is `EXIT_FAILURE`. -/
def initialModels (text : QtText) : Option (WorkspaceListModel × ChannelListModel) :=
  (allSucceed WorkspaceListModel.exec {} initialWorkspaceOps).bind fun workspaceModel =>
    (allSucceed (ChannelListModel.exec text) (.construct initialChannels)
      [.selectChannel (qStringLiteral "channel-general")]).map fun channelModel =>
        (workspaceModel, channelModel)

/-- The window as it first appears. -/
def initialWindow (text : QtText) : Option Window :=
  (initialModels text).map fun models => .load text {} models.1 models.2

end BranchTalk.Desktop.Main
