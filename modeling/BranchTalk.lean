import BranchTalk.Emission.Proc
import BranchTalk.Emission.Nested
import BranchTalk.Emission.Watched
import BranchTalk.Emission.Warranted
import BranchTalk.Emission.Independent
import BranchTalk.Emission.Reading
import BranchTalk.KeyedRows
import BranchTalk.Threads.Code
import BranchTalk.Threads.History
import BranchTalk.Threads.Rules
import BranchTalk.Threads.Progress
import BranchTalk.Threads.Turns
import BranchTalk.Trimming
import BranchTalk.Lines
import BranchTalk.SharedKeys
import BranchTalk.Desktop.Qt
import BranchTalk.Desktop.WorkspaceListModel
import BranchTalk.Desktop.WorkspaceListModel.Effects
import BranchTalk.Desktop.WorkspaceListModel.History
import BranchTalk.Desktop.WorkspaceListModel.Observer
import BranchTalk.Desktop.WorkspaceListModel.Lookup
import BranchTalk.Desktop.WorkspaceListModel.Reentrancy
import BranchTalk.Desktop.WorkspaceListModel.Finished
import BranchTalk.Desktop.WorkspaceListModel.StaleRows
import BranchTalk.Desktop.ChannelListModel
import BranchTalk.Desktop.ChannelListModel.Effects
import BranchTalk.Desktop.ChannelListModel.Reentrancy
import BranchTalk.Desktop.ChannelListModel.Invariant
import BranchTalk.Desktop.ChannelListModel.Search
import BranchTalk.Desktop.ChannelListModel.Construct
import BranchTalk.Desktop.ChannelListModel.Interleaving
import BranchTalk.Desktop.Notifications
import BranchTalk.Desktop.AppViewModel
import BranchTalk.Desktop.Main
import BranchTalk.Desktop.Main.Settling
import BranchTalk.Desktop.Main.SearchField
import BranchTalk.Desktop.Main.Window
import BranchTalk.Desktop.Main.Bindings
import BranchTalk.Desktop.Main.Shown
import BranchTalk.Desktop.Main.Clicks
import BranchTalk.Desktop.WindowStateStore
import BranchTalk.Desktop.WindowStateStore.Saves
import BranchTalk.Desktop.WindowStateStore.Visible
import BranchTalk.Desktop.Run
import BranchTalk.Json.Value
import BranchTalk.Json.Grammar
import BranchTalk.Json.Scan
import BranchTalk.Json.Lexical
import BranchTalk.Json.Correct
import BranchTalk.Json.Exceeds
import BranchTalk.Core.Result
import BranchTalk.Core.Logging
import BranchTalk.Core.Logging.Output
import BranchTalk.Core.Logging.Lines
import BranchTalk.Core.Logging.Concurrent
import BranchTalk.Core.Logging.Schedules
import BranchTalk.Core.Logging.Turns
import BranchTalk.Core.Logging.Progress
import BranchTalk.Core.ApplicationConfig
import BranchTalk.Core.ApplicationConfig.Outcomes
import BranchTalk.Core.ApplicationConfig.Messages
import BranchTalk.Core.ApplicationConfig.Accepted
import BranchTalk.Core.ApplicationConfig.Ignored
import BranchTalk.Core.ApplicationConfig.Faults
import BranchTalk.Server.Run
import BranchTalk.Server.Steps
import BranchTalk.Server.Requests
import BranchTalk.Server.StartupErrors
import BranchTalk.Server.Dispositions
import BranchTalk.Server.Output
import BranchTalk.Server.Stopping
import BranchTalk.Server.SmokeTest
