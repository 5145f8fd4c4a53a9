import BranchTalk.Desktop.Qt
import BranchTalk.Emission.Watched
import BranchTalk.KeyedRows

set_option autoImplicit false

/-! # The channel list model

`apps/desktop/channel_list_model.cpp`. The rows are fixed at construction; the search query, the
selection, and the unread count and mute flag of each row change. -/

namespace BranchTalk.Desktop

/-- `enum ChannelKind`; `other` is a value outside the enumeration. -/
inductive ChannelKind where
  | textChannel
  | voiceChannel
  | other (value : Int)
  deriving DecidableEq, Repr

/-- `static_cast<int>(kind)`. -/
def ChannelKind.toInt : ChannelKind → Int
  | .textChannel => 0
  | .voiceChannel => 1
  | .other value => value

structure Channel where
  stableId : QString
  name : QString
  kind : ChannelKind := .textChannel
  unreadCount : Int := 0
  muted : Bool := false
  deriving DecidableEq, Repr

/-- The fields `channels_`, `search_query_` and `selected_channel_id_`. -/
structure ChannelListModel where
  channels : List Channel := []
  searchQuery : QString := []
  selectedChannelId : QString := []
  deriving DecidableEq, Repr

namespace ChannelListModel

/-- `enum Role`; `other` is any role number outside the enumeration. -/
inductive Role where
  | stableId
  | name
  | kind
  | selected
  | unreadCount
  | muted
  | matchesSearch
  | other (number : Int)
  deriving DecidableEq, Repr

inductive Signal where
  | item (signal : ItemSignal Role)
  | searchQueryChanged
  | matchingChannelCountChanged
  | selectedChannelChanged
  deriving DecidableEq, Repr

/-! ## Construction -/

/-- The constructor's loop: `stableIds` is the hash set of the IDs kept so far. -/
def keep (stableIds : List QString) : List Channel → List Channel
  | [] => []
  | channel :: rest =>
      if channel.stableId.isEmpty ∨ channel.name.isEmpty ∨ channel.stableId ∈ stableIds ∨
          (channel.kind ≠ .textChannel ∧ channel.kind ≠ .voiceChannel) then
        keep stableIds rest
      else
        { channel with unreadCount := max 0 channel.unreadCount } ::
          keep (channel.stableId :: stableIds) rest

/-- `ChannelListModel::ChannelListModel`. -/
def construct (channels : List Channel) : ChannelListModel := { channels := keep [] channels }

/-! ## Getters -/

def rowCount (m : ChannelListModel) (parent : QModelIndex := QModelIndex.none) : Int :=
  if parent.isValid then 0 else m.channels.length

/-- `index(row, column)` of the base class. -/
def index (m : ChannelListModel) (row column : Int) : QModelIndex :=
  listIndex m.rowCount row column

/-- The first row with this ID, or `-1`. -/
def indexOfStableId (m : ChannelListModel) (stableId : QString) : Int :=
  KeyedRows.indexOf Channel.stableId stableId m.channels

/-- The channel in the row of this ID. -/
def channelOf (m : ChannelListModel) (stableId : QString) : Option Channel :=
  if 0 ≤ m.indexOfStableId stableId then m.channels[(m.indexOfStableId stableId).toNat]? else none

def selectedChannelName (m : ChannelListModel) : QString :=
  (m.channelOf m.selectedChannelId).elim [] Channel.name

def selectedChannelKind (m : ChannelListModel) : ChannelKind :=
  (m.channelOf m.selectedChannelId).elim .textChannel Channel.kind

section

variable (text : QtText)

def matchesSearch (m : ChannelListModel) (channel : Channel) : Bool :=
  m.searchQuery.isEmpty || text.contains channel.name m.searchQuery

def matchingChannelCount (m : ChannelListModel) : Int := m.channels.countP (m.matchesSearch text)

/-- The `switch` of `data`. -/
def cell (m : ChannelListModel) (channel : Channel) : Role → QVariant
  | .stableId => .string channel.stableId
  | .name => .string channel.name
  | .kind => .int channel.kind.toInt
  | .selected => .bool (channel.stableId == m.selectedChannelId)
  | .unreadCount => .int channel.unreadCount
  | .muted => .bool channel.muted
  | .matchesSearch => .bool (m.matchesSearch text channel)
  | .other _ => .invalid

def data (m : ChannelListModel) (index : QModelIndex) (role : Role) : QVariant :=
  if !index.isValid || index.parent.isValid || index.column != 0 || index.row < 0 ||
      index.row ≥ m.rowCount then
    .invalid
  else
    (m.channels[index.row.toNat]?).elim .invalid fun channel => m.cell text channel role

/-! ## Mutators -/

open Emission (Method) in
abbrev ChannelMethod (α : Type) := Method ChannelListModel Signal α

open Emission.Method (emit)

/-- Store the query. -/
def search (m : ChannelListModel) (searchQuery : QString) : ChannelListModel :=
  { m with searchQuery := searchQuery }

def setSearchQuery (searchQuery : QString) : ChannelMethod Unit := do
  let searchQuery := text.trimmed searchQuery
  let m ← get
  if m.searchQuery = searchQuery then
    return
  let previousMatchCount := m.matchingChannelCount text
  modify fun m => m.search searchQuery
  let currentMatchCount := (← get).matchingChannelCount text
  emit .searchQueryChanged
  let m ← get
  if m.rowCount > 0 then
    emit (.item (.dataChanged (m.index 0 0) (m.index (m.rowCount - 1) 0) [.matchesSearch]))
  if previousMatchCount ≠ currentMatchCount then
    emit .matchingChannelCountChanged

/-- Store the selected ID. -/
def select (m : ChannelListModel) (stableId : QString) : ChannelListModel :=
  { m with selectedChannelId := stableId }

def selectChannel (stableId : QString) : ChannelMethod Bool := do
  let m ← get
  let selectedRow := m.indexOfStableId stableId
  if selectedRow < 0 then
    return false
  if m.selectedChannelId = stableId then
    return true
  let previousRow := m.indexOfStableId m.selectedChannelId
  modify fun m => m.select stableId
  if previousRow ≥ 0 then
    let previousIndex := (← get).index previousRow 0
    emit (.item (.dataChanged previousIndex previousIndex [.selected]))
  let selectedIndex := (← get).index selectedRow 0
  emit (.item (.dataChanged selectedIndex selectedIndex [.selected]))
  emit .selectedChannelChanged
  return true

/-- Change the channel in a row. -/
def modifyRow (m : ChannelListModel) (row : Int) (change : Channel → Channel) : ChannelListModel :=
  { m with channels := m.channels.modify row.toNat change }

/-- The common body of `setUnreadCount` and `setMuted`: unless the channel's row is already as
    asked, change it and announce the role. -/
def setField (stableId : QString) (isSet : Channel → Bool) (change : Channel → Channel)
    (role : Role) : ChannelMethod Bool := do
  let m ← get
  let row := m.indexOfStableId stableId
  if row < 0 then
    return false
  if m.channels[row.toNat]?.any isSet then
    return true
  modify fun m => m.modifyRow row change
  let changedIndex := (← get).index row 0
  emit (.item (.dataChanged changedIndex changedIndex [role]))
  return true

def setUnreadCount (stableId : QString) (unreadCount : Int) : ChannelMethod Bool :=
  let normalizedCount := max 0 unreadCount
  setField stableId (fun channel => channel.unreadCount == normalizedCount)
    (fun channel => { channel with unreadCount := normalizedCount }) .unreadCount

def setMuted (stableId : QString) (muted : Bool) : ChannelMethod Bool :=
  setField stableId (fun channel => channel.muted == muted)
    (fun channel => { channel with muted := muted }) .muted

/-! ## The component -/

/-- The calls that change the model. -/
inductive Op where
  | setSearchQuery (searchQuery : QString)
  | selectChannel (stableId : QString)
  | setUnreadCount (stableId : QString) (unreadCount : Int)
  | setMuted (stableId : QString) (muted : Bool)
  deriving DecidableEq, Repr

/-- A call and its answer; `setSearchQuery` answers nothing and counts as accepted. -/
def exec : Op → ChannelMethod Bool
  | .setSearchQuery searchQuery => do setSearchQuery text searchQuery; return true
  | .selectChannel stableId => selectChannel stableId
  | .setUnreadCount stableId unreadCount => setUnreadCount stableId unreadCount
  | .setMuted stableId muted => setMuted stableId muted

/-- The model as a component; its handlers may call anything at any signal. -/
def component : Emission.Component ChannelListModel Op Signal Bool := ⟨exec text, fun _ _ => true⟩

end

end ChannelListModel

end BranchTalk.Desktop
