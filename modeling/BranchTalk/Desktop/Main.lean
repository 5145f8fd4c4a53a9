import BranchTalk.Desktop.ChannelListModel.Invariant

set_option autoImplicit false

/-! # The main window

`apps/desktop/Main.qml`, where it reads and drives the channel model: the title of the conversation
and the search field above the channels. -/

namespace BranchTalk.Desktop.Main

open ChannelListModel (setSearchQuery)

/-- The text of `conversationTitle`. No translation is installed, so `qsTr` gives back its argument. -/
def conversationTitle (channelModel : ChannelListModel) : QString :=
  if channelModel.selectedChannelName.length > 0 then
    (if channelModel.selectedChannelKind = .textChannel then qStringLiteral "# "
      else qStringLiteral "◉ ") ++ channelModel.selectedChannelName
  else qStringLiteral "No channel selected"

/-- **The title tells whether a channel is selected**: it has a prefix before any name. -/
theorem conversationTitle_eq_iff {text : QtText} {m : ChannelListModel} (hm : m.Wf text) :
    conversationTitle m = qStringLiteral "No channel selected" ↔ m.selectedChannelId = [] := by
  constructor
  · intro htitle
    by_contra hselected
    obtain ⟨row, channel, hrow, -, -, hname, -⟩ := ChannelListModel.selected_row hm hselected
    have hlength : m.selectedChannelName.length > 0 := by
      rw [hname]
      exact List.length_pos_iff.mpr (hm.valid channel (List.mem_of_getElem? hrow)).name_ne
    rw [conversationTitle, if_pos hlength] at htitle
    have hhead := congrArg List.head? htitle
    split at hhead
    · exact absurd hhead (by simp [qStringLiteral])
    · exact absurd hhead (by simp [qStringLiteral])
  · intro hselected
    have hname := ChannelListModel.selectedChannelName_of_empty hm hselected
    rw [conversationTitle, hname]
    rfl

/-- **What the selection shows.** After every session on every list of channels the channels are those
    the constructor kept, the model is well-formed, one row reads as selected if there is a selection
    and none if not, the getters read that row, and the title tells the two cases apart. -/
theorem selection_shown (text : QtText) (channels : List Channel) (ops : List ChannelListModel.Op) :
    let m := Emission.sequence (ChannelListModel.exec text) (.construct channels) ops
    m.channels.map Channel.identity =
      (ChannelListModel.construct channels).channels.map Channel.identity ∧
    m.Wf text ∧
    (m.selectedChannelId ≠ [] → ∃ (row : ℕ) (channel : Channel), m.channels[row]? = some channel ∧
      channel.stableId = m.selectedChannelId ∧
      (∀ row' : Int, m.data text (m.index row' 0) .selected = .bool true ↔ row' = row) ∧
      m.selectedChannelName = channel.name ∧ m.selectedChannelKind = channel.kind) ∧
    (m.selectedChannelId = [] → ∀ row : Int,
      m.data text (m.index row 0) .selected ≠ .bool true) ∧
    (conversationTitle m = qStringLiteral "No channel selected" ↔ m.selectedChannelId = []) := by
  intro m
  obtain ⟨hm, hrows⟩ := ChannelListModel.wf_sequence (ChannelListModel.wf_construct text channels) ops
  exact ⟨hrows, hm, ChannelListModel.selected_row hm, ChannelListModel.not_selected_of_empty hm,
    conversationTitle_eq_iff hm⟩

/-! ## The search field -/

/-- Give `channelSearch` a text. If that changes it, `onTextChanged` passes the text to
    `setSearchQuery`, and on `searchQueryChanged` the binding gives the field the query in turn. The
    depth bounds the changes within changes. -/
def setText (text : QtText) :
    ℕ → QString → ChannelListModel × QString → Option (ChannelListModel × QString)
  | 0, _, _ => none
  | depth + 1, new, (channelModel, old) =>
      if old = new then some (channelModel, old)
      else
        ((setSearchQuery text new).run channelModel).handled
          (fun signal panel =>
            if signal = .searchQueryChanged then
              setText text depth panel.1.searchQuery panel
            else some panel)
          new

inductive Key where
  | append (character : QChar)
  | deleteLast
  deriving DecidableEq, Repr

/-- What a key does to a text. -/
def edit (content : QString) : Key → QString
  | .append character => content ++ [character]
  | .deleteLast => content.dropLast

/-- The text of a plain field after some keys. -/
def plainText (keys : List Key) : QString := keys.foldl edit []

/-- The model and the field after some keys, from an empty field. -/
def typed (text : QtText) (depth : ℕ) (channelModel : ChannelListModel) :
    List Key → Option (ChannelListModel × QString) :=
  List.foldl (fun panel key => panel.bind fun panel => setText text depth (edit panel.2 key) panel)
    (some (channelModel, []))

end BranchTalk.Desktop.Main
