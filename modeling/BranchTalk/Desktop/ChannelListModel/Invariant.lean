import BranchTalk.Desktop.ChannelListModel.Reentrancy
import BranchTalk.Trimming

set_option autoImplicit false

/-! # The invariant of the channel model

The constructor lets only well-formed channels in, with distinct IDs, and no operation changes which
channels there are. The query is stored trimmed. The selection is empty or the ID of a row. -/

namespace BranchTalk.Desktop

open Emission

theorem QtText.trimmed_eq (text : QtText) (s : QString) :
    text.trimmed s = Trimming.trim text.isSpace s := rfl

theorem QtText.trimmed_trimmed (text : QtText) (s : QString) :
    text.trimmed (text.trimmed s) = text.trimmed s :=
  Trimming.trim_trim text.isSpace s

/-- What no operation changes of a channel. -/
def Channel.identity (channel : Channel) : QString × QString × ChannelKind :=
  (channel.stableId, channel.name, channel.kind)

namespace ChannelListModel

variable {text : QtText}

/-- Some row has this ID. -/
def Present (m : ChannelListModel) (stableId : QString) : Prop :=
  ∃ channel ∈ m.channels, channel.stableId = stableId

instance (m : ChannelListModel) (stableId : QString) : Decidable (m.Present stableId) :=
  inferInstanceAs (Decidable (∃ channel ∈ m.channels, channel.stableId = stableId))

/-- What the constructor asks of a channel. -/
structure Valid (channel : Channel) : Prop where
  stableId_ne : channel.stableId ≠ []
  name_ne : channel.name ≠ []
  kind : channel.kind = .textChannel ∨ channel.kind = .voiceChannel

instance (channel : Channel) : Decidable (Valid channel) :=
  decidable_of_iff (channel.stableId ≠ [] ∧ channel.name ≠ [] ∧
      (channel.kind = .textChannel ∨ channel.kind = .voiceChannel))
    ⟨fun h => ⟨h.1, h.2.1, h.2.2⟩, fun h => ⟨h.1, h.2, h.3⟩⟩

/-- What every operation keeps. -/
structure Wf (text : QtText) (m : ChannelListModel) : Prop where
  nodup : (m.channels.map Channel.stableId).Nodup
  valid : ∀ channel ∈ m.channels, Valid channel
  unreadCount_nonneg : ∀ channel ∈ m.channels, 0 ≤ channel.unreadCount
  searchQuery : text.trimmed m.searchQuery = m.searchQuery
  selected : m.selectedChannelId = [] ∨ m.Present m.selectedChannelId

/-! ## The constructor -/

/-- The constructor's clamp. -/
def normalized (channel : Channel) : Channel :=
  { channel with unreadCount := max 0 channel.unreadCount }

theorem keep_cons (stableIds : List QString) (channel : Channel) (rest : List Channel) :
    keep stableIds (channel :: rest) =
      if Valid channel ∧ channel.stableId ∉ stableIds then
        normalized channel :: keep (channel.stableId :: stableIds) rest
      else keep stableIds rest := by
  rw [keep]
  split
  · next hskip =>
      refine (if_neg ?_).symm
      rintro ⟨⟨hid, hname, hkind⟩, hnew⟩
      rcases hskip with h | h | h | h
      · exact hid (List.isEmpty_iff.mp h)
      · exact hname (List.isEmpty_iff.mp h)
      · exact hnew h
      · exact hkind.elim h.1 h.2
  · next hkeep =>
      refine (if_pos ?_).symm
      simp only [not_or, List.isEmpty_iff, not_and_or, not_not] at hkeep
      obtain ⟨hid, hname, hnew, hkind⟩ := hkeep
      exact ⟨⟨hid, hname, hkind⟩, hnew⟩

theorem mem_keep {stableIds : List QString} {channels : List Channel} {channel : Channel}
    (h : channel ∈ keep stableIds channels) :
    ∃ entry ∈ channels, Valid entry ∧ channel = normalized entry := by
  induction channels generalizing stableIds with
  | nil => simp [keep] at h
  | cons first rest ih =>
      rw [keep_cons] at h
      split at h
      · next hfirst =>
          rcases List.mem_cons.mp h with rfl | h
          · exact ⟨first, List.mem_cons_self .., hfirst.1, rfl⟩
          · obtain ⟨entry, hentry, hvalid⟩ := ih h
            exact ⟨entry, List.mem_cons_of_mem _ hentry, hvalid⟩
      · obtain ⟨entry, hentry, hvalid⟩ := ih h
        exact ⟨entry, List.mem_cons_of_mem _ hentry, hvalid⟩

theorem wf_construct (text : QtText) (channels : List Channel) : Wf text (construct channels) where
  nodup := (stableId_keep [] channels).1
  valid channel h := by
    obtain ⟨entry, -, hvalid, rfl⟩ := mem_keep h
    exact ⟨hvalid.1, hvalid.2, hvalid.3⟩
  unreadCount_nonneg channel h := by
    obtain ⟨entry, -, -, rfl⟩ := mem_keep h
    exact le_max_left ..
  searchQuery := rfl
  selected := Or.inl rfl

/-! ## The operations -/

theorem mem_modifyRow {m : ChannelListModel} {row : Int} {change : Channel → Channel}
    {channel : Channel} (h : channel ∈ (m.modifyRow row change).channels) :
    channel ∈ m.channels ∨ ∃ old ∈ m.channels, channel = change old := by
  obtain ⟨n, hn⟩ := List.getElem?_of_mem h
  rw [modifyRow, List.getElem?_modify] at hn
  obtain ⟨old, hold, rfl⟩ := Option.map_eq_some_iff.mp hn
  have hmem := List.mem_of_getElem? hold
  split
  · exact Or.inr ⟨old, hmem, rfl⟩
  · exact Or.inl hmem

theorem present_iff_mem (m : ChannelListModel) (stableId : QString) :
    m.Present stableId ↔ stableId ∈ m.channels.map Channel.stableId := by
  simp [Present]

theorem indexOfStableId_nonneg_iff (m : ChannelListModel) (stableId : QString) :
    0 ≤ m.indexOfStableId stableId ↔ m.Present stableId :=
  KeyedRows.indexOf_nonneg_iff Channel.stableId stableId m.channels

/-- `setUnreadCount` and `setMuted` change counts and flags only. -/
theorem withField_identity (m : ChannelListModel) (stableId : QString) (isSet : Channel → Bool)
    {change : Channel → Channel} (h : ∀ channel, (change channel).identity = channel.identity) :
    (m.withField stableId isSet change).channels.map Channel.identity =
      m.channels.map Channel.identity := by
  unfold withField
  split
  · rfl
  · exact map_modifyRow m _ h

theorem stableId_of_identity {m m' : ChannelListModel}
    (h : m'.channels.map Channel.identity = m.channels.map Channel.identity) :
    m'.channels.map Channel.stableId = m.channels.map Channel.stableId := by
  have hfst := congrArg (List.map Prod.fst) h
  rwa [List.map_map, List.map_map] at hfst

theorem valid_of_identity {channel channel' : Channel} (h : channel'.identity = channel.identity)
    (hvalid : Valid channel) : Valid channel' := by
  obtain ⟨hid, hrest⟩ := Prod.mk.inj h
  obtain ⟨hname, hkind⟩ := Prod.mk.inj hrest
  exact ⟨hid ▸ hvalid.1, hname ▸ hvalid.2, hkind ▸ hvalid.3⟩

theorem withField_kept (m : ChannelListModel) (stableId : QString) (isSet : Channel → Bool)
    (change : Channel → Channel) :
    (m.withField stableId isSet change).searchQuery = m.searchQuery ∧
    (m.withField stableId isSet change).selectedChannelId = m.selectedChannelId := by
  unfold withField
  split <;> exact ⟨rfl, rfl⟩

theorem wf_withField {m : ChannelListModel} (hm : m.Wf text) (stableId : QString)
    (isSet : Channel → Bool) {change : Channel → Channel}
    (hidentity : ∀ channel, (change channel).identity = channel.identity)
    (hcount : ∀ channel, 0 ≤ channel.unreadCount → 0 ≤ (change channel).unreadCount) :
    (m.withField stableId isSet change).Wf text := by
  have hids := stableId_of_identity (withField_identity m stableId isSet hidentity)
  have hmem : ∀ channel ∈ (m.withField stableId isSet change).channels,
      channel ∈ m.channels ∨ ∃ old ∈ m.channels, channel = change old := by
    intro channel h
    unfold withField at h
    split at h
    · exact Or.inl h
    · exact mem_modifyRow h
  obtain ⟨hquery, hselected⟩ := withField_kept m stableId isSet change
  refine ⟨hids ▸ hm.nodup, ?_, ?_, ?_, ?_⟩
  · intro channel h
    rcases hmem channel h with h | ⟨old, hold, rfl⟩
    · exact hm.valid channel h
    · exact valid_of_identity (hidentity old) (hm.valid old hold)
  · intro channel h
    rcases hmem channel h with h | ⟨old, hold, rfl⟩
    · exact hm.unreadCount_nonneg channel h
    · exact hcount old (hm.unreadCount_nonneg old hold)
  · rw [hquery]
    exact hm.searchQuery
  · rw [hselected, present_iff_mem, hids, ← present_iff_mem]
    exact hm.selected

/-- **The invariant is kept** by every operation, and so are the channels. -/
theorem wf_next {m : ChannelListModel} (hm : m.Wf text) (op : Op) :
    (m.next text op).Wf text ∧
    (m.next text op).channels.map Channel.identity = m.channels.map Channel.identity := by
  cases op with
  | setSearchQuery searchQuery =>
      exact ⟨⟨hm.nodup, hm.valid, hm.unreadCount_nonneg, text.trimmed_trimmed searchQuery,
        hm.selected⟩, rfl⟩
  | selectChannel stableId =>
      simp only [next]
      split
      · exact ⟨hm, rfl⟩
      · next hrow =>
          have hpresent := (m.indexOfStableId_nonneg_iff stableId).mp (by omega)
          exact ⟨⟨hm.nodup, hm.valid, hm.unreadCount_nonneg, hm.searchQuery, Or.inr hpresent⟩, rfl⟩
  | setUnreadCount stableId unreadCount =>
      exact ⟨wf_withField hm stableId _ (fun _ => rfl) fun _ _ => le_max_left ..,
        withField_identity m stableId _ fun _ => rfl⟩
  | setMuted stableId muted =>
      exact ⟨wf_withField hm stableId _ (fun _ => rfl) fun _ h => h,
        withField_identity m stableId _ fun _ => rfl⟩

theorem exec_quiet (m : ChannelListModel) (op : Op) :
    ((exec text op).run m).quiet.state = m.next text op :=
  (exec_passive text m op).quiet_state

/-- Every sequence of operations keeps the invariant and the channels. -/
theorem wf_sequence {m : ChannelListModel} (hm : m.Wf text) (ops : List Op) :
    (sequence (exec text) m ops).Wf text ∧
    (sequence (exec text) m ops).channels.map Channel.identity =
      m.channels.map Channel.identity := by
  refine sequence_invariant (I := fun m' : ChannelListModel => m'.Wf text ∧
    m'.channels.map Channel.identity = m.channels.map Channel.identity) ?_ ⟨hm, rfl⟩ ops
  intro m' op hm'
  obtain ⟨hwf, hrows⟩ := wf_next hm'.1 op
  rw [exec_quiet]
  exact ⟨hwf, hrows.trans hm'.2⟩

/-! ## The selected row -/

theorem selected_cell_iff (m : ChannelListModel) (row : Int) :
    m.data text (m.index row 0) .selected = .bool true ↔
      0 ≤ row ∧ ∃ channel, m.channels[row.toNat]? = some channel ∧
        channel.stableId = m.selectedChannelId := by
  by_cases h₀ : 0 ≤ row
  · obtain ⟨n, rfl⟩ := Int.eq_ofNat_of_zero_le h₀
    rw [data_index, Int.toNat_natCast]
    cases m.channels[n]? with
    | none => simp
    | some channel => simp [cell]
  · have hvalid : (m.index row 0).isValid = false := by
      rw [← Bool.not_eq_true]
      exact fun h => h₀ ((listIndex_isValid_iff _ _).mp h).1
    simp [data, hvalid, h₀]

/-- **The selection has one row**, and the getters read that row. -/
theorem selected_row {m : ChannelListModel} (hm : m.Wf text) (h : m.selectedChannelId ≠ []) :
    ∃ (row : ℕ) (channel : Channel), m.channels[row]? = some channel ∧
      channel.stableId = m.selectedChannelId ∧
      (∀ row' : Int, m.data text (m.index row' 0) .selected = .bool true ↔ row' = row) ∧
      m.selectedChannelName = channel.name ∧ m.selectedChannelKind = channel.kind := by
  obtain ⟨channel, hmem, hid⟩ := hm.selected.resolve_left h
  obtain ⟨row, hrow⟩ := List.getElem?_of_mem hmem
  have hindex := KeyedRows.indexOf_of_getElem? Channel.stableId hm.nodup hrow
  have hof : m.channelOf m.selectedChannelId = some channel := by
    rw [channelOf, indexOfStableId, ← hid, hindex, if_pos (Int.natCast_nonneg row),
      Int.toNat_natCast, hrow]
  refine ⟨row, channel, hrow, hid, ?_, by rw [selectedChannelName, hof]; rfl,
    by rw [selectedChannelKind, hof]; rfl⟩
  intro row'
  rw [selected_cell_iff]
  constructor
  · rintro ⟨h₀, other, hother, hsame⟩
    have hindex' := KeyedRows.indexOf_of_getElem? Channel.stableId hm.nodup hother
    rw [hsame, ← hid, hindex] at hindex'
    omega
  · rintro rfl
    exact ⟨Int.natCast_nonneg row, channel, by rw [Int.toNat_natCast, hrow], hid⟩

theorem not_selected_of_empty {m : ChannelListModel} (hm : m.Wf text) (h : m.selectedChannelId = [])
    (row : Int) : m.data text (m.index row 0) .selected ≠ .bool true := by
  rw [Ne, selected_cell_iff]
  rintro ⟨-, channel, hrow, hid⟩
  exact (hm.valid channel (List.mem_of_getElem? hrow)).stableId_ne (hid.trans h)

theorem selectedChannelName_of_empty {m : ChannelListModel} (hm : m.Wf text)
    (h : m.selectedChannelId = []) : m.selectedChannelName = [] := by
  have habsent : ¬ 0 ≤ m.indexOfStableId [] := by
    rw [indexOfStableId_nonneg_iff]
    rintro ⟨channel, hmem, hid⟩
    exact (hm.valid channel hmem).stableId_ne hid
  rw [selectedChannelName, channelOf, h, if_neg habsent]
  rfl

end ChannelListModel

end BranchTalk.Desktop
