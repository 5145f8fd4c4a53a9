import BranchTalk.Desktop.ChannelListModel.Effects

set_option autoImplicit false

/-! # Channel operations called from handlers

The channel model is prompt, so nested calls amount to the same calls in a row. What remains is that
each operation announces what it changes, although its signals carry row numbers and match counts
taken before handlers ran: the rows never move, so a row number stays good, and an observer that is
told of a count reads the one that is current then. -/

namespace BranchTalk.Desktop.ChannelListModel

open Emission

variable (text : QtText)

/-! ## The observer -/

/-- What there is to read: the cells of the rows by number and role, and the properties. -/
inductive Item where
  | rowCount
  | cell (row : ℕ) (role : Role)
  | searchQuery
  | matchingChannelCount
  | selectedChannelId
  | selectedChannelName
  | selectedChannelKind

/-- The observer of `dataChanged` and the three property signals. -/
def observer : Observer ChannelListModel Signal Item QVariant where
  read m
    | .rowCount => .int m.rowCount
    | .cell row role => m.data text (m.index row 0) role
    | .searchQuery => .string m.searchQuery
    | .matchingChannelCount => .int (m.matchingChannelCount text)
    | .selectedChannelId => .string m.selectedChannelId
    | .selectedChannelName => .string m.selectedChannelName
    | .selectedChannelKind => .int m.selectedChannelKind.toInt
  names
    | .item (.dataChanged topLeft bottomRight roles), .cell row role =>
        topLeft.row ≤ row && row ≤ bottomRight.row && roles.contains role
    | .searchQueryChanged, .searchQuery => true
    | .matchingChannelCountChanged, .matchingChannelCount => true
    | .selectedChannelChanged, .selectedChannelId => true
    | .selectedChannelChanged, .selectedChannelName => true
    | .selectedChannelChanged, .selectedChannelKind => true
    | _, _ => false

/-! ## The rows stay -/

/-- The rows are those with these distinct IDs, in this order. -/
structure Keyed (stableIds : List QString) (m : ChannelListModel) : Prop where
  rows : m.channels.map Channel.stableId = stableIds
  nodup : stableIds.Nodup

theorem stableId_keep (stableIds : List QString) (channels : List Channel) :
    ((keep stableIds channels).map Channel.stableId).Nodup ∧
    ∀ id ∈ (keep stableIds channels).map Channel.stableId, id ∉ stableIds := by
  induction channels generalizing stableIds with
  | nil => simp [keep]
  | cons channel rest ih =>
      unfold keep
      split
      · exact ih stableIds
      · next hkept =>
          obtain ⟨hnodup, hnew⟩ := ih (channel.stableId :: stableIds)
          simp only [not_or] at hkept
          simp only [List.map_cons, List.nodup_cons, List.forall_mem_cons]
          exact ⟨⟨fun hmem => hnew _ hmem (List.mem_cons_self ..), hnodup⟩, hkept.2.2.1,
            fun id hid hmem => hnew id hid (List.mem_cons_of_mem _ hmem)⟩

theorem keyed_construct (channels : List Channel) :
    Keyed ((construct channels).channels.map Channel.stableId) (construct channels) :=
  ⟨rfl, (stableId_keep [] channels).1⟩

theorem Keyed.rowCount {stableIds : List QString} {m : ChannelListModel} (h : Keyed stableIds m) :
    m.rowCount = stableIds.length := by
  rw [← h.rows, List.length_map]
  rfl

theorem Keyed.index {stableIds : List QString} {m : ChannelListModel} (h : Keyed stableIds m)
    {row : Int} (h₀ : 0 ≤ row) (hlt : row < stableIds.length) : m.index row 0 = ⟨row, 0⟩ :=
  listIndex_of_lt h₀ (h.rowCount ▸ hlt)

/-- A row number found for an ID is one of the rows. -/
theorem Keyed.indexOfStableId_lt {stableIds : List QString} {m : ChannelListModel}
    (h : Keyed stableIds m) (stableId : QString) : m.indexOfStableId stableId < stableIds.length := by
  rw [← h.rowCount]
  exact KeyedRows.indexOf_lt_length Channel.stableId stableId m.channels

/-! ## Reading -/

theorem data_index (m : ChannelListModel) (n : ℕ) (role : Role) :
    m.data text (m.index n 0) role =
      (m.channels[n]?).elim .invalid fun channel => m.cell text channel role := by
  by_cases hn : (n : Int) < m.rowCount
  · have hindex : m.index n 0 = ⟨n, 0⟩ := listIndex_of_lt (Int.natCast_nonneg n) hn
    have hvalid : (m.index n 0).isValid = true :=
      (listIndex_isValid_iff _ _).mpr ⟨Int.natCast_nonneg n, hn⟩
    simp only [data, hvalid, QModelIndex.parent_isValid]
    rw [hindex, if_neg (by simpa using hn), Int.toNat_natCast]
  · have hvalid : (m.index n 0).isValid = false := by
      rw [← Bool.not_eq_true]
      exact fun h => hn ((listIndex_isValid_iff _ _).mp h).2
    have hnone : m.channels[n]? = none :=
      List.getElem?_eq_none (by simpa [rowCount] using hn)
    simp [data, hvalid, hnone]

/-- Two models whose rows agree on what a field reads agree on that field of a row found by ID. -/
theorem channelOf_elim_congr {γ : Type} {m m' : ChannelListModel} (f : Channel → γ) (d : γ)
    (hid : m'.channels.map Channel.stableId = m.channels.map Channel.stableId)
    (hf : m'.channels.map f = m.channels.map f) (stableId : QString) :
    (m'.channelOf stableId).elim d f = (m.channelOf stableId).elim d f := by
  have hindex : m'.indexOfStableId stableId = m.indexOfStableId stableId := by
    unfold indexOfStableId
    rw [← KeyedRows.indexOf_map Channel.stableId, hid, KeyedRows.indexOf_map]
  have hmap : ∀ m : ChannelListModel, ∀ n, (m.channels[n]?).elim d f = ((m.channels.map f)[n]?).getD d :=
    fun m n => by
      rw [List.getElem?_map]
      cases m.channels[n]? <;> rfl
  simp only [channelOf, hindex]
  split
  · rw [hmap, hmap, hf]
  · rfl

theorem matchingChannelCount_congr {m m' : ChannelListModel} (hquery : m'.searchQuery = m.searchQuery)
    (hname : m'.channels.map Channel.name = m.channels.map Channel.name) :
    m'.matchingChannelCount text = m.matchingChannelCount text := by
  have hcount : ∀ m : ChannelListModel, m.matchingChannelCount text
      = ((m.channels.map Channel.name).countP fun name =>
          m.searchQuery.isEmpty || text.contains name m.searchQuery : ℕ) :=
    fun m => by
      rw [List.countP_map]
      rfl
  rw [hcount, hcount, hquery, hname]

/-- A `dataChanged` about one row names the cells of that row with its roles. -/
theorem names_row {stableIds : List QString} {m : ChannelListModel} (h : Keyed stableIds m)
    {row : Int} (h₀ : 0 ≤ row) (hlt : row < stableIds.length) {roles : List Role} {n : ℕ}
    {role : Role} (hn : (n : Int) = row) (hrole : role ∈ roles) :
    (observer text).names (.item (.dataChanged (m.index row 0) (m.index row 0) roles))
      (.cell n role) = true := by
  simp [observer, h.index h₀ hlt, hn, hrole]

/-! ## Announcements -/

/-- The item reads the same after the call, or the call will announce it. -/
def Announced (stableIds : List QString) (m : ChannelListModel) (op : Op) (item : Item) : Prop :=
  (observer text).read (m.next text op) item = (observer text).read m item ∨
  ((exec text op).run m).Announces (Keyed stableIds) fun sig =>
    (observer text).names sig item = true

theorem map_modifyRow (m : ChannelListModel) (row : Int) {change : Channel → Channel}
    {γ : Type} {f : Channel → γ} (hchange : ∀ channel, f (change channel) = f channel) :
    (m.modifyRow row change).channels.map f = m.channels.map f := by
  refine List.ext_getElem? fun n => ?_
  rw [List.getElem?_map, List.getElem?_map, modifyRow, List.getElem?_modify]
  cases m.channels[n]? with
  | none => rfl
  | some channel =>
      simp only [Option.map_eq_map, Option.map_some]
      split
      · rw [hchange]
      · rfl

/-- What `setUnreadCount` and `setMuted` announce: the role they change, in the row they change. -/
theorem announced_setField {stableIds : List QString} {m : ChannelListModel} (h : Keyed stableIds m)
    (stableId : QString) (isSet : Channel → Bool) {change : Channel → Channel} {role : Role}
    (hid : ∀ channel, (change channel).stableId = channel.stableId)
    (hname : ∀ channel, (change channel).name = channel.name)
    (hkind : ∀ channel, (change channel).kind = channel.kind)
    (hcell : ∀ (m : ChannelListModel) channel role', role' ≠ role →
      m.cell text (change channel) role' = m.cell text channel role') (item : Item) :
    (observer text).read (m.withField stableId isSet change) item = (observer text).read m item ∨
    ((setField stableId isSet change role).run m).Announces (Keyed stableIds) fun sig =>
      (observer text).names sig item = true := by
  rw [setField_run, withField]
  have hlt := h.indexOfStableId_lt stableId
  split
  · exact Or.inl rfl
  next hno =>
  obtain ⟨hpos, hset⟩ := not_or.mp hno
  rw [if_neg hpos, if_neg hset]
  generalize m.indexOfStableId stableId = row at *
  have hids := map_modifyRow m row hid
  have hnames := map_modifyRow m row hname
  have hkeyed : Keyed stableIds (m.modifyRow row change) := ⟨hids.trans h.rows, h.nodup⟩
  cases item with
  | rowCount => exact Or.inl (by simp only [observer, hkeyed.rowCount, h.rowCount])
  | searchQuery => exact Or.inl rfl
  | selectedChannelId => exact Or.inl rfl
  | matchingChannelCount =>
      exact Or.inl (congrArg QVariant.int (matchingChannelCount_congr text rfl hnames))
  | selectedChannelName =>
      exact Or.inl (congrArg QVariant.string (channelOf_elim_congr Channel.name [] hids hnames _))
  | selectedChannelKind =>
      exact Or.inl (congrArg (fun kind : ChannelKind => QVariant.int kind.toInt)
        (channelOf_elim_congr Channel.kind .textChannel hids (map_modifyRow m row hkind) _))
  | cell n role' =>
      by_cases hhere : (n : Int) = row ∧ role' = role
      · exact Or.inr (Or.inl (names_row text hkeyed (by omega) hlt hhere.1 (by simp [hhere.2])))
      · refine Or.inl ?_
        simp only [observer, data_index]
        rw [modifyRow, List.getElem?_modify]
        cases m.channels[n]? with
        | none => rfl
        | some channel =>
            simp only [Option.map_eq_map, Option.map_some, Option.elim_some]
            split
            · next hn => exact hcell m channel role' fun hrole => hhere ⟨by omega, hrole⟩
            · rfl

/-- A selection changes `selected` in two rows and nothing in any other cell. -/
theorem read_cell_select {stableIds : List QString} {m : ChannelListModel} (h : Keyed stableIds m)
    (stableId : QString) (n : ℕ) (role : Role)
    (hother : role = .selected → (n : Int) ≠ m.indexOfStableId m.selectedChannelId ∧
      (n : Int) ≠ m.indexOfStableId stableId) :
    (observer text).read (m.select stableId) (.cell n role)
      = (observer text).read m (.cell n role) := by
  simp only [observer, data_index]
  rw [show (m.select stableId).channels = m.channels from rfl]
  cases hn : m.channels[n]? with
  | none => rfl
  | some channel =>
      have hindex : m.indexOfStableId channel.stableId = n :=
        KeyedRows.indexOf_of_getElem? Channel.stableId (h.rows ▸ h.nodup) hn
      cases role with
      | selected =>
          obtain ⟨hp, hs⟩ := hother rfl
          have hprevious : (channel.stableId == m.selectedChannelId) = false := by
            simpa using fun he => hp (by rw [← he, hindex])
          have hselected : (channel.stableId == stableId) = false := by
            simpa using fun he => hs (by rw [← he, hindex])
          simp only [Option.elim_some, cell, select, hprevious, hselected]
      | _ => rfl

/-- What the end of a selection announces in any state with the same rows. -/
theorem announces_finishSelect {stableIds : List QString} {m : ChannelListModel}
    (h : Keyed stableIds m) {row : Int} (h₀ : 0 ≤ row) (hlt : row < stableIds.length) {item : Item}
    (hitem : (∃ n : ℕ, item = .cell n .selected ∧ (n : Int) = row) ∨ item = .selectedChannelId ∨
      item = .selectedChannelName ∨ item = .selectedChannelKind) :
    (finishSelect row m).Announces (Keyed stableIds) fun sig =>
      (observer text).names sig item = true := by
  rcases hitem with ⟨n, rfl, hn⟩ | rfl | rfl | rfl
  · exact Or.inl (names_row text h h₀ hlt hn (by simp))
  all_goals exact Or.inr fun _ _ => Or.inl rfl

theorem announced_selectChannel {stableIds : List QString} {m : ChannelListModel}
    (h : Keyed stableIds m) (stableId : QString) (item : Item) :
    Announced text stableIds m (.selectChannel stableId) item := by
  have hlt := h.indexOfStableId_lt stableId
  have hltp := h.indexOfStableId_lt m.selectedChannelId
  have hkeyed : Keyed stableIds (m.select stableId) := ⟨h.rows, h.nodup⟩
  have hcell := read_cell_select text h stableId
  simp only [Announced, exec, selectChannel_run, next]
  split
  · exact Or.inl rfl
  next hpos =>
  split
  · next hsame => exact Or.inl (by rw [← hsame]; rfl)
  generalize m.indexOfStableId stableId = row at *
  generalize m.indexOfStableId m.selectedChannelId = previousRow at *
  have hfinish : ((∃ n : ℕ, item = .cell n .selected ∧ (n : Int) = row) ∨
        item = .selectedChannelId ∨ item = .selectedChannelName ∨ item = .selectedChannelKind) →
      (if previousRow ≥ 0 then
        .emit (m.select stableId) (.item (.dataChanged ((m.select stableId).index previousRow 0)
          ((m.select stableId).index previousRow 0) [.selected])) (finishSelect row)
      else finishSelect row (m.select stableId)).Announces (Keyed stableIds) fun sig =>
        (observer text).names sig item = true := by
    intro hitem
    split
    · exact Or.inr fun s hs => announces_finishSelect text hs (by omega) hlt hitem
    · exact announces_finishSelect text hkeyed (by omega) hlt hitem
  cases item with
  | rowCount => exact Or.inl rfl
  | searchQuery => exact Or.inl rfl
  | matchingChannelCount => exact Or.inl rfl
  | selectedChannelId => exact Or.inr (hfinish (by simp))
  | selectedChannelName => exact Or.inr (hfinish (by simp))
  | selectedChannelKind => exact Or.inr (hfinish (by simp))
  | cell n role =>
      by_cases hrow : role = .selected ∧ (n : Int) = row
      · exact Or.inr (hfinish (Or.inl ⟨n, by rw [hrow.1], hrow.2⟩))
      by_cases hprevious : role = .selected ∧ (n : Int) = previousRow
      · refine Or.inr ?_
        rw [if_pos (by omega)]
        exact Or.inl (names_row text hkeyed (by omega) hltp hprevious.2 (by simp [hprevious.1]))
      · exact Or.inl (hcell n role fun hsel => ⟨fun hn => hprevious ⟨hsel, hn⟩, fun hn => hrow ⟨hsel, hn⟩⟩)

/-- After `searchQueryChanged` every row is announced, and the count if it was found changed. -/
theorem announces_afterQueryChanged {stableIds : List QString} {m : ChannelListModel}
    (h : Keyed stableIds m) {previous current : Int} {item : Item}
    (hitem : (∃ n : ℕ, item = .cell n .matchesSearch ∧ n < stableIds.length) ∨
      item = .matchingChannelCount ∧ previous ≠ current) :
    (afterQueryChanged previous current m).Announces (Keyed stableIds) fun sig =>
      (observer text).names sig item = true := by
  have hcount : item = .matchingChannelCount ∧ previous ≠ current → ∀ s : ChannelListModel,
      (finishSearch previous current s).Announces (Keyed stableIds) fun sig =>
        (observer text).names sig item = true := by
    rintro ⟨rfl, hne⟩ s
    rw [finishSearch, if_pos hne]
    exact Or.inl rfl
  unfold afterQueryChanged
  rw [h.rowCount]
  split
  · next hpos =>
      rcases hitem with ⟨n, rfl, hn⟩ | hitem
      · refine Or.inl ?_
        rw [h.index (le_refl 0) (by omega), h.index (by omega) (by omega)]
        simp [observer]
        omega
      · exact Or.inr fun s _ => hcount hitem s
  · next hpos =>
      rcases hitem with ⟨n, rfl, hn⟩ | hitem
      · omega
      · exact hcount hitem m

theorem announced_setSearchQuery {stableIds : List QString} {m : ChannelListModel}
    (h : Keyed stableIds m) (searchQuery : QString) (item : Item) :
    Announced text stableIds m (.setSearchQuery searchQuery) item := by
  have hbind : ((setSearchQuery text searchQuery).run m).Announces (Keyed stableIds) (fun sig =>
        (observer text).names sig item = true) →
      ((exec text (.setSearchQuery searchQuery)).run m).Announces (Keyed stableIds) fun sig =>
        (observer text).names sig item = true := fun ha => ha.bind _
  refine Or.imp_right hbind ?_
  rw [setSearchQuery_run]
  split
  · next hsame => exact Or.inl (by rw [next, ← hsame]; rfl)
  cases item with
  | searchQuery => exact Or.inr (Or.inl rfl)
  | rowCount => exact Or.inl rfl
  | selectedChannelId => exact Or.inl rfl
  | selectedChannelName => exact Or.inl rfl
  | selectedChannelKind => exact Or.inl rfl
  | matchingChannelCount =>
      by_cases hcount : m.matchingChannelCount text
          = (m.search (text.trimmed searchQuery)).matchingChannelCount text
      · exact Or.inl (congrArg QVariant.int hcount.symm)
      · exact Or.inr (Or.inr fun s hs =>
          announces_afterQueryChanged text hs (Or.inr ⟨rfl, hcount⟩))
  | cell n role =>
      by_cases hchanged : role = .matchesSearch ∧ n < stableIds.length
      · exact Or.inr (Or.inr fun s hs =>
          announces_afterQueryChanged text hs (Or.inl ⟨n, by rw [hchanged.1], hchanged.2⟩))
      · refine Or.inl ?_
        simp only [observer, data_index, next]
        rw [show (m.search (text.trimmed searchQuery)).channels = m.channels from rfl]
        cases hn : m.channels[n]? with
        | none => rfl
        | some channel =>
            have hlt : n < stableIds.length := by
              rw [← h.rows, List.length_map]
              exact (List.getElem?_eq_some_iff.mp hn).1
            cases role with
            | matchesSearch => exact absurd ⟨rfl, hlt⟩ hchanged
            | _ => rfl

/-- **Every call announces what it changes.** -/
theorem announced_exec {stableIds : List QString} {m : ChannelListModel} (h : Keyed stableIds m)
    (op : Op) (item : Item) : Announced text stableIds m op item := by
  cases op with
  | setSearchQuery searchQuery => exact announced_setSearchQuery text h searchQuery item
  | selectChannel stableId => exact announced_selectChannel text h stableId item
  | setUnreadCount stableId unreadCount =>
      refine announced_setField text h stableId _ ?_ ?_ ?_ (fun _ _ role hrole => ?_) item
      on_goal 4 => cases role <;> first | rfl | exact absurd rfl hrole
      all_goals exact fun _ => rfl
  | setMuted stableId muted =>
      refine announced_setField text h stableId _ ?_ ?_ ?_ (fun _ _ role hrole => ?_) item
      on_goal 4 => cases role <;> first | rfl | exact absurd rfl hrole
      all_goals exact fun _ => rfl

/-! ## Nested calls -/

theorem keyed_withField {stableIds : List QString} {m : ChannelListModel} (h : Keyed stableIds m)
    (stableId : QString) (isSet : Channel → Bool) {change : Channel → Channel}
    (hid : ∀ channel, (change channel).stableId = channel.stableId) :
    Keyed stableIds (m.withField stableId isSet change) := by
  unfold withField
  split
  · exact h
  · exact ⟨(map_modifyRow m _ hid).trans h.rows, h.nodup⟩

theorem keyed_next {stableIds : List QString} {m : ChannelListModel} (h : Keyed stableIds m)
    (op : Op) : Keyed stableIds (m.next text op) := by
  cases op with
  | setSearchQuery searchQuery => exact ⟨h.rows, h.nodup⟩
  | selectChannel stableId =>
      simp only [next]
      split
      · exact h
      · exact ⟨h.rows, h.nodup⟩
  | setUnreadCount stableId unreadCount => exact keyed_withField h stableId _ fun _ => rfl
  | setMuted stableId muted => exact keyed_withField h stableId _ fun _ => rfl

theorem keyed_sequence {stableIds : List QString} {m : ChannelListModel} (h : Keyed stableIds m)
    (ops : List Op) : Keyed stableIds (sequence (exec text) m ops) :=
  sequence_invariant (fun m op hm =>
    (exec_passive text m op).quiet_state ▸ keyed_next text hm op) h ops

/-- **The channel model is safe under re-entrancy.** From every model built and used in any way,
    nested calls leave the state of the same calls in the order in which they were entered, and an
    observer connected among the handlers has an exact copy when the outermost call has returned. -/
theorem nested_calls (channels : List Channel) (earlier : List Op) (mvs : List (Move Op)) :
    let m := sequence (exec text) (construct channels) earlier
    (∀ c, (component text).run (Config.start m) mvs = some c →
      c.state = sequence (exec text) m (c.calls.map Call.op)) ∧
    ∀ c, ((component text).watched (observer text)).run
        (Config.start (m, (observer text).read m)) mvs = some c → c.stack = [] →
      c.state.2 = (observer text).read c.state.1 := by
  intro m
  have hm : Keyed ((construct channels).channels.map Channel.stableId) m :=
    keyed_sequence text (keyed_construct channels) earlier
  refine ⟨fun c h => (prompt text).state_eq_sequence h, ?_⟩
  intro c h hc
  refine (prompt text).view_eq_of_run
    (I := Keyed ((construct channels).channels.map Channel.stableId)) (fun m op hm => ?_)
    (fun m op item hm => ?_) hm h hc
  · rw [show ((component text).exec op).run m = (exec text op).run m from rfl, exec_now]
    exact keyed_next text hm op
  · rw [show ((component text).exec op).run m = (exec text op).run m from rfl, exec_now]
    exact announced_exec text hm op item

end BranchTalk.Desktop.ChannelListModel
