import BranchTalk.Desktop.ChannelListModel

set_option autoImplicit false

/-! # What the channel operations do

Every mutator written out as the emissions it passes through. All of them change the model before
their first signal only, so the component is prompt; and none of them changes which channels there
are, in which rows, or what they are called. -/

namespace BranchTalk.Desktop.ChannelListModel

open Emission

variable (text : QtText)

/-! ## The mutators, emission by emission -/

/-- The end of `setSearchQuery`, from its comparison of the two counts. -/
def finishSearch (previousMatchCount currentMatchCount : Int) (m : ChannelListModel) :
    Proc ChannelListModel Signal Unit :=
  if previousMatchCount ≠ currentMatchCount then
    .emit m .matchingChannelCountChanged fun m₁ => .done m₁ ()
  else .done m ()

/-- The rest of `setSearchQuery` after `searchQueryChanged`. -/
def afterQueryChanged (previousMatchCount currentMatchCount : Int) (m : ChannelListModel) :
    Proc ChannelListModel Signal Unit :=
  if m.rowCount > 0 then
    .emit m (.item (.dataChanged (m.index 0 0) (m.index (m.rowCount - 1) 0) [.matchesSearch]))
      (finishSearch previousMatchCount currentMatchCount)
  else finishSearch previousMatchCount currentMatchCount m

theorem setSearchQuery_run (searchQuery : QString) (m : ChannelListModel) :
    (setSearchQuery text searchQuery).run m =
      if m.searchQuery = text.trimmed searchQuery then .done m ()
      else
        let m' := m.search (text.trimmed searchQuery)
        .emit m' .searchQueryChanged
          (afterQueryChanged (m.matchingChannelCount text) (m'.matchingChannelCount text)) := by
  simp only [setSearchQuery, Method.run_bind, Method.run_get, Method.run_ite, Method.run_emit,
    Method.run_modify, Method.run_pure, Proc.bind_done, Proc.bind_emit]
  rfl

/-- The end of `selectChannel`, from the signal about the row selected. -/
def finishSelect (selectedRow : Int) (m : ChannelListModel) : Proc ChannelListModel Signal Bool :=
  .emit m (.item (.dataChanged (m.index selectedRow 0) (m.index selectedRow 0) [.selected]))
    fun m₁ => .emit m₁ .selectedChannelChanged fun m₂ => .done m₂ true

theorem selectChannel_run (stableId : QString) (m : ChannelListModel) :
    (selectChannel stableId).run m =
      if m.indexOfStableId stableId < 0 then .done m false
      else if m.selectedChannelId = stableId then .done m true
      else
        let previousRow := m.indexOfStableId m.selectedChannelId
        let m' := m.select stableId
        if previousRow ≥ 0 then
          .emit m' (.item (.dataChanged (m'.index previousRow 0) (m'.index previousRow 0)
            [.selected])) (finishSelect (m.indexOfStableId stableId))
        else finishSelect (m.indexOfStableId stableId) m' := by
  simp only [selectChannel, Method.run_bind, Method.run_get, Method.run_ite, Method.run_emit,
    Method.run_modify, Method.run_pure, Proc.bind_done, Proc.bind_emit]
  rfl

theorem setField_run (stableId : QString) (isSet : Channel → Bool) (change : Channel → Channel)
    (role : Role) (m : ChannelListModel) :
    (setField stableId isSet change role).run m =
      if m.indexOfStableId stableId < 0 then .done m false
      else if m.channels[(m.indexOfStableId stableId).toNat]?.any isSet then .done m true
      else
        let m' := m.modifyRow (m.indexOfStableId stableId) change
        let changed := m'.index (m.indexOfStableId stableId) 0
        .emit m' (.item (.dataChanged changed changed [role])) fun m₁ => .done m₁ true := by
  simp only [setField, Method.run_bind, Method.run_get, Method.run_ite, Method.run_emit,
    Method.run_modify, Method.run_pure, Proc.bind_done, Proc.bind_emit]

/-! ## The state a call leaves -/

/-- The state after `setField`. -/
def withField (m : ChannelListModel) (stableId : QString) (isSet : Channel → Bool)
    (change : Channel → Channel) : ChannelListModel :=
  if m.indexOfStableId stableId < 0 ∨ m.channels[(m.indexOfStableId stableId).toNat]?.any isSet then m
  else m.modifyRow (m.indexOfStableId stableId) change

/-- The state after a call, which is also the one its first signal is emitted in. -/
def next (m : ChannelListModel) : Op → ChannelListModel
  | .setSearchQuery searchQuery => m.search (text.trimmed searchQuery)
  | .selectChannel stableId => if m.indexOfStableId stableId < 0 then m else m.select stableId
  | .setUnreadCount stableId unreadCount =>
      m.withField stableId (fun channel => channel.unreadCount == max 0 unreadCount)
        fun channel => { channel with unreadCount := max 0 unreadCount }
  | .setMuted stableId muted =>
      m.withField stableId (fun channel => channel.muted == muted)
        fun channel => { channel with muted := muted }

/-- What a call returns: it is refused if it names no channel. -/
def answer (m : ChannelListModel) : Op → Bool
  | .setSearchQuery _ => true
  | .selectChannel stableId => decide (0 ≤ m.indexOfStableId stableId)
  | .setUnreadCount stableId _ => decide (0 ≤ m.indexOfStableId stableId)
  | .setMuted stableId _ => decide (0 ≤ m.indexOfStableId stableId)

theorem passive_finishSearch (previous current : Int) (m : ChannelListModel) :
    (finishSearch previous current m).Passive (fun signal => signal ≠ .searchQueryChanged) () m := by
  unfold finishSearch
  split
  · exact ⟨rfl, nofun, fun _ => ⟨rfl, rfl⟩⟩
  · exact ⟨rfl, rfl⟩

theorem passive_afterQueryChanged (previous current : Int) (m : ChannelListModel) :
    (afterQueryChanged previous current m).Passive
      (fun signal => signal ≠ .searchQueryChanged) () m := by
  unfold afterQueryChanged
  split
  · exact ⟨rfl, nofun, fun m₁ => passive_finishSearch previous current m₁⟩
  · exact passive_finishSearch previous current m

theorem passive_setSearchQuery (searchQuery : QString) (m : ChannelListModel) :
    ((setSearchQuery text searchQuery).run m).Passive (fun _ => True) ()
      (m.search (text.trimmed searchQuery)) := by
  rw [setSearchQuery_run]
  split
  · next hsame => exact ⟨by rw [← hsame]; rfl, rfl⟩
  · exact ⟨rfl, trivial, fun m₁ => (passive_afterQueryChanged _ _ m₁).mono fun _ _ => trivial⟩

theorem passive_finishSelect (row : Int) (m : ChannelListModel) :
    (finishSelect row m).Passive (fun _ => True) true m :=
  ⟨rfl, trivial, fun _ => ⟨rfl, trivial, fun _ => ⟨rfl, rfl⟩⟩⟩

theorem passive_setField (m : ChannelListModel) (stableId : QString) (isSet : Channel → Bool)
    (change : Channel → Channel) (role : Role) :
    ((setField stableId isSet change role).run m).Passive (fun _ => True)
      (decide (0 ≤ m.indexOfStableId stableId)) (m.withField stableId isSet change) := by
  rw [setField_run, withField]
  split
  · next hneg => exact ⟨(if_pos (Or.inl hneg)).symm, (decide_eq_false (not_le.mpr hneg)).symm⟩
  · next hpos =>
      rw [decide_eq_true (not_lt.mp hpos)]
      split
      · next hset => exact ⟨(if_pos (Or.inr hset)).symm, rfl⟩
      · next hset =>
          rw [if_neg (not_or.mpr ⟨hpos, hset⟩)]
          exact ⟨rfl, trivial, fun _ => ⟨rfl, rfl⟩⟩

theorem passive_selectChannel (m : ChannelListModel) (stableId : QString) :
    ((selectChannel stableId).run m).Passive (fun _ => True)
      (decide (0 ≤ m.indexOfStableId stableId))
      (if m.indexOfStableId stableId < 0 then m else m.select stableId) := by
  rw [selectChannel_run]
  split
  · next hneg => exact ⟨rfl, (decide_eq_false (not_le.mpr hneg)).symm⟩
  · next hpos =>
      rw [decide_eq_true (not_lt.mp hpos)]
      split
      · next hsame => exact ⟨by rw [← hsame]; rfl, rfl⟩
      · dsimp only
        split
        · exact ⟨rfl, trivial, fun m₁ => passive_finishSelect _ m₁⟩
        · exact passive_finishSelect _ _

/-- **Every call changes the model before its first signal only**, to the state `next`. -/
theorem exec_passive (m : ChannelListModel) (op : Op) :
    ((exec text op).run m).Passive (fun _ => True) (m.answer op) (m.next text op) := by
  cases op with
  | setSearchQuery searchQuery =>
      exact (passive_setSearchQuery text searchQuery m).bind fun _ => ⟨rfl, rfl⟩
  | selectChannel stableId => exact passive_selectChannel m stableId
  | setUnreadCount stableId unreadCount => exact passive_setField m stableId _ _ _
  | setMuted stableId muted => exact passive_setField m stableId _ _ _

theorem exec_now (m : ChannelListModel) (op : Op) : ((exec text op).run m).now = m.next text op :=
  (exec_passive text m op).now_eq

theorem prompt : (component text).Prompt := fun m op =>
  ⟨m.answer op, (exec_now text m op).symm ▸ exec_passive text m op⟩

end BranchTalk.Desktop.ChannelListModel
