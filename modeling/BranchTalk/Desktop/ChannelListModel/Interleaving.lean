import BranchTalk.Desktop.ChannelListModel.Invariant
import BranchTalk.Emission.Independent

set_option autoImplicit false

/-! # The order of independent updates

Every call of the channel model sets one thing: the query, the selection, the unread count of a channel
or its mute flag. The rows it looks its channel up in keep their IDs, so a call never depends on what
the calls to other things have done. -/

namespace BranchTalk.Desktop.ChannelListModel

open Emission

variable {text : QtText}

/-! ## What a call is addressed to -/

inductive Target where
  | query
  | selection
  | unreadCount (stableId : QString)
  | muted (stableId : QString)
  deriving DecidableEq, Repr

/-- What a call sets. A count or a flag of no channel is nothing to set. -/
def target (m : ChannelListModel) : Op → Option Target
  | .setSearchQuery _ => some .query
  | .selectChannel _ => some .selection
  | .setUnreadCount stableId _ => if m.Present stableId then some (.unreadCount stableId) else none
  | .setMuted stableId _ => if m.Present stableId then some (.muted stableId) else none

/-- The calls that the user makes; the others come in from elsewhere. -/
def Op.byUser : Op → Bool
  | .setSearchQuery _ => true
  | .selectChannel _ => true
  | _ => false

def Target.byUser : Target → Bool
  | .query => true
  | .selection => true
  | _ => false

theorem byUser_of_target {m : ChannelListModel} {op : Op} {t : Target} (h : m.target op = some t) :
    op.byUser = t.byUser := by
  cases op with
  | setSearchQuery searchQuery =>
      obtain rfl := Option.some.inj h
      rfl
  | selectChannel stableId =>
      obtain rfl := Option.some.inj h
      rfl
  | setUnreadCount stableId unreadCount =>
      obtain ⟨-, ht⟩ := Option.ite_none_right_eq_some.mp h
      rw [← Option.some.inj ht]
      rfl
  | setMuted stableId muted =>
      obtain ⟨-, ht⟩ := Option.ite_none_right_eq_some.mp h
      rw [← Option.some.inj ht]
      rfl

/-! ## The parts of a model -/

/-- The values of a target. -/
abbrev Target.Value : Target → Type
  | .query => QString
  | .selection => QString
  | .unreadCount _ => List (Option Int)
  | .muted _ => List (Option Bool)

/-- A field of the channels with an ID, row by row. -/
def column {γ : Type} (m : ChannelListModel) (stableId : QString) (field : Channel → γ) :
    List (Option γ) :=
  m.channels.map fun channel => if channel.stableId = stableId then some (field channel) else none

/-- What a target holds. -/
def part : (t : Target) → ChannelListModel → t.Value
  | .query, m => m.searchQuery
  | .selection, m => m.selectedChannelId
  | .unreadCount stableId, m => m.column stableId Channel.unreadCount
  | .muted stableId, m => m.column stableId Channel.muted

/-- The same channels in the same rows. -/
def SameRows (m m' : ChannelListModel) : Prop :=
  m'.channels.map Channel.identity = m.channels.map Channel.identity

theorem SameRows.indexOfStableId {m m' : ChannelListModel} (h : m.SameRows m') (stableId : QString) :
    m'.indexOfStableId stableId = m.indexOfStableId stableId := by
  unfold ChannelListModel.indexOfStableId
  rw [← KeyedRows.indexOf_map Channel.stableId, stableId_of_identity h, KeyedRows.indexOf_map]

theorem SameRows.present_iff {m m' : ChannelListModel} (h : m.SameRows m') (stableId : QString) :
    m'.Present stableId ↔ m.Present stableId := by
  rw [present_iff_mem, stableId_of_identity h, ← present_iff_mem]

/-! ## Changing a field -/

/-- A change leaves what it does not change of the channels with its ID. -/
theorem map_withField {γ : Type} (m : ChannelListModel) (stableId : QString)
    (isSet : Channel → Bool) {change : Channel → Channel} {g : Channel → γ}
    (h : ∀ channel ∈ m.channels, channel.stableId = stableId → g (change channel) = g channel) :
    (m.withField stableId isSet change).channels.map g = m.channels.map g := by
  unfold withField
  split
  · rfl
  next hno =>
  obtain ⟨row, hrow⟩ := Int.eq_ofNat_of_zero_le (not_lt.mp (not_or.mp hno).1)
  have hfirst : 0 ≤ KeyedRows.indexOf Channel.stableId stableId m.channels := by
    rw [← indexOfStableId, hrow]
    exact Int.natCast_nonneg row
  obtain ⟨found, hfound, hid⟩ := KeyedRows.getElem?_indexOf Channel.stableId hfirst
  rw [← indexOfStableId, hrow, Int.toNat_natCast] at hfound
  refine List.ext_getElem? fun n => ?_
  rw [List.getElem?_map, List.getElem?_map, modifyRow, List.getElem?_modify, hrow, Int.toNat_natCast]
  by_cases hn : row = n
  · subst hn
    simp [hfound, h found (List.mem_of_getElem? hfound) hid]
  · simp [hn]

/-- Setting a field to a value sets its column there, if there is such a channel. -/
theorem column_withField {γ : Type} (m : ChannelListModel) (stableId : QString)
    {isSet : Channel → Bool} {change : Channel → Channel} {field : Channel → γ} {value : γ}
    (hid : ∀ channel, (change channel).stableId = channel.stableId)
    (hset : ∀ channel, isSet channel = true → field channel = value)
    (hvalue : ∀ channel, field (change channel) = value) :
    (m.withField stableId isSet change).column stableId field =
      if m.Present stableId then
        (m.column stableId field).modify (m.indexOfStableId stableId).toNat fun _ => some value
      else m.column stableId field := by
  unfold withField
  by_cases hpresent : m.Present stableId
  · have h₀ := (m.indexOfStableId_nonneg_iff stableId).mpr hpresent
    obtain ⟨found, hfound, hkey⟩ := KeyedRows.getElem?_indexOf Channel.stableId h₀
    rw [← indexOfStableId] at hfound
    rw [if_pos hpresent]
    refine List.ext_getElem? fun n => ?_
    split
    · next hno =>
        have hfield : field found = value := by
          refine hset found ?_
          simpa [hfound] using hno.resolve_left (not_lt.mpr h₀)
        rw [column, List.getElem?_modify]
        by_cases hn : (m.indexOfStableId stableId).toNat = n
        · subst hn
          simp [hfound, hkey, hfield]
        · simp [hn]
    · rw [column, column, modifyRow, List.getElem?_map, List.getElem?_modify, List.getElem?_modify,
        List.getElem?_map]
      by_cases hn : (m.indexOfStableId stableId).toNat = n
      · subst hn
        simp [hfound, hid, hkey, hvalue]
      · simp [hn]
  · have hneg : m.indexOfStableId stableId < 0 :=
      not_le.mp fun h₀ => hpresent ((m.indexOfStableId_nonneg_iff stableId).mp h₀)
    rw [if_pos (Or.inl hneg), if_neg hpresent]

/-! ## The answers -/

theorem exec_result (m : ChannelListModel) (op : Op) :
    ((exec text op).run m).quiet.result = m.answer op :=
  (exec_passive text m op).quiet_result

theorem SameRows.answer_eq {m m' : ChannelListModel} (h : m.SameRows m') (op : Op) :
    m'.answer op = m.answer op := by
  cases op <;> simp only [answer, h.indexOfStableId]

theorem answer_of_target_none {m : ChannelListModel} {op : Op} (h : m.target op = none) :
    m.answer op = false := by
  have habsent : ∀ stableId, ¬ m.Present stableId → decide (0 ≤ m.indexOfStableId stableId) = false :=
    fun stableId hno => decide_eq_false ((m.indexOfStableId_nonneg_iff stableId).not.mpr hno)
  cases op with
  | setSearchQuery searchQuery => cases h
  | selectChannel stableId => cases h
  | setUnreadCount stableId unreadCount =>
      exact habsent stableId fun hpresent => by simp [target, hpresent] at h
  | setMuted stableId muted =>
      exact habsent stableId fun hpresent => by simp [target, hpresent] at h

/-! ## The parts are independent -/

theorem sameRows_next {m m' : ChannelListModel} (h : m.SameRows m') (op : Op) :
    m.SameRows (m'.next text op) := by
  refine Eq.trans ?_ h
  cases op with
  | setSearchQuery searchQuery => rfl
  | selectChannel stableId =>
      simp only [next]
      split <;> rfl
  | setUnreadCount stableId unreadCount => exact withField_identity m' stableId _ fun _ => rfl
  | setMuted stableId muted => exact withField_identity m' stableId _ fun _ => rfl

theorem SameRows.target_eq {m m' : ChannelListModel} (h : m.SameRows m') (op : Op) :
    m'.target op = m.target op := by
  cases op <;> simp only [target, h.present_iff]

/-- Setting a field leaves the columns of other channels and of other fields. -/
theorem column_withField_of_ne {γ : Type} (m : ChannelListModel) {stableId id : QString}
    (isSet : Channel → Bool) {change : Channel → Channel} {field : Channel → γ}
    (hid : ∀ channel, (change channel).stableId = channel.stableId)
    (h : (m.Present stableId → stableId ≠ id) ∨ ∀ channel, field (change channel) = field channel) :
    (m.withField stableId isSet change).column id field = m.column id field := by
  refine map_withField m stableId isSet fun channel hmem hchannel => ?_
  rw [hid, hchannel]
  rcases h with hother | hfield
  · rw [if_neg (hother ⟨channel, hmem, hchannel⟩), if_neg (hother ⟨channel, hmem, hchannel⟩)]
  · rw [hfield]

/-- A call leaves the parts it is not addressed to. -/
theorem part_next {m : ChannelListModel} {op : Op} {t : Target} (h : m.target op ≠ some t) :
    part t (m.next text op) = part t m := by
  cases op with
  | setSearchQuery searchQuery =>
      cases t with
      | query => exact absurd rfl h
      | _ => rfl
  | selectChannel stableId =>
      simp only [next]
      split
      · rfl
      · cases t with
        | selection => exact absurd rfl h
        | _ => rfl
  | setUnreadCount stableId unreadCount =>
      cases t with
      | query => exact (withField_kept m stableId _ _).1
      | selection => exact (withField_kept m stableId _ _).2
      | muted id => exact column_withField_of_ne m _ (fun _ => rfl) (Or.inr fun _ => rfl)
      | unreadCount id =>
          refine column_withField_of_ne m _ (fun _ => rfl) (Or.inl fun hpresent => ?_)
          rintro rfl
          exact h (if_pos hpresent)
  | setMuted stableId muted =>
      cases t with
      | query => exact (withField_kept m stableId _ _).1
      | selection => exact (withField_kept m stableId _ _).2
      | unreadCount id => exact column_withField_of_ne m _ (fun _ => rfl) (Or.inr fun _ => rfl)
      | muted id =>
          refine column_withField_of_ne m _ (fun _ => rfl) (Or.inl fun hpresent => ?_)
          rintro rfl
          exact h (if_pos hpresent)

/-- Setting a field comes to the same in models with the same rows and the same column. -/
theorem column_withField_congr {γ : Type} {m m' : ChannelListModel} (hrows : m.SameRows m')
    (stableId : QString) {isSet : Channel → Bool} {change : Channel → Channel}
    {field : Channel → γ} {value : γ}
    (hid : ∀ channel, (change channel).stableId = channel.stableId)
    (hset : ∀ channel, isSet channel = true → field channel = value)
    (hvalue : ∀ channel, field (change channel) = value)
    (hcolumn : m.column stableId field = m'.column stableId field) :
    (m.withField stableId isSet change).column stableId field =
      (m'.withField stableId isSet change).column stableId field := by
  rw [column_withField m stableId hid hset hvalue, column_withField m' stableId hid hset hvalue,
    hrows.indexOfStableId, hcolumn]
  simp only [hrows.present_iff]

/-- What a call makes of its part depends on that part alone. -/
theorem part_next_congr {m m' : ChannelListModel} (hrows : m.SameRows m') {op : Op} {t : Target}
    (h : m.target op = some t) (hpart : part t m = part t m') :
    part t (m.next text op) = part t (m'.next text op) := by
  cases op with
  | setSearchQuery searchQuery =>
      obtain rfl := Option.some.inj h
      rfl
  | selectChannel stableId =>
      obtain rfl := Option.some.inj h
      simp only [next, hrows.indexOfStableId]
      split
      · exact hpart
      · rfl
  | setUnreadCount stableId unreadCount =>
      obtain ⟨-, ht⟩ := Option.ite_none_right_eq_some.mp h
      obtain rfl := Option.some.inj ht
      have hset : ∀ channel : Channel, (channel.unreadCount == max 0 unreadCount) = true →
          channel.unreadCount = max 0 unreadCount := fun _ => beq_iff_eq.mp
      exact column_withField_congr hrows stableId (fun _ => rfl) hset (fun _ => rfl) hpart
  | setMuted stableId muted =>
      obtain ⟨-, ht⟩ := Option.ite_none_right_eq_some.mp h
      obtain rfl := Option.some.inj ht
      have hset : ∀ channel : Channel, (channel.muted == muted) = true → channel.muted = muted :=
        fun _ => beq_iff_eq.mp
      exact column_withField_congr hrows stableId (fun _ => rfl) hset (fun _ => rfl) hpart

theorem eq_of_identity {channel channel' : Channel} (hidentity : channel.identity = channel'.identity)
    (hcount : channel.unreadCount = channel'.unreadCount) (hmuted : channel.muted = channel'.muted) :
    channel = channel' := by
  cases channel
  cases channel'
  simp only [Channel.identity, Prod.mk.injEq] at hidentity
  obtain ⟨rfl, rfl, rfl⟩ := hidentity
  obtain rfl := hcount
  obtain rfl := hmuted
  rfl

/-- Models with the same rows that hold the same in every part are the same. -/
theorem eq_of_parts {m m' : ChannelListModel} (hrows : m.SameRows m')
    (hparts : ∀ t, part t m = part t m') : m = m' := by
  obtain ⟨channels, query, selected⟩ := m
  obtain ⟨channels', query', selected'⟩ := m'
  obtain rfl : query = query' := hparts .query
  obtain rfl : selected = selected' := hparts .selection
  refine congrArg (ChannelListModel.mk · query selected) (List.ext_getElem? fun n => ?_)
  have hrow := congrArg (·[n]?) hrows
  simp only [List.getElem?_map] at hrow
  cases hn : channels[n]? with
  | none =>
      rw [hn] at hrow
      simpa using hrow.symm
  | some channel =>
      rw [hn] at hrow
      obtain ⟨channel', hn', hidentity⟩ := Option.map_eq_some_iff.mp hrow
      have hcount := congrArg (·[n]?) (hparts (.unreadCount channel.stableId))
      have hmuted := congrArg (·[n]?) (hparts (.muted channel.stableId))
      have hid : channel'.stableId = channel.stableId := congrArg Prod.fst hidentity
      simp only [part, column, List.getElem?_map, hn, hn', Option.map_some, hid, if_true,
        Option.some.injEq] at hcount hmuted
      rw [hn', eq_of_identity hidentity.symm hcount hmuted]

/-- **The channel model is made up of its parts**: every call reads and changes one of them. -/
theorem parts (text : QtText) (m : ChannelListModel) :
    Parts (exec text) (SameRows m) m.target part where
  keeps m' op h := by
    rw [exec_quiet]
    exact sameRows_next h op
  frame m' op t h htarget := by
    rw [exec_quiet]
    exact part_next (h.target_eq op ▸ htarget)
  reads m₁ m₂ op t h₁ h₂ htarget hpart := by
    have hrows : m₁.SameRows m₂ := h₂.trans h₁.symm
    rw [exec_quiet, exec_quiet, exec_result, exec_result]
    exact ⟨part_next_congr hrows ((h₁.target_eq op).trans htarget) hpart,
      (hrows.answer_eq op).symm⟩
  whole m₁ m₂ h₁ h₂ hparts := eq_of_parts (h₂.trans h₁.symm) hparts

/-! ## Rearranged calls -/

/-- A call that is addressed to nothing is refused. -/
theorem refused_of_target_none (text : QtText) (m : ChannelListModel) (ops : List Op)
    {call : Op × Bool} (hcall : call ∈ transcript (exec text) m ops)
    (h : m.target call.1 = none) : call.2 = false := by
  obtain ⟨m', hrows, hresult⟩ :=
    exists_of_mem_transcript (parts text m).keeps (s := m) (I := SameRows m) rfl hcall
  rw [hresult, exec_result, hrows.answer_eq]
  exact answer_of_target_none h

/-- **The order of independent updates does not matter.** Two sequences with the same calls to each
    target, in the same order, end alike, and a call addressed to nothing is refused in both. So the
    calls of the user may be interleaved with the others in any way. -/
theorem order_of_updates (text : QtText) (m : ChannelListModel) :
    (∀ ops ops', (∀ t, callsTo m.target t ops = callsTo m.target t ops') →
      EndsAlike (exec text) m.target m ops ops') ∧
    (∀ ops call, call ∈ transcript (exec text) m ops → m.target call.1 = none → call.2 = false) ∧
    ∀ ops ops', ops.filter Op.byUser = ops'.filter Op.byUser →
      (ops.filter fun op => !op.byUser) = (ops'.filter fun op => !op.byUser) →
      EndsAlike (exec text) m.target m ops ops' := by
  have hm : m.SameRows m := rfl
  refine ⟨fun ops ops' h => (parts text m).endsAlike hm h, ?_, fun ops ops' huser hrest => ?_⟩
  · exact fun ops call => refused_of_target_none text m ops
  · exact (parts text m).endsAlike hm
      (callsTo_eq_of_interleaved (fun _ _ => byUser_of_target) huser hrest)

end BranchTalk.Desktop.ChannelListModel
