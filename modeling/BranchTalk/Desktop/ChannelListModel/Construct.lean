import BranchTalk.Desktop.ChannelListModel.Invariant
import BranchTalk.Desktop.WorkspaceListModel.Effects
import Mathlib.Data.List.Induction

set_option autoImplicit false

/-! # What the constructor keeps

The loop with its set of IDs keeps the first valid entry of each ID: one more entry at the end is
kept unless it is not valid or an entry kept before it has its ID. Adding the entries to a workspace
model one by one comes to the same, with a scan of the rows in place of the set. -/

namespace BranchTalk.Desktop.ChannelListModel

open Emission

/-! ## One more entry -/

/-- An entry at the end is looked at last, with the IDs of all rows kept before it. -/
theorem keep_concat (stableIds : List QString) (channels : List Channel) (entry : Channel) :
    keep stableIds (channels ++ [entry]) = keep stableIds channels ++
      if Valid entry ∧ entry.stableId ∉ stableIds ∧
          entry.stableId ∉ (keep stableIds channels).map Channel.stableId then
        [normalized entry]
      else [] := by
  induction channels generalizing stableIds with
  | nil =>
      rw [List.nil_append, keep_cons]
      simp [keep]
  | cons channel rest ih =>
      rw [List.cons_append, keep_cons, keep_cons]
      split
      · rw [ih (channel.stableId :: stableIds), List.cons_append, List.map_cons]
        -- the ID of the first channel is asked for in the set or among the rows
        have hid : (normalized channel).stableId = channel.stableId := rfl
        simp only [hid, List.mem_cons, not_or, and_assoc, and_left_comm]
      · exact ih stableIds

theorem construct_concat (channels : List Channel) (entry : Channel) :
    (construct (channels ++ [entry])).channels = (construct channels).channels ++
      if Valid entry ∧ ¬ (construct channels).Present entry.stableId then [normalized entry]
      else [] := by
  simp only [construct, keep_concat, present_iff_mem, List.not_mem_nil, not_false_eq_true, true_and]

/-- An ID has a row when a valid entry has it. -/
theorem present_construct_iff (channels : List Channel) (stableId : QString) :
    (construct channels).Present stableId ↔
      ∃ entry ∈ channels, Valid entry ∧ entry.stableId = stableId := by
  induction channels using List.reverseRecOn generalizing stableId with
  | nil => simp [construct, keep, Present]
  | append_singleton rest entry ih =>
      have hlast : (∃ e ∈ rest ++ [entry], Valid e ∧ e.stableId = stableId) ↔
          (construct rest).Present stableId ∨ Valid entry ∧ entry.stableId = stableId := by
        simp only [ih, List.mem_append, List.mem_singleton, or_and_right, exists_or, exists_eq_left]
      rw [hlast]
      by_cases hkept : Valid entry ∧ ¬ (construct rest).Present entry.stableId
      · rw [present_iff_mem, construct_concat, if_pos hkept, List.map_append, List.mem_append,
          ← present_iff_mem]
        simp [normalized, hkept.1, eq_comm]
      · rw [present_iff_mem, construct_concat, if_neg hkept, List.append_nil, ← present_iff_mem]
        refine (or_iff_left_of_imp ?_).symm
        rintro ⟨hvalid, rfl⟩
        exact not_and_not_right.mp hkept hvalid

/-! ## Kept positions -/

/-- The entry at this position is valid, and no valid entry before it has its ID. -/
def Kept (channels : List Channel) (i : ℕ) : Prop :=
  ∃ entry ∈ channels[i]?, Valid entry ∧
    ∀ earlier ∈ channels.take i, Valid earlier → earlier.stableId ≠ entry.stableId

instance (channels : List Channel) (i : ℕ) : Decidable (Kept channels i) :=
  inferInstanceAs (Decidable (∃ entry ∈ channels[i]?, _))

theorem kept_append_iff {channels : List Channel} {i : ℕ} (h : i < channels.length)
    (later : List Channel) : Kept (channels ++ later) i ↔ Kept channels i := by
  unfold Kept
  rw [List.getElem?_append_left h, List.take_append_of_le_length (by omega)]

theorem kept_last_iff (channels : List Channel) (entry : Channel) :
    Kept (channels ++ [entry]) channels.length ↔
      Valid entry ∧ ¬ (construct channels).Present entry.stableId := by
  unfold Kept
  rw [List.getElem?_concat_length, List.take_left, present_construct_iff]
  simp only [Option.mem_def, Option.some.injEq, exists_eq_left', not_exists, not_and, ne_eq]

theorem mem_take_of_getElem? {channels : List Channel} {i j : ℕ} (hj : j < i) {entry : Channel}
    (h : channels[j]? = some entry) : entry ∈ channels.take i := by
  refine List.mem_of_getElem? (i := j) ?_
  rw [List.getElem?_take_of_lt hj, h]

theorem exists_of_mem_take {channels : List Channel} {i : ℕ} {entry : Channel}
    (h : entry ∈ channels.take i) : ∃ j < i, channels[j]? = some entry := by
  obtain ⟨j, hj⟩ := List.getElem?_of_mem h
  rw [List.getElem?_take] at hj
  split at hj
  · next hlt => exact ⟨j, hlt, hj⟩
  · cases hj

/-- The ID of a valid entry is that of one kept there or before. -/
theorem exists_kept {channels : List Channel} {i : ℕ} {entry : Channel}
    (h : channels[i]? = some entry) (hvalid : Valid entry) :
    ∃ j ≤ i, Kept channels j ∧ ∃ first ∈ channels[j]?, first.stableId = entry.stableId := by
  induction i using Nat.strong_induction_on generalizing entry with
  | _ i ih =>
      by_cases hfirst : ∀ earlier ∈ channels.take i, Valid earlier →
          earlier.stableId ≠ entry.stableId
      · exact ⟨i, le_refl i, ⟨entry, h, hvalid, hfirst⟩, entry, h, rfl⟩
      · push Not at hfirst
        obtain ⟨earlier, hmem, hvalid', hid⟩ := hfirst
        obtain ⟨k, hk, hearlier⟩ := exists_of_mem_take hmem
        obtain ⟨j, hj, hkept, first, hentry, hid'⟩ := ih k hk hearlier hvalid'
        exact ⟨j, by omega, hkept, first, hentry, hid'.trans hid⟩

/-- Of the entries with one ID the first valid one is kept, so that an entry is kept when it is
    valid and no entry with its ID was kept before. -/
theorem kept_iff (channels : List Channel) (i : ℕ) :
    Kept channels i ↔ ∃ entry ∈ channels[i]?, Valid entry ∧
      ∀ j < i, Kept channels j → ∀ earlier ∈ channels[j]?, earlier.stableId ≠ entry.stableId := by
  constructor
  · rintro ⟨entry, hentry, hvalid, hfirst⟩
    refine ⟨entry, hentry, hvalid, ?_⟩
    rintro j hj ⟨earlier, hearlier, hvalid', -⟩ e he
    obtain rfl := Option.some.inj (hearlier.symm.trans he)
    exact hfirst earlier (mem_take_of_getElem? hj hearlier) hvalid'
  · rintro ⟨entry, hentry, hvalid, hnone⟩
    refine ⟨entry, hentry, hvalid, ?_⟩
    intro earlier hearlier hvalid' hid
    obtain ⟨k, hk, hk'⟩ := exists_of_mem_take hearlier
    obtain ⟨j, hj, hkept, first, hfirst, hid'⟩ := exists_kept hk' hvalid'
    exact hnone j (by omega) hkept first hfirst (hid'.trans hid)

/-- The rows are the entries in the kept positions, in order, with their counts clamped. -/
theorem construct_eq_kept (channels : List Channel) :
    (construct channels).channels =
      ((List.range channels.length).filter fun i => Kept channels i).filterMap fun i =>
        channels[i]?.map normalized := by
  induction channels using List.reverseRecOn with
  | nil => rfl
  | append_singleton rest entry ih =>
      have hbefore : ((List.range rest.length).filter fun i => Kept (rest ++ [entry]) i)
          = (List.range rest.length).filter fun i => Kept rest i :=
        List.filter_congr fun i hi => by
          rw [decide_eq_decide]
          exact kept_append_iff (List.mem_range.mp hi) [entry]
      have hrows : ((List.range rest.length).filter fun i => Kept rest i).filterMap
            (fun i => (rest ++ [entry])[i]?.map normalized)
          = ((List.range rest.length).filter fun i => Kept rest i).filterMap
            fun i => rest[i]?.map normalized :=
        List.filterMap_congr fun i hi => by
          rw [List.getElem?_append_left (List.mem_range.mp (List.mem_of_mem_filter hi))]
      rw [construct_concat, List.length_append, List.length_singleton, List.range_succ,
        List.filter_append, List.filterMap_append, hbefore, hrows, ih]
      congr 1
      by_cases hkept : Kept (rest ++ [entry]) rest.length
      · rw [if_pos ((kept_last_iff rest entry).mp hkept), List.filter_cons_of_pos (by simpa using hkept)]
        simp
      · rw [if_neg fun h => hkept ((kept_last_iff rest entry).mpr h),
          List.filter_cons_of_neg (by simpa using hkept)]
        rfl

/-! ## The kept rows again -/

/-- Rows that are valid, have distinct new IDs and counts from 0 on are all kept as they are. -/
theorem keep_eq_self {stableIds : List QString} {channels : List Channel}
    (hnodup : (channels.map Channel.stableId).Nodup)
    (hnew : ∀ channel ∈ channels, channel.stableId ∉ stableIds)
    (hvalid : ∀ channel ∈ channels, Valid channel)
    (hcount : ∀ channel ∈ channels, 0 ≤ channel.unreadCount) :
    keep stableIds channels = channels := by
  induction channels generalizing stableIds with
  | nil => rfl
  | cons channel rest ih =>
      rw [List.map_cons, List.nodup_cons] at hnodup
      rw [List.forall_mem_cons] at hnew hvalid hcount
      have hsame : normalized channel = channel := by
        rw [normalized, max_eq_right hcount.1]
      rw [keep_cons, if_pos ⟨hvalid.1, hnew.1⟩, hsame,
        ih hnodup.2 (fun c hc => ?_) hvalid.2 hcount.2]
      rw [List.mem_cons, not_or]
      refine ⟨?_, hnew.2 c hc⟩
      rintro heq
      exact hnodup.1 (List.mem_map.mpr ⟨c, hc, heq⟩)

theorem construct_construct (channels : List Channel) :
    construct (construct channels).channels = construct channels := by
  have hm := wf_construct QtText.ascii channels
  rw [construct, keep_eq_self hm.nodup (by simp) hm.valid hm.unreadCount_nonneg]
  rfl

/-! ## Adding workspaces instead -/

/-- The calls that add the entries as workspaces. -/
def adding (channels : List Channel) : List WorkspaceListModel.Op :=
  channels.map fun channel => .addWorkspace channel.stableId channel.name channel.unreadCount

theorem adding_concat (channels : List Channel) (entry : Channel) :
    sequence WorkspaceListModel.exec {} (adding (channels ++ [entry])) =
      (sequence WorkspaceListModel.exec {} (adding channels)).next
        (.addWorkspace entry.stableId entry.name entry.unreadCount) := by
  have hm := WorkspaceListModel.wf_sequence WorkspaceListModel.wf_initial (adding channels)
  rw [adding, List.map_append, List.map_cons, List.map_nil, sequence_concat]
  exact (WorkspaceListModel.exec_quiet hm _).1

/-- The set and the scan agree: adding the entries one by one keeps the rows that the constructor
    keeps. -/
theorem rows_construct_eq (channels : List Channel)
    (hkind : ∀ channel ∈ channels, channel.kind = .textChannel ∨ channel.kind = .voiceChannel) :
    (construct channels).channels.map (fun c => (c.stableId, c.name, c.unreadCount)) =
      (sequence WorkspaceListModel.exec {} (adding channels)).workspaces.map
        fun w => (w.stableId, w.name, w.unreadCount) := by
  induction channels using List.reverseRecOn with
  | nil => rfl
  | append_singleton rest entry ih =>
      simp only [List.forall_mem_append, List.forall_mem_singleton] at hkind
      specialize ih hkind.1
      rw [adding_concat, construct_concat]
      generalize sequence WorkspaceListModel.exec {} (adding rest) = m at ih
      have hpresent : (construct rest).Present entry.stableId ↔ m.Present entry.stableId := by
        have hids := congrArg (List.map Prod.fst) ih
        rw [List.map_map, List.map_map] at hids
        rw [present_iff_mem, WorkspaceListModel.present_iff_mem]
        exact iff_of_eq (congrArg (entry.stableId ∈ ·) hids)
      have haccepts : Valid entry ∧ ¬ (construct rest).Present entry.stableId ↔
          m.Accepts (.addWorkspace entry.stableId entry.name entry.unreadCount) := by
        rw [hpresent]
        constructor
        · rintro ⟨⟨hid, hname, -⟩, hnew⟩
          exact ⟨hid, hname, hnew⟩
        · rintro ⟨hid, hname, hnew⟩
          exact ⟨⟨hid, hname, hkind.2⟩, hnew⟩
      rw [WorkspaceListModel.next, List.map_append, ih]
      by_cases hkept : Valid entry ∧ ¬ (construct rest).Present entry.stableId
      · rw [if_pos hkept, if_pos (haccepts.mp hkept)]
        simp [WorkspaceListModel.after, WorkspaceListModel.append, normalized]
      · rw [if_neg hkept, if_neg fun h => hkept (haccepts.mpr h), List.map_nil, List.append_nil]

/-- **What the constructor keeps**: the entries in the kept positions, in order, with their counts
    clamped; an entry is kept when it is valid and no entry with its ID was kept before it. A model
    made from the kept rows has them all, and of valid kinds the rows are those of a workspace model
    to which the entries are added. -/
theorem construct_keeps (channels : List Channel) :
    (construct channels).channels =
      ((List.range channels.length).filter fun i => Kept channels i).filterMap
        (fun i => channels[i]?.map normalized) ∧
    (∀ i, Kept channels i ↔ ∃ entry ∈ channels[i]?, Valid entry ∧
      ∀ j < i, Kept channels j → ∀ earlier ∈ channels[j]?, earlier.stableId ≠ entry.stableId) ∧
    construct (construct channels).channels = construct channels ∧
    ((∀ channel ∈ channels, channel.kind = .textChannel ∨ channel.kind = .voiceChannel) →
      (construct channels).channels.map (fun c => (c.stableId, c.name, c.unreadCount)) =
        (sequence WorkspaceListModel.exec {} (adding channels)).workspaces.map
          fun w => (w.stableId, w.name, w.unreadCount)) :=
  ⟨construct_eq_kept channels, kept_iff channels, construct_construct channels,
    rows_construct_eq channels⟩

end BranchTalk.Desktop.ChannelListModel
