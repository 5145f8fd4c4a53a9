import BranchTalk.Desktop.ChannelListModel.Invariant

set_option autoImplicit false

/-! # Narrowing the search

A query is trimmed before it is stored and folded when it is compared. Both keep "occurs in", so a query
that occurs in another one matches at least the same channels. -/

namespace BranchTalk.Desktop

/-- What the code relies on: `contains` compares folded texts, and folding leaves white space alone and
    makes none. -/
structure QtText.FoldsWith (text : QtText) (fold : QChar → QChar) : Prop where
  contains : ∀ s needle, text.contains s needle = decide (needle.map fold <:+: s.map fold)
  space : ∀ c, text.isSpace c = true → fold c = c
  other : ∀ c, text.isSpace c = false → text.isSpace (fold c) = false

theorem QtText.isSpace_ascii_iff (c : QChar) :
    QtText.ascii.isSpace c = true ↔ c.toNat = 0x20 ∨ 0x09 ≤ c.toNat ∧ c.toNat ≤ 0x0D := by
  simp [QtText.ascii, UInt16.le_iff_toNat_le, ← UInt16.toNat_inj]

theorem QtText.foldsWith_ascii : QtText.ascii.FoldsWith QtText.asciiFold where
  contains _ _ := rfl
  space c h := by
    rw [isSpace_ascii_iff] at h
    refine if_neg ?_
    simp only [UInt16.le_iff_toNat_le, UInt16.reduceToNat]
    omega
  other c h := by
    rw [← Bool.not_eq_true, isSpace_ascii_iff] at h ⊢
    unfold asciiFold
    split
    · next hupper =>
        simp only [UInt16.le_iff_toNat_le, UInt16.reduceToNat] at hupper
        rw [UInt16.toNat_add, show (0x20 : UInt16).toNat = 32 from rfl]
        omega
    · exact h

namespace ChannelListModel

open Emission

variable {text : QtText} {fold : QChar → QChar}

/-! ## Queries -/

theorem map_trimmed (h : text.FoldsWith fold) (query : QString) :
    (text.trimmed query).map fold = text.trimmed (query.map fold) := by
  refine (Trimming.trim_map ?_ query).symm
  intro c
  cases hc : text.isSpace c with
  | true => rw [h.space c hc, hc]
  | false => exact h.other c hc

/-- A query that occurs in another one, ignoring case, still does when both are trimmed. -/
theorem map_trimmed_infix (h : text.FoldsWith fold) {query longer : QString}
    (hquery : query.map fold <:+: longer.map fold) :
    (text.trimmed query).map fold <:+: (text.trimmed longer).map fold := by
  rw [map_trimmed h, map_trimmed h]
  exact Trimming.trim_infix hquery

/-- **Fewer characters match more**: a channel that matches the longer query matches the shorter. -/
theorem matchesSearch_mono (h : text.FoldsWith fold) {m : ChannelListModel} {query longer : QString}
    (hquery : query.map fold <:+: longer.map fold) {channel : Channel}
    (hmatch : (m.search longer).matchesSearch text channel = true) :
    (m.search query).matchesSearch text channel = true := by
  simp only [matchesSearch, search, h.contains, Bool.or_eq_true, List.isEmpty_iff,
    decide_eq_true_eq] at hmatch ⊢
  rcases hmatch with hempty | hmatch
  · rw [hempty, List.map_nil, List.infix_nil, List.map_eq_nil_iff] at hquery
    exact Or.inl hquery
  · exact Or.inr (hquery.trans hmatch)

theorem matchesSearch_congr (h : text.FoldsWith fold) (m : ChannelListModel) {query query' : QString}
    (hquery : query.map fold = query'.map fold) :
    (m.search query).matchesSearch text = (m.search query').matchesSearch text := by
  funext channel
  rw [Bool.eq_iff_iff]
  exact ⟨matchesSearch_mono h (hquery ▸ List.infix_rfl), matchesSearch_mono h (hquery ▸ List.infix_rfl)⟩

/-- The model after `setSearchQuery`. -/
def searched (text : QtText) (m : ChannelListModel) (query : QString) : ChannelListModel :=
  ((exec text (.setSearchQuery query)).run m).quiet.state

theorem searched_eq (text : QtText) (m : ChannelListModel) (query : QString) :
    searched text m query = m.search (text.trimmed query) :=
  exec_quiet m (.setSearchQuery query)

/-- The cell of a row that says whether it matches. -/
def matchesCell (text : QtText) (m : ChannelListModel) (row : ℕ) : QVariant :=
  m.data text (m.index row 0) .matchesSearch

theorem matchesCell_search (m : ChannelListModel) (query : QString) (row : ℕ) :
    matchesCell text (m.search query) row = (m.channels[row]?).elim .invalid fun channel =>
      .bool ((m.search query).matchesSearch text channel) :=
  data_index text (m.search query) row .matchesSearch

theorem matchesCell_mono (h : text.FoldsWith fold) (m : ChannelListModel) {query longer : QString}
    (hquery : query.map fold <:+: longer.map fold) {row : ℕ}
    (hmatch : matchesCell text (m.search longer) row = .bool true) :
    matchesCell text (m.search query) row = .bool true := by
  rw [matchesCell_search] at hmatch ⊢
  cases hrow : m.channels[row]? with
  | none => simp [hrow] at hmatch
  | some channel =>
      simp only [hrow, Option.elim_some, QVariant.bool.injEq] at hmatch ⊢
      exact matchesSearch_mono h hquery hmatch

theorem matchingChannelCount_mono (h : text.FoldsWith fold) (m : ChannelListModel)
    {query longer : QString} (hquery : query.map fold <:+: longer.map fold) :
    (m.search longer).matchingChannelCount text ≤ (m.search query).matchingChannelCount text := by
  refine Int.ofNat_le.mpr (List.countP_mono_left ?_)
  intro channel _
  exact matchesSearch_mono h hquery

/-- **Narrowing is monotone.** A query that occurs in a longer one, ignoring case, shows every channel
    the longer one shows, and counts at least as many; what is typed at either end, white space
    included, brings no channel back; and case and outer white space do not matter. -/
theorem narrowing_monotone (h : text.FoldsWith fold) (m : ChannelListModel) :
    (∀ query longer, query.map fold <:+: longer.map fold →
      (∀ row, matchesCell text (searched text m longer) row = .bool true →
        matchesCell text (searched text m query) row = .bool true) ∧
      (searched text m longer).matchingChannelCount text ≤
        (searched text m query).matchingChannelCount text) ∧
    (∀ before query after row,
      matchesCell text (searched text m (before ++ query ++ after)) row = .bool true →
        matchesCell text (searched text m query) row = .bool true) ∧
    ∀ query query', (text.trimmed query).map fold = (text.trimmed query').map fold →
      (∀ row, matchesCell text (searched text m query) row =
        matchesCell text (searched text m query') row) ∧
      (searched text m query).matchingChannelCount text =
        (searched text m query').matchingChannelCount text := by
  have hnarrow := fun {query longer : QString} (hquery : query.map fold <:+: longer.map fold) =>
    map_trimmed_infix h hquery
  simp only [searched_eq]
  refine ⟨?_, ?_, ?_⟩
  · intro query longer hquery
    exact ⟨fun row => matchesCell_mono h m (hnarrow hquery),
      matchingChannelCount_mono h m (hnarrow hquery)⟩
  · intro before query after row
    refine matchesCell_mono h m (hnarrow ?_)
    rw [List.map_append, List.map_append]
    exact List.infix_append ..
  · intro query query' heq
    have hsame := matchesSearch_congr h m heq
    refine ⟨?_, ?_⟩
    · intro row
      rw [matchesCell_search, matchesCell_search, hsame]
    · unfold matchingChannelCount
      rw [hsame]
      rfl

/-- The text channels the program starts with. -/
def textChannels : List Channel :=
  [{ stableId := qStringLiteral "channel-general", name := qStringLiteral "general", unreadCount := 3 },
    { stableId := qStringLiteral "channel-product", name := qStringLiteral "product" },
    { stableId := qStringLiteral "channel-support", name := qStringLiteral "support",
      unreadCount := 7, muted := true }]

/-- `general` is still shown when ` GENE ` is cut down to ` ge`. -/
theorem narrowing_monotone_general :
    matchesCell .ascii (searched .ascii (construct textChannels) (qStringLiteral " ge")) 0 =
      .bool true :=
  ((narrowing_monotone QtText.foldsWith_ascii (construct textChannels)).1 (qStringLiteral " ge")
    (qStringLiteral " GENE ") (by decide +kernel)).1 0 (by decide +kernel)

end ChannelListModel

end BranchTalk.Desktop
