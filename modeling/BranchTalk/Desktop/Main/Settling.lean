import BranchTalk.Desktop.Main

set_option autoImplicit false

/-! # The search field and the query settle

Field and query set each other: a text that is new to the field goes to the model, and a query that is
new to the model goes back to the field. `setSearchQuery` compares trimmed texts and the write-back
gives a trimmed one, so the second call of a chain finds nothing to do.

The chains are followed here with two counters, which do not change what they do. -/

namespace BranchTalk.Desktop.Main

open ChannelListModel (setSearchQuery)
open Emission

variable {text : QtText}

/-! ## Chains with counters -/

/-- The text of the field, and how often `setSearchQuery` was entered and `searchQueryChanged` emitted. -/
structure Chain where
  field : QString
  entered : ℕ := 0
  emitted : ℕ := 0
  deriving DecidableEq, Repr

/-- Call `setSearchQuery`; the binding of the field writes the query back on `searchQueryChanged`. -/
def enter (text : QtText)
    (writeBack : QString → ChannelListModel × Chain → Option (ChannelListModel × Chain))
    (searchQuery : QString) (panel : ChannelListModel × Chain) : Option (ChannelListModel × Chain) :=
  ((setSearchQuery text searchQuery).run panel.1).handled
    (fun signal panel =>
      if signal = .searchQueryChanged then
        writeBack panel.1.searchQuery (panel.1, { panel.2 with emitted := panel.2.emitted + 1 })
      else some panel)
    { panel.2 with entered := panel.2.entered + 1 }

/-- `setText` with the counters. -/
def setTextCounted (text : QtText) :
    ℕ → QString → ChannelListModel × Chain → Option (ChannelListModel × Chain)
  | 0, _, _ => none
  | depth + 1, new, panel =>
      if panel.2.field = new then some panel
      else enter text (setTextCounted text depth) new (panel.1, { panel.2 with field := new })

/-- **The counters only count**: without them the chain is that of `setText`. -/
theorem setTextCounted_field (text : QtText) (depth : ℕ) (new : QString) (m : ChannelListModel)
    (chain : Chain) :
    (setTextCounted text depth new (m, chain)).map (Prod.map id Chain.field) =
      setText text depth new (m, chain.field) := by
  induction depth generalizing new m chain with
  | zero => rfl
  | succ depth ih =>
      rw [setTextCounted, setText]
      split
      · rfl
      · refine Proc.handled_map (fun signal s t => ?_) _ _
        split
        · exact ih _ _ _
        · rfl

/-! ## One chain -/

/-- A call with a query that is there already, trimmed, ends at once. -/
theorem enter_same {m : ChannelListModel} {searchQuery : QString}
    (h : m.searchQuery = text.trimmed searchQuery)
    (writeBack : QString → ChannelListModel × Chain → Option (ChannelListModel × Chain))
    (chain : Chain) :
    enter text writeBack searchQuery (m, chain) =
      some (m, { chain with entered := chain.entered + 1 }) := by
  rw [enter, ChannelListModel.setSearchQuery_run, if_pos h]
  rfl

/-- A new query is stored, and written back while it is. -/
theorem enter_other {m : ChannelListModel} {searchQuery : QString}
    (h : m.searchQuery ≠ text.trimmed searchQuery)
    (writeBack : QString → ChannelListModel × Chain → Option (ChannelListModel × Chain))
    {chain chain' : Chain}
    (hback : writeBack (text.trimmed searchQuery) (m.search (text.trimmed searchQuery),
      { chain with entered := chain.entered + 1, emitted := chain.emitted + 1 }) =
        some (m.search (text.trimmed searchQuery), chain')) :
    enter text writeBack searchQuery (m, chain) =
      some (m.search (text.trimmed searchQuery), chain') := by
  rw [enter, ChannelListModel.setSearchQuery_run, if_neg h, Proc.handled, if_pos rfl]
  refine (congrArg (Option.bind · _) hback).trans ?_
  refine (ChannelListModel.passive_afterQueryChanged _ _ _).handled_eq ?_ _
  intro signal hsignal now
  exact if_neg hsignal

/-- **The write-back finds the query it was made from**: it changes the field at most, and the call
    that this makes ends at once. -/
theorem setTextCounted_back (text : QtText) (depth : ℕ) (query : QString) (m : ChannelListModel)
    (chain : Chain) :
    setTextCounted text (depth + 1) (text.trimmed query) (m.search (text.trimmed query), chain) =
      some (m.search (text.trimmed query),
        ⟨text.trimmed query,
          if chain.field = text.trimmed query then chain.entered else chain.entered + 1,
          chain.emitted⟩) := by
  rw [setTextCounted]
  split
  · next hsame => rw [← hsame]
  · exact enter_same (text.trimmed_trimmed query).symm _ _

/-- What a call of `setSearchQuery` comes to, with everything it sets off. -/
theorem enter_eq (text : QtText) (depth : ℕ) (query : QString) (m : ChannelListModel)
    (chain : Chain) :
    enter text (setTextCounted text (depth + 1)) query (m, chain) =
      some (if m.searchQuery = text.trimmed query then
          (m, { chain with entered := chain.entered + 1 })
        else (m.search (text.trimmed query),
          ⟨text.trimmed query,
            if chain.field = text.trimmed query then chain.entered + 1 else chain.entered + 2,
            chain.emitted + 1⟩)) := by
  split
  · next hsame => exact enter_same hsame _ _
  · next hother => exact enter_other hother _ (setTextCounted_back text depth query m _)

/-- What giving the field a text comes to. -/
theorem setTextCounted_eq (text : QtText) (depth : ℕ) (new : QString) (m : ChannelListModel)
    (chain : Chain) :
    setTextCounted text (depth + 2) new (m, chain) =
      some (if chain.field = new then (m, chain)
        else if m.searchQuery = text.trimmed new then (m, ⟨new, chain.entered + 1, chain.emitted⟩)
        else (m.search (text.trimmed new),
          ⟨text.trimmed new,
            if new = text.trimmed new then chain.entered + 1 else chain.entered + 2,
            chain.emitted + 1⟩)) := by
  rw [setTextCounted, enter_eq]
  split <;> rfl

/-- **Changes within changes end at once**: the write-back finds the query it was made from. -/
theorem setText_eq (text : QtText) (depth : ℕ) (new : QString) (m : ChannelListModel)
    (old : QString) :
    setText text (depth + 2) new (m, old) =
      some (if old = new then (m, old)
        else if m.searchQuery = text.trimmed new then (m, new)
        else (m.search (text.trimmed new), text.trimmed new)) := by
  have hfield := setTextCounted_field text (depth + 2) new m ⟨old, 0, 0⟩
  rw [setTextCounted_eq] at hfield
  rw [← hfield]
  split
  · rfl
  · split <;> rfl

/-! ## Events -/

/-- Something from outside: the user gives the field a text, or the program sets the query. -/
inductive Event where
  | edit (new : QString)
  | setSearchQuery (searchQuery : QString)
  deriving DecidableEq, Repr

/-- The chain that an event sets off. -/
def chainOf (text : QtText) (depth : ℕ) (panel : ChannelListModel × QString) :
    Event → Option (ChannelListModel × Chain)
  | .edit new => setTextCounted text depth new (panel.1, { field := panel.2 })
  | .setSearchQuery searchQuery =>
      enter text (setTextCounted text depth) searchQuery (panel.1, { field := panel.2 })

/-- The model and the field after some events, from an empty field and an empty query. -/
def session (text : QtText) (depth : ℕ) (channelModel : ChannelListModel) :
    List Event → Option (ChannelListModel × QString) :=
  List.foldl (fun panel event => panel.bind fun panel =>
    (chainOf text depth panel event).map (Prod.map id Chain.field))
    (some (channelModel.search [], []))

/-- What a chain is to end with: it came to few calls, and field and query agree up to white space. -/
structure Settled (text : QtText) (panel : ChannelListModel × Chain) : Prop where
  entered : panel.2.entered ≤ 2
  emitted : panel.2.emitted ≤ 1
  agree : text.trimmed panel.2.field = panel.1.searchQuery

theorem settled_edit {m : ChannelListModel} {field : QString}
    (h : text.trimmed field = m.searchQuery) (new : QString) :
    ∃ panel, (∀ depth, chainOf text (depth + 2) (m, field) (.edit new) = some panel) ∧
      Settled text panel := by
  refine ⟨_, fun depth => setTextCounted_eq text depth new m ⟨field, 0, 0⟩, ?_⟩
  split
  · exact ⟨Nat.zero_le 2, Nat.zero_le 1, h⟩
  · split
    · next hsame => exact ⟨Nat.le_succ 1, Nat.zero_le 1, hsame.symm⟩
    · refine ⟨?_, le_refl 1, text.trimmed_trimmed new⟩
      dsimp only
      split <;> decide

theorem settled_setSearchQuery {m : ChannelListModel} {field : QString}
    (h : text.trimmed field = m.searchQuery) (searchQuery : QString) :
    ∃ panel, (∀ depth, chainOf text (depth + 2) (m, field) (.setSearchQuery searchQuery) =
      some panel) ∧ Settled text panel := by
  refine ⟨_, fun depth => enter_eq text (depth + 1) searchQuery m ⟨field, 0, 0⟩, ?_⟩
  split
  · exact ⟨Nat.le_succ 1, Nat.zero_le 1, h⟩
  · refine ⟨?_, le_refl 1, text.trimmed_trimmed searchQuery⟩
    dsimp only
    split <;> decide

/-- **One event settles** if field and query agree before it, and the nesting it needs is two deep. -/
theorem settled_event {m : ChannelListModel} {field : QString}
    (h : text.trimmed field = m.searchQuery) (event : Event) :
    ∃ panel, (∀ depth, chainOf text (depth + 2) (m, field) event = some panel) ∧
      Settled text panel := by
  cases event with
  | edit new => exact settled_edit h new
  | setSearchQuery searchQuery => exact settled_setSearchQuery h searchQuery

theorem session_concat (text : QtText) (depth : ℕ) (channelModel : ChannelListModel)
    (events : List Event) (event : Event) :
    session text depth channelModel (events ++ [event]) =
      (session text depth channelModel events).bind fun panel =>
        (chainOf text depth panel event).map (Prod.map id Chain.field) :=
  List.foldl_concat ..

/-- Field and query agree after every session. -/
theorem session_agrees (text : QtText) (channelModel : ChannelListModel) (events : List Event) :
    ∃ m field, (∀ depth, session text (depth + 2) channelModel events = some (m, field)) ∧
      text.trimmed field = m.searchQuery := by
  induction events using List.reverseRecOn with
  | nil => exact ⟨channelModel.search [], [], fun _ => rfl, rfl⟩
  | append_singleton events event ih =>
      obtain ⟨m, field, hsession, hagree⟩ := ih
      obtain ⟨panel, hchain, hsettled⟩ := settled_event hagree event
      refine ⟨panel.1, panel.2.field, fun depth => ?_, hsettled.agree⟩
      rw [session_concat, hsession, Option.bind_some, hchain]
      rfl

/-- **The binding always settles.** After every session of edits and calls, whatever comes next sets
    off a chain that ends by itself, with `setSearchQuery` entered twice and `searchQueryChanged`
    emitted once at most, and field and query agree then. -/
theorem always_settles (text : QtText) (channelModel : ChannelListModel) (events : List Event)
    (event : Event) :
    ∃ m field panel,
      (∀ depth, session text (depth + 2) channelModel events = some (m, field)) ∧
      (∀ depth, chainOf text (depth + 2) (m, field) event = some panel) ∧
      Settled text panel := by
  obtain ⟨m, field, hsession, hagree⟩ := session_agrees text channelModel events
  obtain ⟨panel, hchain, hsettled⟩ := settled_event hagree event
  exact ⟨m, field, panel, hsession, hchain, hsettled⟩

end BranchTalk.Desktop.Main
