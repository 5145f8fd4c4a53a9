import BranchTalk.Desktop.WorkspaceListModel.Effects

set_option autoImplicit false

/-! # Workspace operations called from handlers

A handler may call back while an operation waits at one of its emissions. `removeWorkspace` is the
operation that this can upset: it looks up its row before `rowsAboutToBeRemoved` and remembers
whether it removes the selected workspace, and it acts on both after handlers have run. A selection
made in between is cleared although its workspace is still there.

The results are over whole runs of nested calls: what the selection is when the outermost call has
returned, provided every removal goes on in a state that its two notes still describe. -/

namespace BranchTalk.Desktop.WorkspaceListModel

open Emission

/-- A run of nested workspace operations. -/
abbrev Session : Type := Config WorkspaceListModel Op Signal Bool

abbrev PendingCall : Type := Frame WorkspaceListModel Op Signal Bool

/-! ## What a run should keep -/

/-- The selection is empty or the ID of a row. -/
def SelectionSound (m : WorkspaceListModel) : Prop :=
  m.selectedWorkspaceId = [] ∨ m.Present m.selectedWorkspaceId

/-- The selection is the ID of the last `selectWorkspace` that answered `true`, unless a removal of
    that ID was in progress at that call or was entered after it. -/
def LastSelectKept (selected : QString) (calls : List (Call Op Bool)) : Prop :=
  ∀ (i : ℕ) (c : Call Op Bool) (stableId : QString),
    calls[i]? = some c → c.op = .selectWorkspace stableId → c.result = some true →
    .removeWorkspace stableId ∉ c.within →
    (∀ (j : ℕ) (d : Call Op Bool), i < j → calls[j]? = some d →
      d.op ≠ .removeWorkspace stableId ∧
      ∀ id, d.op = .selectWorkspace id → d.result ≠ some true) →
    selected = stableId

/-- What a run owes once its outermost call has returned. -/
def SelectionSurvives (c : Session) : Prop :=
  c.state.SelectionSound ∧ LastSelectKept c.state.selectedWorkspaceId c.calls

/-! ## Where operations wait -/

/-- Any signal but the one after which a removal has yet to clear the selection. -/
def NotRowsRemoved (sig : Signal) : Prop := ∀ first last, sig ≠ .item (.rowsRemoved first last)

/-- The emissions at which an accepted operation can wait, with the rest of its method. -/
inductive Waits (entered : WorkspaceListModel) :
    Op → Signal → (WorkspaceListModel → Proc WorkspaceListModel Signal Bool) → Prop where
  /-- `addWorkspace` before it appends the row. -/
  | inserting (stableId name : QString) (count row : Int) (wasEmpty : Bool) :
      Waits entered (.addWorkspace stableId name count) (.item (.rowsAboutToBeInserted row row))
        fun m => .emit (m.append ⟨stableId, name, max 0 count⟩) (.item (.rowsInserted row row))
          (finishRows wasEmpty)
  /-- `removeWorkspace` before it erases the row. -/
  | removing (stableId : QString) (row : Int) (becomesEmpty : Bool) :
      Waits entered (.removeWorkspace stableId) (.item (.rowsAboutToBeRemoved row row))
        fun m => .emit (m.removeAt row) (.item (.rowsRemoved row row))
          (afterRemoved (stableId == entered.selectedWorkspaceId) becomesEmpty)
  /-- `removeWorkspace` before it clears the selection, if it is to clear it. -/
  | removed (stableId : QString) (row : Int) (becomesEmpty : Bool) :
      Waits entered (.removeWorkspace stableId) (.item (.rowsRemoved row row))
        (afterRemoved (stableId == entered.selectedWorkspaceId) becomesEmpty)
  /-- Any operation that has only signals left to emit. -/
  | closing {op : Op} {sig : Signal} {k : WorkspaceListModel → Proc WorkspaceListModel Signal Bool}
      (hsig : NotRowsRemoved sig) (h : ∀ m, (k m).Passive NotRowsRemoved true m) :
      Waits entered op sig k

/-- What is left of an accepted operation: nothing but the answer `true`, or one of the waits. -/
def Going (entered : WorkspaceListModel) (op : Op) : Proc WorkspaceListModel Signal Bool → Prop
  | .done _ r => r = true
  | .emit _ sig k => Waits entered op sig k

theorem Going.of_passive {entered m : WorkspaceListModel} {op : Op}
    {p : Proc WorkspaceListModel Signal Bool} (h : p.Passive NotRowsRemoved true m) :
    Going entered op p := by
  cases p with
  | done s r => exact h.2
  | emit s sig k => exact .closing h.2.1 h.2.2

theorem passive_finishRows (emptyDiffers : Bool) (m : WorkspaceListModel) :
    (finishRows emptyDiffers m).Passive NotRowsRemoved true m := by
  cases emptyDiffers
  · exact ⟨rfl, rfl⟩
  · exact ⟨rfl, by simp [NotRowsRemoved], fun _ => ⟨rfl, rfl⟩⟩

theorem passive_finishSelect (row : Int) (m : WorkspaceListModel) :
    (finishSelect row m).Passive NotRowsRemoved true m :=
  ⟨rfl, by simp [NotRowsRemoved], fun _ => ⟨rfl, by simp [NotRowsRemoved], fun _ => ⟨rfl, rfl⟩⟩⟩

/-- An accepted operation waits at one of its emissions or is done. -/
theorem going_exec {m : WorkspaceListModel} {op : Op} (h : m.Accepts op) :
    Going m op ((exec op).run m) := by
  cases op with
  | setLoading loading =>
      simp only [exec, Method.run_bind, setLoading_run]
      split
      · exact rfl
      · exact .closing (by simp [NotRowsRemoved]) fun _ => ⟨rfl, rfl⟩
  | addWorkspace stableId name count =>
      obtain ⟨hid, hname, habs⟩ := h
      have hneg := (m.indexOfStableId_neg_iff stableId).mpr habs
      simp only [exec, addWorkspace_run]
      rw [if_neg (by simp [hid, hname]; omega)]
      exact .inserting stableId name count m.rowCount m.empty
  | removeWorkspace stableId =>
      simp only [exec, removeWorkspace_run, if_neg (not_indexOfStableId_neg h)]
      exact .removing stableId _ _
  | setUnreadCount stableId count =>
      simp only [exec, setUnreadCount_run, if_neg (not_indexOfStableId_neg h)]
      split
      · exact rfl
      · exact .closing (by simp [NotRowsRemoved]) fun _ => ⟨rfl, rfl⟩
  | selectWorkspace stableId =>
      simp only [exec, selectWorkspace_run, if_neg (not_indexOfStableId_neg h)]
      split
      · exact rfl
      · split
        · exact .closing (by simp [NotRowsRemoved]) fun m => passive_finishSelect _ m
        · exact Going.of_passive (passive_finishSelect _ _)

/-- A waiting operation that goes on waits again or is done, whatever state it finds. -/
theorem Waits.going {entered : WorkspaceListModel} {op : Op} {sig : Signal}
    {k : WorkspaceListModel → Proc WorkspaceListModel Signal Bool} (h : Waits entered op sig k)
    (m : WorkspaceListModel) : Going entered op (k m) := by
  cases h with
  | inserting stableId name count row wasEmpty =>
      exact .closing (by simp [NotRowsRemoved]) fun m => passive_finishRows wasEmpty m
  | removing stableId row becomesEmpty => exact .removed stableId row becomesEmpty
  | removed stableId row becomesEmpty =>
      unfold afterRemoved
      split
      · exact .closing (by simp [NotRowsRemoved]) fun m => passive_finishRows becomesEmpty m
      · exact Going.of_passive (passive_finishRows becomesEmpty m)
  | closing _ h => exact Going.of_passive (h m)

/-! ## What a call does when it is entered -/

/-- The selection as an accepted operation leaves it before its first emission. -/
def selectionOnEntry (m : WorkspaceListModel) : Op → QString
  | .selectWorkspace stableId => stableId
  | _ => m.selectedWorkspaceId

theorem map_stableId_storeUnreadCount (m : WorkspaceListModel) (row count : Int) :
    (m.storeUnreadCount row count).workspaces.map Workspace.stableId
      = m.workspaces.map Workspace.stableId := by
  refine List.ext_getElem? fun n => ?_
  simp only [storeUnreadCount, List.getElem?_map, List.getElem?_modify]
  cases m.workspaces[n]? with
  | none => rfl
  | some w => simp only [Option.map_some, Option.map_eq_map]; split <;> rfl

/-- What an accepted operation does before its first emission: it moves the selection, or nothing
    that a selection depends on. -/
theorem exec_now {m : WorkspaceListModel} {op : Op} (h : m.Accepts op) :
    ((exec op).run m).now.selectedWorkspaceId = m.selectionOnEntry op ∧
    ((exec op).run m).now.workspaces.map Workspace.stableId
      = m.workspaces.map Workspace.stableId := by
  cases op with
  | setLoading loading =>
      simp only [exec, Method.run_bind, setLoading_run]
      split <;> exact ⟨rfl, rfl⟩
  | addWorkspace stableId name count =>
      simp only [exec, addWorkspace_run]
      split <;> exact ⟨rfl, rfl⟩
  | removeWorkspace stableId =>
      simp only [exec, removeWorkspace_run]
      split <;> exact ⟨rfl, rfl⟩
  | setUnreadCount stableId count =>
      simp only [exec, setUnreadCount_run, if_neg (not_indexOfStableId_neg h)]
      split
      · exact ⟨rfl, rfl⟩
      · exact ⟨rfl, map_stableId_storeUnreadCount ..⟩
  | selectWorkspace stableId =>
      simp only [exec, selectWorkspace_run, if_neg (not_indexOfStableId_neg h)]
      split
      · next hsame => exact ⟨hsame, rfl⟩
      · split <;> exact ⟨rfl, rfl⟩

/-! ## The selections of a log -/

/-- `LastSelectKept` while calls are in progress: a waiting select counts as accepted, for only an
    accepted one waits. -/
def Latest (selected : QString) (calls : List (Call Op Bool)) : Prop :=
  ∀ (i : ℕ) (c : Call Op Bool) (stableId : QString),
    calls[i]? = some c → c.op = .selectWorkspace stableId → c.result ≠ some false →
    .removeWorkspace stableId ∉ c.within →
    (∀ (j : ℕ) (d : Call Op Bool), i < j → calls[j]? = some d →
      d.op ≠ .removeWorkspace stableId ∧
      ∀ id, d.op = .selectWorkspace id → d.result = some false) →
    selected = stableId

/-- Once every call has returned, the two agree. -/
theorem Latest.kept {selected : QString} {calls : List (Call Op Bool)} (h : Latest selected calls)
    (hdone : ∀ (i : ℕ) (c : Call Op Bool), calls[i]? = some c → ∃ r, c.result = some r) :
    LastSelectKept selected calls := by
  intro i c stableId hc hop hr hin hlater
  refine h i c stableId hc hop (by simp [hr]) hin fun j d hj hd => ?_
  obtain ⟨hremove, hselect⟩ := hlater j d hj hd
  refine ⟨hremove, ?_⟩
  intro id hid
  obtain ⟨r, hr⟩ := hdone j d hd
  cases r with
  | false => exact hr
  | true => exact absurd hr (hselect id hid)

/-- A new entry keeps `Latest` when the selection moves only for an accepted select, to its ID. -/
theorem Latest.concat {selected selected' : QString} {calls : List (Call Op Bool)}
    (h : Latest selected calls) (e : Call Op Bool)
    (hselect : ∀ id, e.op = .selectWorkspace id → e.result ≠ some false → selected' = id)
    (hother : (∀ id, e.op = .selectWorkspace id → e.result = some false) → selected' = selected) :
    Latest selected' (calls ++ [e]) := by
  intro i c stableId hc hop hr hin hlater
  rw [List.getElem?_append] at hc
  split at hc
  · next hi =>
      have hlast := (hlater calls.length e hi (by simp)).2
      rw [hother hlast]
      refine h i c stableId hc hop hr hin fun j d hj hd => hlater j d hj ?_
      rwa [List.getElem?_append_left (List.getElem?_eq_some_iff.mp hd).1]
  · rw [List.getElem?_singleton] at hc
    split at hc
    · obtain rfl := Option.some.inj hc
      exact hselect stableId hop hr
    · simp at hc

/-- A waiting call that returns `true` keeps `Latest`. -/
theorem Latest.finish {selected : QString} {calls : List (Call Op Bool)} (h : Latest selected calls)
    {i : ℕ} {c₀ : Call Op Bool} (hc₀ : calls[i]? = some c₀) (hwaits : c₀.result = none) :
    Latest selected (calls.modify i (Call.finish true)) := by
  intro n c stableId hc hop hr hin hlater
  obtain ⟨e, he, heop, hew, her⟩ := getElem?_modify_finish hc
  refine h n e stableId he (heop ▸ hop) ?_ (hew ▸ hin) fun j d hj hd => ?_
  · split at her
    · next hi =>
        rw [hi, he, Option.some.injEq] at hc₀
        simp [hc₀, hwaits]
    · exact her ▸ hr
  · have hd' : (calls.modify i (Call.finish true))[j]?
        = some (if i = j then d.finish true else d) := by
      rw [List.getElem?_modify, hd]
      rfl
    obtain ⟨hremove, hselect⟩ := hlater j _ hj hd'
    split at hremove
    · next hi =>
        refine ⟨hremove, ?_⟩
        intro id hid
        rw [if_pos hi] at hselect
        exact absurd (hselect id hid) (by simp [Call.finish])
    · next hi => exact ⟨hremove, by rwa [if_neg hi] at hselect⟩

/-- Clearing the selection keeps `Latest` when a removal of the selected ID is in progress. -/
theorem Latest.clear {selected : QString} {calls : List (Call Op Bool)} {waiting : List (ℕ × Op)}
    (h : Latest selected calls) (hlog : Logged waiting calls) {n : ℕ}
    (hn : (n, .removeWorkspace selected) ∈ waiting) : Latest [] calls := by
  intro i c stableId hc hop hr hin hlater
  obtain rfl := h i c stableId hc hop hr hin hlater
  obtain ⟨d, hd, hdop, -⟩ := hlog.unfinished _ hn
  rcases Nat.lt_trichotomy n i with hlt | rfl | hgt
  · exact absurd (hlog.within _ hn i c hlt hc) hin
  · rw [hc, Option.some.injEq] at hd
    rw [← hd, hop] at hdop
    exact absurd hdop (by simp)
  · exact absurd hdop (hlater n d hgt hd).1

/-! ## The invariant of a run -/

/-- The two notes of a waiting removal still hold: before it erases, its row is still the removed
    workspace's; before it is to clear the selection, no other selection has been made, and a
    selection it will not clear has a row. -/
def notesHold (m : WorkspaceListModel) (f : PendingCall) : Bool :=
  match f.op, f.signal with
  | .removeWorkspace stableId, .item (.rowsAboutToBeRemoved row _) =>
      m.workspaces[row.toNat]?.map Workspace.stableId == some stableId
  | .removeWorkspace stableId, .item (.rowsRemoved ..) =>
      if stableId = f.entered.selectedWorkspaceId then
        m.selectedWorkspaceId == stableId || m.selectedWorkspaceId.isEmpty
      else m.selectedWorkspaceId != stableId || decide (m.Present stableId)
  | _, _ => true

/-- The condition on the moves of a run: a removal goes on only while its notes hold. -/
def Undisturbed (c : Session) : Move Op → Prop
  | .call _ => True
  | .resume => (c.stack.head?.all fun f => notesHold c.state f) = true

instance (c : Session) : (mv : Move Op) → Decidable (Undisturbed c mv)
  | .call _ => isTrue trivial
  | .resume => inferInstanceAs (Decidable (_ = true))

/-- A removal of this ID that has erased its row and has not yet gone on. -/
def Removed (stableId : QString) (f : PendingCall) : Prop :=
  f.op = .removeWorkspace stableId ∧ ∃ first last, f.signal = .item (.rowsRemoved first last)

structure Coherent (c : Session) : Prop where
  logged : c.Logged
  waits : ∀ f ∈ c.stack, Waits f.entered f.op f.signal f.resume
  selected : c.state.SelectionSound ∨ ∃ f ∈ c.stack, Removed c.state.selectedWorkspaceId f
  latest : Latest c.state.selectedWorkspaceId c.calls

theorem coherent_start {m : WorkspaceListModel} (hm : m.SelectionSound) :
    Coherent (Config.start m) where
  logged := Config.logged_start m
  waits := by simp [Config.start]
  selected := Or.inl hm
  latest := by simp [Latest, Config.start]

theorem coherent_enter {c : Session} (hc : Coherent c) (op : Op) :
    Coherent (component.enter c op) := by
  have hlogged := component.logged_enter hc.logged op
  by_cases h : c.state.Accepts op
  · have hgoing := going_exec h
    obtain ⟨hselected, hrows⟩ := exec_now h
    have hpresent : ∀ id, c.state.Present id → ((exec op).run c.state).now.Present id := by
      intro id hid
      rwa [present_iff_mem, hrows, ← present_iff_mem]
    -- the selection is moved to a present row or stays, and rows only come
    have hsound : ∀ p, (exec op).run c.state = p → p.now.SelectionSound ∨
        ∃ f ∈ c.stack, Removed p.now.selectedWorkspaceId f := by
      rintro _ rfl
      cases op with
      | selectWorkspace stableId =>
          exact Or.inl (Or.inr (by rw [hselected]; exact hpresent _ h))
      | _ =>
          rw [SelectionSound, hselected]
          exact hc.selected.imp_left fun hs => hs.imp_right (hpresent _)
    have hlatest : ∀ result, result ≠ some false →
        Latest ((exec op).run c.state).now.selectedWorkspaceId
          (c.calls ++ [⟨op, c.stack.map Frame.op, result⟩]) := by
      intro result hr
      refine hc.latest.concat _ (fun id hid _ => ?_) fun hnot => ?_
      · obtain rfl : op = .selectWorkspace id := hid
        exact hselected
      · cases op with
        | selectWorkspace stableId => exact absurd (hnot stableId rfl) hr
        | _ => exact hselected
    cases hp : (exec op).run c.state with
    | done m r =>
        rw [component.enter_done hp] at hlogged ⊢
        rw [hp] at hgoing hlatest
        exact ⟨hlogged, hc.waits, hsound _ hp, hlatest _ (by simpa [Going] using hgoing)⟩
    | emit m sig k =>
        rw [component.enter_emit hp] at hlogged ⊢
        rw [hp] at hgoing hlatest
        refine ⟨hlogged, List.forall_mem_cons.mpr ⟨hgoing, hc.waits⟩, ?_, hlatest _ (by simp)⟩
        exact (hsound _ hp).imp_right fun ⟨f, hf, hr⟩ => ⟨f, List.mem_cons_of_mem _ hf, hr⟩
  · have hdone := exec_rejected h
    rw [component.enter_done hdone] at hlogged ⊢
    exact ⟨hlogged, hc.waits, hc.selected,
      hc.latest.concat _ (fun id _ hr => absurd rfl hr) fun _ => rfl⟩

/-- What a waiting operation leaves when it goes on, apart from the state it finds. -/
theorem coherent_settle {c : Session} (hc : Coherent c) {f : PendingCall} {below : List PendingCall}
    (hs : c.stack = f :: below)
    (hselected : (f.resume c.state).now.SelectionSound ∨
      ∃ g ∈ (c.leave f below).stack, Removed (f.resume c.state).now.selectedWorkspaceId g)
    (hlatest : Latest (f.resume c.state).now.selectedWorkspaceId c.calls) :
    Coherent (c.leave f below) := by
  have hlogged := hc.logged.leave hs
  have hwaits := hc.waits
  rw [hs, List.forall_mem_cons] at hwaits
  have hgoing := hwaits.1.going c.state
  unfold Config.leave at hlogged hselected ⊢
  cases hp : f.resume c.state with
  | done m r =>
      rw [hp] at hlogged hgoing hselected hlatest
      obtain rfl : r = true := hgoing
      obtain ⟨e, he, -, hr⟩ := hc.logged.unfinished f.entry
        (by rw [hs]; exact List.mem_cons_self ..)
      exact ⟨hlogged, hwaits.2, hselected, hlatest.finish he hr⟩
  | emit m sig k =>
      rw [hp] at hlogged hgoing hselected hlatest
      exact ⟨hlogged, List.forall_mem_cons.mpr ⟨hgoing, hwaits.2⟩, hselected, hlatest⟩

theorem present_removeAt {m : WorkspaceListModel} {row : Int} {w : Workspace} {id : QString}
    (hw : m.workspaces[row.toNat]? = some w) (hne : w.stableId ≠ id) (h : m.Present id) :
    (m.removeAt row).Present id := by
  obtain ⟨x, hx, rfl⟩ := h
  obtain ⟨n, hn⟩ := List.getElem?_of_mem hx
  refine ⟨x, List.mem_eraseIdx_iff_getElem?.mpr ⟨n, ?_, hn⟩, rfl⟩
  rintro rfl
  rw [hn, Option.some.injEq] at hw
  exact hne (congrArg Workspace.stableId hw.symm)

/-- Unless the innermost call is the removal that a dangling selection waits for, that removal is
    further below. -/
theorem Coherent.selected_below {c : Session} (hc : Coherent c) {f : PendingCall}
    {below : List PendingCall} (hs : c.stack = f :: below)
    (hother : NotRowsRemoved f.signal ∨ f.op ≠ .removeWorkspace c.state.selectedWorkspaceId) :
    c.state.SelectionSound ∨ ∃ g ∈ below, Removed c.state.selectedWorkspaceId g := by
  have hselected := hc.selected
  rw [hs] at hselected
  refine hselected.imp_right fun ⟨g, hg, hr⟩ => ?_
  rcases List.mem_cons.mp hg with rfl | hg
  · obtain ⟨hop, first, last, hsig⟩ := hr
    exact absurd hop (hother.resolve_left fun h => h first last hsig)
  · exact ⟨g, hg, hr⟩

/-- **A removal whose notes hold keeps the invariant** when it goes on, and so does every other
    operation in any state. -/
theorem coherent_leave {c : Session} (hc : Coherent c) {f : PendingCall} {below : List PendingCall}
    (hs : c.stack = f :: below) (hnotes : notesHold c.state f = true) : Coherent (c.leave f below) := by
  obtain ⟨call, op, entered, sig, k⟩ := f
  have hwaits : Waits entered op sig k :=
    hc.waits ⟨call, op, entered, sig, k⟩ (by rw [hs]; exact List.mem_cons_self ..)
  have hmem : ∀ {g}, g ∈ below → g ∈ (c.leave ⟨call, op, entered, sig, k⟩ below).stack :=
    fun hg => mem_settle_stack (k c.state) hg
  have hbelow := hc.selected_below hs
  have hpassive : (k c.state).now = c.state → NotRowsRemoved sig → Coherent
      (c.leave ⟨call, op, entered, sig, k⟩ below) := by
    intro hnow hsig
    refine coherent_settle hc hs ?_ ?_ <;> simp only [hnow]
    · exact (hbelow (Or.inl hsig)).imp_right fun ⟨g, hg, hr⟩ => ⟨g, hmem hg, hr⟩
    · exact hc.latest
  cases hwaits with
  | closing hsig h => exact hpassive (h c.state).now_eq hsig
  | inserting stableId name count row wasEmpty =>
      refine coherent_settle hc hs ?_ hc.latest
      rcases hbelow (Or.inl (by simp [NotRowsRemoved])) with hsound | ⟨g, hg, hr⟩
      · exact Or.inl (hsound.imp_right fun hp => present_append_iff.mpr (Or.inl hp))
      · exact Or.inr ⟨g, hmem hg, hr⟩
  | removing stableId row becomesEmpty =>
      obtain ⟨w, hw, rfl⟩ := Option.map_eq_some_iff.mp (beq_iff_eq.mp hnotes)
      refine coherent_settle hc hs ?_ hc.latest
      by_cases hsel : w.stableId = c.state.selectedWorkspaceId
      · exact Or.inr ⟨_, List.mem_cons_self .., congrArg Op.removeWorkspace hsel, row, row, rfl⟩
      · rcases hbelow (Or.inl (by simp [NotRowsRemoved])) with hsound | ⟨g, hg, hr⟩
        · exact Or.inl (hsound.imp_right fun hp => present_removeAt hw hsel hp)
        · exact Or.inr ⟨g, hmem hg, hr⟩
  | removed stableId row becomesEmpty =>
      by_cases hflag : stableId = entered.selectedWorkspaceId
      · have hnow : (afterRemoved (stableId == entered.selectedWorkspaceId) becomesEmpty c.state).now
            = c.state.clearSelection := by simp [afterRemoved, hflag, Proc.now]
        refine coherent_settle hc hs ?_ ?_ <;> simp only [hnow]
        · exact Or.inl (Or.inl rfl)
        · simp only [notesHold, if_pos hflag, Bool.or_eq_true, beq_iff_eq, List.isEmpty_iff] at hnotes
          rcases hnotes with hsel | hsel
          · refine hc.latest.clear hc.logged (n := call) ?_
            rw [hs, hsel]
            exact List.mem_cons_self ..
          · rw [clearSelection, ← hsel]
            exact hc.latest
      · have hnow : (afterRemoved (stableId == entered.selectedWorkspaceId) becomesEmpty c.state).now
            = c.state := by
          have hbeq : (stableId == entered.selectedWorkspaceId) = false := by simpa using hflag
          simp only [afterRemoved, hbeq, Bool.false_eq_true, if_false]
          exact (passive_finishRows becomesEmpty c.state).now_eq
        simp only [notesHold, if_neg hflag, Bool.or_eq_true, bne_iff_ne, decide_eq_true_eq]
          at hnotes
        refine coherent_settle hc hs ?_ ?_ <;> simp only [hnow]
        · by_cases hsel : c.state.selectedWorkspaceId = stableId
          · exact Or.inl (Or.inr (hsel ▸ hnotes.resolve_left (not_not.mpr hsel)))
          · rcases hbelow (Or.inr (by simpa using Ne.symm hsel)) with hsound | ⟨g, hg, hr⟩
            · exact Or.inl hsound
            · exact Or.inr ⟨g, hmem hg, hr⟩
        · exact hc.latest

/-! ## Whole runs -/

theorem coherent_run {c c' : Session} (hc : Coherent c) {mvs : List (Move Op)}
    (hmvs : component.EachStep Undisturbed c mvs) (h : component.run c mvs = some c') :
    Coherent c' :=
  component.run_invariant_of (fun _ op hc _ _ => coherent_enter hc op)
    (fun _ f below hc hP hs => coherent_leave hc hs (by simpa [Undisturbed, hs] using hP)) hc hmvs h

/-- Outside every call the invariant is what the run owes. -/
theorem Coherent.survives {c : Session} (hc : Coherent c) (hs : c.stack = []) :
    SelectionSurvives c := by
  have hselected := hc.selected
  have hlogged := hc.logged
  rw [Config.Logged, hs] at hlogged
  rw [hs] at hselected
  exact ⟨hselected.resolve_right (by simp), hc.latest.kept fun i e he => hlogged.finished he⟩

/-- **The selection survives nested calls** in every run from every reachable model, as long as each
    removal goes on only while its notes hold. -/
theorem selection_survives {before mvs : List (Move Op)} {b c : Session}
    (hbefore : component.run (Config.start {}) before = some b) (hb : b.stack = [])
    (hbeforeP : component.EachStep Undisturbed (Config.start {}) before)
    (hrun : component.run (Config.start b.state) mvs = some c) (hc : c.stack = [])
    (hrunP : component.EachStep Undisturbed (Config.start b.state) mvs) :
    SelectionSurvives c := by
  have hstart := coherent_run (coherent_start (Or.inl rfl)) hbeforeP hbefore
  exact (coherent_run (coherent_start (hstart.survives hb).1) hrunP hrun).survives hc

/-- Removing the selected first of two workspaces, with a handler of `rowsRemoved` that sets a count,
    is such a run. -/
theorem selection_survives_removal :
    SelectionSurvives ⟨⟨[⟨[66], [66], 5⟩], [], false⟩, [],
      [⟨.removeWorkspace [65], [], some true⟩,
        ⟨.setUnreadCount [66] 5, [.removeWorkspace [65]], some true⟩]⟩ :=
  @selection_survives
    [.call (.addWorkspace [65] [65] 0), .resume, .resume, .resume,
      .call (.addWorkspace [66] [66] 0), .resume, .resume,
      .call (.selectWorkspace [65]), .resume, .resume]
    [.call (.removeWorkspace [65]), .resume, .call (.setUnreadCount [66] 5), .resume,
      .resume, .resume]
    _ _ rfl rfl (by decide) rfl rfl (by decide)

/-- **A selection can be lost.** With two workspaces, the first one selected, a handler of the
    `rowsRemoved` that announces its removal selects the other; when the removal goes on it clears
    that selection. -/
theorem selection_lost :
    ∃ b c : Session,
      component.run (Config.start {})
        [.call (.addWorkspace [65] [65] 0), .resume, .resume, .resume,
          .call (.addWorkspace [66] [66] 0), .resume, .resume,
          .call (.selectWorkspace [65]), .resume, .resume] = some b ∧ b.stack = [] ∧
      component.run (Config.start b.state)
        [.call (.removeWorkspace [65]), .resume, .call (.selectWorkspace [66]), .resume, .resume,
          .resume, .resume] = some c ∧ c.stack = [] ∧
      ¬ SelectionSurvives c := by
  refine ⟨_, ⟨⟨[⟨[66], [66], 0⟩], [], false⟩, [],
    [⟨.removeWorkspace [65], [], some true⟩,
      ⟨.selectWorkspace [66], [.removeWorkspace [65]], some true⟩]⟩, rfl, rfl, rfl, rfl, ?_⟩
  rintro ⟨-, hlast⟩
  have hkept := hlast 1 ⟨.selectWorkspace [66], [.removeWorkspace [65]], some true⟩ [66] rfl rfl rfl
    (by decide) fun j d hj hd => by
      have hlt := (List.getElem?_eq_some_iff.mp hd).1
      simp only [List.length_cons, List.length_nil] at hlt
      omega
  exact absurd hkept (by decide)

end BranchTalk.Desktop.WorkspaceListModel
