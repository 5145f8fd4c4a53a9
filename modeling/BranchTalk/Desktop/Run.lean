import BranchTalk.Desktop.Main.Shown
import BranchTalk.Desktop.WindowStateStore.Visible

set_option autoImplicit false

/-! # The desktop program from start to end

`run` of `apps/desktop/main.cpp`: what a process reads from the settings before it makes the window,
and what it writes when it quits. The settings outlive it, so what matters is a sequence of processes:
some of them test runs, some that fail, some that lose their window, and some that are ended from
outside, perhaps between two of the values that they save. -/

namespace BranchTalk.Desktop.Run

open Main (Window initialWindow)
open WindowStateStore

/-- What a process is given and what becomes of its window. -/
structure Session where
  /-- `QCoreApplication::arguments`. -/
  arguments : List QString := []
  /-- The available geometry of each screen. -/
  screens : List QRect := []
  /-- The engine makes the window. -/
  loads : Bool := true
  /-- The geometry of the window on `aboutToQuit`; `none` where there is no window then, or the
      process ends without that signal. -/
  closing : Option WindowState := none
  /-- The calls of `setValue` in its save that take effect; fewer than four if it is ended before. -/
  steps : ℕ := 4

/-- The arguments that make a test run. -/
def testArguments : List QString :=
  [qStringLiteral "--smoke-test", qStringLiteral "--theme-test", qStringLiteral "--layout-test",
    qStringLiteral "--navigation-test", qStringLiteral "--workspace-model-test",
    qStringLiteral "--channel-model-test"]

/-- `test_mode`. -/
def Session.testMode (session : Session) : Bool := testArguments.any session.arguments.contains

inductive Outcome where
  /-- `EXIT_FAILURE` before the event loop. -/
  | failure
  /-- The window of the event loop, with its position if one was given. -/
  | opened (position : Option (Int32 × Int32)) (window : Window)

variable (toInt : QVariant → Option Int32) (text : QtText)

/-- The window with the properties that were restored. -/
def withInitialProperties (restoredState : Option WindowState) (window : Window) : Outcome :=
  match restoredState with
  | none => .opened none window
  | some state =>
      .opened (some (state.x, state.y))
        { window with width := state.width.toInt, height := state.height.toInt }

/-- `run`: its window, and the settings it leaves. -/
def run (session : Session) (settings : QSettings) : Outcome × QSettings :=
  match initialWindow text with
  | none => (.failure, settings)
  | some window =>
      let restoredState :=
        if session.testMode then none else restore toInt settings session.screens
      if session.loads then
        (withInitialProperties restoredState window,
          if session.testMode then settings
          else session.closing.elim settings fun state => saveUntil session.steps state settings)
      else (.failure, settings)

/-- The settings after some processes, one after another. -/
def settingsAfter (settings : QSettings) (sessions : List Session) : QSettings :=
  sessions.foldl (fun settings session => (run toInt text session settings).2) settings

/-! ## What is there after some processes -/

/-- The state a process begins to save, if any. -/
def Session.saved (session : Session) : Option WindowState :=
  if session.testMode ∨ session.loads = false then none else session.closing

/-- The fields that the first calls of `setValue` write. -/
def written (steps : ℕ) : List Field := [Field.x, .y, .width, .height].take steps

/-- The state that a process writes a field of, if any. -/
def Session.writes (session : Session) (f : Field) : Option WindowState :=
  if f ∈ written session.steps then session.saved else none

/-- The state that a field is from: that of the last process that wrote it, or an earlier one. -/
def source (earlier : Option WindowState) (sessions : List Session) (f : Field) :
    Option WindowState :=
  (sessions.filterMap fun session => session.writes f).getLast?.or earlier

/-- All four fields are there, and these are their values. -/
def Found (earlier : Option WindowState) (sessions : List Session) (state : WindowState) : Prop :=
  ∀ f : Field, (source earlier sessions f).map f.get = some (f.get state)

variable {toInt text}

theorem initialWindow_isSome (text : QtText) : ∃ window, initialWindow text = some window := by
  rw [initialWindow, Main.initialModels_eq]
  exact ⟨_, rfl⟩

theorem run_settings (session : Session) (settings : QSettings) :
    (run toInt text session settings).2 =
      session.saved.elim settings fun state => saveUntil session.steps state settings := by
  obtain ⟨window, hwindow⟩ := initialWindow_isSome text
  simp only [run, hwindow, Session.saved]
  cases session.testMode <;> cases session.loads <;> rfl

theorem take_saveSteps (steps : ℕ) (state : WindowState) :
    (saveSteps state).take steps =
      (written steps).map fun f => (f.key, .int (f.get state).toInt) := by
  have hsteps : saveSteps state =
      [Field.x, .y, .width, .height].map fun f => (f.key, .int (f.get state).toInt) := rfl
  rw [hsteps, ← List.map_take, written]

/-- The fields written are new, the others as before. -/
theorem saveUntil_key (steps : ℕ) (state : WindowState) (settings : QSettings) (f : Field) :
    saveUntil steps state settings f.key =
      if f ∈ written steps then .int (f.get state).toInt else settings f.key := by
  rw [saveUntil, take_saveSteps]
  generalize written steps = fields
  induction fields generalizing settings with
  | nil => rfl
  | cons f' fields ih =>
      rw [List.map_cons, List.foldl_cons, ih]
      by_cases hmem : f ∈ fields
      · rw [if_pos hmem, if_pos (List.mem_cons_of_mem _ hmem)]
      · rw [if_neg hmem]
        by_cases hsame : f = f'
        · subst hsame
          rw [if_pos (List.mem_cons_self ..)]
          exact Function.update_self ..
        · rw [if_neg (by simp [hsame, hmem])]
          exact Function.update_of_ne (fun hkey => hsame (Field.key_injective hkey)) ..

/-- A save leaves what is not of the window. -/
theorem saveUntil_of_ne {key : QString} (h : ∀ f : Field, key ≠ f.key) (steps : ℕ)
    (state : WindowState) (settings : QSettings) :
    saveUntil steps state settings key = settings key := by
  rw [saveUntil, take_saveSteps]
  induction written steps generalizing settings with
  | nil => rfl
  | cons f fields ih =>
      rw [List.map_cons, List.foldl_cons, ih]
      exact Function.update_of_ne (h f) ..

theorem source_concat (earlier : Option WindowState) (sessions : List Session) (session : Session)
    (f : Field) :
    source earlier (sessions ++ [session]) f = (session.writes f).or (source earlier sessions f) := by
  rw [source, source, List.filterMap_append, List.getLast?_append, ← Option.or_assoc]
  cases hwrites : session.writes f with
  | none => simp [hwrites]
  | some state => simp [hwrites]

theorem settingsAfter_concat (settings : QSettings) (sessions : List Session) (session : Session) :
    settingsAfter toInt text settings (sessions ++ [session]) =
      (run toInt text session (settingsAfter toInt text settings sessions)).2 := by
  rw [settingsAfter, List.foldl_concat, settingsAfter]

/-- One more process. -/
theorem run_key (session : Session) (settings : QSettings) (f : Field) :
    (run toInt text session settings).2 f.key =
      (session.writes f).elim (settings f.key) fun state => .int (f.get state).toInt := by
  rw [run_settings, Session.writes]
  cases session.saved with
  | none => rw [ite_self]; rfl
  | some state =>
      rw [Option.elim_some, saveUntil_key]
      split <;> rfl

variable (toInt text) in
/-- **Each field is that of the last process that wrote it.** -/
theorem settingsAfter_key {settings : QSettings} {earlier : Option WindowState}
    (hsettings : Holds settings earlier) (sessions : List Session) (f : Field) :
    settingsAfter toInt text settings sessions f.key =
      (source earlier sessions f).elim .invalid fun state => .int (f.get state).toInt := by
  induction sessions using List.reverseRecOn with
  | nil => exact hsettings f
  | append_singleton sessions session ih =>
      rw [settingsAfter_concat, run_key, ih, source_concat]
      cases session.writes f <;> rfl

variable (toInt text) in
theorem settingsAfter_of_ne {key : QString} (h : ∀ f : Field, key ≠ f.key) (settings : QSettings)
    (sessions : List Session) : settingsAfter toInt text settings sessions key = settings key := by
  induction sessions using List.reverseRecOn with
  | nil => rfl
  | append_singleton sessions session ih =>
      rw [settingsAfter_concat, run_settings]
      cases session.saved with
      | none => exact ih
      | some state => exact (saveUntil_of_ne h ..).trans ih

/-- The last process to write anything leaves one whole state if it comes to the end of its save. -/
theorem source_of_last (earlier : Option WindowState) (before after : List Session) {last : Session}
    {state : WindowState} (hsaved : last.saved = some state) (hsteps : 4 ≤ last.steps)
    (hafter : ∀ other ∈ after, other.saved = none ∨ other.steps = 0) (f : Field) :
    source earlier (before ++ last :: after) f = some state := by
  have hall : f ∈ written last.steps := by
    rw [written, List.take_of_length_le hsteps]
    cases f <;> decide
  have hnone : ∀ other ∈ after, other.writes f = none := by
    intro other hother
    rcases hafter other hother with hsaved | hsteps
    · rw [Session.writes, hsaved, ite_self]
    · rw [Session.writes, hsteps]
      exact if_neg (List.not_mem_nil)
  have hlast : last.writes f = some state := by rw [Session.writes, if_pos hall, hsaved]
  rw [source, List.filterMap_append,
    List.filterMap_cons_some (f := fun session : Session => session.writes f) hlast,
    List.filterMap_eq_nil_iff.mpr hnone, List.getLast?_concat, Option.some_or]

variable (toInt text) in
/-- What is there then is what that save alone would have left. -/
theorem settingsAfter_of_last {settings : QSettings} {earlier : Option WindowState}
    (hsettings : Holds settings earlier) (before after : List Session) {last : Session}
    {state : WindowState} (hsaved : last.saved = some state) (hsteps : 4 ≤ last.steps)
    (hafter : ∀ other ∈ after, other.saved = none ∨ other.steps = 0) :
    settingsAfter toInt text settings (before ++ last :: after) = save state settings := by
  funext key
  by_cases hkey : ∃ f : Field, key = f.key
  · obtain ⟨f, rfl⟩ := hkey
    rw [settingsAfter_key toInt text hsettings,
      source_of_last earlier before after hsaved hsteps hafter, save_key, Option.elim_some]
  · have hne : ∀ f : Field, key ≠ f.key := fun f hf => hkey ⟨f, hf⟩
    rw [settingsAfter_of_ne toInt text hne, ← saveUntil_four, saveUntil_of_ne hne]

/-! ## What a process opens with -/

variable (toInt text) in
/-- What a process that makes its window opens. -/
theorem run_opened (session : Session) (settings : QSettings) (hloads : session.loads = true) :
    ∃ window, initialWindow text = some window ∧
      (run toInt text session settings).1 = withInitialProperties
        (if session.testMode then none else restore toInt settings session.screens) window := by
  obtain ⟨window, hwindow⟩ := initialWindow_isSome text
  refine ⟨window, hwindow, ?_⟩
  simp only [run, hwindow, hloads, if_true]

variable (text) in
/-- What is restored is what the processes left, if it fits the screens. -/
theorem restore_settingsAfter (htoInt : ConvertsInt toInt) {settings : QSettings}
    {earlier : Option WindowState} (hsettings : Holds settings earlier) (sessions : List Session)
    (screens : List QRect) (state : WindowState) :
    restore toInt (settingsAfter toInt text settings sessions) screens = some state ↔
      Found earlier sessions state ∧ Restorable screens state := by
  rw [restore_eq_some_iff]
  refine and_congr_left fun _ => forall_congr' fun f => ?_
  rw [settingsAfter_key toInt text hsettings]
  cases source earlier sessions f with
  | none => rw [Option.elim_none, htoInt.invalid, Option.map_none]
  | some state' => rw [Option.elim_some, htoInt.int, Option.map_some]

theorem Found.eq {earlier : Option WindowState} {sessions : List Session} {state state' : WindowState}
    (h : Found earlier sessions state) (h' : Found earlier sessions state') : state = state' :=
  eq_of_get fun f => Option.some.inj ((h f).symm.trans (h' f))

variable (text) in
/-- **The window comes back as it was left.** Whatever processes ran before, one after another, from
    settings without a window or with a saved one, and wherever they were ended:

    - under each key of the window is the value of the last process that came to write it, and nothing
      else has changed;
    - a test run neither reads nor writes the settings;
    - a process that makes its window and is no test run opens it with the position and the size that
      are there, exactly where these fit the screens, and with the default ones otherwise;
    - if the last process that wrote anything came to the end of its save, the settings are those that
      this save alone leaves, and the position and the size are those of its window. -/
theorem reopened (htoInt : ConvertsInt toInt) {settings : QSettings} {earlier : Option WindowState}
    (hsettings : Holds settings earlier) (sessions : List Session) (session : Session) :
    (∀ f : Field, settingsAfter toInt text settings sessions f.key =
      (source earlier sessions f).elim .invalid fun state => .int (f.get state).toInt) ∧
    (∀ key, (∀ f : Field, key ≠ f.key) →
      settingsAfter toInt text settings sessions key = settings key) ∧
    (session.testMode = true → ∀ settings' settings'',
      (run toInt text session settings').1 = (run toInt text session settings'').1 ∧
      (run toInt text session settings').2 = settings') ∧
    (session.loads = true → session.testMode = false → ∃ window, initialWindow text = some window ∧
      (∀ state, Found earlier sessions state → Restorable session.screens state →
        (run toInt text session (settingsAfter toInt text settings sessions)).1 =
          .opened (some (state.x, state.y))
            { window with width := state.width.toInt, height := state.height.toInt }) ∧
      ((∀ state, Found earlier sessions state → ¬ Restorable session.screens state) →
        (run toInt text session (settingsAfter toInt text settings sessions)).1 =
          .opened none window)) ∧
    ∀ before last after state, sessions = before ++ last :: after → last.saved = some state →
      4 ≤ last.steps → (∀ other ∈ after, other.saved = none ∨ other.steps = 0) →
      settingsAfter toInt text settings sessions = save state settings ∧
      ∀ state', Found earlier sessions state' ↔ state' = state := by
  refine ⟨settingsAfter_key toInt text hsettings sessions,
    fun key hkey => settingsAfter_of_ne toInt text hkey settings sessions,
    fun htest settings' settings'' => ?_, fun hloads htest => ?_, ?_⟩
  · obtain ⟨window, hwindow⟩ := initialWindow_isSome text
    refine ⟨?_, ?_⟩
    · simp only [run, hwindow, htest, if_true]
      split <;> rfl
    · rw [run_settings, Session.saved, htest]
      rfl
  · obtain ⟨window, hwindow, hopened⟩ :=
      run_opened toInt text session (settingsAfter toInt text settings sessions) hloads
    have hrestore := restore_settingsAfter text htoInt hsettings sessions session.screens
    rw [htest, if_neg Bool.false_ne_true] at hopened
    refine ⟨window, hwindow, fun state hfound hfits => ?_, fun hnone => ?_⟩
    · rw [hopened, (hrestore state).mpr ⟨hfound, hfits⟩]
      rfl
    · have hnot : restore toInt (settingsAfter toInt text settings sessions) session.screens = none :=
        Option.eq_none_iff_forall_ne_some.mpr fun state hstate =>
          hnone state ((hrestore state).mp hstate).1 ((hrestore state).mp hstate).2
      rw [hopened, hnot]
      rfl
  · rintro before last after state rfl hsaved hsteps hafter
    have hfound : Found earlier (before ++ last :: after) state := fun f => by
      rw [source_of_last earlier before after hsaved hsteps hafter]
      rfl
    exact ⟨settingsAfter_of_last toInt text hsettings before after hsaved hsteps hafter,
      fun state' => ⟨fun hfound' => hfound'.eq hfound, fun heq => heq ▸ hfound⟩⟩

/-- A window at the left edge of the screen is saved, the next process is ended after it has written
    its `x`, and a test run follows. -/
def cutOff : List Session :=
  [{ closing := some ⟨-600, 100, 700, 600⟩ }, { closing := some ⟨5, 5, 900, 650⟩, steps := 1 },
    { arguments := [qStringLiteral "--theme-test"], closing := some ⟨7, 7, 800, 600⟩ }]

/-- The window opens with the `x` of the process that was ended and the rest of the one before; after
    one more that comes to its end, it opens as that one left it. -/
theorem reopened_cutOff :
    ∃ window, initialWindow .ascii = some window ∧
      (run plainToInt .ascii { screens := [⟨0, 0, 1920, 1080⟩] }
        (settingsAfter plainToInt .ascii leftBefore cutOff)).1 =
          .opened (some (5, 100)) { window with width := 700, height := 600 } ∧
      (run plainToInt .ascii { screens := [⟨0, 0, 1920, 1080⟩] }
        (settingsAfter plainToInt .ascii leftBefore
          (cutOff ++ [{ closing := some ⟨9, 9, 900, 650⟩ }]))).1 =
          .opened (some (9, 9)) { window with width := 900, height := 650 } := by
  have hmixed : Found (some ⟨0, 0, 800, 600⟩) cutOff ⟨5, 100, 700, 600⟩ := by
    intro f
    cases f <;> decide +kernel
  obtain ⟨-, -, -, hopened, -⟩ := reopened .ascii convertsInt_plainToInt holds_leftBefore cutOff
    { screens := [⟨0, 0, 1920, 1080⟩] }
  obtain ⟨-, -, -, hopened', hwhole⟩ := reopened .ascii convertsInt_plainToInt holds_leftBefore
    (cutOff ++ [{ closing := some ⟨9, 9, 900, 650⟩ }]) { screens := [⟨0, 0, 1920, 1080⟩] }
  obtain ⟨window, hwindow, hopens, -⟩ := hopened rfl (by decide)
  obtain ⟨window', hwindow', hopens', -⟩ := hopened' rfl (by decide)
  obtain rfl : window = window' := Option.some.inj (hwindow.symm.trans hwindow')
  refine ⟨window, hwindow, hopens _ hmixed ?_, hopens' ⟨9, 9, 900, 650⟩ ?_ ?_⟩
  · exact ⟨by decide, by decide, _, List.mem_singleton.mpr rfl,
      (isVisibleOnScreen_iff (by decide) (by decide) _).mp (by decide)⟩
  · exact ((hwhole cutOff _ [] _ rfl (by decide +kernel) (by decide) (by simp)).2 _).mpr rfl
  · exact ⟨by decide, by decide, _, List.mem_singleton.mpr rfl,
      (isVisibleOnScreen_iff (by decide) (by decide) _).mp (by decide)⟩

end BranchTalk.Desktop.Run
