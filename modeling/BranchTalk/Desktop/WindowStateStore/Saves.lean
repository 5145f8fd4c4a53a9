import BranchTalk.Desktop.WindowStateStore
import BranchTalk.SharedKeys

set_option autoImplicit false

/-! # Saving from several instances

Nothing ties the four keys together: each instance writes them one after another, and the settings
keep, for each key by itself, the value written last. -/

namespace BranchTalk.Desktop.WindowStateStore

open SharedKeys (Event lastWriter performed)

inductive Field where
  | x
  | y
  | width
  | height
  deriving DecidableEq, Repr

namespace Field

def key : Field → QString
  | x => qStringLiteral "window/x"
  | y => qStringLiteral "window/y"
  | width => qStringLiteral "window/width"
  | height => qStringLiteral "window/height"

def get (state : WindowState) : Field → Int32
  | x => state.x
  | y => state.y
  | width => state.width
  | height => state.height

theorem key_injective {f f' : Field} (h : f.key = f'.key) : f = f' := by
  cases f <;> cases f' <;> first | rfl | exact absurd h (by decide)

end Field

theorem eq_of_get {state state' : WindowState} (h : ∀ f, Field.get state f = Field.get state' f) :
    state = state' := by
  obtain ⟨x, y, width, height⟩ := state
  obtain rfl : x = state'.x := h .x
  obtain rfl : y = state'.y := h .y
  obtain rfl : width = state'.width := h .width
  obtain rfl : height = state'.height := h .height
  rfl

theorem mem_saveSteps {state : WindowState} {f : Field} {value : QVariant}
    (h : (f.key, value) ∈ saveSteps state) : value = .int (f.get state).toInt := by
  have hsteps : saveSteps state =
      [Field.x, .y, .width, .height].map fun f => (f.key, .int (f.get state).toInt) := rfl
  rw [hsteps] at h
  obtain ⟨f', -, heq⟩ := List.mem_map.mp h
  obtain ⟨hkey, rfl⟩ := Prod.mk.inj heq
  rw [Field.key_injective hkey]

/-- A restored state is read key by key. -/
theorem get_of_restore {toInt : QVariant → Option Int32} {settings : QSettings}
    {availableScreens : List QRect} {state : WindowState}
    (h : restore toInt settings availableScreens = some state) (f : Field) :
    toInt (settings f.key) = some (f.get state) := by
  unfold restore at h
  dsimp only at h
  split at h
  · next x y width height hx hy hwidth hheight =>
      split at h
      · cases h
      · split at h
        · obtain rfl := Option.some.inj h
          cases f with
          | x => exact hx
          | y => exact hy
          | width => exact hwidth
          | height => exact hheight
        · cases h
  · cases h

/-! ## Instances -/

/-- The settings hold no window key, or the four values of an earlier save. -/
def Holds (settings : QSettings) (earlier : Option WindowState) : Prop :=
  ∀ f : Field, settings f.key = earlier.elim .invalid fun state => .int (f.get state).toInt

section

variable {ι : Type} [DecidableEq ι]

/-- Every instance is about to save its own state. -/
def start (settings : QSettings) (states : ι → WindowState) :
    SharedKeys.System ι QString QVariant where
  store := settings
  left i := saveSteps (states i)

/-- The settings after some steps of the instances and some stops. -/
def settingsAfter (settings : QSettings) (states : ι → WindowState) (events : List (Event ι)) :
    QSettings :=
  (SharedKeys.run events (start settings states)).store

/-- The instance that wrote the field last, if any did. -/
def writerOf (settings : QSettings) (states : ι → WindowState) (events : List (Event ι))
    (f : Field) : Option ι :=
  lastWriter f.key (performed events (start settings states))

/-- The state of a save: that of an instance, or the earlier one. -/
def saved (earlier : Option WindowState) (states : ι → WindowState) : Option ι → Option WindowState
  | some i => some (states i)
  | none => earlier

/-- **Each key holds the value of its last writer.** -/
theorem settingsAfter_key {settings : QSettings} {earlier : Option WindowState}
    (hsettings : Holds settings earlier) (states : ι → WindowState) (events : List (Event ι))
    (f : Field) :
    settingsAfter settings states events f.key =
      (saved earlier states (writerOf settings states events f)).elim .invalid
        fun state => .int (f.get state).toInt := by
  unfold settingsAfter writerOf lastWriter
  rw [SharedKeys.store_run]
  cases hlast : SharedKeys.lastWrite f.key (performed events (start settings states)) with
  | none =>
      -- no instance has come to this key
      exact hsettings f
  | some write =>
      obtain ⟨i, key, value⟩ := write
      obtain ⟨hmem, rfl⟩ := SharedKeys.of_lastWrite_eq_some hlast
      exact mem_saveSteps (SharedKeys.of_mem_performed hmem)

/-- An instance whose steps come one after another saves as `save` does, as far as it comes. -/
theorem settingsAfter_alone (settings : QSettings) (states : ι → WindowState) (i : ι) (steps : ℕ) :
    settingsAfter settings states (List.replicate steps (.step i)) =
      saveUntil steps (states i) settings :=
  SharedKeys.run_alone i steps (start settings states)

/-- If the last four steps taken are those of one instance, it is the last writer of every key. -/
theorem writerOf_of_whole {settings : QSettings} {states : ι → WindowState} {events : List (Event ι)}
    {before : List (ι × QString × QVariant)} {i : ι}
    (h : performed events (start settings states) =
      before ++ (saveSteps (states i)).map fun step => (i, step)) (f : Field) :
    writerOf settings states events f = some i := by
  unfold writerOf lastWriter
  rw [h, SharedKeys.lastWrite_append]
  cases f <;> rfl

/-- **What is restored after the saves**: every component is that of the save that wrote its key
    last. It is the state of one save when that save wrote all four last, as when the last four steps
    taken are those of one instance. -/
theorem restore_after_saves {toInt : QVariant → Option Int32} (htoInt : ConvertsInt toInt)
    {settings : QSettings} {earlier : Option WindowState} (hsettings : Holds settings earlier)
    (states : ι → WindowState) (events : List (Event ι)) {availableScreens : List QRect}
    {state : WindowState}
    (h : restore toInt (settingsAfter settings states events) availableScreens = some state) :
    (∀ f, ∃ source, saved earlier states (writerOf settings states events f) = some source ∧
      f.get state = f.get source) ∧
    (∀ writer, (∀ f, writerOf settings states events f = writer) →
      saved earlier states writer = some state) ∧
    ∀ before i, performed events (start settings states) =
      before ++ ((saveSteps (states i)).map fun step => (i, step)) → state = states i := by
  have hsource : ∀ f, ∃ source, saved earlier states (writerOf settings states events f) =
      some source ∧ f.get state = f.get source := by
    intro f
    have hread := get_of_restore h f
    rw [settingsAfter_key hsettings] at hread
    cases hsaved : saved earlier states (writerOf settings states events f) with
    | none =>
        rw [hsaved, Option.elim_none, htoInt.invalid] at hread
        cases hread
    | some source =>
        rw [hsaved, Option.elim_some, htoInt.int] at hread
        exact ⟨source, rfl, (Option.some.inj hread).symm⟩
  have hone : ∀ writer, (∀ f, writerOf settings states events f = writer) →
      saved earlier states writer = some state := by
    intro writer hwriter
    obtain ⟨source, hsaved, -⟩ := hsource .x
    rw [hwriter] at hsaved
    rw [hsaved]
    refine congrArg some (eq_of_get fun f => ?_)
    obtain ⟨source', hsaved', hget⟩ := hsource f
    rw [hwriter, hsaved] at hsaved'
    rw [hget, Option.some.inj hsaved']
  refine ⟨hsource, hone, ?_⟩
  intro before i hwhole
  exact (Option.some.inj (hone (some i) fun f => writerOf_of_whole hwhole f)).symm

end

/-! ## A mixed state -/

/-- A conversion that accepts the integers only. -/
def plainToInt : QVariant → Option Int32
  | .int n => if (Int32.ofInt n).toInt = n then some (Int32.ofInt n) else none
  | _ => none

theorem convertsInt_plainToInt : ConvertsInt plainToInt where
  invalid := rfl
  int n := by simp [plainToInt]

/-- What an earlier process left. -/
def leftBefore : QSettings := save ⟨0, 0, 800, 600⟩ fun _ => .invalid

theorem holds_leftBefore : Holds leftBefore (some ⟨0, 0, 800, 600⟩) := by
  intro f
  cases f <;> decide

/-- The states of two instances. -/
def instances (second : Bool) : WindowState :=
  if second then ⟨50, 60, 900, 700⟩ else ⟨100, 100, 1024, 768⟩

/-- The second instance stops between the first two steps of the first, which then stops too. -/
def overlapping : List (Event Bool) :=
  [.step false, .step true, .step true, .stop true, .step false, .stop false]

/-- The first instance stops before the second begins. -/
def oneAfterOther : List (Event Bool) :=
  [.step false, .step false, .stop false] ++ List.replicate 4 (.step true)

/-- The `x` of the second instance, the `y` of the first and the size of the earlier state; and the whole
    state of the instance that takes the last four steps. -/
theorem restore_after_overlapping_saves :
    (restore plainToInt (settingsAfter leftBefore instances overlapping) [⟨0, 0, 1920, 1080⟩] =
        some ⟨50, 100, 800, 600⟩ ∧
      ∀ f, ∃ source,
        saved (some ⟨0, 0, 800, 600⟩) instances (writerOf leftBefore instances overlapping f) =
          some source ∧
        f.get ⟨50, 100, 800, 600⟩ = f.get source) ∧
    ∀ availableScreens state,
      restore plainToInt (settingsAfter leftBefore instances oneAfterOther) availableScreens =
        some state → state = instances true := by
  have hmixed : restore plainToInt (settingsAfter leftBefore instances overlapping)
      [⟨0, 0, 1920, 1080⟩] = some ⟨50, 100, 800, 600⟩ := by decide +kernel
  refine ⟨⟨hmixed, ?_⟩, fun availableScreens state hrestore => ?_⟩
  · exact (restore_after_saves convertsInt_plainToInt holds_leftBefore _ _ hmixed).1
  · exact (restore_after_saves convertsInt_plainToInt holds_leftBefore _ _ hrestore).2.2
      [(false, Field.x.key, .int 100), (false, Field.y.key, .int 100)] true (by decide +kernel)

/-- An instance that stops after its first step leaves its own position in the row of the earlier
    state. -/
theorem restore_mixes :
    ConvertsInt plainToInt ∧
    Holds (save ⟨0, 0, 800, 600⟩ fun _ => .invalid) (some ⟨0, 0, 800, 600⟩) ∧
    restore plainToInt
      (settingsAfter (save ⟨0, 0, 800, 600⟩ fun _ => .invalid)
        (fun _ : Unit => ⟨100, 100, 1024, 768⟩) [.step (), .stop ()])
      [⟨0, 0, 1920, 1080⟩] = some ⟨100, 0, 800, 600⟩ ∧
    ∀ writer : Option Unit,
      saved (some ⟨0, 0, 800, 600⟩) (fun _ : Unit => ⟨100, 100, 1024, 768⟩) writer ≠
        some ⟨100, 0, 800, 600⟩ := by
  refine ⟨convertsInt_plainToInt, holds_leftBefore, ?_, ?_⟩
  · decide +kernel
  · intro writer
    cases writer with
    | none => decide
    | some instance_ =>
        cases instance_
        decide

end BranchTalk.Desktop.WindowStateStore
