import BranchTalk.Desktop.WindowStateStore.Saves
import Mathlib.Data.Set.Prod
import Mathlib.Order.Interval.Set.LinearOrder
import Mathlib.Order.MinMax

set_option autoImplicit false

/-! # Which states are restored

A window and a screen are sets of points of the plane, without any bound on the coordinates. The
four comparisons of `is_visible_on_screen` say that the two sets meet: a window that is restored has
at least the minimum size and no more than that of some screen which shows a part of it. -/

namespace BranchTalk.Desktop

/-! ## Points -/

/-- Two half-open intervals that are not empty meet when each starts before the other ends. -/
theorem Ico_inter_nonempty_iff {α : Type} [LinearOrder α] {a b c d : α} (hab : a < b) (hcd : c < d) :
    (Set.Ico a b ∩ Set.Ico c d).Nonempty ↔ a < d ∧ c < b := by
  rw [Set.Ico_inter_Ico, Set.nonempty_Ico, max_lt_iff, lt_min_iff, lt_min_iff]
  constructor
  · rintro ⟨⟨-, had⟩, hcb, -⟩
    exact ⟨had, hcb⟩
  · rintro ⟨had, hcb⟩
    exact ⟨⟨hab, had⟩, hcb, hcd⟩

/-- The points of a rectangle with this corner and this size. -/
def points (x y width height : ℤ) : Set (ℤ × ℤ) :=
  {p | (x ≤ p.1 ∧ p.1 < x + width) ∧ y ≤ p.2 ∧ p.2 < y + height}

theorem points_inter_nonempty_iff {x y width height x' y' width' height' : ℤ} (hwidth : 0 < width)
    (hheight : 0 < height) (hwidth' : 0 < width') (hheight' : 0 < height') :
    (points x y width height ∩ points x' y' width' height').Nonempty ↔
      (x < x' + width' ∧ x' < x + width) ∧ y < y' + height' ∧ y' < y + height := by
  have hprod (x y width height : ℤ) :
      points x y width height = Set.Ico x (x + width) ×ˢ Set.Ico y (y + height) := rfl
  rw [hprod, hprod, Set.prod_inter_prod, Set.prod_nonempty_iff,
    Ico_inter_nonempty_iff (by omega) (by omega), Ico_inter_nonempty_iff (by omega) (by omega)]

/-- A sum of two 32-bit integers in 64 bits does not overflow. -/
theorem toInt_add_toInt64 (a b : Int32) : (a.toInt64 + b.toInt64).toInt = a.toInt + b.toInt := by
  have ha := a.le_toInt
  have ha' := a.toInt_lt
  have hb := b.le_toInt
  have hb' := b.toInt_lt
  rw [Int64.toInt_add, Int32.toInt_toInt64, Int32.toInt_toInt64]
  exact Int.bmod_eq_of_le (by omega) (by omega)

def WindowState.points (state : WindowState) : Set (ℤ × ℤ) :=
  Desktop.points state.x.toInt state.y.toInt state.width.toInt state.height.toInt

def QRect.points (rect : QRect) : Set (ℤ × ℤ) :=
  Desktop.points rect.x.toInt rect.y.toInt rect.width.toInt rect.height.toInt

theorem QRect.isValid_iff (rect : QRect) :
    rect.isValid = true ↔ 1 ≤ rect.width.toInt ∧ 1 ≤ rect.height.toInt := by
  simp only [QRect.isValid, Bool.and_eq_true, decide_eq_true_eq, Int32.lt_iff_toInt_lt]
  exact Iff.rfl

namespace WindowStateStore

/-! ## One screen -/

/-- The screen is valid, large enough for the window, and shows a part of it. -/
structure ShownOn (state : WindowState) (screen : QRect) : Prop where
  isValid : screen.isValid = true
  width_le : state.width.toInt ≤ screen.width.toInt
  height_le : state.height.toInt ≤ screen.height.toInt
  meets : (state.points ∩ screen.points).Nonempty

theorem isVisibleOnScreen_iff {state : WindowState} (hwidth : 0 < state.width.toInt)
    (hheight : 0 < state.height.toInt) (screen : QRect) :
    isVisibleOnScreen state screen = true ↔ ShownOn state screen := by
  unfold isVisibleOnScreen
  split
  · next hskip =>
      refine iff_of_false Bool.false_ne_true fun hshown => ?_
      have hwide := hshown.width_le
      have hhigh := hshown.height_le
      simp only [hshown.isValid, Bool.not_true, Bool.false_or, Bool.or_eq_true, decide_eq_true_eq,
        Int32.lt_iff_toInt_lt] at hskip
      omega
  · next hfits =>
      simp only [Bool.or_eq_true, not_or, Bool.not_eq_true', Bool.not_eq_false, decide_eq_true_eq,
        Int32.lt_iff_toInt_lt, not_lt] at hfits
      obtain ⟨⟨hvalid, hwide⟩, hhigh⟩ := hfits
      obtain ⟨hwidth', hheight'⟩ := screen.isValid_iff.mp hvalid
      have hmeets : (state.points ∩ screen.points).Nonempty ↔ _ :=
        points_inter_nonempty_iff hwidth hheight hwidth' hheight'
      simp only [Bool.and_eq_true, decide_eq_true_eq, Int64.lt_iff_toInt_lt, toInt_add_toInt64,
        Int32.toInt_toInt64, and_assoc]
      rw [and_assoc] at hmeets
      rw [← hmeets]
      exact ⟨fun h => ⟨hvalid, hwide, hhigh, h⟩, fun h => h.meets⟩

/-! ## The settings -/

/-- Every key holds what converts to the state's value. -/
def Stored (toInt : QVariant → Option Int32) (settings : QSettings) (state : WindowState) : Prop :=
  ∀ f : Field, toInt (settings f.key) = some (f.get state)

/-- The state is at least of the minimum size and shown on one of the screens. -/
structure Restorable (availableScreens : List QRect) (state : WindowState) : Prop where
  width : 640 ≤ state.width.toInt
  height : 480 ≤ state.height.toInt
  shown : ∃ screen ∈ availableScreens, ShownOn state screen

/-- With all four values there, only the checks decide. -/
theorem restore_of_stored {toInt : QVariant → Option Int32} {settings : QSettings}
    {state : WindowState} (h : Stored toInt settings state) (availableScreens : List QRect) :
    restore toInt settings availableScreens =
      if state.width < minimumWidth || state.height < minimumHeight then none
      else if availableScreens.any (isVisibleOnScreen state) then some state else none := by
  have hx : toInt (settings (qStringLiteral "window/x")) = some state.x := h .x
  have hy : toInt (settings (qStringLiteral "window/y")) = some state.y := h .y
  have hwidth : toInt (settings (qStringLiteral "window/width")) = some state.width := h .width
  have hheight : toInt (settings (qStringLiteral "window/height")) = some state.height := h .height
  simp only [restore, readInteger, hx, hy, hwidth, hheight]

theorem restore_of_stored_iff {toInt : QVariant → Option Int32} {settings : QSettings}
    {state : WindowState} (h : Stored toInt settings state) (availableScreens : List QRect) :
    restore toInt settings availableScreens = some state ↔ Restorable availableScreens state := by
  have hminimum : (state.width < minimumWidth || state.height < minimumHeight) = true ↔
      state.width.toInt < 640 ∨ state.height.toInt < 480 := by
    rw [Bool.or_eq_true, decide_eq_true_eq, decide_eq_true_eq, Int32.lt_iff_toInt_lt,
      Int32.lt_iff_toInt_lt]
    exact Iff.rfl
  rw [restore_of_stored h]
  split
  · next hsmall =>
      rw [hminimum] at hsmall
      refine iff_of_false (by simp) fun hrestorable => ?_
      have := hrestorable.width
      have := hrestorable.height
      omega
  · next hlarge =>
      rw [hminimum, not_or, not_lt, not_lt] at hlarge
      obtain ⟨hwidth, hheight⟩ := hlarge
      have hany : availableScreens.any (isVisibleOnScreen state) = true ↔
          ∃ screen ∈ availableScreens, ShownOn state screen := by
        simp only [List.any_eq_true]
        exact exists_congr fun screen => and_congr_right fun _ =>
          isVisibleOnScreen_iff (by omega) (by omega) screen
      split
      · next hshown => exact iff_of_true rfl ⟨hwidth, hheight, hany.mp hshown⟩
      · next hhidden =>
          refine iff_of_false (by simp) fun hrestorable => ?_
          exact hhidden (hany.mpr hrestorable.shown)

/-- A state is restored exactly when it is stored and restorable. -/
theorem restore_eq_some_iff (toInt : QVariant → Option Int32) (settings : QSettings)
    (availableScreens : List QRect) (state : WindowState) :
    restore toInt settings availableScreens = some state ↔
      Stored toInt settings state ∧ Restorable availableScreens state := by
  constructor
  · intro hrestore
    have hstored : Stored toInt settings state := get_of_restore hrestore
    exact ⟨hstored, (restore_of_stored_iff hstored availableScreens).mp hrestore⟩
  · rintro ⟨hstored, hrestorable⟩
    exact (restore_of_stored_iff hstored availableScreens).mpr hrestorable

/-- Screens count as a set, and only the valid ones. -/
theorem Restorable.congr {availableScreens availableScreens' : List QRect}
    (h : ∀ screen, screen.isValid = true →
      (screen ∈ availableScreens ↔ screen ∈ availableScreens')) {state : WindowState}
    (hstate : Restorable availableScreens state) : Restorable availableScreens' state := by
  obtain ⟨screen, hmem, hshown⟩ := hstate.shown
  exact ⟨hstate.width, hstate.height, screen, (h screen hshown.isValid).mp hmem, hshown⟩

theorem restore_congr (toInt : QVariant → Option Int32) (settings : QSettings)
    {availableScreens availableScreens' : List QRect}
    (h : ∀ screen, screen.isValid = true →
      (screen ∈ availableScreens ↔ screen ∈ availableScreens')) :
    restore toInt settings availableScreens = restore toInt settings availableScreens' := by
  refine Option.ext fun state => ?_
  rw [restore_eq_some_iff, restore_eq_some_iff]
  exact and_congr_right fun _ =>
    ⟨fun hstate => hstate.congr h, fun hstate => hstate.congr fun screen hvalid => (h screen hvalid).symm⟩

theorem save_key (state : WindowState) (settings : QSettings) (f : Field) :
    save state settings f.key = .int (f.get state).toInt := by
  have hkey : ∀ f f' : Field, f.key = f'.key ↔ f = f' := fun f f' =>
    ⟨Field.key_injective, congrArg Field.key⟩
  have hsave : save state settings = (((settings.setValue Field.x.key (.int state.x.toInt)).setValue
      Field.y.key (.int state.y.toInt)).setValue Field.width.key (.int state.width.toInt)).setValue
      Field.height.key (.int state.height.toInt) := rfl
  rw [hsave]
  simp only [QSettings.setValue, Function.update_apply, hkey]
  cases f <;> rfl

/-- `save` stores the state, whatever was there before. -/
theorem stored_save {toInt : QVariant → Option Int32} (htoInt : ConvertsInt toInt)
    (state : WindowState) (settings : QSettings) : Stored toInt (save state settings) state := by
  intro f
  rw [save_key, htoInt.int]

theorem Stored.eq {toInt : QVariant → Option Int32} {settings : QSettings}
    {state state' : WindowState} (h : Stored toInt settings state)
    (h' : Stored toInt settings state') : state = state' :=
  eq_of_get fun f => Option.some.inj ((h f).symm.trans (h' f))

/-- **What is restored.** The four stored integers, when all of them convert and the window they
    describe is of the minimum size, fits a valid screen and has a point in common with it, and
    nothing otherwise. The sums that decide this do not overflow, only the set of the valid screens
    counts, and a state just saved comes back exactly when it is such a window. -/
theorem restore_iff {toInt : QVariant → Option Int32} (htoInt : ConvertsInt toInt) :
    (∀ settings availableScreens state,
      restore toInt settings availableScreens = some state ↔
        Stored toInt settings state ∧ Restorable availableScreens state) ∧
    (∀ settings availableScreens, restore toInt settings availableScreens = none ↔
      ¬ ∃ state, Stored toInt settings state ∧ Restorable availableScreens state) ∧
    (∀ (settings : QSettings) (f : Field) availableScreens, settings f.key = .invalid →
      restore toInt settings availableScreens = none) ∧
    (∀ a b : Int32, (a.toInt64 + b.toInt64).toInt = a.toInt + b.toInt) ∧
    (∀ settings availableScreens availableScreens', (∀ screen : QRect, screen.isValid = true →
        (screen ∈ availableScreens ↔ screen ∈ availableScreens')) →
      restore toInt settings availableScreens = restore toInt settings availableScreens') ∧
    ∀ settings availableScreens state,
      (restore toInt (save state settings) availableScreens = some state ↔
        Restorable availableScreens state) ∧
      (¬ Restorable availableScreens state →
        restore toInt (save state settings) availableScreens = none) := by
  have hnone : ∀ settings availableScreens, restore toInt settings availableScreens = none ↔
      ¬ ∃ state, Stored toInt settings state ∧ Restorable availableScreens state := by
    intro settings availableScreens
    simp only [Option.eq_none_iff_forall_ne_some, Ne, restore_eq_some_iff, not_exists]
  refine ⟨restore_eq_some_iff toInt, hnone, ?_, toInt_add_toInt64,
    fun settings _ _ h => restore_congr toInt settings h, ?_⟩
  · intro settings f availableScreens hmissing
    rw [hnone]
    rintro ⟨state, hstored, -⟩
    have hread := hstored f
    rw [hmissing, htoInt.invalid] at hread
    cases hread
  · intro settings availableScreens state
    have hsaved := stored_save htoInt state settings
    refine ⟨restore_of_stored_iff hsaved availableScreens, fun hnot => (hnone _ _).mpr ?_⟩
    rintro ⟨state', hstored, hrestorable⟩
    exact hnot (hsaved.eq hstored ▸ hrestorable)

/-- A window that hangs over the left edge of the screen is saved and restored. -/
theorem restore_iff_left_edge :
    restore plainToInt (save ⟨-600, 100, 800, 600⟩ fun _ => .invalid) [⟨0, 0, 1920, 1080⟩]
      = some ⟨-600, 100, 800, 600⟩ := by
  refine ((restore_iff convertsInt_plainToInt).2.2.2.2.2 _ _ _).1.mpr ⟨by decide, by decide, ?_⟩
  refine ⟨_, List.mem_singleton.mpr rfl, by decide, by decide, by decide, (0, 100), ?_⟩
  exact ⟨⟨⟨by decide, by decide⟩, by decide, by decide⟩, ⟨by decide, by decide⟩, by decide, by decide⟩

end WindowStateStore

end BranchTalk.Desktop
