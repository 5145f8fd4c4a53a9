import BranchTalk.Desktop.Qt
import Mathlib.Logic.Function.Basic

set_option autoImplicit false

/-! # The stored window state

`apps/desktop/window_state_store.cpp`. The settings are a value for every key, invalid where the key
is missing. They are written through key by key, so `sync` changes nothing. -/

namespace BranchTalk.Desktop

structure WindowState where
  x : Int32
  y : Int32
  width : Int32
  height : Int32
  deriving DecidableEq, Repr

structure QRect where
  x : Int32
  y : Int32
  width : Int32
  height : Int32
  deriving DecidableEq, Repr

def QRect.isValid (rect : QRect) : Bool := decide (0 < rect.width) && decide (0 < rect.height)

abbrev QSettings : Type := QString → QVariant

def QSettings.setValue (settings : QSettings) (key : QString) (value : QVariant) : QSettings :=
  Function.update settings key value

namespace WindowStateStore

def minimumWidth : Int32 := 640

def minimumHeight : Int32 := 480

/-- What the code relies on of `QVariant::toInt`, which also converts values that are no integers. -/
structure ConvertsInt (toInt : QVariant → Option Int32) : Prop where
  invalid : toInt .invalid = none
  int : ∀ n : Int32, toInt (.int n.toInt) = some n

/-- The sums are taken in 64 bits. -/
def isVisibleOnScreen (state : WindowState) (screen : QRect) : Bool :=
  if !screen.isValid || decide (screen.width < state.width) ||
      decide (screen.height < state.height) then false
  else
    let windowLeft := state.x.toInt64
    let windowTop := state.y.toInt64
    let windowRight := windowLeft + state.width.toInt64
    let windowBottom := windowTop + state.height.toInt64
    let screenLeft := screen.x.toInt64
    let screenTop := screen.y.toInt64
    let screenRight := screenLeft + screen.width.toInt64
    let screenBottom := screenTop + screen.height.toInt64
    decide (windowLeft < screenRight) && decide (screenLeft < windowRight) &&
      decide (windowTop < screenBottom) && decide (screenTop < windowBottom)

section

variable (toInt : QVariant → Option Int32)

def readInteger (settings : QSettings) (key : QString) : Option Int32 := toInt (settings key)

def restore (settings : QSettings) (availableScreens : List QRect) : Option WindowState :=
  let x := readInteger toInt settings (qStringLiteral "window/x")
  let y := readInteger toInt settings (qStringLiteral "window/y")
  let width := readInteger toInt settings (qStringLiteral "window/width")
  let height := readInteger toInt settings (qStringLiteral "window/height")
  match x, y, width, height with
  | some x, some y, some width, some height =>
      if width < minimumWidth || height < minimumHeight then none
      else
        let state : WindowState := ⟨x, y, width, height⟩
        if availableScreens.any (isVisibleOnScreen state) then some state else none
  | _, _, _, _ => none

end

/-- The calls of `setValue` in `save`, in order: each is a step of its own. -/
def saveSteps (state : WindowState) : List (QString × QVariant) :=
  [(qStringLiteral "window/x", .int state.x.toInt),
    (qStringLiteral "window/y", .int state.y.toInt),
    (qStringLiteral "window/width", .int state.width.toInt),
    (qStringLiteral "window/height", .int state.height.toInt)]

def save (state : WindowState) (settings : QSettings) : QSettings :=
  (saveSteps state).foldl (fun settings step => settings.setValue step.1 step.2) settings

/-- `save` in a process that is ended after so many of the calls. -/
def saveUntil (steps : ℕ) (state : WindowState) (settings : QSettings) : QSettings :=
  ((saveSteps state).take steps).foldl (fun settings step => settings.setValue step.1 step.2) settings

/-- After four calls nothing is cut off. -/
theorem saveUntil_four (state : WindowState) (settings : QSettings) :
    saveUntil 4 state settings = save state settings := rfl

end WindowStateStore

end BranchTalk.Desktop
