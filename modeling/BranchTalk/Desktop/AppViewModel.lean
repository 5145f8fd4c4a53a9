import BranchTalk.Emission.Watched
import Mathlib.Data.List.Induction

set_option autoImplicit false

/-! # The application view model

`apps/desktop/app_view_model.cpp`. It holds the screen that the window shows. -/

namespace BranchTalk.Desktop

/-- `enum Screen`. -/
inductive Screen where
  | loginScreen
  | mainScreen
  | settingsScreen
  deriving DecidableEq, Repr

/-- The field `current_screen_`. -/
structure AppViewModel where
  currentScreen : Screen := .loginScreen
  deriving DecidableEq, Repr

namespace AppViewModel

open Emission

inductive Signal where
  | currentScreenChanged
  deriving DecidableEq, Repr

abbrev AppMethod (α : Type) := Method AppViewModel Signal α

def setCurrentScreen (screen : Screen) : AppMethod Unit := do
  if (← get).currentScreen = screen then
    return
  modify fun m => { m with currentScreen := screen }
  Method.emit .currentScreenChanged

def showLogin : AppMethod Unit := setCurrentScreen .loginScreen

def showMain : AppMethod Unit := setCurrentScreen .mainScreen

def showSettings : AppMethod Unit := setCurrentScreen .settingsScreen

inductive Op where
  | showLogin
  | showMain
  | showSettings
  deriving DecidableEq, Repr

def exec : Op → AppMethod Unit
  | .showLogin => showLogin
  | .showMain => showMain
  | .showSettings => showSettings

/-- The model as a component; its handlers may call anything at its signal. -/
def component : Component AppViewModel Op Signal Unit := ⟨exec, fun _ _ => true⟩

/-- The screen a call asks for. -/
def Op.screen : Op → Screen
  | .showLogin => .loginScreen
  | .showMain => .mainScreen
  | .showSettings => .settingsScreen

/-! ## One call -/

theorem exec_eq (op : Op) : exec op = setCurrentScreen op.screen := by
  cases op <;> rfl

theorem exec_run (op : Op) (m : AppViewModel) :
    (exec op).run m =
      if m.currentScreen = op.screen then .done m ()
      else .emit ⟨op.screen⟩ .currentScreenChanged fun s => .done s () := by
  rw [exec_eq]
  by_cases h : m.currentScreen = op.screen <;> simp [setCurrentScreen, h]

/-- After any call the screen is the one it asked for, before its signal goes out. -/
theorem exec_now (op : Op) (m : AppViewModel) : ((exec op).run m).now = ⟨op.screen⟩ := by
  rw [exec_run]
  split
  · next h => rw [← h]; rfl
  · rfl

theorem prompt : component.Prompt := by
  intro m op
  refine ⟨(), ?_⟩
  rw [show component.exec op = exec op from rfl, exec_now, exec_run]
  split
  · next h => exact ⟨by rw [← h], rfl⟩
  · exact ⟨rfl, trivial, fun s => ⟨rfl, rfl⟩⟩

/-! ## Nested calls -/

theorem sequence_exec (m : AppViewModel) (ops : List Op) :
    sequence exec m ops = ⟨(ops.getLast?.map Op.screen).getD m.currentScreen⟩ := by
  induction ops using List.reverseRecOn with
  | nil => rfl
  | append_singleton ops op _ =>
      obtain ⟨r, hpassive⟩ := prompt (sequence exec m ops) op
      rw [sequence_concat]
      refine hpassive.quiet_state.trans ?_
      rw [show component.exec op = exec op from rfl, exec_now]
      simp

/-- What the window reads. -/
def observer : Observer AppViewModel Signal Unit Screen where
  read m _ := m.currentScreen
  names _ _ := true

/-- A call that changes the screen announces it. -/
theorem announced_exec (op : Op) (m : AppViewModel) :
    observer.read ((exec op).run m).now () = observer.read m () ∨
      ((exec op).run m).Announces (fun _ => True) fun sig => observer.names sig () = true := by
  rw [exec_now, exec_run]
  split
  · next h => exact .inl h.symm
  · exact .inr (.inl rfl)

/-- A call has nothing left to do after its signal. -/
def Ends (f : Frame AppViewModel Op Signal Unit) : Prop := ∀ s, f.resume s = .done s ()

/-- A signal goes out only for a screen that is not the one before. -/
def AnnouncesChange (c : Config AppViewModel Op Signal Unit) (mv : Move Op) : Prop :=
  ∀ sig s, component.emits c mv = some (sig, s) → s.currentScreen ≠ c.state.currentScreen

theorem announcesChange_call (c : Config AppViewModel Op Signal Unit) (op : Op) :
    AnnouncesChange c (.call op) := by
  intro sig s h
  change ((exec op).run c.state).emission = some (sig, s) at h
  rw [exec_run] at h
  split at h
  · cases h
  · next hne =>
      obtain ⟨-, rfl⟩ := Prod.mk.inj (Option.some.inj h)
      exact fun heq => hne heq.symm

theorem announcesChange_resume {c : Config AppViewModel Op Signal Unit}
    (hc : ∀ f ∈ c.stack, Ends f) : AnnouncesChange c .resume := by
  intro sig s h
  unfold Component.emits at h
  cases hstack : c.stack with
  | nil => simp [hstack] at h
  | cons f below =>
      rw [hstack, List.head?_cons, Option.bind_some, hc f (by simp [hstack])] at h
      cases h

theorem ends_enter {c : Config AppViewModel Op Signal Unit} (hc : ∀ f ∈ c.stack, Ends f) (op : Op) :
    ∀ f ∈ (component.enter c op).stack, Ends f := by
  refine forall_mem_settle_stack hc _ fun s sig k h => ?_
  rw [show component.exec op = exec op from rfl, exec_run] at h
  split at h
  · cases h
  · obtain ⟨-, -, rfl⟩ := Proc.emit.inj h
    exact fun _ => rfl

theorem ends_leave {c : Config AppViewModel Op Signal Unit} (hc : ∀ f ∈ c.stack, Ends f)
    {f : Frame AppViewModel Op Signal Unit} {below : List (Frame AppViewModel Op Signal Unit)}
    (hstack : c.stack = f :: below) : ∀ g ∈ (c.leave f below).stack, Ends g := by
  rw [hstack] at hc
  obtain ⟨hf, hbelow⟩ := List.forall_mem_cons.mp hc
  rw [Config.leave, hf]
  exact hbelow

theorem announcesChange_run (mvs : List (Move Op)) {c : Config AppViewModel Op Signal Unit}
    (hc : ∀ f ∈ c.stack, Ends f) : component.EachStep AnnouncesChange c mvs := by
  induction mvs generalizing c with
  | nil => trivial
  | cons mv rest ih =>
      cases mv with
      | call op =>
          refine ⟨announcesChange_call c op, fun c' hstep => ih ?_⟩
          obtain ⟨-, rfl⟩ := component.step_call hstep
          exact ends_enter hc op
      | resume =>
          refine ⟨announcesChange_resume hc, fun c' hstep => ih ?_⟩
          obtain ⟨f, below, hstack, rfl⟩ := component.step_resume hstep
          exact ends_leave hc hstack

/-- **Navigation from handlers.** Whatever is shown from within the announcements of other changes,
    to any depth: the screen is the one asked for last, a signal goes out only for a screen that is
    not the one before, and a window that reads the screen on that signal only has it right in the
    end. -/
theorem screen_of_nested_calls (m : AppViewModel) (mvs : List (Move Op)) :
    (∀ c, component.run (Config.start m) mvs = some c → c.state.currentScreen =
      ((c.calls.map Call.op).getLast?.map Op.screen).getD m.currentScreen) ∧
    component.EachStep AnnouncesChange (Config.start m) mvs ∧
    ∀ c, (component.watched observer).run (Config.start (m, observer.read m)) mvs = some c →
      c.stack = [] → c.state.2 () = c.state.1.currentScreen := by
  refine ⟨fun c h => ?_, announcesChange_run mvs (by simp [Config.start]), fun c h hstack => ?_⟩
  · rw [prompt.state_eq_sequence h]
    exact congrArg currentScreen (sequence_exec m _)
  · rw [prompt.view_eq_of_run (I := fun _ => True) (fun _ _ _ => trivial)
      (fun m op _ _ => announced_exec op m) trivial h hstack]
    rfl

end AppViewModel

end BranchTalk.Desktop
