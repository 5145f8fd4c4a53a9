import BranchTalk.Desktop.Qt
import BranchTalk.Emission.Nested
import BranchTalk.KeyedRows

set_option autoImplicit false

/-! # The workspace list model

`apps/desktop/workspace_list_model.cpp`. The rows and the selection are stored apart: the selection
is a stable ID, not a row. Every mutator is a `Method` that emits its signals where the C++ code
does, so that handlers run, and may call back, at exactly those points. -/

namespace BranchTalk.Desktop

structure Workspace where
  stableId : QString
  name : QString
  unreadCount : Int := 0
  deriving DecidableEq, Repr

/-- The fields `workspaces_`, `selected_workspace_id_` and `loading_`. -/
structure WorkspaceListModel where
  workspaces : List Workspace := []
  selectedWorkspaceId : QString := []
  loading : Bool := false
  deriving DecidableEq, Repr

namespace WorkspaceListModel

/-- `enum Role`; `other` is any role number outside the enumeration. -/
inductive Role where
  | stableId
  | name
  | selected
  | unreadCount
  | other (number : Int)
  deriving DecidableEq, Repr

inductive Signal where
  | item (signal : ItemSignal Role)
  | loadingChanged
  | emptyChanged
  | selectedWorkspaceIdChanged
  deriving DecidableEq, Repr

/-! ## Getters -/

def rowCount (m : WorkspaceListModel) (parent : QModelIndex := QModelIndex.none) : Int :=
  if parent.isValid then 0 else m.workspaces.length

/-- `index(row, column)` of the base class. -/
def index (m : WorkspaceListModel) (row column : Int) : QModelIndex :=
  listIndex m.rowCount row column

def data (m : WorkspaceListModel) (index : QModelIndex) (role : Role) : QVariant :=
  if !index.isValid || index.parent.isValid || index.column != 0 || index.row < 0 ||
      index.row ≥ m.rowCount then
    .invalid
  else
    match m.workspaces[index.row.toNat]? with
    | none => .invalid
    | some workspace =>
        match role with
        | .stableId => .string workspace.stableId
        | .name => .string workspace.name
        | .selected => .bool (workspace.stableId == m.selectedWorkspaceId)
        | .unreadCount => .int workspace.unreadCount
        | .other _ => .invalid

def empty (m : WorkspaceListModel) : Bool := m.workspaces.isEmpty

/-- The first row with this ID, or `-1`. -/
def indexOfStableId (m : WorkspaceListModel) (stableId : QString) : Int :=
  KeyedRows.indexOf Workspace.stableId stableId m.workspaces

/-! ## Mutators -/

open Emission (Method) in
abbrev WorkspaceMethod (α : Type) := Method WorkspaceListModel Signal α

open Emission.Method (emit)

def setLoading (loading : Bool) : WorkspaceMethod Unit := do
  if (← get).loading = loading then
    return
  modify fun m => { m with loading := loading }
  emit .loadingChanged

/-- `QVector::append`. -/
def append (m : WorkspaceListModel) (workspace : Workspace) : WorkspaceListModel :=
  { m with workspaces := m.workspaces ++ [workspace] }

def addWorkspace (stableId name : QString) (unreadCount : Int) : WorkspaceMethod Bool := do
  let m ← get
  if stableId.isEmpty ∨ name.isEmpty ∨ m.indexOfStableId stableId ≥ 0 then
    return false
  let wasEmpty := m.empty
  let row := m.rowCount
  emit (.item (.rowsAboutToBeInserted row row))
  modify fun m => m.append ⟨stableId, name, max 0 unreadCount⟩
  emit (.item (.rowsInserted row row))
  if wasEmpty then
    emit .emptyChanged
  return true

/-- `QVector::removeAt`, for a row of the list. -/
def removeAt (m : WorkspaceListModel) (row : Int) : WorkspaceListModel :=
  { m with workspaces := m.workspaces.eraseIdx row.toNat }

/-- Forget the selection. -/
def clearSelection (m : WorkspaceListModel) : WorkspaceListModel :=
  { m with selectedWorkspaceId := [] }

def removeWorkspace (stableId : QString) : WorkspaceMethod Bool := do
  let m ← get
  let row := m.indexOfStableId stableId
  if row < 0 then
    return false
  let removedSelection := stableId == m.selectedWorkspaceId
  let becomesEmpty := m.rowCount == 1
  emit (.item (.rowsAboutToBeRemoved row row))
  modify fun m => m.removeAt row
  emit (.item (.rowsRemoved row row))
  if removedSelection then
    modify clearSelection
    emit .selectedWorkspaceIdChanged
  if becomesEmpty then
    emit .emptyChanged
  return true

/-- The count a row holds, when there is such a row. -/
def unreadCountAt (m : WorkspaceListModel) (row : Int) : Option Int :=
  m.workspaces[row.toNat]?.map Workspace.unreadCount

/-- Store a count in a row. -/
def storeUnreadCount (m : WorkspaceListModel) (row count : Int) : WorkspaceListModel :=
  { m with workspaces := m.workspaces.modify row.toNat fun w => { w with unreadCount := count } }

def setUnreadCount (stableId : QString) (unreadCount : Int) : WorkspaceMethod Bool := do
  let m ← get
  let row := m.indexOfStableId stableId
  if row < 0 then
    return false
  let normalizedCount := max 0 unreadCount
  if m.unreadCountAt row = some normalizedCount then
    return true
  modify fun m => m.storeUnreadCount row normalizedCount
  let changedIndex := (← get).index row 0
  emit (.item (.dataChanged changedIndex changedIndex [.unreadCount]))
  return true

/-- Store the selected ID. -/
def select (m : WorkspaceListModel) (stableId : QString) : WorkspaceListModel :=
  { m with selectedWorkspaceId := stableId }

def selectWorkspace (stableId : QString) : WorkspaceMethod Bool := do
  let m ← get
  let selectedRow := m.indexOfStableId stableId
  if selectedRow < 0 then
    return false
  if m.selectedWorkspaceId = stableId then
    return true
  let previousRow := m.indexOfStableId m.selectedWorkspaceId
  modify fun m => m.select stableId
  if previousRow ≥ 0 then
    let previousIndex := (← get).index previousRow 0
    emit (.item (.dataChanged previousIndex previousIndex [.selected]))
  let selectedIndex := (← get).index selectedRow 0
  emit (.item (.dataChanged selectedIndex selectedIndex [.selected]))
  emit .selectedWorkspaceIdChanged
  return true

/-! ## The component -/

/-- The calls that change the model. -/
inductive Op where
  | setLoading (loading : Bool)
  | addWorkspace (stableId name : QString) (unreadCount : Int)
  | removeWorkspace (stableId : QString)
  | setUnreadCount (stableId : QString) (unreadCount : Int)
  | selectWorkspace (stableId : QString)
  deriving DecidableEq, Repr

/-- A call and its answer; `setLoading` answers nothing and counts as accepted. -/
def exec : Op → WorkspaceMethod Bool
  | .setLoading loading => do setLoading loading; return true
  | .addWorkspace stableId name unreadCount => addWorkspace stableId name unreadCount
  | .removeWorkspace stableId => removeWorkspace stableId
  | .setUnreadCount stableId unreadCount => setUnreadCount stableId unreadCount
  | .selectWorkspace stableId => selectWorkspace stableId

/-- Between the two signals of an insertion or removal no handler may insert or remove rows. -/
def allows : Signal → Op → Bool
  | .item (.rowsAboutToBeInserted ..), op | .item (.rowsAboutToBeRemoved ..), op =>
      match op with
      | .addWorkspace .. | .removeWorkspace _ => false
      | _ => true
  | _, _ => true

/-- The model as a component whose handlers may call back. -/
def component : Emission.Component WorkspaceListModel Op Signal Bool := ⟨exec, allows⟩

end WorkspaceListModel

end BranchTalk.Desktop
