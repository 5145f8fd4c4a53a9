import Mathlib.Data.List.Infix

set_option autoImplicit false

/-! # What the list models use of Qt

Strings, variants, model indexes and the signals of `QAbstractItemModel`, as far as the two list
models of the desktop program read or emit them. A list model has one column and no children, so an
index is a row and a column, and its parent is the invalid index. Row numbers and counts are the
integers of the C++ code; a size that is cast to `int` is exact for every list that an `int` can
number. -/

namespace BranchTalk.Desktop

/-- A UTF-16 code unit. -/
abbrev QChar := UInt16

abbrev QString := List QChar

/-- `QStringLiteral`, for texts of the basic plane. -/
def qStringLiteral (s : String) : QString := s.toList.map fun c => c.toNat.toUInt16

/-- The values the models store in a `QVariant`; `invalid` is `QVariant{}`. -/
inductive QVariant where
  | invalid
  | string (value : QString)
  | bool (value : Bool)
  | int (value : Int)
  deriving DecidableEq, Repr

/-- How Qt classifies characters and compares texts. The models use it through `trimmed` and
    `contains`. -/
structure QtText where
  isSpace : QChar → Bool
  /-- `QString::contains(needle, Qt::CaseInsensitive)`, the text first. -/
  contains : QString → QString → Bool

/-- `QString::trimmed`. -/
def QtText.trimmed (text : QtText) (s : QString) : QString :=
  (((s.dropWhile text.isSpace).reverse).dropWhile text.isSpace).reverse

namespace QtText

/-- Case folding of an ASCII character. -/
def asciiFold (c : QChar) : QChar := if 0x41 ≤ c ∧ c ≤ 0x5A then c + 0x20 else c

/-- How Qt treats ASCII texts. -/
def ascii : QtText where
  isSpace c := c == 0x20 || (decide (0x09 ≤ c) && decide (c ≤ 0x0D))
  contains s needle := decide (needle.map asciiFold <:+: s.map asciiFold)

end QtText

structure QModelIndex where
  row : Int
  column : Int
  deriving DecidableEq, Repr

namespace QModelIndex

/-- `QModelIndex{}`. -/
def none : QModelIndex := ⟨-1, -1⟩

def isValid (index : QModelIndex) : Bool := decide (0 ≤ index.row) && decide (0 ≤ index.column)

/-- `QAbstractListModel::parent`: rows of a list have no parent. -/
def parent (_ : QModelIndex) : QModelIndex := none

end QModelIndex

/-- `QAbstractListModel::index` under the root of a list with `rowCount` rows. -/
def listIndex (rowCount row column : Int) : QModelIndex :=
  if 0 ≤ row ∧ 0 ≤ column ∧ row < rowCount ∧ column < 1 then ⟨row, column⟩ else QModelIndex.none

/-- The signals of `QAbstractItemModel` with their arguments. `beginInsertRows` and
    `beginRemoveRows` emit the `AboutToBe` signals, `endInsertRows` and `endRemoveRows` the others. -/
inductive ItemSignal (Role : Type) where
  | rowsAboutToBeInserted (first last : Int)
  | rowsInserted (first last : Int)
  | rowsAboutToBeRemoved (first last : Int)
  | rowsRemoved (first last : Int)
  | dataChanged (topLeft bottomRight : QModelIndex) (roles : List Role)
  | modelReset
  deriving DecidableEq, Repr

@[simp] theorem QModelIndex.not_isValid_none : QModelIndex.none.isValid = false := rfl

@[simp] theorem QModelIndex.parent_isValid (index : QModelIndex) :
    index.parent.isValid = false := rfl

/-- Inside the list, `index(row, 0)` is that row. -/
theorem listIndex_of_lt {rowCount row : Int} (h₀ : 0 ≤ row) (h : row < rowCount) :
    listIndex rowCount row 0 = ⟨row, 0⟩ := by
  simp [listIndex, h₀, h]

theorem listIndex_isValid_iff (rowCount row : Int) :
    (listIndex rowCount row 0).isValid = true ↔ 0 ≤ row ∧ row < rowCount := by
  by_cases h : 0 ≤ row ∧ row < rowCount
  · simp [listIndex_of_lt h.1 h.2, QModelIndex.isValid, h]
  · have : listIndex rowCount row 0 = QModelIndex.none := if_neg fun hc => h ⟨hc.1, hc.2.2.1⟩
    simp [this, h]

end BranchTalk.Desktop
