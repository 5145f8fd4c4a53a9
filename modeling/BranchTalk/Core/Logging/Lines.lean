import BranchTalk.Core.Logging.Output
import BranchTalk.Lines
import Mathlib.Data.List.Infix

set_option autoImplicit false

/-! # The lines of the log

The library writes a line end behind each record, by the platform. It copies the texts as they are, so a
text that contains a line end makes lines of its own. -/

namespace BranchTalk.Core.Logging

/-! ## Line ends -/

/-- The line end that the library writes. -/
inductive Eol where
  | lf
  | crlf
  deriving DecidableEq, Repr

def Eol.bytes : Eol → Bytes
  | .lf => [0x0A]
  | .crlf => [0x0D, 0x0A]

theorem Eol.unbordered (eol : Eol) :
    ∀ part ∈ eol.bytes.inits, part ∈ eol.bytes.tails → part = [] ∨ part = eol.bytes := by
  cases eol <;> decide

def Eol.lineEnd (eol : Eol) : Lines.LineEnd UInt8 where
  chars := eol.bytes
  chars_ne := by cases eol <;> simp [Eol.bytes]
  unbordered part hprefix hsuffix :=
    eol.unbordered part ((List.mem_inits ..).mpr hprefix) ((List.mem_tails ..).mpr hsuffix)

/-- The text has no control characters. -/
def Plain (text : Bytes) : Prop := ∀ b ∈ text, 0x20 ≤ b.toNat

instance (text : Bytes) : Decidable (Plain text) :=
  inferInstanceAs (Decidable (∀ b ∈ text, 0x20 ≤ b.toNat))

theorem plain_nil : Plain [] := List.forall_mem_nil _

theorem Plain.append {text text' : Bytes} (h : Plain text) (h' : Plain text') :
    Plain (text ++ text') :=
  List.forall_mem_append.mpr ⟨h, h'⟩

theorem Plain.not_mem {text : Bytes} (h : Plain text) (eol : Eol) : ∀ b ∈ text, b ∉ eol.bytes := by
  intro b hb hmem
  have hcontrol : ∀ b ∈ eol.bytes, b.toNat < 0x20 := by
    cases eol <;> decide +kernel
  exact absurd (h b hb) (not_le.mpr (hcontrol b hmem))

theorem Plain.infix_left_iff {before : Bytes} (h : Plain before) (eol : Eol) (text : Bytes) :
    eol.bytes <:+: before ++ text ↔ eol.bytes <:+: text :=
  Lines.infix_append_left_iff eol.lineEnd.chars_ne (h.not_mem eol)

theorem Plain.infix_right_iff {after : Bytes} (h : Plain after) (eol : Eol) (text : Bytes) :
    eol.bytes <:+: text ++ after ↔ eol.bytes <:+: text :=
  Lines.infix_append_right_iff eol.lineEnd.chars_ne (h.not_mem eol)

theorem Plain.no_eol {text : Bytes} (h : Plain text) (eol : Eol) : ¬ eol.bytes <:+: text := by
  have hiff := h.infix_left_iff eol []
  rw [List.append_nil] at hiff
  exact fun hinfix => eol.lineEnd.chars_ne (List.infix_nil.mp (hiff.mp hinfix))

/-! ## Calls -/

/-- What the record of a write begins with. -/
def head : Call → Bytes
  | .writeLog category level _ => record category level []
  | .writeSensitive category level _ _ => record category level []
  | _ => []

/-- What a caller may choose freely in it. -/
def text : Call → Bytes
  | .writeLog _ _ message => message
  | .writeSensitive _ _ fieldName _ => fieldName
  | _ => []

def tail : Call → Bytes
  | .writeSensitive .. => ascii "=<redacted>"
  | _ => []

/-- The call is a write that passes the threshold. -/
def passesWrite (threshold : LogLevel) : Call → Bool
  | .writeLog _ level _ => passes threshold level
  | .writeSensitive _ level _ _ => passes threshold level
  | _ => false

/-- The writes that pass, in call order. -/
def passing (threshold : LogLevel) : List Call → List Call
  | [] => []
  | call :: calls =>
      (if passesWrite threshold call then [call] else []) ++
        passing (levelAfter threshold call) calls

theorem passing_subset (threshold : LogLevel) (calls : List Call) :
    passing threshold calls ⊆ calls := by
  induction calls generalizing threshold with
  | nil => exact List.Subset.refl _
  | cons call calls ih =>
      rw [passing]
      refine List.append_subset.mpr ⟨?_, List.subset_cons_of_subset _ (ih _)⟩
      split
      · exact List.cons_subset_cons _ (List.nil_subset _)
      · exact List.nil_subset _

theorem head_plain (call : Call) : Plain (head call) := by
  have hrecord : ∀ category level, Plain (record category level []) := by
    intro category level
    cases category <;> cases level <;> decide +kernel
  cases call with
  | writeLog category level message => exact hrecord category level
  | writeSensitive category level fieldName value => exact hrecord category level
  | _ => exact plain_nil

theorem tail_plain (call : Call) : Plain (tail call) := by
  cases call with
  | writeSensitive category level fieldName value =>
      have hredacted : Plain (ascii "=<redacted>") := by decide +kernel
      exact hredacted
  | _ => exact plain_nil

theorem callRecords_passes (threshold : LogLevel) (call : Call) :
    callRecords passes threshold call =
      (if passesWrite threshold call then [call] else []).map
        fun call => head call ++ text call ++ tail call := by
  cases call with
  | writeLog category level message =>
      cases h : passes threshold level <;>
        simp [callRecords, passesWrite, h, head, text, tail, record]
  | writeSensitive category level fieldName value =>
      cases h : passes threshold level <;>
        simp [callRecords, passesWrite, h, head, text, tail, record]
  | _ => rfl

theorem records_passes (calls : List Call) (threshold : LogLevel) :
    records passes threshold calls =
      (passing threshold calls).map fun call => head call ++ text call ++ tail call := by
  induction calls generalizing threshold with
  | nil => rfl
  | cons call calls ih => rw [records, passing, callRecords_passes, ih, List.map_append]

/-! ## Lines -/

/-- The output, with a line end behind each record. -/
def written (eol : Eol) (s : State) : Bytes := Lines.write eol.bytes s.output

/-- **One line for each write that passes**, beginning with the level and the category of the write. -/
def OneLineEach (lib : Spdlog) (eol : Eol) (calls : List Call) : Prop :=
  List.Forall₂ (fun call line => head call <+: line) (passing .info calls)
    (Lines.lines eol.bytes (written eol (run lib calls {})))

theorem infix_record_iff (eol : Eol) (call : Call) :
    eol.bytes <:+: head call ++ text call ++ tail call ↔ eol.bytes <:+: text call := by
  rw [(tail_plain call).infix_right_iff, (head_plain call).infix_left_iff]

/-- **There is one line for each write** exactly when no text contains a line end. -/
theorem oneLineEach_iff {lib : Spdlog} (hlib : lib.Documented) (eol : Eol) (calls : List Call) :
    OneLineEach lib eol calls ↔ ∀ call ∈ passing .info calls, ¬ eol.bytes <:+: text call := by
  unfold OneLineEach written
  rw [run_output hlib, records_passes]
  constructor
  · intro hlines call hcall
    have hlength := hlines.length_eq
    rw [← List.length_map (fun call => head call ++ text call ++ tail call)] at hlength
    have hrecords := (Lines.length_lines_write_eq_iff eol.lineEnd _).mp hlength.symm
    rw [← infix_record_iff]
    exact hrecords _ (List.mem_map_of_mem hcall)
  · intro h
    have hrecords : ∀ r ∈ (passing .info calls).map fun call => head call ++ text call ++ tail call,
        ¬ eol.bytes <:+: r := by
      rw [List.forall_mem_map]
      intro call hcall
      exact mt (infix_record_iff eol call).mp (h call hcall)
    have hlines := Lines.lines_write eol.lineEnd hrecords
    rw [show eol.bytes = eol.lineEnd.chars from rfl, hlines, List.forall₂_map_right_iff,
      List.forall₂_same]
    intro call _
    rw [List.append_assoc]
    exact List.prefix_append ..

end BranchTalk.Core.Logging
