import Mathlib.Data.List.DropRight
import Mathlib.Data.List.Infix

set_option autoImplicit false

/-! # Records in lines

Records are written one after another, each with a line end behind it, and read back as lines. A record
that contains a line end itself comes back as several lines. A line end may have several characters, but
none of its beginnings is one of its ends, so two line ends never overlap. -/

namespace Lines

variable {α : Type}

structure LineEnd (α : Type) where
  chars : List α
  chars_ne : chars ≠ []
  unbordered : ∀ part, part <+: chars → part <:+ chars → part = [] ∨ part = chars

variable [DecidableEq α]

/-- Split a text behind each line end; `line` is what stands since the last one. A rest without a line
    end is a line too. -/
def splitFrom (lineEnd : List α) (line : List α) : List α → List (List α)
  | [] => if line = [] then [] else [line]
  | x :: rest =>
      if lineEnd <:+ line ++ [x] then
        (line ++ [x]).rdrop lineEnd.length :: splitFrom lineEnd [] rest
      else splitFrom lineEnd (line ++ [x]) rest

/-- The lines of a text. -/
def lines (lineEnd : List α) (text : List α) : List (List α) := splitFrom lineEnd [] text

/-- The text of some records. -/
def write (lineEnd : List α) (records : List (List α)) : List α :=
  records.flatMap fun record => record ++ lineEnd

example : lines [0, 1] (write [0, 1] [[7, 1], [], [0]]) = [[7, 1], [], [0]] := by decide

/-! ## One record -/

omit [DecidableEq α] in
/-- The beginning of a line end adds none to a text without one. -/
theorem not_infix_append (e : LineEnd α) {line part rest : List α} (h : ¬ e.chars <:+: line)
    (hpart : e.chars = part ++ rest) (hrest : rest ≠ []) : ¬ e.chars <:+: line ++ part := by
  rintro ⟨before, after, heq⟩
  rcases List.append_eq_append_iff.mp heq with ⟨a, hline, -⟩ | ⟨c, hbefore, hc⟩
  · exact h ⟨before, a, hline.symm⟩
  -- the line end would reach into the beginning, which is then one of its ends
  · have hlength := congrArg List.length hpart
    have hshort := congrArg List.length hc
    simp only [List.length_append] at hlength hshort
    have hpos := List.length_pos_iff.mpr hrest
    have hend : e.chars <:+ line ++ c := hbefore ▸ List.suffix_append before e.chars
    have hsuffix : c <:+ e.chars :=
      List.suffix_of_suffix_length_le (List.suffix_append line c) hend (by omega)
    have hprefix : c <+: e.chars := ⟨after ++ rest, by rw [hpart, hc, List.append_assoc]⟩
    rcases e.unbordered c hprefix hsuffix with rfl | rfl
    · rw [List.append_nil] at hbefore
      exact h ⟨before, [], by rw [List.append_nil, hbefore]⟩
    · omega

theorem splitFrom_append {lineEnd line text : List α} (h : ¬ lineEnd <:+: line ++ text)
    (rest : List α) :
    splitFrom lineEnd line (text ++ rest) = splitFrom lineEnd (line ++ text) rest := by
  induction text generalizing line with
  | nil => rw [List.append_nil, List.nil_append]
  | cons x text ih =>
      have hsplit : line ++ x :: text = line ++ [x] ++ text := by simp
      rw [hsplit] at h ⊢
      rw [List.cons_append, splitFrom, if_neg, ih h]
      intro hsuffix
      exact h (hsuffix.isInfix.trans (List.prefix_append ..).isInfix)

/-- A text without a line end is one line when a line end follows. -/
theorem splitFrom_lineEnd (e : LineEnd α) {line : List α} (h : ¬ e.chars <:+: line)
    (rest : List α) :
    splitFrom e.chars line (e.chars ++ rest) = line :: splitFrom e.chars [] rest := by
  obtain ⟨init, x, hx⟩ := List.eq_nil_or_concat e.chars |>.resolve_left e.chars_ne
  rw [List.concat_eq_append] at hx
  have hinit := not_infix_append e h hx (by simp)
  have hwhole : line ++ init ++ [x] = line ++ e.chars := by rw [hx, List.append_assoc]
  conv_lhs => rw [hx, List.append_assoc, ← hx]
  rw [splitFrom_append hinit, List.singleton_append, splitFrom, hwhole,
    if_pos (List.suffix_append ..), List.rdrop_append_length]

theorem splitFrom_record (e : LineEnd α) {record : List α} (h : ¬ e.chars <:+: record)
    (rest : List α) :
    splitFrom e.chars [] (record ++ e.chars ++ rest) = record :: splitFrom e.chars [] rest := by
  rw [List.append_assoc, splitFrom_append (by simpa using h), List.nil_append,
    splitFrom_lineEnd e h]

/-- A record is at least one line, and more if it contains a line end. -/
theorem length_splitFrom_record (e : LineEnd α) (record rest : List α) {line : List α}
    (h : ¬ e.chars <:+: line) :
    (splitFrom e.chars [] rest).length + 1 ≤
      (splitFrom e.chars line (record ++ e.chars ++ rest)).length ∧
    (e.chars <:+: line ++ record → (splitFrom e.chars [] rest).length + 1 <
      (splitFrom e.chars line (record ++ e.chars ++ rest)).length) := by
  induction record generalizing line with
  | nil =>
      rw [List.nil_append, splitFrom_lineEnd e h, List.append_nil]
      exact ⟨le_refl _, fun hline => absurd hline h⟩
  | cons x record ih =>
      rw [List.cons_append, List.cons_append, splitFrom]
      split
      · have hnil : ¬ e.chars <:+: [] := fun hn => e.chars_ne (List.infix_nil.mp hn)
        have hrest := (ih hnil).1
        rw [List.length_cons]
        exact ⟨by omega, fun _ => by omega⟩
      · next hsuffix =>
          have hnext : ¬ e.chars <:+: line ++ [x] := by
            rw [List.infix_concat_iff]
            exact not_or.mpr ⟨hsuffix, h⟩
          have hsplit : line ++ x :: record = line ++ [x] ++ record := by simp
          rw [hsplit]
          exact ih hnext

/-! ## All records -/

/-- **Records without a line end come back as they are.** -/
theorem lines_write (e : LineEnd α) {records : List (List α)}
    (h : ∀ record ∈ records, ¬ e.chars <:+: record) :
    lines e.chars (write e.chars records) = records := by
  induction records with
  | nil => rfl
  | cons record records ih =>
      obtain ⟨hrecord, hrecords⟩ := List.forall_mem_cons.mp h
      rw [lines, write, List.flatMap_cons, splitFrom_record e hrecord]
      exact congrArg _ (ih hrecords)

/-- There are as many lines as records at least, and more if some record contains a line end. -/
theorem length_lines_write (e : LineEnd α) (records : List (List α)) :
    records.length ≤ (lines e.chars (write e.chars records)).length ∧
    ((∃ record ∈ records, e.chars <:+: record) →
      records.length < (lines e.chars (write e.chars records)).length) := by
  induction records with
  | nil => exact ⟨Nat.zero_le _, by simp⟩
  | cons record records ih =>
      have hnil : ¬ e.chars <:+: [] := fun hn => e.chars_ne (List.infix_nil.mp hn)
      obtain ⟨hle, hlt⟩ := length_splitFrom_record e record (write e.chars records) hnil
      rw [lines] at ih
      rw [lines, write, List.flatMap_cons, List.length_cons]
      refine ⟨Nat.le_trans (Nat.succ_le_succ ih.1) hle, ?_⟩
      rintro ⟨r, hr, hinfix⟩
      rcases List.mem_cons.mp hr with rfl | hr
      · exact Nat.lt_of_le_of_lt (Nat.succ_le_succ ih.1) (hlt hinfix)
      · exact Nat.lt_of_lt_of_le (Nat.succ_lt_succ (ih.2 ⟨r, hr, hinfix⟩)) hle

/-- **As many lines as records** come back exactly when no record contains a line end. -/
theorem length_lines_write_eq_iff (e : LineEnd α) (records : List (List α)) :
    (lines e.chars (write e.chars records)).length = records.length ↔
      ∀ record ∈ records, ¬ e.chars <:+: record := by
  constructor
  · intro hlength record hrecord hinfix
    exact absurd hlength ((length_lines_write e records).2 ⟨record, hrecord, hinfix⟩).ne'
  · intro h
    rw [lines_write e h]

/-! ## Parts of a record -/

omit [DecidableEq α] in
/-- Characters that are in no line end add none in front. -/
theorem infix_append_left_iff {e before text : List α} (hne : e ≠ []) (h : ∀ x ∈ before, x ∉ e) :
    e <:+: before ++ text ↔ e <:+: text := by
  induction before with
  | nil => rfl
  | cons x before ih =>
      obtain ⟨hx, hbefore⟩ := List.forall_mem_cons.mp h
      rw [List.cons_append, List.infix_cons_iff, ih hbefore, or_iff_right]
      intro hprefix
      obtain ⟨y, e, rfl⟩ := List.exists_cons_of_ne_nil hne
      obtain ⟨rfl, -⟩ := List.cons_prefix_cons.mp hprefix
      exact hx (List.mem_cons_self ..)

omit [DecidableEq α] in
theorem infix_append_right_iff {e after text : List α} (hne : e ≠ []) (h : ∀ x ∈ after, x ∉ e) :
    e <:+: text ++ after ↔ e <:+: text := by
  rw [← List.reverse_infix, List.reverse_append, infix_append_left_iff (by simpa using hne)
    (by simpa using h), List.reverse_infix]

end Lines
