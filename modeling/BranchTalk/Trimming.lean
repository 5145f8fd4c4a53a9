import Mathlib.Data.List.DropRight

set_option autoImplicit false

/-! # Trimming lists

`trim blank` drops the blanks at both ends of a list. What is left is tight: it is empty, or starts and
ends with something that is not blank. A tight part that is not empty stops the trimming, wherever it
stands; everything here follows from that. -/

namespace Trimming

variable {α β : Type} {blank : α → Bool}

def trim (blank : α → Bool) (l : List α) : List α := (l.dropWhile blank).rdropWhile blank

/-- All of it is blank. -/
def Blank (blank : α → Bool) (l : List α) : Prop := ∀ x ∈ l, blank x = true

theorem blank_nil : Blank blank [] := by simp [Blank]

theorem blank_append_iff {l l' : List α} : Blank blank (l ++ l') ↔ Blank blank l ∧ Blank blank l' :=
  List.forall_mem_append

theorem blank_singleton_iff {x : α} : Blank blank [x] ↔ blank x = true := by simp [Blank]

/-- Neither end is blank. -/
structure Tight (blank : α → Bool) (l : List α) : Prop where
  front : l.dropWhile blank = l
  back : l.rdropWhile blank = l

theorem rdropWhile_eq_nil_iff {l : List α} : l.rdropWhile blank = [] ↔ Blank blank l := by
  simp [Blank, List.rdropWhile_eq_nil_iff]

theorem dropWhile_eq_nil_iff {l : List α} : l.dropWhile blank = [] ↔ Blank blank l := by
  simp [Blank, List.dropWhile_eq_nil_iff]

/-! ## A tight part stops the trimming -/

theorem dropWhile_append_tight {core : List α} (h : Tight blank core) (hne : core ≠ [])
    (before after : List α) :
    (before ++ core ++ after).dropWhile blank = before.dropWhile blank ++ core ++ after := by
  have hcore : (core ++ after).dropWhile blank = core ++ after := by
    rw [List.dropWhile_append, h.front]
    simp [hne]
  rw [List.append_assoc, List.dropWhile_append, hcore]
  split
  · next hblank => simp [List.isEmpty_iff.mp hblank]
  · simp

theorem rdropWhile_append_tight {core : List α} (h : Tight blank core) (hne : core ≠ [])
    (before after : List α) :
    (before ++ core ++ after).rdropWhile blank = before ++ core ++ after.rdropWhile blank := by
  have hreverse : Tight blank core.reverse :=
    ⟨by rw [← h.back, List.rdropWhile, List.reverse_reverse, List.dropWhile_idempotent],
      by rw [List.rdropWhile_reverse, h.front]⟩
  have hdrop := dropWhile_append_tight hreverse (by simpa using hne) after.reverse before.reverse
  rw [List.rdropWhile, List.reverse_append, List.reverse_append, ← List.append_assoc, hdrop]
  simp [List.rdropWhile]

/-- **Trimming around a tight part** trims what stands before it and what stands after it. -/
theorem trim_append_tight {core : List α} (h : Tight blank core) (hne : core ≠ [])
    (before after : List α) :
    trim blank (before ++ core ++ after) =
      before.dropWhile blank ++ core ++ after.rdropWhile blank := by
  rw [trim, dropWhile_append_tight h hne, rdropWhile_append_tight h hne]

/-! ## What trimming leaves -/

theorem trim_eq_nil_iff {l : List α} : trim blank l = [] ↔ Blank blank l := by
  rw [trim, rdropWhile_eq_nil_iff]
  constructor
  · intro h
    rw [← dropWhile_eq_nil_iff, ← List.dropWhile_idempotent, dropWhile_eq_nil_iff]
    exact h
  · intro h
    rw [dropWhile_eq_nil_iff.mpr h]
    exact blank_nil

/-- A list is what trimming leaves of it, between blanks. -/
theorem exists_eq_trim (blank : α → Bool) (l : List α) :
    ∃ before after, l = before ++ trim blank l ++ after ∧ Blank blank before ∧ Blank blank after := by
  refine ⟨l.takeWhile blank, (l.dropWhile blank).rtakeWhile blank, ?_, ?_, ?_⟩
  · rw [trim, List.append_assoc, List.rdropWhile_append_rtakeWhile, List.takeWhile_append_dropWhile]
  · exact fun x hx => List.mem_takeWhile_imp hx
  · exact fun x hx => List.mem_rtakeWhile_imp hx

theorem tight_trim (blank : α → Bool) (l : List α) : Tight blank (trim blank l) := by
  refine ⟨?_, List.rdropWhile_idempotent ..⟩
  by_cases hne : trim blank l = []
  · rw [hne]
    rfl
  · -- the front of what is left is the front of the list without its leading blanks
    have hprefix : trim blank l <+: l.dropWhile blank := List.rdropWhile_prefix _ _
    obtain ⟨after, hafter⟩ := hprefix
    have hdrop := List.dropWhile_idempotent blank l
    rw [← hafter, List.dropWhile_append] at hdrop
    split at hdrop
    · next hblank =>
        have hall := dropWhile_eq_nil_iff.mp (List.isEmpty_iff.mp hblank)
        have hnil := rdropWhile_eq_nil_iff.mpr hall
        rw [trim, List.rdropWhile_idempotent] at hnil
        exact absurd hnil hne
    · exact List.append_cancel_right hdrop

theorem trim_of_tight {l : List α} (h : Tight blank l) : trim blank l = l := by
  rw [trim, h.front, h.back]

theorem trim_trim (blank : α → Bool) (l : List α) : trim blank (trim blank l) = trim blank l :=
  trim_of_tight (tight_trim blank l)

/-- Blanks around a list do not matter. -/
theorem trim_append_blank {before after : List α} (hbefore : Blank blank before)
    (hafter : Blank blank after) (l : List α) :
    trim blank (before ++ l ++ after) = trim blank l := by
  by_cases hne : trim blank l = []
  · rw [hne, trim_eq_nil_iff, blank_append_iff, blank_append_iff]
    exact ⟨⟨hbefore, trim_eq_nil_iff.mp hne⟩, hafter⟩
  · obtain ⟨lead, trail, hl, hlead, htrail⟩ := exists_eq_trim blank l
    have hsplit : before ++ l ++ after = before ++ lead ++ trim blank l ++ (trail ++ after) := by
      conv_lhs => rw [hl]
      simp only [List.append_assoc]
    have hfront := dropWhile_eq_nil_iff.mpr (blank_append_iff.mpr ⟨hbefore, hlead⟩)
    have hback := rdropWhile_eq_nil_iff.mpr (blank_append_iff.mpr ⟨htrail, hafter⟩)
    rw [hsplit, trim_append_tight (tight_trim blank l) hne, hfront, hback, List.nil_append,
      List.append_nil]

theorem trim_concat {x : α} (hx : blank x = false) (l : List α) :
    trim blank (l ++ [x]) = l.dropWhile blank ++ [x] := by
  have htight : Tight blank [x] := ⟨by simp [hx], by simp [List.rdropWhile_singleton, hx]⟩
  simpa using trim_append_tight htight (by simp) l []

theorem trim_append_blank_right {l after : List α} (h : Blank blank after) :
    trim blank (l ++ after) = trim blank l :=
  trim_append_blank blank_nil h l

theorem length_trim_le (blank : α → Bool) (l : List α) : (trim blank l).length ≤ l.length := by
  obtain ⟨before, after, hl, -, -⟩ := exists_eq_trim blank l
  have hlength := congrArg List.length hl
  simp only [List.length_append] at hlength
  omega

/-- Trimming before or after a map that keeps blanks and others apart. -/
theorem trim_map {blank' : β → Bool} {f : α → β} (h : ∀ x, blank' (f x) = blank x) (l : List α) :
    trim blank' (l.map f) = (trim blank l).map f := by
  have hcomp : blank' ∘ f = blank := funext h
  simp only [trim, List.rdropWhile, List.dropWhile_map, ← List.map_reverse, hcomp]

/-- **Trimming is monotone**: a list that occurs in another still does when both are trimmed. -/
theorem trim_infix {l l' : List α} (h : l <:+: l') : trim blank l <:+: trim blank l' := by
  by_cases hne : trim blank l = []
  · rw [hne]
    exact List.nil_infix
  · obtain ⟨before, after, rfl⟩ := h
    obtain ⟨lead, trail, hl, -, -⟩ := exists_eq_trim blank l
    have hsplit : before ++ l ++ after = before ++ lead ++ trim blank l ++ (trail ++ after) := by
      conv_lhs => rw [hl]
      simp only [List.append_assoc]
    rw [hsplit, trim_append_tight (tight_trim blank l) hne]
    exact ⟨_, _, rfl⟩

end Trimming
