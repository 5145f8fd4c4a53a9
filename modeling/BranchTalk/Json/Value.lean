import Mathlib.Data.List.Lex
import Mathlib.Data.List.Sort
import Mathlib.Data.UInt

set_option autoImplicit false

/-! # JSON values and documents

A value as it is written keeps the members of an object in the order of the text, a repeated name
with each of its values. A document keeps, for every name, the last value written for it, and its
members are ordered by name. -/

namespace Json

abbrev Bytes : Type := List UInt8

/-- The bytes of an ASCII text. -/
def ascii (s : String) : Bytes := s.toList.map fun c => c.toNat.toUInt8

/-- The parts of a number literal, as written. -/
structure Number where
  negative : Bool
  integer : Bytes
  fraction : Option Bytes
  /-- The letter, the sign if there is one, and the digits. -/
  exponent : Option (UInt8 × Option UInt8 × Bytes)
  deriving DecidableEq, Repr

inductive Value where
  | null
  | bool (b : Bool)
  | number (n : Number)
  | string (s : Bytes)
  | array (values : List Value)
  | object (members : List (Bytes × Value))

/-- A name and its value. -/
abbrev Member : Type := Bytes × Value

/-! ## Maps ordered by key -/

/-- The lexicographic order of byte strings. -/
def Before (k k' : Bytes) : Prop := k.map UInt8.toNat < k'.map UInt8.toNat

instance (k k' : Bytes) : Decidable (Before k k') :=
  inferInstanceAs (Decidable (k.map UInt8.toNat < k'.map UInt8.toNat))

theorem Before.trans {a b c : Bytes} (h : Before a b) (h' : Before b c) : Before a c :=
  lt_trans h h'

theorem Before.ne {a b : Bytes} (h : Before a b) : a ≠ b := by
  rintro rfl
  exact lt_irrefl _ h

/-- Two keys neither of which stands before the other are equal. -/
theorem eq_of_not_before {a b : Bytes} (h : ¬ Before a b) (h' : ¬ Before b a) : a = b := by
  have hmap : a.map UInt8.toNat = b.map UInt8.toNat := le_antisymm (not_lt.mp h') (not_lt.mp h)
  exact List.map_injective_iff.mpr (fun _ _ => UInt8.toNat_inj.mp) hmap

/-- Members in the strict order of their names. -/
def Ordered (members : List Member) : Prop := (members.map Prod.fst).Pairwise Before

theorem ordered_nil : Ordered [] := List.Pairwise.nil

/-- Store a value under a name, in place of the one stored there. -/
def insertOrAssign (name : Bytes) (value : Value) : List Member → List Member
  | [] => [(name, value)]
  | m :: rest =>
      if Before name m.1 then (name, value) :: m :: rest
      else if Before m.1 name then m :: insertOrAssign name value rest
      else (name, value) :: rest

theorem mem_insertOrAssign {name : Bytes} {value : Value} {members : List Member}
    (h : Ordered members) (m : Member) :
    m ∈ insertOrAssign name value members ↔ m = (name, value) ∨ m ∈ members ∧ m.1 ≠ name := by
  induction members with
  | nil => simp [insertOrAssign]
  | cons m₀ rest ih =>
      obtain ⟨hfirst, hrest⟩ := List.pairwise_cons.mp h
      have hafter : ∀ m' ∈ rest, Before m₀.1 m'.1 := fun m' hm' =>
        hfirst _ (List.mem_map_of_mem hm')
      unfold insertOrAssign
      split
      · next hlt =>
          -- every name in the list comes after the new one
          have hne : ∀ m' ∈ m₀ :: rest, m'.1 ≠ name := by
            intro m' hm'
            rcases List.mem_cons.mp hm' with rfl | hm'
            · exact hlt.ne.symm
            · exact (hlt.trans (hafter m' hm')).ne.symm
          rw [List.mem_cons]
          exact or_congr_right ⟨fun hm => ⟨hm, hne m hm⟩, And.left⟩
      · next hlt =>
          split
          · next hgt =>
              rw [List.mem_cons, ih hrest, List.mem_cons]
              constructor
              · rintro (rfl | rfl | ⟨hm, hne⟩)
                · exact Or.inr ⟨Or.inl rfl, hgt.ne⟩
                · exact Or.inl rfl
                · exact Or.inr ⟨Or.inr hm, hne⟩
              · rintro (rfl | ⟨rfl | hm, hne⟩)
                · exact Or.inr (Or.inl rfl)
                · exact Or.inl rfl
                · exact Or.inr (Or.inr ⟨hm, hne⟩)
          · next hgt =>
              have heq : m₀.1 = name := (eq_of_not_before hlt hgt).symm
              rw [List.mem_cons, List.mem_cons]
              refine or_congr_right ⟨fun hm => ⟨Or.inr hm, ?_⟩, ?_⟩
              · rw [← heq]
                exact (hafter m hm).ne.symm
              · rintro ⟨rfl | hm, hne⟩
                · exact absurd heq hne
                · exact hm

theorem ordered_insertOrAssign {name : Bytes} {value : Value} {members : List Member}
    (h : Ordered members) : Ordered (insertOrAssign name value members) := by
  induction members with
  | nil => exact List.pairwise_singleton _ _
  | cons m₀ rest ih =>
      obtain ⟨hfirst, hrest⟩ := List.pairwise_cons.mp h
      unfold insertOrAssign
      split
      · next hlt =>
          refine List.pairwise_cons.mpr ⟨?_, h⟩
          intro k hk
          rcases List.mem_cons.mp hk with rfl | hk
          · exact hlt
          · exact hlt.trans (hfirst k hk)
      · next hlt =>
          split
          · next hgt =>
              refine List.pairwise_cons.mpr ⟨?_, ih hrest⟩
              intro k hk
              obtain ⟨m, hm, rfl⟩ := List.mem_map.mp hk
              rcases (mem_insertOrAssign hrest m).mp hm with rfl | ⟨hm, -⟩
              · exact hgt
              · exact hfirst _ (List.mem_map_of_mem hm)
          · next hgt =>
              rw [← eq_of_not_before hlt hgt] at hfirst
              exact List.pairwise_cons.mpr ⟨hfirst, hrest⟩

/-- Where no name is repeated, looking one up finds its member. -/
theorem lookup_eq_some_iff_of_nodup {members : List Member} (h : (members.map Prod.fst).Nodup)
    {name : Bytes} {value : Value} : members.lookup name = some value ↔ (name, value) ∈ members := by
  rw [List.lookup_eq_some_iff]
  constructor
  · rintro ⟨before, after, rfl, -⟩
    exact List.mem_append_right _ (List.mem_cons_self ..)
  · intro hmem
    obtain ⟨before, after, rfl⟩ := List.append_of_mem hmem
    refine ⟨before, after, rfl, ?_⟩
    intro m hm
    have hne := (List.pairwise_append.mp (List.pairwise_map.mp h)).2.2 m hm (name, value)
      (List.mem_cons_self ..)
    simpa using hne.symm

theorem Ordered.nodup {members : List Member} (h : Ordered members) :
    (members.map Prod.fst).Nodup :=
  List.Pairwise.imp Before.ne h

theorem Ordered.lookup_eq_some_iff {members : List Member} (h : Ordered members) {name : Bytes}
    {value : Value} : members.lookup name = some value ↔ (name, value) ∈ members :=
  lookup_eq_some_iff_of_nodup h.nodup

/-! ## Documents -/

mutual

/-- The document of a value as written. -/
def Value.document : Value → Value
  | .array values => .array (documents values)
  | .object members => .object (documentMembers [] members)
  | .null => .null
  | .bool b => .bool b
  | .number n => .number n
  | .string s => .string s

def documents : List Value → List Value
  | [] => []
  | v :: rest => v.document :: documents rest

/-- Store the members of a text one after another. -/
def documentMembers (stored : List Member) : List Member → List Member
  | [] => stored
  | (name, v) :: rest => documentMembers (insertOrAssign name v.document stored) rest

end

/-- The members that no later member of the same name replaces. -/
def lastMembers : List Member → List Member
  | [] => []
  | m :: later => if later.any (·.1 == m.1) then lastMembers later else m :: lastMembers later

theorem lastMembers_sublist (members : List Member) : (lastMembers members).Sublist members := by
  induction members with
  | nil => exact List.Sublist.refl []
  | cons m later ih =>
      rw [lastMembers]
      split
      · exact ih.cons m
      · exact ih.cons_cons m

theorem mem_documentMembers {stored : List Member} (h : Ordered stored) (members : List Member)
    (m : Member) :
    m ∈ documentMembers stored members ↔
      (∃ w ∈ lastMembers members, m = (w.1, w.2.document)) ∨
        m ∈ stored ∧ ∀ w ∈ members, w.1 ≠ m.1 := by
  induction members generalizing stored with
  | nil => simp [documentMembers, lastMembers]
  | cons w rest ih =>
      obtain ⟨name, v⟩ := w
      rw [documentMembers, ih (ordered_insertOrAssign h), mem_insertOrAssign h, lastMembers]
      split
      · next hlater =>
          -- a later member of this name replaces the value just stored
          obtain ⟨w, hw, hname⟩ := List.any_eq_true.mp hlater
          have hname : w.1 = name := by simpa using hname
          refine or_congr_right ⟨?_, ?_⟩
          · rintro ⟨rfl | ⟨hm, hne⟩, hnone⟩
            · exact absurd hname (hnone w hw)
            · exact ⟨hm, List.forall_mem_cons.mpr ⟨hne.symm, hnone⟩⟩
          · rintro ⟨hm, hnone⟩
            obtain ⟨hne, hnone⟩ := List.forall_mem_cons.mp hnone
            exact ⟨Or.inr ⟨hm, hne.symm⟩, hnone⟩
      · next hlater =>
          have hnone : ∀ w ∈ rest, w.1 ≠ name := by
            intro w hw hname
            exact hlater (List.any_eq_true.mpr ⟨w, hw, by simpa using hname⟩)
          constructor
          · rintro (⟨w, hw, rfl⟩ | ⟨rfl | ⟨hm, hne⟩, hrest⟩)
            · exact Or.inl ⟨w, List.mem_cons_of_mem _ hw, rfl⟩
            · exact Or.inl ⟨(name, v), List.mem_cons_self .., rfl⟩
            · exact Or.inr ⟨hm, List.forall_mem_cons.mpr ⟨hne.symm, hrest⟩⟩
          · rintro (⟨w, hw, rfl⟩ | ⟨hm, hrest⟩)
            · rcases List.mem_cons.mp hw with rfl | hw
              · exact Or.inr ⟨Or.inl rfl, hnone⟩
              · exact Or.inl ⟨w, hw, rfl⟩
            · obtain ⟨hne, hrest⟩ := List.forall_mem_cons.mp hrest
              exact Or.inr ⟨Or.inr ⟨hm, hne.symm⟩, hrest⟩

/-- **The members of a document** are the last ones written of each name. -/
theorem mem_document_object {members : List Member} (m : Member) :
    m ∈ documentMembers [] members ↔ ∃ w ∈ lastMembers members, m = (w.1, w.2.document) := by
  rw [mem_documentMembers ordered_nil]
  simp

theorem ordered_documentMembers {stored : List Member} (h : Ordered stored)
    (members : List Member) : Ordered (documentMembers stored members) := by
  induction members generalizing stored with
  | nil => exact h
  | cons w rest ih => exact ih (ordered_insertOrAssign h)

end Json
