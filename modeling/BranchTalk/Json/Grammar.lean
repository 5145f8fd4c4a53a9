import BranchTalk.Json.Value

set_option autoImplicit false

/-! # The JSON grammar

Texts over bytes, with strings in UTF-8. Every relation is about the front of a byte string: it
holds of what is spelled, a byte string that begins with a spelling of it, and the bytes that
follow. -/

namespace Json

/-! ## Characters -/

def quote : UInt8 := 0x22
def backslash : UInt8 := 0x5C
def comma : UInt8 := 0x2C
def colon : UInt8 := 0x3A

/-- Space, tab, line feed and carriage return. -/
def isWhitespace (b : UInt8) : Bool := b == 0x20 || b == 0x09 || b == 0x0A || b == 0x0D

def isDigit (b : UInt8) : Bool := decide (0x30 ≤ b) && decide (b ≤ 0x39)

/-- `r` follows `s` after white space. -/
def Ws (s r : Bytes) : Prop := ∃ w, s = w ++ r ∧ ∀ b ∈ w, isWhitespace b = true

/-! ## Numbers -/

/-- A run of at least one digit. -/
def Digits (ds : Bytes) : Prop := ds ≠ [] ∧ ∀ b ∈ ds, isDigit b = true

/-- The parts are spelled as the grammar asks. -/
structure Number.Wf (n : Number) : Prop where
  integer : Digits n.integer ∧ (n.integer.head? = some 0x30 → n.integer = [0x30])
  fraction : ∀ ds ∈ n.fraction, Digits ds
  exponent : ∀ e ∈ n.exponent, (e.1 = 0x65 ∨ e.1 = 0x45) ∧
    (∀ sign ∈ e.2.1, sign = 0x2B ∨ sign = 0x2D) ∧ Digits e.2.2

def Number.fractionText (fraction : Option Bytes) : Bytes := fraction.elim [] fun ds => 0x2E :: ds

def Number.exponentText (exponent : Option (UInt8 × Option UInt8 × Bytes)) : Bytes :=
  exponent.elim [] fun e => e.1 :: (e.2.1.toList ++ e.2.2)

/-- The literal. -/
def Number.text (n : Number) : Bytes :=
  (if n.negative then [0x2D] else []) ++
    (n.integer ++ (fractionText n.fraction ++ exponentText n.exponent))

/-! ## Strings -/

/-- The value of a hexadecimal digit. -/
def hexValue (b : UInt8) : Option ℕ :=
  if 0x30 ≤ b ∧ b ≤ 0x39 then some (b.toNat - 0x30)
  else if 0x41 ≤ b ∧ b ≤ 0x46 then some (b.toNat - 0x41 + 10)
  else if 0x61 ≤ b ∧ b ≤ 0x66 then some (b.toNat - 0x61 + 10)
  else none

/-- Four hexadecimal digits at the front of `s`. -/
inductive Hex4 : ℕ → Bytes → Bytes → Prop
  | digits {a b c d : UInt8} {va vb vc vd : ℕ} (ha : hexValue a = some va) (hb : hexValue b = some vb)
      (hc : hexValue c = some vc) (hd : hexValue d = some vd) (r : Bytes) :
      Hex4 (((va * 16 + vb) * 16 + vc) * 16 + vd) (a :: b :: c :: d :: r) r

/-- The one-letter escapes, each with the byte it stands for. -/
def simpleEscapes : List (UInt8 × UInt8) :=
  [(0x22, 0x22), (0x5C, 0x5C), (0x2F, 0x2F), (0x62, 0x08), (0x66, 0x0C), (0x6E, 0x0A),
    (0x72, 0x0D), (0x74, 0x09)]

def isHighSurrogate (v : ℕ) : Bool := decide (0xD800 ≤ v) && decide (v < 0xDC00)

def isLowSurrogate (v : ℕ) : Bool := decide (0xDC00 ≤ v) && decide (v < 0xE000)

/-- The bytes of a code point. -/
def encode (v : ℕ) : Bytes := String.utf8EncodeChar (Char.ofNat v)

/-- What a backslash stands for, by the bytes after it. -/
inductive Escape : Bytes → Bytes → Bytes → Prop
  | simple {letter byte : UInt8} (h : (letter, byte) ∈ simpleEscapes) (r : Bytes) :
      Escape [byte] (letter :: r) r
  | unicode {v : ℕ} {s r : Bytes} (h : Hex4 v s r) (hhigh : isHighSurrogate v = false)
      (hlow : isLowSurrogate v = false) : Escape (encode v) (0x75 :: s) r
  | pair {hi lo : ℕ} {s s' r : Bytes} (h : Hex4 hi s (backslash :: 0x75 :: s'))
      (hhigh : isHighSurrogate hi = true) (h' : Hex4 lo s' r) (hlow : isLowSurrogate lo = true) :
      Escape (encode (0x10000 + (hi - 0xD800) * 0x400 + (lo - 0xDC00))) (0x75 :: s) r

/-- The rest of a string after its opening quote, up to and with the closing one. -/
inductive Chars : Bytes → Bytes → Bytes → Prop
  | close (r : Bytes) : Chars [] (quote :: r) r
  | char {c : Char} {ds s r : Bytes} (hctl : 0x20 ≤ c.val) (hquote : c ≠ '"')
      (hbackslash : c ≠ '\\') (h : Chars ds s r) :
      Chars (String.utf8EncodeChar c ++ ds) (String.utf8EncodeChar c ++ s) r
  | escape {d ds s s' r : Bytes} (hesc : Escape d s s') (h : Chars ds s' r) :
      Chars (d ++ ds) (backslash :: s) r

/-! ## Values -/

inductive Container where
  | array
  | object
  deriving DecidableEq, Repr

namespace Container

def opening : Container → UInt8
  | array => 0x5B
  | object => 0x7B

def closing : Container → UInt8
  | array => 0x5D
  | object => 0x7D

/-- The value with these items; the items of an array have empty names. -/
def build : Container → List Member → Value
  | array, items => .array (items.map Prod.snd)
  | object, items => .object items

/-- The name of an item with its colon; the items of an array have none. -/
def Key : Container → Bytes → Bytes → Bytes → Prop
  | array, name, s, r => name = [] ∧ r = s
  | object, name, s, r =>
      ∃ s₁ s₂, Ws s (quote :: s₁) ∧ Chars name s₁ s₂ ∧ Ws s₂ (colon :: r)

end Container

def literals : List (Bytes × Value) :=
  [(ascii "true", .bool true), (ascii "false", .bool false), (ascii "null", .null)]

/-- What a text can be of: a value, or the items of a container up to and with its closing mark. -/
inductive Goal where
  | value (v : Value)
  | items (c : Container) (items : List Member)

/-- **The grammar of values.** -/
inductive Text : Goal → Bytes → Bytes → Prop
  | literal {spelling : Bytes} {v : Value} (h : (spelling, v) ∈ literals) (r : Bytes) :
      Text (.value v) (spelling ++ r) r
  | number {n : Number} (h : n.Wf) (r : Bytes) : Text (.value (.number n)) (n.text ++ r) r
  | string {d s r : Bytes} (h : Chars d s r) : Text (.value (.string d)) (quote :: s) r
  | empty (c : Container) {s r : Bytes} (h : Ws s (c.closing :: r)) :
      Text (.value (c.build [])) (c.opening :: s) r
  | container {c : Container} {items : List Member} {s r : Bytes} (h : Text (.items c items) s r) :
      Text (.value (c.build items)) (c.opening :: s) r
  | last {c : Container} {name : Bytes} {v : Value} {s s₁ s₂ s₃ r : Bytes} (hkey : c.Key name s s₁)
      (hbefore : Ws s₁ s₂) (hv : Text (.value v) s₂ s₃) (hafter : Ws s₃ (c.closing :: r)) :
      Text (.items c [(name, v)]) s r
  | item {c : Container} {name : Bytes} {v : Value} {items : List Member} {s s₁ s₂ s₃ s₄ r : Bytes}
      (hkey : c.Key name s s₁) (hbefore : Ws s₁ s₂) (hv : Text (.value v) s₂ s₃)
      (hafter : Ws s₃ (comma :: s₄)) (hitems : Text (.items c items) s₄ r) :
      Text (.items c ((name, v) :: items)) s r

/-- The whole byte string is a text of the value, with nothing but white space around it. -/
def IsText (v : Value) (s : Bytes) : Prop := ∃ s₁ s₂, Ws s s₁ ∧ Text (.value v) s₁ s₂ ∧ Ws s₂ []

/-! ## White space and lengths -/

theorem Ws.length_le {s r : Bytes} (h : Ws s r) : r.length ≤ s.length := by
  obtain ⟨w, rfl, -⟩ := h
  simp

/-- Only white space can come before a byte that is none. -/
theorem Ws.eq_of_not_whitespace {b : UInt8} {s r : Bytes} (h : Ws (b :: s) r)
    (hb : isWhitespace b = false) : r = b :: s := by
  obtain ⟨w, hw, hall⟩ := h
  cases w with
  | nil => exact hw.symm
  | cons b' w =>
      obtain ⟨rfl, -⟩ := List.cons.inj hw
      simp [hall b (List.mem_cons_self ..)] at hb

theorem Hex4.length {v : ℕ} {s r : Bytes} (h : Hex4 v s r) : s.length = r.length + 4 := by
  cases h
  simp

theorem Escape.length_lt {d s r : Bytes} (h : Escape d s r) : r.length < s.length := by
  cases h with
  | simple h r => simp
  | unicode h hhigh hlow =>
      have := h.length
      simp only [List.length_cons]
      omega
  | pair h hhigh h' hlow =>
      have := h.length
      have := h'.length
      simp only [List.length_cons] at *
      omega

theorem Chars.length_lt {d s r : Bytes} (h : Chars d s r) : r.length < s.length := by
  induction h with
  | close r => simp
  | char hctl hquote hbackslash h ih =>
      simp only [List.length_append]
      omega
  | escape hesc h ih =>
      have := hesc.length_lt
      simp only [List.length_cons]
      omega

theorem Container.Key.length_le {c : Container} {name s r : Bytes} (h : c.Key name s r) :
    r.length ≤ s.length := by
  cases c with
  | array => exact le_of_eq (congrArg List.length h.2)
  | object =>
      obtain ⟨s₁, s₂, hbefore, hname, hafter⟩ := h
      have h₁ := hbefore.length_le
      have h₂ := hname.length_lt
      have h₃ := hafter.length_le
      simp only [List.length_cons] at h₁ h₃
      omega

theorem Number.Wf.text_ne_nil {n : Number} (h : n.Wf) : n.text ≠ [] := by
  intro hnil
  simp only [Number.text, List.append_eq_nil_iff] at hnil
  exact h.integer.1.1 hnil.2.1

/-- A text is never empty. -/
theorem Text.length_lt {g : Goal} {s r : Bytes} (h : Text g s r) : r.length < s.length := by
  induction h with
  | literal h r =>
      simp only [literals, List.mem_cons, Prod.mk.injEq, List.not_mem_nil, or_false] at h
      rcases h with ⟨rfl, -⟩ | ⟨rfl, -⟩ | ⟨rfl, -⟩ <;> simp [ascii] <;> omega
  | number h r =>
      have := List.length_pos_iff.mpr h.text_ne_nil
      simp only [List.length_append]
      omega
  | string h =>
      have := h.length_lt
      simp only [List.length_cons]
      omega
  | empty c h =>
      have := h.length_le
      simp only [List.length_cons] at this ⊢
      omega
  | container h ih =>
      simp only [List.length_cons]
      omega
  | last hkey hbefore hv hafter ih =>
      have h₁ := hkey.length_le
      have h₂ := hbefore.length_le
      have h₃ := hafter.length_le
      simp only [List.length_cons] at h₃
      omega
  | item hkey hbefore hv hafter hitems ihv ihitems =>
      have h₁ := hkey.length_le
      have h₂ := hbefore.length_le
      have h₃ := hafter.length_le
      simp only [List.length_cons] at h₃
      omega

end Json
