import BranchTalk.Json.Correct

set_option autoImplicit false

/-! # Texts at which the reader stops for a number

The reader fails at a number that is too large for a double as soon as it comes to it, whatever
follows. Such byte strings have a grammar of their own: everything before the number is the beginning
of a text, and nothing is asked of what comes after. -/

namespace Json

/-- **The bytes come to a number that is too large** before they stop being the beginning of a value,
    or, inside a container, of its items. -/
inductive Exceeds : Option Container → Bytes → Prop
  | number {n : Number} {s r : Bytes} (h : number s = .ok (n, r)) (hlarge : n.tooLarge = true) :
      Exceeds none s
  | inside {c : Container} {s : Bytes} (h : Exceeds (some c) s) : Exceeds none (c.opening :: s)
  | item {c : Container} {name s s₁ s₂ : Bytes} (hkey : c.Key name s s₁) (hbefore : Ws s₁ s₂)
      (h : Exceeds none s₂) : Exceeds (some c) s
  | later {c : Container} {name : Bytes} {v : Value} {s s₁ s₂ s₃ s₄ : Bytes}
      (hkey : c.Key name s s₁) (hbefore : Ws s₁ s₂) (hv : Text (.value v) s₂ s₃)
      (hafter : Ws s₃ (comma :: s₄)) (h : Exceeds (some c) s₄) : Exceeds (some c) s

/-! ## The reader stops only there -/

theorem bind_eq_tooLarge {α β : Type} {x : Except Failure α} {f : α → Except Failure β} {n : Number} :
    x >>= f = .error (.tooLarge n) ↔
      x = .error (.tooLarge n) ∨ ∃ a, x = .ok a ∧ f a = .error (.tooLarge n) := by
  cases x with
  | error e => simp [bind, Except.bind]
  | ok a => simp [bind, Except.bind]

/-- A step of the reader that looks at no magnitude. -/
def OnlySyntax {α : Type} (x : Except Failure α) : Prop := ∀ n, x ≠ .error (.tooLarge n)

theorem onlySyntax_ok {α : Type} (a : α) : OnlySyntax (.ok a) := by
  intro n h
  cases h

theorem onlySyntax_error (α : Type) : OnlySyntax (.error .syntaxError : Except Failure α) := by
  intro n h
  cases h

theorem OnlySyntax.bind {α β : Type} {x : Except Failure α} {f : α → Except Failure β}
    (hx : OnlySyntax x) (hf : ∀ a, OnlySyntax (f a)) : OnlySyntax (x >>= f) := by
  intro n h
  rcases bind_eq_tooLarge.mp h with h | ⟨a, -, h⟩
  · exact hx n h
  · exact hf a n h

theorem onlySyntax_mark (b : UInt8) (s : Bytes) : OnlySyntax (mark b s) := by
  unfold mark
  split
  · split
    · exact onlySyntax_ok _
    · exact onlySyntax_error _
  · exact onlySyntax_error _

theorem onlySyntax_chars (fuel : ℕ) (s : Bytes) : OnlySyntax (chars fuel s) := by
  induction fuel generalizing s with
  | zero => exact onlySyntax_error _
  | succ fuel ih =>
      unfold chars
      split
      · exact onlySyntax_error _
      · split
        · exact onlySyntax_ok _
        · split
          · split
            · exact onlySyntax_error _
            · exact (ih _).bind fun _ => onlySyntax_ok _
          · split
            · exact onlySyntax_error _
            · exact (ih _).bind fun _ => onlySyntax_ok _

theorem onlySyntax_key (c : Container) (s : Bytes) : OnlySyntax (c.key s) := by
  cases c with
  | array => exact onlySyntax_ok _
  | object =>
      refine (onlySyntax_mark _ _).bind fun s₁ => (onlySyntax_chars _ s₁).bind fun k => ?_
      exact (onlySyntax_mark _ _).bind fun r => onlySyntax_ok _

theorem onlySyntax_digits (s : Bytes) : OnlySyntax (digits s) := by
  unfold digits
  split
  · exact onlySyntax_error _
  · exact onlySyntax_ok _

/-- Taking a number literal does not depend on its magnitude, which is looked at afterwards. -/
theorem onlySyntax_number (s : Bytes) : OnlySyntax (Json.number s) := by
  refine OnlySyntax.bind ?_ fun k₁ => OnlySyntax.bind ?_ fun k₂ => OnlySyntax.bind ?_ fun k₃ =>
    onlySyntax_ok _
  · unfold integerPart
    split
    · exact onlySyntax_ok _
    · exact onlySyntax_digits _
  · unfold fractionPart
    split
    · exact (onlySyntax_digits _).bind fun _ => onlySyntax_ok _
    · exact onlySyntax_ok _
  · unfold exponentPart
    split
    · exact onlySyntax_ok _
    · split
      · exact (onlySyntax_digits _).bind fun _ => onlySyntax_ok _
      · exact onlySyntax_ok _

theorem onlySyntax_literal (s : Bytes) : OnlySyntax (literal s) := by
  unfold literal
  split
  · exact onlySyntax_ok _
  · exact onlySyntax_error _

/-- Where one more call of `value` stops, if it is known where the items it reads stop. -/
theorem value_succ_exceeds {fuel : ℕ}
    (ihitems : ∀ c s n, items fuel c s = .error (.tooLarge n) → Exceeds (some c) s) {s : Bytes}
    {n : Number} (h : value (fuel + 1) s = .error (.tooLarge n)) : Exceeds none s := by
  cases s with
  | nil => simp [value] at h
  | cons b s =>
      unfold value at h
      split at h
      · rcases bind_eq_tooLarge.mp h with h | ⟨⟨d, r⟩, -, h⟩
        · exact absurd h (onlySyntax_chars _ _ n)
        · simp [pure, Except.pure] at h
      · split at h
        · next c hc =>
            obtain rfl := containerOf_eq_some_iff.mp hc
            split at h
            · simp at h
            · rcases bind_eq_tooLarge.mp h with h | ⟨⟨ms, r⟩, -, h⟩
              · exact .inside (ihitems c s n h)
              · simp [pure, Except.pure] at h
        · split at h
          · rcases bind_eq_tooLarge.mp h with h | ⟨⟨n', r⟩, hn, h⟩
            · exact absurd h (onlySyntax_number _ n)
            · dsimp only at h
              split at h
              · next hlarge => exact .number hn hlarge
              · simp [pure, Except.pure] at h
          · exact absurd h (onlySyntax_literal _ n)

/-- Where one more call of `items` stops: neither keys nor marks look at a magnitude, so the number
    is in a value. -/
theorem items_succ_exceeds {fuel : ℕ}
    (ihvalue : ∀ s n, value fuel s = .error (.tooLarge n) → Exceeds none s)
    (ihitems : ∀ c s n, items fuel c s = .error (.tooLarge n) → Exceeds (some c) s) {c : Container}
    {s : Bytes} {n : Number} (h : items (fuel + 1) c s = .error (.tooLarge n)) :
    Exceeds (some c) s := by
  unfold items at h
  rcases bind_eq_tooLarge.mp h with h | ⟨⟨name, s₁⟩, hkey, h⟩
  · exact absurd h (onlySyntax_key c s n)
  have hkey := key_eq_ok_iff.mp hkey
  rcases bind_eq_tooLarge.mp h with h | ⟨⟨v, s₂⟩, hv, h⟩
  · exact .item hkey (ws_skipWhitespace s₁) (ihvalue _ n h)
  have hv := (value_sound fuel).1 _ v s₂ hv
  dsimp only at h
  split at h
  · next s₃ hcomma =>
      rcases bind_eq_tooLarge.mp h with h | ⟨⟨ms, r⟩, -, h⟩
      · exact .later hkey (ws_skipWhitespace s₁) hv ((mark_eq_ok_iff rfl).mp hcomma)
          (ihitems c s₃ n h)
      · simp [pure, Except.pure] at h
  · rcases bind_eq_tooLarge.mp h with h | ⟨r, -, h⟩
    · exact absurd h (onlySyntax_mark _ _ n)
    · simp [pure, Except.pure] at h

theorem value_exceeds (fuel : ℕ) :
    (∀ s n, value fuel s = .error (.tooLarge n) → Exceeds none s) ∧
    ∀ c s n, items fuel c s = .error (.tooLarge n) → Exceeds (some c) s := by
  induction fuel with
  | zero => exact ⟨fun s n h => by simp [value] at h, fun c s n h => by simp [items] at h⟩
  | succ fuel ih =>
      exact ⟨fun s n h => value_succ_exceeds ih.2 h, fun c s n h => items_succ_exceeds ih.1 ih.2 h⟩

/-! ## The reader always stops there -/

theorem number_cons {s r : Bytes} {n : Number} (h : Json.number s = .ok (n, r)) :
    ∃ b s', s = b :: s' ∧ (b = 0x2D ∨ isDigit b = true) := by
  obtain ⟨hwf, rfl⟩ := number_sound h
  obtain ⟨b, t, hb⟩ := List.exists_cons_of_ne_nil hwf.text_ne_nil
  exact ⟨b, t ++ r, by rw [hb]; rfl, number_start hwf hb⟩

/-- Such bytes begin like a value. -/
theorem Exceeds.head {s : Bytes} (h : Exceeds none s) :
    ∃ b s', s = b :: s' ∧ isWhitespace b = false ∧ b ≠ Container.array.closing := by
  cases h with
  | number h hlarge =>
      obtain ⟨b, s', rfl, hb⟩ := number_cons h
      obtain ⟨hws, hne, -⟩ := number_byte hb
      exact ⟨b, s', rfl, hws, hne⟩
  | @inside c s h => exact ⟨c.opening, s, rfl, by cases c <;> decide⟩

theorem Exceeds.mark_closing {c : Container} {s : Bytes} (h : Exceeds (some c) s) :
    ∃ e, mark c.closing s = .error e := by
  cases h with
  | item hkey hbefore h =>
      obtain ⟨b, s', rfl, hb, hne⟩ := h.head
      exact mark_closing_of_key hkey hbefore hb hne
  | later hkey hbefore hv hafter h =>
      obtain ⟨b, s', rfl, hb, hne, -⟩ := hv.head
      exact mark_closing_of_key hkey hbefore hb hne

/-- The reader stops at a number that is too large. -/
def Stops : Option Container → Bytes → Prop
  | none, s => ∀ fuel, 2 * s.length < fuel → ∃ n, value fuel s = .error (.tooLarge n)
  | some c, s => ∀ fuel, 2 * s.length + 1 < fuel → ∃ n, items fuel c s = .error (.tooLarge n)

theorem Exceeds.stops {g : Option Container} {s : Bytes} (h : Exceeds g s) : Stops g s := by
  induction h with
  | @number n s r h hlarge =>
      intro fuel hfuel
      obtain ⟨b, s', rfl, hb⟩ := number_cons h
      cases fuel with
      | zero => omega
      | succ fuel =>
          rw [value_number hb, h]
          exact ⟨n, if_pos hlarge⟩
  | @inside c s h ih =>
      intro fuel hfuel
      cases fuel with
      | zero => omega
      | succ fuel =>
          obtain ⟨e, hclosing⟩ := h.mark_closing
          simp only [List.length_cons] at hfuel
          obtain ⟨n, hn⟩ := ih fuel (by omega)
          rw [value_opening, hclosing]
          exact ⟨n, bind_eq_tooLarge.mpr (Or.inl hn)⟩
  | @item c name s s₁ s₂ hkey hbefore h ih =>
      intro fuel hfuel
      cases fuel with
      | zero => omega
      | succ fuel =>
          obtain ⟨b, s', rfl, hb, -⟩ := h.head
          have hskip : skipWhitespace s₁ = b :: s' := by
            rw [hbefore.skipWhitespace_eq, skipWhitespace_cons hb]
          have hlen₁ := hkey.length_le
          have hlen₂ := hbefore.length_le
          obtain ⟨n, hn⟩ := ih fuel (by omega)
          refine ⟨n, ?_⟩
          rw [items, key_eq_ok_iff.mpr hkey]
          refine bind_eq_tooLarge.mpr (Or.inr ⟨_, rfl, bind_eq_tooLarge.mpr (Or.inl ?_)⟩)
          rw [hskip]
          exact hn
  | @later c name v s s₁ s₂ s₃ s₄ hkey hbefore hv hafter h ih =>
      intro fuel hfuel
      cases fuel with
      | zero => omega
      | succ fuel =>
          -- a number too large may already stand in the value before
          obtain ⟨hread, hvalue⟩ := taken_item hkey hbefore hv hv.taken
            (hafter.ends (ends_comma s₄)) hfuel
          rw [items, hread]
          rcases hvalue with hok | ⟨n, hn⟩
          · have hlen := length_lt_of_item hkey hbefore hv hafter
            obtain ⟨n, hn⟩ := ih fuel (by omega)
            refine ⟨n, ?_⟩
            have hcomma := (mark_eq_ok_iff rfl).mpr hafter
            simp [hok, hcomma, hn, bind, Except.bind]
          · exact ⟨n, by simp [hn, bind, Except.bind]⟩

/-- A byte string that comes to such a number, after a byte order mark and white space. -/
def Overflows (s : Bytes) : Prop := Exceeds none (skipWhitespace (skipByteOrderMark s))

/-- **Where reading stops**: at a number too large for a double, exactly when the byte string comes to
    one. -/
theorem read_tooLarge_iff (s : Bytes) : (∃ n, read s = .error (.tooLarge n)) ↔ Overflows s := by
  constructor
  · rintro ⟨n, hn⟩
    exact (value_exceeds _).1 _ n hn
  · intro h
    exact h.stops _ (Nat.lt_succ_self _)

def stopsAtNumber : Except Failure (Value × Bytes) → Bool
  | .error (.tooLarge _) => true
  | _ => false

theorem stopsAtNumber_eq_true_iff (x : Except Failure (Value × Bytes)) :
    stopsAtNumber x = true ↔ ∃ n, x = .error (.tooLarge n) := by
  cases x with
  | ok k => simp [stopsAtNumber]
  | error e => cases e <;> simp [stopsAtNumber]

instance (s : Bytes) : Decidable (Overflows s) :=
  decidable_of_iff (stopsAtNumber (read s) = true)
    ((stopsAtNumber_eq_true_iff _).trans (read_tooLarge_iff s))

end Json
