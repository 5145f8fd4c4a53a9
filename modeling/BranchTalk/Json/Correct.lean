import BranchTalk.Json.Lexical

set_option autoImplicit false

/-! # The reader and the grammar: values

The reader takes a value exactly when the grammar has one at the front of the bytes, up to number
literals that are too large for a double, at which it stops. Its fuel never runs out. -/

namespace Json

theorem literal_sound {s r : Bytes} {v : Value} (h : literal s = .ok (v, r)) :
    Text (.value v) s r := by
  unfold literal at h
  split at h
  · next l hl =>
      obtain ⟨rfl, rfl⟩ := Prod.mk.inj (Except.ok.inj h)
      obtain ⟨spelling, v⟩ := l
      have hprefix := List.find?_some hl
      obtain ⟨r, rfl⟩ := List.isPrefixOf_iff_prefix.mp hprefix
      rw [List.drop_left]
      exact .literal (List.mem_of_find?_eq_some hl) r
  · simp at h

theorem literal_complete {spelling : Bytes} {v : Value} (h : (spelling, v) ∈ literals) (r : Bytes) :
    literal (spelling ++ r) = .ok (v, r) := by
  simp only [literals, List.mem_cons, Prod.mk.injEq, List.not_mem_nil, or_false] at h
  rcases h with ⟨rfl, rfl⟩ | ⟨rfl, rfl⟩ | ⟨rfl, rfl⟩ <;> rfl

theorem isWhitespace_closing (c : Container) : isWhitespace c.closing = false := by
  cases c <;> rfl

theorem containerOf_eq_some_iff {b : UInt8} {c : Container} :
    containerOf b = some c ↔ b = c.opening := by
  constructor
  · intro h
    unfold containerOf at h
    split at h
    · next hb =>
        obtain rfl := Option.some.inj h
        exact hb
    · split at h
      · next hb =>
          obtain rfl := Option.some.inj h
          exact hb
      · simp at h
  · rintro rfl
    cases c <;> rfl

/-! ## What the reader takes is a text -/

/-- What one more call of `value` takes, if the items it reads are sound. -/
theorem value_succ_sound {fuel : ℕ}
    (ihitems : ∀ c s ms r, items fuel c s = .ok (ms, r) → Text (.items c ms) s r) {s r : Bytes}
    {v : Value} (h : value (fuel + 1) s = .ok (v, r)) : Text (.value v) s r := by
  cases s with
  | nil => simp [value] at h
  | cons b s =>
      unfold value at h
      split at h
      · next hb =>
          subst hb
          obtain ⟨⟨d, r'⟩, hd, h⟩ := bind_eq_ok.mp h
          obtain ⟨rfl, rfl⟩ := Prod.mk.inj (Except.ok.inj h)
          exact .string (string_eq_ok_iff.mp hd)
      · split at h
        · next c hc =>
            obtain rfl := containerOf_eq_some_iff.mp hc
            split at h
            · next r' hclosing =>
                obtain ⟨rfl, rfl⟩ := Prod.mk.inj (Except.ok.inj h)
                exact .empty c ((mark_eq_ok_iff (isWhitespace_closing c)).mp hclosing)
            · obtain ⟨⟨ms, r'⟩, hms, h⟩ := bind_eq_ok.mp h
              obtain ⟨rfl, rfl⟩ := Prod.mk.inj (Except.ok.inj h)
              exact .container (ihitems c s ms r' hms)
        · split at h
          · obtain ⟨⟨n, r'⟩, hn, h⟩ := bind_eq_ok.mp h
            dsimp only at h
            split at h
            · simp at h
            · obtain ⟨rfl, rfl⟩ := Prod.mk.inj (Except.ok.inj h)
              obtain ⟨hwf, heq⟩ := number_sound hn
              rw [heq]
              exact .number hwf r'
          · exact literal_sound h

/-- What one more call of `items` takes, if the value and the items it reads are sound. -/
theorem items_succ_sound {fuel : ℕ}
    (ihvalue : ∀ s v r, value fuel s = .ok (v, r) → Text (.value v) s r)
    (ihitems : ∀ c s ms r, items fuel c s = .ok (ms, r) → Text (.items c ms) s r) {c : Container}
    {s r : Bytes} {ms : List Member} (h : items (fuel + 1) c s = .ok (ms, r)) :
    Text (.items c ms) s r := by
  unfold items at h
  obtain ⟨⟨name, s₁⟩, hkey, h⟩ := bind_eq_ok.mp h
  obtain ⟨⟨v, s₂⟩, hv, h⟩ := bind_eq_ok.mp h
  have hkey := key_eq_ok_iff.mp hkey
  have hv := ihvalue _ v s₂ hv
  dsimp only at h
  split at h
  · next s₃ hcomma =>
      obtain ⟨⟨ms', r'⟩, hms, h⟩ := bind_eq_ok.mp h
      obtain ⟨rfl, rfl⟩ := Prod.mk.inj (Except.ok.inj h)
      exact .item hkey (ws_skipWhitespace s₁) hv ((mark_eq_ok_iff rfl).mp hcomma)
        (ihitems c s₃ ms' r' hms)
  · obtain ⟨r', hclosing, h⟩ := bind_eq_ok.mp h
    obtain ⟨rfl, rfl⟩ := Prod.mk.inj (Except.ok.inj h)
    exact .last hkey (ws_skipWhitespace s₁) hv
      ((mark_eq_ok_iff (isWhitespace_closing c)).mp hclosing)

theorem value_sound (fuel : ℕ) :
    (∀ s v r, value fuel s = .ok (v, r) → Text (.value v) s r) ∧
    ∀ c s ms r, items fuel c s = .ok (ms, r) → Text (.items c ms) s r := by
  induction fuel with
  | zero => exact ⟨fun s v r h => by simp [value] at h, fun c s ms r h => by simp [items] at h⟩
  | succ fuel ih =>
      exact ⟨fun s v r h => value_succ_sound ih.2 h, fun c s ms r h => items_succ_sound ih.1 ih.2 h⟩

/-! ## The fuel is enough -/

/-- After an item and its comma, less is left than before the item. -/
theorem length_lt_of_item {c : Container} {name : Bytes} {v : Value} {s s₁ s₂ s₃ s₄ : Bytes}
    (hkey : c.Key name s s₁) (hbefore : Ws s₁ s₂) (hv : Text (.value v) s₂ s₃)
    (hafter : Ws s₃ (comma :: s₄)) : s₄.length < s.length := by
  have h₁ := hkey.length_le
  have h₂ := hbefore.length_le
  have h₃ := hv.length_lt
  have h₄ := hafter.length_le
  simp only [List.length_cons] at h₄
  omega

/-- More fuel than twice the length changes nothing. -/
theorem fuel_enough (fuel : ℕ) :
    (∀ s, 2 * s.length < fuel → value (fuel + 1) s = value fuel s) ∧
    ∀ c s, 2 * s.length + 1 < fuel → items (fuel + 1) c s = items fuel c s := by
  induction fuel with
  | zero => exact ⟨fun s h => by omega, fun c s h => by omega⟩
  | succ fuel ih =>
      obtain ⟨ihvalue, ihitems⟩ := ih
      refine ⟨?_, ?_⟩
      · intro s h
        cases s with
        | nil => rfl
        | cons b s =>
            simp only [List.length_cons] at h
            have hitems := fun c => ihitems c s (by omega)
            rw [value, value]
            simp only [hitems]
      · intro c s h
        rw [items, items]
        cases hkey : c.key s with
        | error e => rfl
        | ok k =>
            obtain ⟨name, s₁⟩ := k
            have hlen₁ := (key_eq_ok_iff.mp hkey).length_le
            have hlen₂ := (ws_skipWhitespace s₁).length_le
            have hvalue := ihvalue (skipWhitespace s₁) (by omega)
            show (value (fuel + 1) (skipWhitespace s₁) >>= _) = (value fuel (skipWhitespace s₁) >>= _)
            rw [hvalue]
            cases hv : value fuel (skipWhitespace s₁) with
            | error e => rfl
            | ok k =>
                obtain ⟨v, s₂⟩ := k
                simp only [bind, Except.bind]
                cases hcomma : mark comma s₂ with
                | error e => rfl
                | ok s₃ =>
                    have hlen := length_lt_of_item (key_eq_ok_iff.mp hkey) (ws_skipWhitespace s₁)
                      ((value_sound fuel).1 _ v s₂ hv) ((mark_eq_ok_iff rfl).mp hcomma)
                    have hitems := ihitems c s₃ (by omega)
                    simp only [hitems]

/-! ## Every text is taken -/

theorem Ws.ends {s r : Bytes} (h : Ws s r) (hr : Ends r) : Ends s := by
  obtain ⟨w, rfl, hw⟩ := h
  cases w with
  | nil => exact hr
  | cons b w =>
      intro b' hb'
      obtain rfl : b = b' := by simpa using hb'
      have hb := hw b (List.mem_cons_self ..)
      simp only [isWhitespace, Bool.or_eq_true, beq_iff_eq] at hb
      rcases hb with ((rfl | rfl) | rfl) | rfl <;> decide

theorem ends_nil : Ends [] := by
  intro b hb
  simp at hb

theorem ends_comma (r : Bytes) : Ends (comma :: r) := by
  intro b hb
  obtain rfl : comma = b := by simpa using hb
  decide

theorem ends_closing (c : Container) (r : Bytes) : Ends (c.closing :: r) := by
  intro b hb
  obtain rfl : c.closing = b := by simpa using hb
  cases c <;> decide

/-- A number literal begins with a minus sign or a digit. -/
theorem number_start {n : Number} (h : n.Wf) {b : UInt8} {t : Bytes} (ht : n.text = b :: t) :
    b = 0x2D ∨ isDigit b = true := by
  obtain ⟨negative, integer, fraction, exponent⟩ := n
  cases negative with
  | true => exact Or.inl (List.cons.inj ht).1.symm
  | false =>
      obtain ⟨d, ds, rfl⟩ := List.exists_cons_of_ne_nil h.integer.1.1
      have hd := h.integer.1.2 d (List.mem_cons_self ..)
      obtain rfl : d = b := (List.cons.inj ht).1
      exact Or.inr hd

theorem number_byte {b : UInt8} (h : b = 0x2D ∨ isDigit b = true) :
    isWhitespace b = false ∧ b ≠ Container.array.closing ∧ b ≠ 0xEF := by
  rcases h with rfl | hd
  · decide
  · refine ⟨?_, ?_, ?_⟩
    · cases hws : isWhitespace b with
      | false => rfl
      | true =>
          simp only [isWhitespace, Bool.or_eq_true, beq_iff_eq] at hws
          rcases hws with ((rfl | rfl) | rfl) | rfl <;> exact absurd hd (by decide)
    · rintro rfl
      exact absurd hd (by decide)
    · rintro rfl
      exact absurd hd (by decide)

/-- The text of a value begins with a byte that is no white space, closes no array and begins no
    byte order mark. -/
theorem Text.head {v : Value} {s r : Bytes} (h : Text (.value v) s r) :
    ∃ b s', s = b :: s' ∧ isWhitespace b = false ∧ b ≠ Container.array.closing ∧ b ≠ 0xEF := by
  cases h with
  | literal h r =>
      simp only [literals, List.mem_cons, Prod.mk.injEq, List.not_mem_nil, or_false] at h
      rcases h with ⟨rfl, -⟩ | ⟨rfl, -⟩ | ⟨rfl, -⟩ <;>
        exact ⟨_, _, rfl, by decide, by decide, by decide⟩
  | string h => exact ⟨_, _, rfl, by decide, by decide, by decide⟩
  | empty c h => exact ⟨_, _, rfl, by cases c <;> decide⟩
  | @container c ms s r h => exact ⟨_, _, rfl, by cases c <;> decide⟩
  | @number n h r =>
      obtain ⟨b, t, hb⟩ := List.exists_cons_of_ne_nil h.text_ne_nil
      exact ⟨b, t ++ r, by rw [hb]; rfl, number_byte (number_start h hb)⟩

/-- Where an item begins, the container does not end. -/
theorem mark_closing_of_key {c : Container} {name s s₁ s' : Bytes} {b : UInt8}
    (hkey : c.Key name s s₁) (hbefore : Ws s₁ (b :: s')) (hb : isWhitespace b = false)
    (hne : b ≠ Container.array.closing) : ∃ e, mark c.closing s = .error e := by
  refine ⟨.syntaxError, ?_⟩
  cases c with
  | array =>
      obtain ⟨-, rfl⟩ := hkey
      have hskip := hbefore.skipWhitespace_eq
      rw [skipWhitespace_cons hb] at hskip
      simp [mark, hskip, hne]
  | object =>
      obtain ⟨s', -, hquote, -⟩ := hkey
      have hskip := hquote.skipWhitespace_eq
      rw [skipWhitespace_cons rfl] at hskip
      simp [mark, hskip, quote, Container.closing]

theorem Text.mark_closing {c : Container} {ms : List Member} {s r : Bytes}
    (h : Text (.items c ms) s r) : ∃ e, mark c.closing s = .error e := by
  cases h with
  | last hkey hbefore hv hafter =>
      obtain ⟨b, s', rfl, hb, hne, -⟩ := hv.head
      exact mark_closing_of_key hkey hbefore hb hne
  | item hkey hbefore hv hafter hitems =>
      obtain ⟨b, s', rfl, hb, hne, -⟩ := hv.head
      exact mark_closing_of_key hkey hbefore hb hne

theorem value_opening (fuel : ℕ) (c : Container) (s : Bytes) :
    value (fuel + 1) (c.opening :: s) =
      match mark c.closing s with
      | .ok r => .ok (c.build [], r)
      | .error _ => do
          let (ms, r) ← items fuel c s
          return (c.build ms, r) := by
  cases c <;> rfl

theorem value_number {fuel : ℕ} {b : UInt8} {s : Bytes} (hb : b = 0x2D ∨ isDigit b = true) :
    value (fuel + 1) (b :: s) = (do
      let (n, r) ← number (b :: s)
      if n.tooLarge then .error (.tooLarge n) else return (.number n, r)) := by
  have hquote : b ≠ quote := by
    rintro rfl
    exact absurd hb (by decide)
  have hnone : containerOf b = none := by
    cases hc : containerOf b with
    | none => rfl
    | some c =>
        obtain rfl := containerOf_eq_some_iff.mp hc
        cases c <;> exact absurd hb (by decide)
  rw [value, if_neg hquote, hnone]
  exact if_pos hb

/-- The reader takes the text, or stops at a number in it that is too large. -/
def Taken : Goal → Bytes → Bytes → Prop
  | .value v, s, r => Ends r → ∀ fuel, 2 * s.length < fuel →
      value fuel s = .ok (v, r) ∨ ∃ n, value fuel s = .error (.tooLarge n)
  | .items c ms, s, r => ∀ fuel, 2 * s.length + 1 < fuel →
      items fuel c s = .ok (ms, r) ∨ ∃ n, items fuel c s = .error (.tooLarge n)

/-- The value of an item, reached by the reader after the key. -/
theorem taken_item {c : Container} {name : Bytes} {v : Value} {s s₁ s₂ s₃ : Bytes} {fuel : ℕ}
    (hkey : c.Key name s s₁) (hbefore : Ws s₁ s₂) (hv : Text (.value v) s₂ s₃)
    (ih : Taken (.value v) s₂ s₃) (hends : Ends s₃) (hfuel : 2 * s.length + 1 < fuel + 1) :
    c.key s = .ok (name, s₁) ∧
    (value fuel (skipWhitespace s₁) = .ok (v, s₃) ∨
      ∃ n, value fuel (skipWhitespace s₁) = .error (.tooLarge n)) := by
  refine ⟨key_eq_ok_iff.mpr hkey, ?_⟩
  obtain ⟨b, s', rfl, hb, -⟩ := hv.head
  rw [hbefore.skipWhitespace_eq, skipWhitespace_cons hb]
  have hlen₁ := hkey.length_le
  have hlen₂ := hbefore.length_le
  exact ih hends fuel (by omega)

/-- The closing mark is no comma. -/
theorem mark_comma_of_closing {c : Container} {s r : Bytes} (h : Ws s (c.closing :: r)) :
    mark comma s = .error .syntaxError := by
  have hskip := h.skipWhitespace_eq
  rw [skipWhitespace_cons (isWhitespace_closing c)] at hskip
  cases c <;> simp [mark, hskip, comma, Container.closing]

/-- **Every text is taken.** -/
theorem Text.taken {g : Goal} {s r : Bytes} (h : Text g s r) : Taken g s r := by
  induction h with
  | literal h r =>
      intro hends fuel hfuel
      refine Or.inl ?_
      have hread := literal_complete h r
      simp only [literals, List.mem_cons, Prod.mk.injEq, List.not_mem_nil, or_false] at h
      cases fuel with
      | zero => omega
      | succ fuel => rcases h with ⟨rfl, rfl⟩ | ⟨rfl, rfl⟩ | ⟨rfl, rfl⟩ <;> exact hread
  | @number n h r =>
      intro hends fuel hfuel
      cases fuel with
      | zero => omega
      | succ fuel =>
          obtain ⟨b, t, hb⟩ := List.exists_cons_of_ne_nil h.text_ne_nil
          have hread := number_complete h hends
          rw [hb] at hread ⊢
          rw [List.cons_append] at hread ⊢
          rw [value_number (number_start h hb), hread]
          by_cases hlarge : n.tooLarge = true
          · exact Or.inr ⟨n, if_pos hlarge⟩
          · exact Or.inl (if_neg hlarge)
  | string h =>
      intro hends fuel hfuel
      cases fuel with
      | zero => omega
      | succ fuel =>
          refine Or.inl ?_
          rw [value, if_pos rfl, string_eq_ok_iff.mpr h]
          rfl
  | empty c h =>
      intro hends fuel hfuel
      cases fuel with
      | zero => omega
      | succ fuel =>
          refine Or.inl ?_
          rw [value_opening, (mark_eq_ok_iff (isWhitespace_closing c)).mpr h]
  | @container c ms s r h ih =>
      intro hends fuel hfuel
      cases fuel with
      | zero => omega
      | succ fuel =>
          obtain ⟨e, hclosing⟩ := h.mark_closing
          rw [value_opening, hclosing]
          simp only [List.length_cons] at hfuel
          rcases ih fuel (by omega) with hok | ⟨n, hlarge⟩
          · exact Or.inl (by simp [hok, bind, Except.bind, pure, Except.pure])
          · exact Or.inr ⟨n, by simp [hlarge, bind, Except.bind]⟩
  | @last c name v s s₁ s₂ s₃ r hkey hbefore hv hafter ih =>
      intro fuel hfuel
      cases fuel with
      | zero => omega
      | succ fuel =>
          have hclosing := (mark_eq_ok_iff (isWhitespace_closing c)).mpr hafter
          have hcomma := mark_comma_of_closing hafter
          obtain ⟨hread, hvalue⟩ := taken_item hkey hbefore hv ih
            (hafter.ends (ends_closing c r)) hfuel
          rw [items, hread]
          rcases hvalue with hok | ⟨n, hlarge⟩
          · exact Or.inl (by simp [hok, hcomma, hclosing, bind, Except.bind, pure, Except.pure])
          · exact Or.inr ⟨n, by simp [hlarge, bind, Except.bind]⟩
  | @item c name v ms s s₁ s₂ s₃ s₄ r hkey hbefore hv hafter hitems ihv ihitems =>
      intro fuel hfuel
      cases fuel with
      | zero => omega
      | succ fuel =>
          have hcomma := (mark_eq_ok_iff rfl).mpr hafter
          obtain ⟨hread, hvalue⟩ := taken_item hkey hbefore hv ihv (hafter.ends (ends_comma s₄)) hfuel
          have hlen := length_lt_of_item hkey hbefore hv hafter
          rw [items, hread]
          rcases hvalue with hok | ⟨n, hlarge⟩
          · rcases ihitems fuel (by omega) with hok' | ⟨n, hlarge⟩
            · exact Or.inl (by simp [hok, hcomma, hok', bind, Except.bind, pure, Except.pure])
            · exact Or.inr ⟨n, by simp [hok, hcomma, hlarge, bind, Except.bind]⟩
          · exact Or.inr ⟨n, by simp [hlarge, bind, Except.bind]⟩

/-! ## Whole byte strings -/

/-- What the reader takes stands at the front, after a byte order mark and white space. -/
theorem read_sound {s r : Bytes} {v : Value} (h : read s = .ok (v, r)) :
    ∃ s₁, Ws (skipByteOrderMark s) s₁ ∧ Text (.value v) s₁ r :=
  ⟨_, ws_skipWhitespace _, (value_sound _).1 _ v r h⟩

theorem skipByteOrderMark_of_ws {s s₁ r : Bytes} {v : Value} (hws : Ws s s₁)
    (h : Text (.value v) s₁ r) : skipByteOrderMark s = s := by
  unfold skipByteOrderMark
  split
  · next hmark =>
      exfalso
      obtain ⟨b, s', hs₁, -, -, hmarkByte⟩ := h.head
      obtain ⟨t, rfl⟩ := List.isPrefixOf_iff_prefix.mp hmark
      have heq := Ws.eq_of_not_whitespace hws (by decide)
      rw [hs₁] at heq
      exact hmarkByte (List.cons.inj heq).1
  · rfl

theorem read_complete {s s₁ r : Bytes} {v : Value} (hws : Ws s s₁) (h : Text (.value v) s₁ r)
    (hends : Ends r) : read s = .ok (v, r) ∨ ∃ n, read s = .error (.tooLarge n) := by
  obtain ⟨b, s', rfl, hb, -⟩ := h.head
  have hread : read s = value (fuelFor (b :: s')) (b :: s') := by
    unfold read
    rw [skipByteOrderMark_of_ws hws h, hws.skipWhitespace_eq, skipWhitespace_cons hb]
  rw [hread]
  exact h.taken hends _ (Nat.lt_succ_self _)

/-- **A text is read whole**: when the reader succeeds, the byte string is a text of a value exactly
    when that is the value it read, from the very front, and only white space is left. -/
theorem isText_iff {s r : Bytes} {v : Value} (h : read s = .ok (v, r)) (w : Value) :
    IsText w s ↔ w = v ∧ skipByteOrderMark s = s ∧ Ws r [] := by
  constructor
  · rintro ⟨s₁, s₂, hbefore, htext, hafter⟩
    rcases read_complete hbefore htext (hafter.ends ends_nil) with hread | ⟨n, hread⟩
    · rw [h] at hread
      obtain ⟨rfl, rfl⟩ := Prod.mk.inj (Except.ok.inj hread)
      exact ⟨rfl, skipByteOrderMark_of_ws hbefore htext, hafter⟩
    · rw [h] at hread
      simp at hread
  · rintro ⟨rfl, hmark, hafter⟩
    obtain ⟨s₁, hbefore, htext⟩ := read_sound h
    rw [hmark] at hbefore
    exact ⟨s₁, r, hbefore, htext, hafter⟩

end Json
