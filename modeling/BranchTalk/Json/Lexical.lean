import BranchTalk.Json.Scan
import Mathlib.Data.List.TakeWhile

set_option autoImplicit false

/-! # The reader and the grammar: characters, numbers, strings

What the reader takes is what the grammar spells. White space, marks, strings and keys are
characterized in both directions at once. A number is read as far as it goes, so there the converse
needs to know that the bytes that follow do not continue it. -/

namespace Json

theorem bind_eq_ok {ε α β : Type} {x : Except ε α} {f : α → Except ε β} {b : β} :
    (x >>= f) = .ok b ↔ ∃ a, x = .ok a ∧ f a = .ok b := by
  cases x with
  | error e => simp [bind, Except.bind]
  | ok a => simp [bind, Except.bind]

/-! ## White space -/

theorem ws_skipWhitespace (s : Bytes) : Ws s (skipWhitespace s) :=
  ⟨s.takeWhile isWhitespace, List.takeWhile_append_dropWhile.symm, fun _ => List.mem_takeWhile_imp⟩

theorem Ws.skipWhitespace_eq {s r : Bytes} (h : Ws s r) : skipWhitespace s = skipWhitespace r := by
  obtain ⟨w, rfl, hw⟩ := h
  exact List.dropWhile_append_of_pos hw

theorem skipWhitespace_cons {b : UInt8} (hb : isWhitespace b = false) (s : Bytes) :
    skipWhitespace (b :: s) = b :: s :=
  List.dropWhile_cons_of_neg (by simp [hb])

/-- The marks of the grammar are no white space. -/
theorem mark_eq_ok_iff {b : UInt8} (hb : isWhitespace b = false) {s r : Bytes} :
    mark b s = .ok r ↔ Ws s (b :: r) := by
  constructor
  · intro h
    have hws := ws_skipWhitespace s
    unfold mark at h
    split at h
    · next b' r' hs =>
        split at h
        · next heq =>
            obtain rfl := Except.ok.inj h
            rw [hs, heq] at hws
            exact hws
        · simp at h
    · simp at h
  · intro h
    have hskip := h.skipWhitespace_eq
    rw [skipWhitespace_cons hb] at hskip
    simp [mark, hskip]

/-! ## Numbers -/

/-- The bytes do not begin with a digit. -/
def NoDigit (s : Bytes) : Prop := ∀ b ∈ s.head?, isDigit b = false

theorem digits_sound {s ds r : Bytes} (h : digits s = .ok (ds, r)) : s = ds ++ r ∧ Digits ds := by
  unfold digits at h
  split at h
  · simp at h
  · next ds' hne =>
      obtain ⟨rfl, rfl⟩ := Prod.mk.inj (Except.ok.inj h)
      exact ⟨List.takeWhile_append_dropWhile.symm, hne, fun _ => List.mem_takeWhile_imp⟩

theorem digits_complete {ds r : Bytes} (h : Digits ds) (hr : NoDigit r) :
    digits (ds ++ r) = .ok (ds, r) := by
  have htake : (ds ++ r).takeWhile isDigit = ds := by
    rw [List.takeWhile_append_of_pos h.2]
    cases r with
    | nil => simp
    | cons b r => simp [hr b (by simp)]
  have hdrop : (ds ++ r).dropWhile isDigit = r := by
    rw [List.dropWhile_append_of_pos h.2]
    cases r with
    | nil => rfl
    | cons b r => exact List.dropWhile_cons_of_neg (by simp [hr b (by simp)])
  unfold digits
  rw [htake, hdrop]
  split
  · exact absurd rfl h.1
  · rfl

theorem integerPart_sound {s ds r : Bytes} (h : integerPart s = .ok (ds, r)) :
    s = ds ++ r ∧ Digits ds ∧ (ds.head? = some 0x30 → ds = [0x30]) := by
  unfold integerPart at h
  split at h
  · obtain ⟨rfl, rfl⟩ := Prod.mk.inj (Except.ok.inj h)
    exact ⟨rfl, ⟨List.cons_ne_nil _ _, List.forall_mem_singleton.mpr rfl⟩, fun _ => rfl⟩
  · next hzero =>
      obtain ⟨rfl, hds⟩ := digits_sound h
      refine ⟨rfl, hds, ?_⟩
      intro hhead
      cases ds with
      | nil => simp at hhead
      | cons b ds => exact absurd (by simpa using hhead) (fun hb => hzero (ds ++ r) (by simp [hb]))

theorem integerPart_complete {ds r : Bytes} (h : Digits ds)
    (hzero : ds.head? = some 0x30 → ds = [0x30]) (hr : NoDigit r) :
    integerPart (ds ++ r) = .ok (ds, r) := by
  cases ds with
  | nil => exact absurd rfl h.1
  | cons b ds =>
      by_cases hb : b = 0x30
      · rw [hzero (by simp [hb])]
        rfl
      · unfold integerPart
        split
        · next heq => exact absurd (List.cons.inj heq).1 hb
        · exact digits_complete h hr

theorem fractionPart_sound {s r : Bytes} {fraction : Option Bytes}
    (h : fractionPart s = .ok (fraction, r)) :
    s = Number.fractionText fraction ++ r ∧ ∀ ds ∈ fraction, Digits ds := by
  unfold fractionPart at h
  split at h
  · obtain ⟨⟨ds, r'⟩, hds, h⟩ := bind_eq_ok.mp h
    obtain ⟨rfl, rfl⟩ := Prod.mk.inj (Except.ok.inj h)
    obtain ⟨rfl, hdigits⟩ := digits_sound hds
    exact ⟨rfl, by simpa using hdigits⟩
  · obtain ⟨rfl, rfl⟩ := Prod.mk.inj (Except.ok.inj h)
    exact ⟨rfl, by simp⟩

theorem fractionPart_complete {r : Bytes} {fraction : Option Bytes}
    (h : ∀ ds ∈ fraction, Digits ds) (hr : NoDigit r) (hpoint : r.head? ≠ some 0x2E) :
    fractionPart (Number.fractionText fraction ++ r) = .ok (fraction, r) := by
  cases fraction with
  | none =>
      show fractionPart r = _
      unfold fractionPart
      split
      · simp at hpoint
      · rfl
  | some ds =>
      show fractionPart (0x2E :: (ds ++ r)) = _
      simp only [fractionPart, digits_complete (h ds rfl) hr]
      rfl

theorem exponentSign_eq (s : Bytes) :
    s = (exponentSign s).1.toList ++ (exponentSign s).2 ∧
    ∀ sign ∈ (exponentSign s).1, sign = 0x2B ∨ sign = 0x2D := by
  unfold exponentSign
  split <;> simp

theorem exponentSign_complete {sign : Option UInt8} {ds r : Bytes}
    (hsign : ∀ b ∈ sign, b = 0x2B ∨ b = 0x2D) (h : Digits ds) :
    exponentSign (sign.toList ++ (ds ++ r)) = (sign, ds ++ r) := by
  cases sign with
  | some b => rcases hsign b rfl with rfl | rfl <;> rfl
  | none =>
      cases ds with
      | nil => exact absurd rfl h.1
      | cons b ds =>
          have hb := h.2 b (List.mem_cons_self ..)
          show exponentSign (b :: (ds ++ r)) = _
          unfold exponentSign
          split
          · next heq => rw [(List.cons.inj heq).1] at hb; exact absurd hb (by decide)
          · next heq => rw [(List.cons.inj heq).1] at hb; exact absurd hb (by decide)
          · rfl

theorem exponentPart_sound {s r : Bytes} {exponent : Option (UInt8 × Option UInt8 × Bytes)}
    (h : exponentPart s = .ok (exponent, r)) :
    s = Number.exponentText exponent ++ r ∧
    ∀ e ∈ exponent, (e.1 = 0x65 ∨ e.1 = 0x45) ∧ (∀ sign ∈ e.2.1, sign = 0x2B ∨ sign = 0x2D) ∧
      Digits e.2.2 := by
  unfold exponentPart at h
  split at h
  · obtain ⟨rfl, rfl⟩ := Prod.mk.inj (Except.ok.inj h)
    exact ⟨rfl, by simp⟩
  · next b s =>
      split at h
      · next hb =>
          obtain ⟨⟨ds, r'⟩, hds, h⟩ := bind_eq_ok.mp h
          obtain ⟨rfl, rfl⟩ := Prod.mk.inj (Except.ok.inj h)
          obtain ⟨heq, hdigits⟩ := digits_sound hds
          obtain ⟨hs, hsign⟩ := exponentSign_eq s
          refine ⟨?_, by simpa using ⟨hb, hsign, hdigits⟩⟩
          rw [heq] at hs
          show b :: s = b :: ((exponentSign s).1.toList ++ ds) ++ r'
          rw [List.cons_append, List.append_assoc, ← hs]
      · obtain ⟨rfl, rfl⟩ := Prod.mk.inj (Except.ok.inj h)
        exact ⟨rfl, by simp⟩

theorem exponentPart_complete {r : Bytes} {exponent : Option (UInt8 × Option UInt8 × Bytes)}
    (h : ∀ e ∈ exponent, (e.1 = 0x65 ∨ e.1 = 0x45) ∧
      (∀ sign ∈ e.2.1, sign = 0x2B ∨ sign = 0x2D) ∧ Digits e.2.2)
    (hr : NoDigit r) (hletter : ∀ b ∈ r.head?, b ≠ 0x65 ∧ b ≠ 0x45) :
    exponentPart (Number.exponentText exponent ++ r) = .ok (exponent, r) := by
  cases exponent with
  | none =>
      cases r with
      | nil => rfl
      | cons b r =>
          have hb := hletter b rfl
          show exponentPart (b :: r) = _
          simp [exponentPart, hb]
  | some e =>
      obtain ⟨b, sign, ds⟩ := e
      obtain ⟨hb, hsign, hdigits⟩ := h _ rfl
      show exponentPart (b :: (sign.toList ++ ds) ++ r) = _
      rw [List.cons_append, List.append_assoc]
      simp only [exponentPart, if_pos hb, exponentSign_complete hsign hdigits,
        digits_complete hdigits hr]
      rfl

/-- The bytes that follow a number literal do not continue it. -/
def Ends (r : Bytes) : Prop :=
  ∀ b ∈ r.head?, isDigit b = false ∧ b ≠ 0x2E ∧ b ≠ 0x65 ∧ b ≠ 0x45

theorem number_sound {s r : Bytes} {n : Number} (h : number s = .ok (n, r)) :
    n.Wf ∧ s = n.text ++ r := by
  obtain ⟨⟨integer, s₁⟩, hinteger, h⟩ := bind_eq_ok.mp h
  obtain ⟨⟨fraction, s₂⟩, hfraction, h⟩ := bind_eq_ok.mp h
  obtain ⟨⟨exponent, s₃⟩, hexponent, h⟩ := bind_eq_ok.mp h
  obtain ⟨rfl, rfl⟩ := Prod.mk.inj (Except.ok.inj h)
  obtain ⟨hs, hds, hzero⟩ := integerPart_sound hinteger
  obtain ⟨rfl, hfrac⟩ := fractionPart_sound hfraction
  obtain ⟨rfl, hexp⟩ := exponentPart_sound hexponent
  refine ⟨⟨⟨hds, hzero⟩, hfrac, hexp⟩, ?_⟩
  have hminus : s = (if (minusSign s).1 then [0x2D] else []) ++ (minusSign s).2 := by
    unfold minusSign
    split <;> simp
  calc s = (if (minusSign s).1 then [0x2D] else []) ++ (minusSign s).2 := hminus
    _ = _ := by rw [hs]; simp [Number.text]

theorem number_complete {n : Number} (h : n.Wf) {r : Bytes} (hr : Ends r) :
    number (n.text ++ r) = .ok (n, r) := by
  obtain ⟨negative, integer, fraction, exponent⟩ := n
  obtain ⟨⟨hds, hzero⟩, hfrac, hexp⟩ := h
  -- what stands after each part does not continue it
  have hexpHead : ∀ b ∈ (Number.exponentText exponent ++ r).head?, isDigit b = false ∧ b ≠ 0x2E := by
    cases exponent with
    | none => exact fun b hb => ⟨(hr b hb).1, (hr b hb).2.1⟩
    | some e =>
        intro b hb
        obtain rfl : e.1 = b := by simpa [Number.exponentText] using hb
        rcases (hexp e rfl).1 with he | he <;> rw [he] <;> decide
  have hfracHead : NoDigit (Number.fractionText fraction ++ (Number.exponentText exponent ++ r)) := by
    cases fraction with
    | none => exact fun b hb => (hexpHead b hb).1
    | some ds =>
        intro b hb
        obtain rfl : 0x2E = b := by simpa [Number.fractionText] using hb
        decide
  have hminus : minusSign (Number.text ⟨negative, integer, fraction, exponent⟩ ++ r)
      = (negative, integer ++ (Number.fractionText fraction ++ (Number.exponentText exponent ++ r))) := by
    cases negative with
    | true => simp [Number.text, minusSign]
    | false =>
        obtain ⟨d, ds, rfl⟩ := List.exists_cons_of_ne_nil hds.1
        have hd := hds.2 d (List.mem_cons_self ..)
        show minusSign (d :: ds ++ (Number.fractionText fraction ++ Number.exponentText exponent) ++ r)
          = _
        simp only [List.cons_append, List.append_assoc]
        unfold minusSign
        split
        · next heq => rw [(List.cons.inj heq).1] at hd; exact absurd hd (by decide)
        · rfl
  have hfraction := fractionPart_complete hfrac (fun b hb => (hexpHead b hb).1)
    fun hpoint => (hexpHead _ hpoint).2 rfl
  have hexponent := exponentPart_complete hexp (fun b hb => (hr b hb).1) fun b hb => (hr b hb).2.2
  simp only [number, hminus, integerPart_complete hds hzero hfracHead, hfraction, hexponent,
    bind, Except.bind]
  rfl

/-! ## Strings -/

theorem character_eq_some_iff {s r : Bytes} {c : Char} :
    character s = some (c, r) ↔ s = String.utf8EncodeChar c ++ r := by
  constructor
  · intro h
    obtain ⟨c', hc, h⟩ := Option.map_eq_some_iff.mp h
    obtain ⟨rfl, rfl⟩ := Prod.mk.inj h
    -- the bytes decoded are the encoding of the character they give
    have heq : s = String.utf8EncodeChar c' ++ s.drop (String.utf8EncodeChar c').length := by
      obtain ⟨rest, hrest⟩ := ByteArray.exists_of_utf8DecodeChar?_eq_some hc
      have hs : s = String.utf8EncodeChar c' ++ rest.data.toList := by
        rw [← List.toByteArray_inj, List.toByteArray_append, hrest]
        congr 1
        exact ByteArray.ext (by simp)
      conv_lhs => rw [hs]
      rw [hs, List.drop_left]
    exact heq
  · rintro rfl
    unfold character
    rw [List.toByteArray_append, ByteArray.utf8DecodeChar?_utf8EncodeChar_append]
    simp

theorem hex4_eq_some_iff {s r : Bytes} {v : ℕ} : hex4 s = some (v, r) ↔ Hex4 v s r := by
  constructor
  · intro h
    unfold hex4 at h
    split at h
    · next a b c d r' =>
        simp only [Option.bind_eq_bind, Option.bind_eq_some_iff, Option.pure_def,
          Option.some.injEq, Prod.mk.injEq] at h
        obtain ⟨va, ha, vb, hb, vc, hc, vd, hd, rfl, rfl⟩ := h
        exact .digits ha hb hc hd r'
    · simp at h
  · rintro ⟨ha, hb, hc, hd, r⟩
    simp [hex4, ha, hb, hc, hd]

theorem lowSurrogate_eq_some_iff {s r : Bytes} {v : ℕ} :
    lowSurrogate s = some (v, r) ↔
      ∃ s', s = backslash :: 0x75 :: s' ∧ Hex4 v s' r ∧ isLowSurrogate v = true := by
  constructor
  · intro h
    unfold lowSurrogate at h
    split at h
    · next s' =>
        simp only [Option.bind_eq_bind, Option.bind_eq_some_iff, Prod.exists] at h
        obtain ⟨v', r', hv, h⟩ := h
        split at h
        · next hlow =>
            obtain ⟨rfl, rfl⟩ := Prod.mk.inj (Option.some.inj h)
            exact ⟨s', rfl, hex4_eq_some_iff.mp hv, hlow⟩
        · simp at h
    · simp at h
  · rintro ⟨s', rfl, hv, hlow⟩
    show (hex4 s').bind _ = _
    simp [hex4_eq_some_iff.mpr hv, hlow]

theorem lookup_simpleEscapes {letter byte : UInt8} :
    simpleEscapes.lookup letter = some byte ↔ (letter, byte) ∈ simpleEscapes := by
  constructor
  · intro h
    obtain ⟨l₁, l₂, heq, -⟩ := List.lookup_eq_some_iff.mp h
    rw [heq]
    simp
  · intro h
    simp only [simpleEscapes, List.mem_cons, Prod.mk.injEq, List.not_mem_nil, or_false] at h
    rcases h with ⟨rfl, rfl⟩ | ⟨rfl, rfl⟩ | ⟨rfl, rfl⟩ | ⟨rfl, rfl⟩ | ⟨rfl, rfl⟩ | ⟨rfl, rfl⟩ |
      ⟨rfl, rfl⟩ | ⟨rfl, rfl⟩ <;> decide

theorem escape_sound {s d r : Bytes} (h : escape s = some (d, r)) : Escape d s r := by
  unfold escape at h
  split at h
  · simp at h
  · next b s' =>
      split at h
      · next hb =>
          subst hb
          simp only [Option.bind_eq_bind, Option.bind_eq_some_iff, Prod.exists] at h
          obtain ⟨v, r', hv, h⟩ := h
          have hhex := hex4_eq_some_iff.mp hv
          split at h
          · next hhigh =>
              simp only [Option.bind_eq_some_iff, Prod.exists] at h
              obtain ⟨lo, r'', hlo, h⟩ := h
              obtain ⟨s'', rfl, hhex', hlow⟩ := lowSurrogate_eq_some_iff.mp hlo
              obtain ⟨rfl, rfl⟩ := Prod.mk.inj (Option.some.inj h)
              exact .pair hhex hhigh hhex' hlow
          · next hhigh =>
              split at h
              · simp at h
              · next hlow =>
                  obtain ⟨rfl, rfl⟩ := Prod.mk.inj (Option.some.inj h)
                  exact .unicode hhex (by simpa using hhigh) (by simpa using hlow)
      · obtain ⟨byte, hbyte, h⟩ := Option.map_eq_some_iff.mp h
        obtain ⟨rfl, rfl⟩ := Prod.mk.inj h
        exact .simple (lookup_simpleEscapes.mp hbyte) s'

theorem escape_complete {s d r : Bytes} (h : Escape d s r) : escape s = some (d, r) := by
  cases h with
  | simple h r =>
      have hlookup := lookup_simpleEscapes.mpr h
      have hne : ∀ letter byte : UInt8, simpleEscapes.lookup letter = some byte → letter ≠ 0x75 := by
        rintro letter byte hl rfl
        exact absurd hl (by simp [simpleEscapes, List.lookup_cons])
      simp only [escape, if_neg (hne _ _ hlookup), hlookup, Option.map_some]
  | unicode h hhigh hlow =>
      show (hex4 _).bind _ = _
      simp [hex4_eq_some_iff.mpr h, hhigh, hlow]
  | pair h hhigh h' hlow =>
      show (hex4 _).bind _ = _
      have hlo := lowSurrogate_eq_some_iff.mpr ⟨_, rfl, h', hlow⟩
      simp [hex4_eq_some_iff.mpr h, hhigh, hlo]

theorem chars_sound {fuel : ℕ} {s d r : Bytes} (h : chars fuel s = .ok (d, r)) : Chars d s r := by
  induction fuel generalizing s d with
  | zero => simp [chars] at h
  | succ fuel ih =>
      unfold chars at h
      split at h
      · simp at h
      · next c r' hc =>
          obtain rfl := character_eq_some_iff.mp hc
          split at h
          · next hquote =>
              obtain ⟨rfl, rfl⟩ := Prod.mk.inj (Except.ok.inj h)
              subst hquote
              exact .close r'
          · next hquote =>
              split at h
              · next hbackslash =>
                  subst hbackslash
                  split at h
                  · simp at h
                  · next d' r'' hesc =>
                      obtain ⟨⟨ds, r₁⟩, hds, h⟩ := bind_eq_ok.mp h
                      obtain ⟨rfl, rfl⟩ := Prod.mk.inj (Except.ok.inj h)
                      exact .escape (escape_sound hesc) (ih hds)
              · next hbackslash =>
                  split at h
                  · simp at h
                  · next hctl =>
                      obtain ⟨⟨ds, r₁⟩, hds, h⟩ := bind_eq_ok.mp h
                      obtain ⟨rfl, rfl⟩ := Prod.mk.inj (Except.ok.inj h)
                      exact .char (by simpa using hctl) hquote hbackslash (ih hds)

theorem chars_complete {s d r : Bytes} (h : Chars d s r) {fuel : ℕ} (hfuel : s.length < fuel) :
    chars fuel s = .ok (d, r) := by
  induction h generalizing fuel with
  | close r =>
      obtain ⟨fuel, rfl⟩ := Nat.exists_eq_add_of_lt hfuel
      have hc : character (quote :: r) = some ('"', r) := character_eq_some_iff.mpr rfl
      simp [chars, hc]
  | @char c ds s r hctl hquote hbackslash h ih =>
      cases fuel with
      | zero => omega
      | succ fuel =>
          have hc : character (String.utf8EncodeChar c ++ s) = some (c, s) :=
            character_eq_some_iff.mpr rfl
          have hpos := String.length_utf8EncodeChar c ▸ c.utf8Size_pos
          simp only [List.length_append] at hfuel
          rw [chars, hc]
          simp only [if_neg hquote, if_neg hbackslash, if_neg (UInt32.not_lt.mpr hctl),
            @ih fuel (by omega)]
          rfl
  | @escape d ds s s' r hesc h ih =>
      cases fuel with
      | zero => omega
      | succ fuel =>
          have hc : character (backslash :: s) = some ('\\', s) := character_eq_some_iff.mpr rfl
          have hlt := hesc.length_lt
          simp only [List.length_cons] at hfuel
          rw [chars, hc]
          simp only [escape_complete hesc, @ih fuel (by omega)]
          rfl

/-- **Strings.** The reader takes exactly the strings of the grammar. -/
theorem string_eq_ok_iff {s d r : Bytes} : string s = .ok (d, r) ↔ Chars d s r :=
  ⟨chars_sound, fun h => chars_complete h (Nat.lt_succ_self _)⟩

theorem key_eq_ok_iff {c : Container} {s name r : Bytes} :
    c.key s = .ok (name, r) ↔ c.Key name s r := by
  cases c with
  | array =>
      show Except.ok ([], s) = _ ↔ _
      rw [Except.ok.injEq, Prod.mk.injEq]
      exact ⟨fun ⟨h₁, h₂⟩ => ⟨h₁.symm, h₂.symm⟩, fun ⟨h₁, h₂⟩ => ⟨h₁.symm, h₂.symm⟩⟩
  | object =>
      constructor
      · intro h
        obtain ⟨s₁, hquote, h⟩ := bind_eq_ok.mp h
        obtain ⟨⟨name', s₂⟩, hname, h⟩ := bind_eq_ok.mp h
        obtain ⟨r', hcolon, h⟩ := bind_eq_ok.mp h
        obtain ⟨rfl, rfl⟩ := Prod.mk.inj (Except.ok.inj h)
        exact ⟨s₁, s₂, (mark_eq_ok_iff rfl).mp hquote, string_eq_ok_iff.mp hname,
          (mark_eq_ok_iff rfl).mp hcolon⟩
      · rintro ⟨s₁, s₂, hquote, hname, hcolon⟩
        simp only [Container.key, (mark_eq_ok_iff rfl).mpr hquote, string_eq_ok_iff.mpr hname,
          (mark_eq_ok_iff rfl).mpr hcolon, bind, Except.bind]
        rfl

end Json
