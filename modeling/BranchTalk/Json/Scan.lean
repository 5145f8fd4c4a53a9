import BranchTalk.Json.Grammar

set_option autoImplicit false

/-! # A reader for JSON texts

The reader takes one value from the front of a byte string and leaves what follows it. It stops at
the first thing it cannot read: a byte that no text can have there, or a number too large for a
double. A byte order mark at the very front is skipped. -/

namespace Json

/-- Why the reader stopped. -/
inductive Failure where
  | syntaxError
  | tooLarge (n : Number)
  deriving DecidableEq, Repr

/-! ## White space and numbers -/

def skipWhitespace (s : Bytes) : Bytes := s.dropWhile isWhitespace

/-- The digits at the front. -/
def digits (s : Bytes) : Except Failure (Bytes × Bytes) :=
  match s.takeWhile isDigit with
  | [] => .error .syntaxError
  | ds => .ok (ds, s.dropWhile isDigit)

/-- The digits before the point: a zero stands alone. -/
def integerPart : Bytes → Except Failure (Bytes × Bytes)
  | 0x30 :: s => .ok ([0x30], s)
  | s => digits s

def fractionPart : Bytes → Except Failure (Option Bytes × Bytes)
  | 0x2E :: s => do
      let (ds, s) ← digits s
      return (some ds, s)
  | s => .ok (none, s)

def exponentSign : Bytes → Option UInt8 × Bytes
  | 0x2B :: s => (some 0x2B, s)
  | 0x2D :: s => (some 0x2D, s)
  | s => (none, s)

def exponentPart : Bytes → Except Failure (Option (UInt8 × Option UInt8 × Bytes) × Bytes)
  | [] => .ok (none, [])
  | b :: s =>
      if b = 0x65 ∨ b = 0x45 then do
        let (ds, r) ← digits (exponentSign s).2
        return (some (b, (exponentSign s).1, ds), r)
      else .ok (none, b :: s)

def minusSign : Bytes → Bool × Bytes
  | 0x2D :: s => (true, s)
  | s => (false, s)

def number (s : Bytes) : Except Failure (Number × Bytes) := do
  let (integer, s₁) ← integerPart (minusSign s).2
  let (fraction, s₂) ← fractionPart s₁
  let (exponent, s₃) ← exponentPart s₂
  return (⟨(minusSign s).1, integer, fraction, exponent⟩, s₃)

/-- The number that digits denote. -/
def digitsValue (ds : Bytes) : ℕ := ds.foldl (fun n b => n * 10 + (b.toNat - 0x30)) 0

/-- The literal without sign, point and exponent: the value is this times a power of ten. -/
def Number.significand (n : Number) : ℕ := digitsValue (n.integer ++ n.fraction.getD [])

/-- The power of ten. -/
def Number.scale (n : Number) : Int :=
  n.exponent.elim 0 (fun e => if e.2.1 = some 0x2D then -(digitsValue e.2.2 : Int) else digitsValue e.2.2)
    - (n.fraction.getD []).length

/-- The least magnitude that rounds to no finite double: halfway between the greatest one and
    2^1024. -/
def doubleBound : ℕ := 2 ^ 1024 - 2 ^ 970

/-- The literal denotes a number too large for a double. -/
def Number.tooLarge (n : Number) : Bool :=
  n.significand ≠ 0 ∧
    if 0 ≤ n.scale then doubleBound ≤ n.significand * 10 ^ n.scale.toNat
    else doubleBound * 10 ^ (-n.scale).toNat ≤ n.significand

/-! ## Strings -/

/-- The character at the front, if the bytes there are well-formed UTF-8. -/
def character (s : Bytes) : Option (Char × Bytes) :=
  (s.toByteArray.utf8DecodeChar? 0).map fun c => (c, s.drop (String.utf8EncodeChar c).length)

def hex4 : Bytes → Option (ℕ × Bytes)
  | a :: b :: c :: d :: r => do
      let va ← hexValue a
      let vb ← hexValue b
      let vc ← hexValue c
      let vd ← hexValue d
      return (((va * 16 + vb) * 16 + vc) * 16 + vd, r)
  | _ => none

/-- The second half of a surrogate pair. -/
def lowSurrogate : Bytes → Option (ℕ × Bytes)
  | 0x5C :: 0x75 :: s => do
      let (v, r) ← hex4 s
      if isLowSurrogate v then return (v, r) else none
  | _ => none

/-- What follows a backslash. -/
def escape : Bytes → Option (Bytes × Bytes)
  | [] => none
  | b :: s =>
      if b = 0x75 then do
        let (v, r) ← hex4 s
        if isHighSurrogate v then do
          let (lo, r') ← lowSurrogate r
          return (encode (0x10000 + (v - 0xD800) * 0x400 + (lo - 0xDC00)), r')
        else if isLowSurrogate v then none
        else return (encode v, r)
      else (simpleEscapes.lookup b).map fun byte => ([byte], s)

/-- The rest of a string after its opening quote. -/
def chars : ℕ → Bytes → Except Failure (Bytes × Bytes)
  | 0, _ => .error .syntaxError
  | fuel + 1, s =>
      match character s with
      | none => .error .syntaxError
      | some (c, r) =>
          if c = '"' then .ok ([], r)
          else if c = '\\' then
            match escape r with
            | none => .error .syntaxError
            | some (d, r) => do
                let (ds, r) ← chars fuel r
                return (d ++ ds, r)
          else if c.val < 0x20 then .error .syntaxError
          else do
            let (ds, r) ← chars fuel r
            return (String.utf8EncodeChar c ++ ds, r)

def string (s : Bytes) : Except Failure (Bytes × Bytes) := chars (s.length + 1) s

/-! ## Values -/

def containerOf (b : UInt8) : Option Container :=
  if b = Container.array.opening then some .array
  else if b = Container.object.opening then some .object
  else none

/-- A byte that must come next, after white space. -/
def mark (b : UInt8) (s : Bytes) : Except Failure Bytes :=
  match skipWhitespace s with
  | b' :: r => if b' = b then .ok r else .error .syntaxError
  | [] => .error .syntaxError

def Container.key : Container → Bytes → Except Failure (Bytes × Bytes)
  | .array, s => .ok ([], s)
  | .object, s => do
      let s₁ ← mark quote s
      let (name, s₂) ← string s₁
      let r ← mark colon s₂
      return (name, r)

def literal (s : Bytes) : Except Failure (Value × Bytes) :=
  match literals.find? fun l => l.1.isPrefixOf s with
  | some l => .ok (l.2, s.drop l.1.length)
  | none => .error .syntaxError

mutual

/-- The value at the front. -/
def value : ℕ → Bytes → Except Failure (Value × Bytes)
  | 0, _ => .error .syntaxError
  | _ + 1, [] => .error .syntaxError
  | fuel + 1, b :: s =>
      if b = quote then do
        let (d, r) ← string s
        return (.string d, r)
      else match containerOf b with
        | some c =>
            match mark c.closing s with
            | .ok r => .ok (c.build [], r)
            | .error _ => do
                let (ms, r) ← items fuel c s
                return (c.build ms, r)
        | none =>
            if b = 0x2D ∨ isDigit b then do
              let (n, r) ← number (b :: s)
              if n.tooLarge then .error (.tooLarge n) else return (.number n, r)
            else literal (b :: s)

/-- The items of a container, up to and with its closing mark. -/
def items : ℕ → Container → Bytes → Except Failure (List Member × Bytes)
  | 0, _, _ => .error .syntaxError
  | fuel + 1, c, s => do
      let (name, s₁) ← c.key s
      let (v, s₂) ← value fuel (skipWhitespace s₁)
      match mark comma s₂ with
      | .ok s₃ => do
          let (ms, r) ← items fuel c s₃
          return ((name, v) :: ms, r)
      | .error _ => do
          let r ← mark c.closing s₂
          return ([(name, v)], r)

end

/-- The UTF-8 byte order mark. -/
def byteOrderMark : Bytes := [0xEF, 0xBB, 0xBF]

def skipByteOrderMark (s : Bytes) : Bytes :=
  if byteOrderMark.isPrefixOf s then s.drop 3 else s

/-- Enough fuel for every text of this length. -/
def fuelFor (s : Bytes) : ℕ := 2 * s.length + 1

/-- Take one value from the front of a byte string. -/
def read (s : Bytes) : Except Failure (Value × Bytes) :=
  let s := skipWhitespace (skipByteOrderMark s)
  value (fuelFor s) s

end Json
