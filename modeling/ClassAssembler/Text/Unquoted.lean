import ClassAssembler.Text.Utf8

/-!
# Reading quoted texts

Behind a backslash stands a letter for a control character, the number of a byte or of a code
point, a backslash or a quote.
-/

namespace ClassAssembler

namespace Text

def hexDigit? (b : UInt8) : Option Nat :=
  if 48 ≤ b ∧ b ≤ 57 then some (b.toNat - 48)
  else if 97 ≤ b ∧ b ≤ 102 then some (b.toNat - 87)
  else if 65 ≤ b ∧ b ≤ 70 then some (b.toNat - 55)
  else none

def hexDigits? : Nat → Text → Nat → Option Nat
  | 0, _, v => some v
  | _ + 1, [], _ => none
  | n + 1, b :: r, v =>
    match hexDigit? b with
    | some d => hexDigits? n r (v * 16 + d)
    | none => none

def octalDigit? (b : UInt8) : Option Nat := if 48 ≤ b ∧ b ≤ 55 then some (b.toNat - 48) else none

def isScalar (c : Nat) : Bool := c < 0xD800 || (0xDFFF < c && c ≤ 0x10FFFF)

def numbered? (n : Nat) (t : Text) : Option (Text × Nat) := do
  let c ← hexDigits? n t 0
  if isScalar c then some (encode c, n + 1) else none

def escaped? : Text → Option (Text × Nat)
  | [] => none
  | c :: r =>
    match Char.ofUInt8 c with
    | 'a' => some ([7], 1)
    | 'b' => some ([8], 1)
    | 'f' => some ([12], 1)
    | 'n' => some ([10], 1)
    | 'r' => some ([13], 1)
    | 't' => some ([9], 1)
    | 'v' => some ([11], 1)
    | '\\' => some ([92], 1)
    | '"' => some ([34], 1)
    | 'x' => (hexDigits? 2 r 0).map fun v => ([UInt8.ofNat v], 3)
    | 'u' => numbered? 4 r
    | 'U' => numbered? 8 r
    | _ =>
      match octalDigit? c, r.head?.bind octalDigit?, (r.drop 1).head?.bind octalDigit? with
      | some a, some b, some c =>
        let v := (a * 8 + b) * 8 + c
        if v ≤ 255 then some ([UInt8.ofNat v], 3) else none
      | _, _, _ => none

/-- One character of a quoted text: the bytes it means, and how many bytes it takes besides its
first.  A byte that starts no character means U+FFFD. -/
def quotedCharacter? (b : UInt8) (r : Text) : Option (Text × Nat) :=
  if b = 92 then escaped? r
  else if b < 0x80 then some ([b], 0)
  else
    match lead? b r with
    | some (_, n) => some (b :: r.take n, n)
    | none => some (encode replacement, 0)

/-- What a quoted text means, read behind its opening quote, and how many bytes it takes with its
closing quote. -/
def unquote? : Text → Option (Text × Nat)
  | [] => none
  | b :: r =>
    if b = 34 then some ([], 1)
    else if b = 10 then none
    else
      match quotedCharacter? b r with
      | none => none
      | some (bytes, n) => (unquote? (r.drop n)).map fun (t, m) => (bytes ++ t, m + n + 1)
termination_by t => t.length
decreasing_by simp only [List.length_cons, List.length_drop]; omega

end Text

end ClassAssembler
