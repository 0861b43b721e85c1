import ClassAssembler.Text.Utf8

/-!
# UTF-16 units and their encoding in class files

Each unit is encoded by itself in one, two or three bytes.  The unit zero takes two bytes, and a
character outside the basic plane is stored as its two surrogates.
-/

namespace ClassAssembler

namespace Text

def codeUnits (c : Nat) : List UInt16 :=
  if c < 0x10000 then [UInt16.ofNat c]
  else
    [UInt16.ofNat (0xD800 + (c - 0x10000) / 0x400), UInt16.ofNat (0xDC00 + (c - 0x10000) % 0x400)]

def units (t : Text) : List UInt16 := t.codes.flatMap codeUnits

def isPlain (u : UInt16) : Bool := 1 ≤ u.toNat && u.toNat ≤ 0x7F

def unitLength (u : UInt16) : Nat :=
  if isPlain u then 1 else if u.toNat > 0x7FF then 3 else 2

def addUnitLengths (n : Nat) : List UInt16 → Nat
  | [] => n
  | u :: us => addUnitLengths (n + unitLength u) us

def encodeUnit (u : UInt16) : List UInt8 :=
  let c := u.toNat
  if 1 ≤ c ∧ c ≤ 0x7F then [UInt8.ofNat c]
  else if c ≤ 0x7FF then [UInt8.ofNat (0xC0 + c / 64), UInt8.ofNat (0x80 + c % 64)]
  else
    [UInt8.ofNat (0xE0 + c / 4096), UInt8.ofNat (0x80 + c / 64 % 64),
      UInt8.ofNat (0x80 + c % 64)]

def encodeUnits (us : List UInt16) : List UInt8 := us.flatMap encodeUnit

def modifiedUtf8 (t : Text) : List UInt8 := encodeUnits t.units

end Text

end ClassAssembler
