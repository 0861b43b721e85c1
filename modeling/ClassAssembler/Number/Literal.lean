import ClassAssembler.Number.Binary
import ClassAssembler.Text.Basic

/-!
# Number literals

Whole numbers are decimal, or have a mark in front: `0x`, `0o` or only `0`, `0b`.  Fractions are
decimal, or hexadecimal with a binary exponent.  Single underscores may stand between digits.
-/

namespace ClassAssembler

namespace Literal

def underscore : UInt8 := 95
def point : UInt8 := 46
def plus : UInt8 := 43
def minus : UInt8 := 45
def zero : UInt8 := 48

def lower (b : UInt8) : UInt8 := b ||| 32

def digit? (b : UInt8) : Option Nat :=
  if 48 ≤ b ∧ b ≤ 57 then some (b.toNat - 48)
  else if 97 ≤ lower b ∧ lower b ≤ 122 then some ((lower b).toNat - 87)
  else none

def digitIn? (base : Nat) (b : UInt8) : Option Nat := (digit? b).filter (· < base)

/-! ## Underscores -/

inductive Before where
  | digit
  | underscore
  | other
deriving DecidableEq, Repr, Inhabited

def separatesDigits (base : Nat) : Before → Text → Bool
  | before, [] => before != .underscore
  | before, b :: r =>
    if (digitIn? base b).isSome then separatesDigits base .digit r
    else if b = underscore then before == .digit && separatesDigits base .underscore r
    else before != .underscore && separatesDigits base .other r

def announcedBase? : Text → Option Nat
  | z :: b :: _ =>
    if z = zero then
      match Char.ofUInt8 (lower b) with
      | 'b' => some 2
      | 'o' => some 8
      | 'x' => some 16
      | _ => none
    else none
  | _ => none

def withoutSign : Text → Text
  | [] => []
  | b :: r => if b = plus ∨ b = minus then r else b :: r

def underscoresFit (t : Text) : Bool :=
  let t := withoutSign t
  match announcedBase? t with
  | some 16 => separatesDigits 16 .digit (t.drop 2)
  | some _ => separatesDigits 10 .digit (t.drop 2)
  | none => separatesDigits 10 .other t

/-! ## Whole numbers -/

def digits? (base : Nat) : Text → Nat → Option Nat
  | [], n => some n
  | b :: r, n =>
    if b = underscore then digits? base r n
    else
      match digitIn? base b with
      | some d => digits? base r (n * base + d)
      | none => none

def natural? (t : Text) : Option Nat :=
  let value :=
    match t with
    | [] => none
    | z :: r =>
      match announcedBase? t, t.drop 2 with
      | some base, d :: ds => digits? base (d :: ds) 0
      | _, _ => if z = zero then digits? 8 r 0 else digits? 10 t 0
  if t.contains underscore ∧ !underscoresFit t then none else value

def integer? (t : Text) : Option Int :=
  match t with
  | [] => none
  | b :: r =>
    let value : Option Int :=
      if b = minus then (natural? r).map fun n => -(n : Int)
      else (natural? (if b = plus then r else t)).map Int.ofNat
    value.filter fun v => -0x8000000000000000 ≤ v ∧ v < 0x8000000000000000

/-! ## Fractions -/

structure Mantissa where
  value : Nat := 0
  places : Option Nat := none
  hasDigits : Bool := false
deriving Repr, Inhabited

def mantissa (base : Nat) : Text → Mantissa → Mantissa × Text
  | [], m => (m, [])
  | b :: r, m =>
    if b = underscore then mantissa base r m
    else if b = point ∧ m.places.isNone then mantissa base r { m with places := some 0 }
    else
      match digitIn? base b with
      | some d =>
        mantissa base r
          { value := m.value * base + d, places := m.places.map (· + 1), hasDigits := true }
      | none => (m, b :: r)

def exponentDigits : Text → Nat → Option Nat
  | [], e => some e
  | b :: r, e =>
    if b = underscore then exponentDigits r e
    else
      match digitIn? 10 b with
      | some d => exponentDigits r (if e < 10000 then e * 10 + d else e)
      | none => none

def exponent? (mark : UInt8) : Text → Option Int
  | [] => some 0
  | b :: r =>
    if lower b ≠ mark then none
    else
      let ds := withoutSign r
      match ds with
      | d :: _ =>
        if (digitIn? 10 d).isNone then none
        else
          (exponentDigits ds 0).map fun e => if r.head? = some minus then -(e : Int) else e
      | [] => none

def scaled? (f : Binary.Format) (negative : Bool) (value base : Nat) (exponent : Int) :
    Option Nat :=
  if 0 ≤ exponent then f.round negative (value * Nat.pow base exponent.toNat) 1
  else f.round negative value (Nat.pow base (-exponent).toNat)

def finite? (f : Binary.Format) (t : Text) : Option Nat := do
  let negative := t.head? == some minus
  let body := withoutSign t
  let isHex := announcedBase? body == some 16 && 2 < body.length
  let (m, rest) := mantissa (if isHex then 16 else 10) (if isHex then body.drop 2 else body) {}
  if !m.hasDigits then none
  else if isHex ∧ rest.isEmpty then none
  else
    let e ← exponent? (if isHex then 112 else 101) rest
    if t.contains underscore ∧ !underscoresFit t then none
    else
      let places : Int := m.places.getD 0
      if isHex then scaled? f negative m.value 2 (e - 4 * places)
      else scaled? f negative m.value 10 (e - places)

def notANumber (f : Binary.Format) : Nat :=
  f.infinity false + Nat.pow 2 (f.fractionBits - 1) + (if f = Binary.double then 1 else 0)

def lowerLetters (t : Text) : Text := t.map fun b => if 65 ≤ b ∧ b ≤ 90 then b + 32 else b

/-- A number of a format: an infinity, a NaN or a finite number. -/
def float? (f : Binary.Format) (t : Text) : Option Nat :=
  let word := lowerLetters (withoutSign t)
  if word = "inf" ∨ word = "infinity" then
    some (f.infinity (t.head? == some minus))
  else if lowerLetters t = "nan" then some (notANumber f)
  else finite? f t

end Literal

end ClassAssembler
