/-!
# Binary floating-point numbers

A finite number is a whole number of units times a power of two; `Format.round` gives the number
nearest to a fraction, and of two equally near ones the one with an even number of units.
-/

namespace ClassAssembler

namespace Binary

structure Format where
  fractionBits : Nat
  exponentBits : Nat
deriving DecidableEq, Repr, Inhabited

def single : Format := ⟨23, 8⟩

def double : Format := ⟨52, 11⟩

/-- What a bit pattern stands for; a finite number is `units * 2 ^ scale`. -/
inductive Number where
  | finite (negative : Bool) (units : Nat) (scale : Int)
  | infinite (negative : Bool)
  | nan
deriving DecidableEq, Repr, Inhabited

namespace Format

def minScale (f : Format) : Int := 2 - Nat.pow 2 (f.exponentBits - 1) - f.fractionBits

def topExponent (f : Format) : Nat := Nat.pow 2 f.exponentBits - 1

def decode (f : Format) (bits : Nat) : Number :=
  let negative := bits / Nat.pow 2 (f.fractionBits + f.exponentBits) % 2 = 1
  let exponent := bits / Nat.pow 2 f.fractionBits % Nat.pow 2 f.exponentBits
  let fraction := bits % Nat.pow 2 f.fractionBits
  if exponent = f.topExponent then if fraction = 0 then .infinite negative else .nan
  else if exponent = 0 then .finite negative fraction f.minScale
  else .finite negative (Nat.pow 2 f.fractionBits + fraction) (f.minScale + (exponent - 1))

def signBit (f : Format) (negative : Bool) : Nat :=
  if negative then Nat.pow 2 (f.fractionBits + f.exponentBits) else 0

def infinity (f : Format) (negative : Bool) : Nat :=
  f.signBit negative + f.topExponent * Nat.pow 2 f.fractionBits

/-- The whole number nearest to `num / den`, the even one of two. -/
def roundQuotient (num den : Nat) : Nat :=
  let q := num / den
  let r := num % den
  if 2 * r < den then q else if den < 2 * r then q + 1 else q + q % 2

def round (f : Format) (negative : Bool) (num den : Nat) : Option Nat :=
  if num = 0 then some (f.signBit negative)
  else
    -- `num / den` lies between `2 ^ (guess - 1)` and `2 ^ (guess + 1)`
    let guess : Int := (Nat.log2 num : Int) - Nat.log2 den
    let units (scale : Int) : Nat :=
      if 0 ≤ scale then roundQuotient num (den * Nat.pow 2 scale.toNat)
      else roundQuotient (num * Nat.pow 2 (-scale).toNat) den
    let below : Bool :=
      if 0 ≤ guess then num < den * Nat.pow 2 guess.toNat
      else num * Nat.pow 2 (-guess).toNat < den
    let exponent := if below then guess - 1 else guess
    let scale := max (exponent - f.fractionBits) f.minScale
    let m := units scale
    let field := (scale - f.minScale).toNat
    -- a carry out of the units moves into the exponent field by itself
    let bits := field * Nat.pow 2 f.fractionBits + m
    if f.topExponent * Nat.pow 2 f.fractionBits ≤ bits then none
    else some (f.signBit negative + bits)

end Format

end Binary

end ClassAssembler
