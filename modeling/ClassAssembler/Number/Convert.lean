import ClassAssembler.Number.Binary

/-!
# Conversion of numbers

Conversions take the nearest number; beyond the largest one lies an infinity.
-/

namespace ClassAssembler

namespace Binary

namespace Format

/-- The bit pattern of the number nearest to `num / den`, an infinity if there is none. -/
def roundOrInfinity (f : Format) (negative : Bool) (num den : Nat) : Nat :=
  (f.round negative num den).getD (f.infinity negative)

def ofInt (f : Format) (n : Int) : Nat := f.roundOrInfinity (n < 0) n.natAbs 1

end Format

def narrowNan (bits : Nat) : Nat :=
  let fraction := bits % Nat.pow 2 double.fractionBits
    / Nat.pow 2 (double.fractionBits - single.fractionBits)
  let negative := bits / Nat.pow 2 (double.fractionBits + double.exponentBits) % 2 = 1
  let quiet := Nat.pow 2 (single.fractionBits - 1)
  single.infinity negative + (fraction % quiet) + quiet

def narrow (bits : Nat) : Nat :=
  match double.decode bits with
  | .infinite negative => single.infinity negative
  | .nan => narrowNan bits
  | .finite negative units scale =>
    if 0 ≤ scale then single.roundOrInfinity negative (units * Nat.pow 2 scale.toNat) 1
    else single.roundOrInfinity negative units (Nat.pow 2 (-scale).toNat)

end Binary

end ClassAssembler
