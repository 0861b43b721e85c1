import ClassAssembler.Number.Binary
import ClassAssembler.Text.Basic

/-!
# Shortest decimal digits

The decimal written for a floating-point number has the fewest digits that still read back as that
number, and among those the nearest one.
-/

namespace ClassAssembler

namespace Binary

/-- A decimal `digits * 10 ^ exponent`. -/
structure Decimal where
  digits : Nat
  exponent : Int
deriving DecidableEq, Repr, Inhabited

structure Interval where
  low : Nat
  high : Nat
  value : Nat
  den : Nat
  closed : Bool
deriving Repr, Inhabited

def interval (f : Format) (units : Nat) (scale : Int) : Interval :=
  let narrow : Bool := units = Nat.pow 2 f.fractionBits ∧ f.minScale < scale
  let up := if 0 ≤ scale then Nat.pow 2 scale.toNat else 1
  let den := if 0 ≤ scale then 1 else Nat.pow 2 (-scale).toNat
  { low := (4 * units - if narrow then 1 else 2) * up
    high := (4 * units + 2) * up
    value := 4 * units * up
    den := 4 * den
    closed := units % 2 = 0 }

def Interval.holds (i : Interval) (d : Decimal) : Bool :=
  let num :=
    if 0 ≤ d.exponent then d.digits * Nat.pow 10 d.exponent.toNat * i.den else d.digits * i.den
  let scale := if 0 ≤ d.exponent then 1 else Nat.pow 10 (-d.exponent).toNat
  if i.closed then i.low * scale ≤ num && num ≤ i.high * scale
  else i.low * scale < num && num < i.high * scale

def decimalExponent (num den : Nat) : Int :=
  let reaches (e : Int) : Bool :=
    if 0 ≤ e then den * Nat.pow 10 e.toNat ≤ num else den ≤ num * Nat.pow 10 (-e).toNat
  let guess : Int := ((Nat.log2 num : Int) - Nat.log2 den) * 30103 / 100000
  if reaches (guess + 1) then guess + 1 else if reaches guess then guess else guess - 1

/-- The decimals with `n` digits next to an interval's value that lie in the interval, the nearer
one first. -/
def candidate? (i : Interval) (top : Int) (n : Nat) : Option Decimal :=
  let e : Int := top - (n - 1)
  let num := if 0 ≤ e then i.value else i.value * Nat.pow 10 (-e).toNat
  let den := if 0 ≤ e then i.den * Nat.pow 10 e.toNat else i.den
  let q := num / den
  let nearFirst := if 2 * (num % den) ≤ den then [q, q + 1] else [q + 1, q]
  (nearFirst.map (Decimal.mk · e)).find? i.holds

def Decimal.normalize : Nat → Decimal → Decimal
  | 0, d => d
  | fuel + 1, d =>
    if d.digits ≠ 0 ∧ d.digits % 10 = 0 then normalize fuel ⟨d.digits / 10, d.exponent + 1⟩ else d

def shortest (f : Format) (units : Nat) (scale : Int) : Decimal :=
  let i := interval f units scale
  let top := decimalExponent i.value i.den
  match (List.range' 1 17).findSome? (candidate? i top) with
  | some d => d.normalize 20
  | none => ⟨0, 0⟩

def scientific (digits : Text) (exponent : Int) : Text :=
  let mantissa := match digits with
    | [] => []
    | [d] => [d]
    | d :: ds => [d, 46] ++ ds
  let size := Text.ofNat exponent.natAbs
  mantissa ++ [101] ++ (if exponent < 0 then [45] else [43])
    ++ (if size.length < 2 then 48 :: size else size)

def positional (digits : Text) (exponent : Int) : Text :=
  if exponent < 0 then
    [48, 46] ++ List.replicate (-exponent - 1).toNat 48 ++ digits
  else
    let whole := exponent.toNat + 1
    if digits.length ≤ whole then digits ++ List.replicate (whole - digits.length) 48
    else digits.take whole ++ [46] ++ digits.drop whole

/-- The text of a floating-point number: positional for decimal exponents from -4 to 5, else with
an exponent of at least two digits. -/
def describe (f : Format) (bits : Nat) : Text :=
  match f.decode bits with
  | .nan => "NaN"
  | .infinite negative => Text.ofString (if negative then "-Inf" else "+Inf")
  | .finite negative units scale =>
    let sign := if negative then [45] else []
    if units = 0 then sign ++ [48]
    else
      let d := shortest f units scale
      let digits := Text.ofNat d.digits
      let exponent := d.exponent + (digits.length - 1)
      sign ++ if exponent < -4 ∨ 6 ≤ exponent then scientific digits exponent
        else positional digits exponent

end Binary

end ClassAssembler
