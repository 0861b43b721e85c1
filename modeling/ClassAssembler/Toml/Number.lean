import ClassAssembler.Document
import ClassAssembler.Number.Literal

/-!
# Numbers of TOML

Whole numbers are decimal without needless zeros, or have the mark of a base in front.  Fractions
are decimal.  Single underscores stand between digits.
-/

namespace ClassAssembler

namespace Toml

def isDigit (b : UInt8) : Bool := 48 ≤ b && b ≤ 57

def digitsOf? (base : Nat) (t : Text) : Option Text :=
  if t.isEmpty ∨ !(Literal.separatesDigits base .other t) then none
  else
    let digits := t.filter (· != Literal.underscore)
    if digits.all fun b => (Literal.digitIn? base b).isSome then some digits else none

def hasLeadingZero (digits : Text) : Bool := digits.head? == some 48 && 1 < digits.length

def integer? (n : Int) : Option Scalar :=
  if -0x8000000000000000 ≤ n ∧ n < 0x8000000000000000 then some (.integer n) else none

def marked? (base : Nat) (t : Text) : Option Scalar := do
  let digits ← digitsOf? base t
  integer? (← Literal.digits? base digits 0)

def whole? (t : Text) : Option Scalar := do
  let digits ← digitsOf? 10 (Literal.withoutSign t)
  if hasLeadingZero digits then none
  else
    let n ← Literal.digits? 10 digits 0
    integer? (if t.head? = some Literal.minus then -(n : Int) else n)

def fraction? (t : Text) : Option Scalar := do
  let body := Literal.withoutSign t
  let front := body.takeWhile fun b => b != 46 && b != 101 && b != 69
  let rest := body.drop front.length
  let front ← digitsOf? 10 front
  let (places, rest) :=
    match rest with
    | 46 :: r =>
      let ds := r.takeWhile fun b => b != 101 && b != 69
      (some ds, r.drop ds.length)
    | _ => (none, rest)
  let places ← match places with
    | some ds => (digitsOf? 10 ds).map ([46] ++ ·)
    | none => some []
  let exponent ← match rest with
    | [] => some []
    | e :: r =>
      let ds := Literal.withoutSign r
      (digitsOf? 10 ds).map fun digits => e :: (r.take (r.length - ds.length) ++ digits)
  if hasLeadingZero front then none
  else
    let sign := t.take (t.length - body.length)
    (Literal.float? Binary.double (sign ++ front ++ places ++ exponent)).map .float

def day? (t : Text) : Option Scalar :=
  match t.split 45 with
  | [y, m, d] =>
    if y.length = 4 ∧ m.length = 2 ∧ d.length = 2 ∧ (y ++ m ++ d).all isDigit then
      match Literal.digits? 10 y 0, Literal.digits? 10 m 0, Literal.digits? 10 d 0 with
      | some y, some m, some d =>
        let isLeap := y % 4 = 0 ∧ (y % 100 ≠ 0 ∨ y % 400 = 0)
        let days := if m = 2 then (if isLeap then 29 else 28)
          else if m = 4 ∨ m = 6 ∨ m = 9 ∨ m = 11 then 30 else 31
        if 1 ≤ m ∧ m ≤ 12 ∧ 1 ≤ d ∧ d ≤ days then some (.day t) else none
      | _, _, _ => none
    else none
  | _ => none

def word? (t : Text) : Option Scalar :=
  let body := Literal.withoutSign t
  if t = "true" then some (.bool true)
  else if t = "false" then some (.bool false)
  else if body = "inf" then
    some (.float (Binary.double.infinity (t.head? == some Literal.minus)))
  else if body = "nan" then some (.float (Literal.notANumber Binary.double))
  else if t.startsWith "0x" then marked? 16 (t.drop 2)
  else if t.startsWith "0o" then marked? 8 (t.drop 2)
  else if t.startsWith "0b" then marked? 2 (t.drop 2)
  else if 4 < t.length ∧ (t.take 4).all isDigit ∧ t[4]? = some 45 then day? t
  else if body.any fun b => b == 46 || b == 101 || b == 69 then fraction? t
  else whole? t

end Toml

end ClassAssembler
