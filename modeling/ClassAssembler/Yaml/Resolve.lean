import ClassAssembler.Document
import ClassAssembler.Number.Literal

/-!
# What plain YAML scalars mean

A scalar without quotes may be a null, a truth value, a number or a day; otherwise it is a string.
-/

namespace ClassAssembler

namespace Yaml

def words : List (Text × Scalar) :=
  [("true", .bool true), ("True", .bool true), ("TRUE", .bool true),
    ("false", .bool false), ("False", .bool false), ("FALSE", .bool false),
    ("", .null), ("~", .null), ("null", .null), ("Null", .null), ("NULL", .null),
    (".nan", notANumber), (".NaN", notANumber), (".NAN", notANumber),
    (".inf", infinity false), (".Inf", infinity false), (".INF", infinity false),
    ("+.inf", infinity false), ("+.Inf", infinity false), ("+.INF", infinity false),
    ("-.inf", infinity true), ("-.Inf", infinity true), ("-.INF", infinity true)].map
    fun (word, v) => (Text.ofString word, v)
where
  notANumber : Scalar := .float (Literal.notANumber Binary.double)
  infinity (isNegative : Bool) : Scalar := .float (Binary.double.infinity isNegative)

def isDigit (b : UInt8) : Bool := 48 ≤ b && b ≤ 57

/-- Whether a text is a fraction: digits with a point, and perhaps an exponent.  Digits may be
missing on one side of the point. -/
def isFraction (t : Text) : Bool :=
  let body := Literal.withoutSign t
  let front := body.takeWhile isDigit
  let rest := body.drop front.length
  let (places, rest) :=
    match rest with
    | 46 :: r =>
      let ds := r.takeWhile isDigit
      (ds, r.drop ds.length)
    | _ => ([], rest)
  let exponentFits :=
    match rest with
    | [] => true
    | e :: r =>
      let ds := Literal.withoutSign r
      (e == 101 || e == 69) && !ds.isEmpty && ds.all isDigit
  (!front.isEmpty || !places.isEmpty) && exponentFits

def daysOf (year month : Nat) : Nat :=
  if month = 2 then (if year % 4 = 0 ∧ (year % 100 ≠ 0 ∨ year % 400 = 0) then 29 else 28)
  else if month = 4 ∨ month = 6 ∨ month = 9 ∨ month = 11 then 30
  else 31

def day? (t : Text) : Option Scalar :=
  match t.split 45 with
  | [y, m, d] =>
    if y.length = 4 ∧ 1 ≤ m.length ∧ m.length ≤ 2 ∧ 1 ≤ d.length ∧ d.length ≤ 2 ∧
        (y ++ m ++ d).all isDigit then
      match Literal.digits? 10 y 0, Literal.digits? 10 m 0, Literal.digits? 10 d 0 with
      | some year, some month, some day =>
        if 1 ≤ month ∧ month ≤ 12 ∧ 1 ≤ day ∧ day ≤ daysOf year month then
          let two (n : Nat) : Text := if n < 10 then 48 :: Text.ofNat n else Text.ofNat n
          some (.day (y ++ [45] ++ two month ++ [45] ++ two day ++
            Text.ofString " 00:00:00 +0000 UTC"))
        else none
      | _, _, _ => none
    else none
  | _ => none

/-- The number that a text which begins with a digit or a sign stands for.  Whole numbers beyond
sixty-four bits are fractions. -/
def number? (t : Text) : Option Scalar :=
  let plain := t.filter (· != Literal.underscore)
  match Literal.integer? plain with
  | some n => some (.integer n)
  | none =>
    match (Literal.natural? plain).filter (· < 0x10000000000000000) with
    | some n => some (.integer n)
    | none =>
      if isFraction plain then (Literal.float? Binary.double plain).map .float else none

def resolve (t : Text) : Scalar :=
  match words.lookup t with
  | some v => v
  | none =>
    match t with
    | b :: _ =>
      if isDigit b ∨ b = 43 ∨ b = 45 then ((day? t).or (number? t)).getD (.string t)
      else if b = 46 then ((Literal.float? Binary.double t).map .float).getD (.string t)
      else .string t
    | [] => .null

end Yaml

end ClassAssembler
