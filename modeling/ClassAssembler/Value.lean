import ClassAssembler.Handle
import ClassAssembler.JavaType
import ClassAssembler.Number.Shortest
import ClassAssembler.Text.Quoted

/-!
# Values

The values a caller can hand to the assembler.  Floating-point values are kept as their bits, so
that two values are the same exactly when their bits are.
-/

namespace ClassAssembler

inductive Value where
  | nil
  | int (v : Int)
  | int8 (v : Int8)
  | int16 (v : Int16)
  | int32 (v : Int32)
  | int64 (v : Int64)
  | uint8 (v : UInt8)
  | uint64 (v : UInt64)
  | char (v : UInt16)
  | bool (v : Bool)
  | string (v : Text)
  | float32 (bits : UInt32)
  | float64 (bits : UInt64)
  | type (v : JavaType)
  | handle (v : Handle)
  | bytes (vs : List UInt8)
  | int8s (vs : List Int8)
  | bools (vs : List Bool)
  | int16s (vs : List Int16)
  | chars (vs : List UInt16)
  | int32s (vs : List Int32)
  | int64s (vs : List Int64)
  | float32s (vs : List UInt32)
  | float64s (vs : List UInt64)
  | strings (vs : List Text)
deriving DecidableEq, Inhabited

namespace Value

def typeName : Value → String
  | nil => "<nil>"
  | int _ => "int"
  | int8 _ => "int8"
  | int16 _ => "int16"
  | int32 _ => "int32"
  | int64 _ => "int64"
  | uint8 _ => "uint8"
  | uint64 _ => "uint64"
  | char _ => "jvmgen.Char"
  | bool _ => "bool"
  | string _ => "string"
  | float32 _ => "float32"
  | float64 _ => "float64"
  | type _ => "jvmgen.Type"
  | handle _ => "jvmgen.Handle"
  | bytes _ => "[]uint8"
  | int8s _ => "[]int8"
  | bools _ => "[]bool"
  | int16s _ => "[]int16"
  | chars _ => "[]jvmgen.Char"
  | int32s _ => "[]int32"
  | int64s _ => "[]int64"
  | float32s _ => "[]float32"
  | float64s _ => "[]float64"
  | strings _ => "[]string"

def toInt? : Value → Option Int
  | int v => some v
  | int8 v => some v.toInt
  | int16 v => some v.toInt
  | int32 v => some v.toInt
  | int64 v => some v.toInt
  | uint8 v => some v.toNat
  | uint64 v => some v.toNat
  | char v => some v.toNat
  | _ => none

def members? : Value → Option (List Value)
  | bytes vs => some (vs.map uint8)
  | int8s vs => some (vs.map int8)
  | bools vs => some (vs.map bool)
  | int16s vs => some (vs.map int16)
  | chars vs => some (vs.map char)
  | int32s vs => some (vs.map int32)
  | int64s vs => some (vs.map int64)
  | float32s vs => some (vs.map float32)
  | float64s vs => some (vs.map float64)
  | strings vs => some (vs.map string)
  | _ => none

def describeScalar : Value → Text
  | nil => "<nil>"
  | bool v => Text.ofString (if v then "true" else "false")
  | string v => v
  | float32 bits => Binary.describe Binary.single bits.toNat
  | float64 bits => Binary.describe Binary.double bits.toNat
  | type v => v.desc
  | handle v => v.describe
  | v =>
    match v.toInt? with
    | some n => Text.ofInt n
    | none => []

def describe (v : Value) : Text :=
  match v.members? with
  | some vs => [91] ++ Text.join [32] (vs.map describeScalar) ++ [93]
  | none => v.describeScalar

end Value

end ClassAssembler
