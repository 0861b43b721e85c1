import ClassAssembler.Number.Convert
import ClassAssembler.Value

/-!
# Documents

The tree that a text in a data format stands for.  A scalar keeps the text it was written as,
because a reader may want the text where the format would have seen a number.
-/

namespace ClassAssembler

inductive Scalar where
  | null
  | bool (b : Bool)
  | integer (n : Int)
  | float (bits : Nat)
  | string (t : Text)
  /-- A day, which no reader wants; only its text matters. -/
  | day (shown : Text)
deriving DecidableEq, Inhabited

inductive Document where
  | scalar (raw : Text) (v : Scalar)
  | list (items : List Document)
  | table (entries : List (Text × Document))
deriving Inhabited

namespace Scalar

def toValue : Scalar → Value
  | null => .nil
  | bool b => .bool b
  | integer n =>
    if n < 0x8000000000000000 then .int64 (Int64.ofInt n) else .uint64 (UInt64.ofNat n.toNat)
  | float bits => .float64 (UInt64.ofNat bits)
  | string t => .string t
  | day shown => .string shown

def describe (v : Scalar) : Text := v.toValue.describe

end Scalar

namespace Document

inductive Content where
  /-- No document at all. -/
  | empty
  | document (d : Document)
deriving Inhabited

def ofText (t : Text) : Document := scalar t (.string t)

mutual

/-- The text of a document: the items of a list stand between brackets, and the entries of a table
come in the order of their keys. -/
def describe : Document → Text
  | scalar _ v => v.describe
  | list items => [91] ++ Text.join [32] (describeItems items) ++ [93]
  | table entries =>
    let shown := (describeEntries entries).mergeSort fun a b => a.1 ≤ b.1
    Text.ofString "map[" ++ Text.join [32] (shown.map fun (k, v) => k ++ [58] ++ v) ++ [93]

def describeItems : List Document → List Text
  | [] => []
  | d :: ds => d.describe :: describeItems ds

def describeEntries : List (Text × Document) → List (Text × Text)
  | [] => []
  | (k, d) :: es => (k, d.describe) :: describeEntries es

end

def areDistinct : List Text → Bool
  | [] => true
  | k :: ks => !ks.contains k && areDistinct ks

mutual

def hasDistinctKeys : Document → Bool
  | scalar _ _ => true
  | list items => itemsHaveDistinctKeys items
  | table entries => areDistinct (entries.map Prod.fst) && entriesHaveDistinctKeys entries

def itemsHaveDistinctKeys : List Document → Bool
  | [] => true
  | d :: ds => d.hasDistinctKeys && itemsHaveDistinctKeys ds

def entriesHaveDistinctKeys : List (Text × Document) → Bool
  | [] => true
  | (_, d) :: es => d.hasDistinctKeys && entriesHaveDistinctKeys es

end

end Document

end ClassAssembler
