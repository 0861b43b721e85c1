import ClassAssembler.Hierarchy.Basic
import ClassAssembler.Pool

/-!
# The table of types

Frames name classes and fresh objects by their place in a table.  The table also remembers which
class two classes have in common.
-/

namespace ClassAssembler

inductive TableType where
  | named (name : Text)
  | fresh (name : Text) (offset : Int32)
deriving DecidableEq, Repr, Inhabited

namespace TableType

def name : TableType → Text
  | named n => n
  | fresh n _ => n

def offset : TableType → Int
  | named _ => 0
  | fresh _ o => o.toInt

def key : TableType → TableKey
  | named name => { kind := TableKey.named, first := name }
  | fresh name offset => { kind := TableKey.fresh, number := offset.toInt, first := name }

end TableType

/-- The key of two places.  They share the eight bytes of one number. -/
def TableKey.ofPlaces (i j : Nat) : TableKey :=
  { kind := merged, long := (UInt64.ofNat (j <<< 32 ||| i % 0x100000000)).toInt64 }

structure TypeTable where
  entries : Array (Option TableType) := #[none]
  symbolTable : SymbolTable := {}
deriving Inhabited

namespace TypeTable

def maxPlace : Nat := 0xFFFFF

def at? (t : TypeTable) (i : Nat) : Option TableType := (t.entries[i]?).join

def place? (t : TypeTable) (e : TableType) : Option Nat := t.symbolTable.get? e.key

def add (t : TypeTable) (e : TableType) : TypeTable × Nat × Bool :=
  match t.place? e with
  | some i => (t, i, false)
  | none =>
    let i := t.entries.size
    ({ entries := t.entries.push (some e), symbolTable := t.symbolTable.put e.key i (i + 1) }, i,
      i > maxPlace)

/-- The place that was found for two places. -/
def merged? (t : TypeTable) (i j : Nat) : Option Nat := t.symbolTable.get? (.ofPlaces i j)

def remember (t : TypeTable) (i j k : Nat) : TypeTable :=
  { t with symbolTable := t.symbolTable.put (.ofPlaces i j) k t.entries.size }

end TypeTable

end ClassAssembler
