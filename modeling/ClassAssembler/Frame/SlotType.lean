/-!
# The types of frame slots

A slot holds a base and a number of array dimensions.  While a block is being followed, the base may
be the type that a local variable or a stack slot had on entry.  A type is stored in four bits of
dimensions and twenty-eight bits of base; numbers that a caller puts into a frame directly may use
any pattern of these bits, and dimensions count modulo sixteen.
-/

namespace ClassAssembler

inductive SlotBase where
  | unset
  | basic (code : Nat)
  | object (index : Nat)
  | fresh (index : Nat)
  /-- What a local variable holds on entry; `single` turns a two-slot value into no value. -/
  | entryLocal (slot : Nat) (single : Bool)
  /-- What a stack slot holds on entry, counted from the top. -/
  | entryStack (depth : Nat) (single : Bool)
  /-- Any other pattern of bits. -/
  | other (bits : Nat)
deriving DecidableEq, Repr, Inhabited

namespace SlotBase

def bits : SlotBase → Nat
  | unset => 0
  | basic code => 0x1000000 + code
  | object index => 0x1700000 + index
  | fresh index => 0x1800000 + index
  | entryLocal slot single => 0x2000000 + (if single then 0x800000 else 0) + slot
  | entryStack depth single => 0x3000000 + (if single then 0x800000 else 0) + depth
  | other bits => bits

def ofBits (b : Nat) : SlotBase :=
  if b = 0 then unset
  else
    match b / 0x1000000 with
    | 1 =>
      match b / 0x100000 % 16 with
      | 0 => basic (b % 0x100000)
      | 7 => object (b % 0x100000)
      | 8 => fresh (b % 0x100000)
      | _ => other b
    | 2 => entryLocal (b % 0x800000) (b / 0x800000 % 2 == 1)
    | 3 => entryStack (b % 0x800000) (b / 0x800000 % 2 == 1)
    | _ => other b

def kind (b : SlotBase) : Nat := b.bits / 0x1000000

def family (b : SlotBase) : Nat := b.bits / 0x100000

def value (b : SlotBase) : Nat := b.bits % 0x100000

/-- The base marked so that a two-slot value in it counts as no value. -/
def asSingle : SlotBase → SlotBase
  | entryLocal slot _ => entryLocal slot true
  | entryStack depth _ => entryStack depth true
  | b => if b.bits / 0x800000 % 2 = 1 then b else ofBits (b.bits + 0x800000)

end SlotBase

structure SlotType where
  dims : Nat := 0
  base : SlotBase
deriving DecidableEq, Repr, Inhabited

namespace SlotType

def unset : SlotType := ⟨0, .unset⟩
def top : SlotType := ⟨0, .basic 0⟩
def integer : SlotType := ⟨0, .basic 1⟩
def float : SlotType := ⟨0, .basic 2⟩
def double : SlotType := ⟨0, .basic 3⟩
def long : SlotType := ⟨0, .basic 4⟩
def null : SlotType := ⟨0, .basic 5⟩
def uninitializedThis : SlotType := ⟨0, .basic 6⟩

def boolean : SlotType := ⟨0, .basic 9⟩
def byte : SlotType := ⟨0, .basic 10⟩
def char : SlotType := ⟨0, .basic 11⟩
def short : SlotType := ⟨0, .basic 12⟩

def object (index : Nat) : SlotType := ⟨0, .object index⟩

def fresh (index : Nat) : SlotType := ⟨0, .fresh index⟩

def ofWord (w : Nat) : SlotType := ⟨w / 0x10000000 % 16, .ofBits (w % 0x10000000)⟩

def ofNumber (n : Int) : SlotType := ofWord (0x1000000 ||| (n % 0x100000000).toNat)

def entryLocal (slot : Nat) : SlotType :=
  if slot < 0x800000 then ⟨0, .entryLocal slot false⟩
  else ofWord (0x2000000 ||| slot % 0x100000000)

def entryStack (depth : Nat) : SlotType :=
  if depth < 0x800000 then ⟨0, .entryStack depth false⟩
  else ofWord (0x3000000 ||| depth % 0x100000000)

def addDims (t : SlotType) (n : Nat) : SlotType := { t with dims := (t.dims + n) % 16 }

def element (t : SlotType) : SlotType := t.addDims 15

def array (n : Nat) (t : SlotType) : SlotType := t.addDims n

def isWide (t : SlotType) : Bool := t == long || t == double

def isObject (t : SlotType) : Bool := t.base.family == 0x17

def isBase (t : SlotType) : Bool := t.base.kind == 1

def isReference (t : SlotType) : Bool := t.isObject || t.dims != 0

end SlotType

end ClassAssembler
