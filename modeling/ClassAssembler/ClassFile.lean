import ClassAssembler.Buffer

/-!
# Class files

The parts of a class file in the order they are written.  An attribute is named by an index of the
constant pool, and its content is opaque.  The length in front of a content and the number in front
of a list of attributes are worked out apart from what they stand in front of.
-/

namespace ClassAssembler

structure Attribute where
  nameIndex : Nat
  length : Int
  content : Buffer
deriving Inhabited

namespace Attribute

def put (b : Buffer) (a : Attribute) : Buffer :=
  ((b.putShort a.nameIndex).putInt a.length).append a.content

def putAll (b : Buffer) (count : Nat) (as : List Attribute) : Buffer :=
  as.foldl put (b.putShort count)

/-- The number of attributes that are wanted, with some that always are. -/
def count (wanted : List Bool) (raw : Nat) : Nat :=
  wanted.foldl (fun n w => if w then n + 1 else n) raw

end Attribute

structure Member where
  access : Nat
  nameIndex : Nat
  descIndex : Nat
  count : Nat
  attributes : List Attribute
deriving Inhabited

namespace Member

def put (b : Buffer) (m : Member) : Buffer :=
  Attribute.putAll (((b.putShort m.access).putShort m.nameIndex).putShort m.descIndex) m.count
    m.attributes

def putAll (b : Buffer) (ms : List Member) : Buffer := ms.foldl put (b.putShort ms.length)

end Member

structure ClassFile where
  version : Int
  poolCount : Nat
  poolBytes : Buffer
  access : Nat
  thisIndex : Nat
  superIndex : Nat
  interfaces : List Nat
  fields : List Member
  methods : List Member
  attributeCount : Nat
  attributes : List Attribute
deriving Inhabited

namespace ClassFile

def magic : Nat := 0xCAFEBABE

def write (f : ClassFile) (room : Int) : Buffer :=
  let b := ((Buffer.withRoom room).putInt magic).putInt f.version
  let b := (b.putShort f.poolCount).append f.poolBytes
  let b := ((b.putShort f.access).putShort f.thisIndex).putShort f.superIndex
  let b := f.interfaces.foldl (fun b i => b.putShort i) (b.putShort f.interfaces.length)
  Attribute.putAll (Member.putAll (Member.putAll b f.fields) f.methods) f.attributeCount
    f.attributes

end ClassFile

end ClassAssembler
