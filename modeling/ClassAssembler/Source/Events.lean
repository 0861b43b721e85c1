import ClassAssembler.ClassEvent
import ClassAssembler.Source.Basic

/-!
# Events of a class source

A checked source is sent as events.  A label belongs to the method whose listing defines it.
-/

namespace ClassAssembler

structure ListingLabel where
  method : Nat
  name : Text
deriving DecidableEq, Hashable, Repr, Inhabited

namespace CheckedField

def event (f : CheckedField) : ClassEvent ListingLabel :=
  .field f.access.toNat f.name f.desc f.signature f.value

end CheckedField

namespace CheckedMethod

def codeEvents (m : CheckedMethod) (i : Nat) : List (ClassEvent ListingLabel) :=
  match m.code with
  | none => []
  | some l =>
    .beginCode :: l.events.map (fun e => .code (e.mapTargets (⟨i, ·⟩)))
      ++ [.code (.maxs l.maxStack l.maxLocals)]

def events (m : CheckedMethod) (i : Nat) : List (ClassEvent ListingLabel) :=
  .method m.access.toNat m.name m.desc m.signature m.exceptions :: m.codeEvents i
    ++ [.finishMethod]

end CheckedMethod

namespace CheckedClass

def events (c : CheckedClass) : List (ClassEvent ListingLabel) :=
  .header c.version c.access.toNat c.name c.signature c.super c.interfaces
    :: (if c.source.isEmpty then [] else [.source c.source []])
    ++ c.fields.map CheckedField.event
    ++ (c.methods.zipIdx.map fun (m, i) => m.events i).flatten
    ++ [.finish]

def definition (c : CheckedClass) : DefinedClass :=
  { name := c.name, super := c.super, isInterface := c.access.has Access.interface }

def assemble (c : CheckedClass) (compute : Compute) (options : Options) :
    Checked (Except Failure Buffer) :=
  Assembler.assemble compute
    { options with defined := options.defined ++ [c.definition] } c.events

end CheckedClass

end ClassAssembler
