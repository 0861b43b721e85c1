import ClassAssembler.Label

/-!
# Frames of blocks

The input of a frame are the types on entry.  Its output is relative to them: what the instructions
of the block have stored and pushed.  An unset output slot keeps its input type.
-/

namespace ClassAssembler

structure Frame where
  owner : LabelId
  /-- The types on entry, once they are known. -/
  inputLocals : Option (Array SlotType) := none
  inputStack : Option (Array SlotType) := none
  outputLocals : Array SlotType := #[]
  outputStack : Array SlotType := #[]
  initialized : Array SlotType := #[]
  /-- Whether every instruction is merged into the input at once. -/
  isEager : Bool := false
deriving Repr, Inhabited

namespace Frame

def locals (f : Frame) : Array SlotType := f.inputLocals.getD #[]

def stack (f : Frame) : Array SlotType := f.inputStack.getD #[]

end Frame

end ClassAssembler
