import ClassAssembler.Frame.SlotType
import ClassAssembler.Text.Basic

/-!
# Labels

A label is a position in the code, and at the same time the basic block that begins there.  Labels
and frames are named by their place in the session, because several labels can stand for one block.
-/

namespace ClassAssembler

abbrev LabelId := Nat

abbrev FrameId := Nat

/-- A jump that waits for its target: where the instruction starts, where the distance is to be
written, and whether it takes four bytes. -/
structure PendingJump where
  source : Nat
  field : Nat
  isWide : Bool
deriving DecidableEq, Repr, Inhabited

/-- How control reaches a successor: by running on or jumping with a stack height, or by an
exception of a type. -/
inductive EdgeKind where
  | flow (height : Int)
  | exception (caught : SlotType)
deriving DecidableEq, Repr, Inhabited

structure Edge where
  kind : EdgeKind
  target : LabelId
deriving DecidableEq, Repr, Inhabited

structure Label where
  position : Nat := 0
  isResolved : Bool := false
  pending : Array PendingJump := #[]
  inputHeight : Int := 0
  peak : Int := 0
  frame : Option FrameId := none
  next : Option LabelId := none
  successors : List Edge := []
  isTarget : Bool := false
  /-- Whether the frame of the block is written out. -/
  needsFrame : Bool := false
  isReachable : Bool := false
  isQueued : Bool := false
  isPushed : Bool := false
  callsSubroutine : Bool := false
  returnsFromSubroutine : Bool := false
  startsSubroutine : Bool := false
  isInSubroutine : Bool := false
  subroutines : Nat := 0
  isReturnLinked : Bool := false
deriving Repr, Inhabited

namespace Label

def describe (l : Label) : Text :=
  "L" ++ if l.isResolved then Text.ofNat l.position else "?"

end Label

end ClassAssembler
