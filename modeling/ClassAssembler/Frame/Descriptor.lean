import ClassAssembler.Session

/-!
# Slot types of descriptors

The slot type that a value of a described type has, and the input frame that a method begins with.
-/

namespace ClassAssembler

namespace SlotType

def ofElementLetter? (b : UInt8) : Option SlotType :=
  match Char.ofUInt8 b with
  | 'Z' => some boolean
  | 'C' => some char
  | 'B' => some byte
  | 'S' => some short
  | 'I' => some integer
  | 'F' => some float
  | 'J' => some long
  | 'D' => some double
  | _ => none

def ofField (t : Text) : SessionM SlotType := do
  match t with
  | [] => throw .outOfRange
  | b :: r =>
    match Char.ofUInt8 b with
    | 'V' => return unset
    | 'Z' | 'C' | 'B' | 'S' | 'I' => return integer
    | 'F' => return float
    | 'J' => return long
    | 'D' => return double
    | 'L' => SessionM.objectType (← t.slice 1 (t.length - 1))
    | _ =>
      let more := r.takeWhile (· = JavaType.bracket)
      let dims := more.length + 1
      match r.dropWhile (· = JavaType.bracket) with
      | [] => throw .outOfRange
      | c :: _ =>
        match ofElementLetter? c with
        | some e => return array dims e
        | none => return array dims (← SessionM.objectType (← t.slice (dims + 1) (t.length - 1)))

def ofDescriptor (desc : Text) : SessionM SlotType := do
  match desc with
  | [] => throw .outOfRange
  | b :: _ =>
    if b = JavaType.openParen then
      match Text.after? JavaType.closeParen desc with
      | some result => ofField result
      | none => throw .outOfRange
    else ofField desc

def ofName (name : Text) : SessionM SlotType := ofDescriptor (JavaType.ofName name).desc

def receiver (isConstructor : Bool) : SessionM SlotType := do
  if isConstructor then return uninitializedThis
  else SessionM.objectType (← get).thisName

def ofParameters : List JavaType → SessionM (List SlotType)
  | [] => return []
  | p :: ps => do
    let t ← ofDescriptor p.desc
    return t :: (← ofParameters ps)

def slots (t : SlotType) : List SlotType := if t.isWide then [t, top] else [t]

end SlotType

end ClassAssembler
