import ClassAssembler.Code.Basic
import ClassAssembler.Reader.Pool

/-!
# Reading class files

Attributes are read by their names; one with an unknown name is refused.  Of most attributes only
the form is checked.
-/

namespace ClassAssembler

inductive ReadAttribute where
  | code (maxStack maxLocals : Nat) (code : Code)
  | exceptions (classes : List Nat)
  | signature (text : Nat)
  | sourceFile (name : Nat)
  | deprecated
  | other
deriving Inhabited

structure ReadMember where
  access : Nat
  name : Nat
  desc : Nat
  attributes : List ReadAttribute
deriving Inhabited

structure ReadClass where
  minor : Nat
  major : Nat
  pool : ReadPool
  access : Nat
  thisIndex : Nat
  superIndex : Nat
  interfaces : List Nat
  fields : List ReadMember
  methods : List ReadMember
  attributes : List ReadAttribute
deriving Inhabited

namespace ReadM

/-! ## Annotations -/

mutual

def annotationBody : Nat → ReadM Unit
  | 0 => malformed
  | fuel + 1 => do
    skip 2
    discard <| counted (do
      skip 2
      elementValue fuel)

def elementValue : Nat → ReadM Unit
  | 0 => malformed
  | fuel + 1 => do
    match Char.ofNat (← u1) with
    | 'B' | 'C' | 'F' | 'I' | 'J' | 'S' | 'Z' | 's' | 'c' => skip 2
    | 'e' => skip 4
    | '@' => annotationBody fuel
    | '[' => discard <| counted (elementValue fuel)
    | _ => malformed

end

def annotationList (fuel : Nat) : ReadM Unit := discard <| counted (annotationBody fuel)

def annotatedType : ReadM Unit := do
  let target ← u1
  if target ≤ 0x01 ∨ target = 0x16 then skip 1
  else if target = 0x10 ∨ target = 0x17 then skip 2
  else if target = 0x11 ∨ target = 0x12 then skip 2
  else if 0x13 ≤ target ∧ target ≤ 0x15 then skip 0
  else if target = 0x40 ∨ target = 0x41 then skipCounted 6
  else if 0x42 ≤ target ∧ target ≤ 0x46 then skip 2
  else if 0x47 ≤ target ∧ target ≤ 0x4B then skip 3
  else malformed

def annotationOfType (fuel : Nat) : ReadM Unit := do
  annotatedType
  let steps ← u1
  skip (2 * steps)
  annotationBody fuel

/-! ## Other attributes -/

def slotType : ReadM Unit := do
  let tag ← u1
  if tag = 7 ∨ tag = 8 then skip 2 else if tag ≤ 6 then skip 0 else malformed

/-- Checks a frame.  The tag of a frame with one slot on the stack has the type of that slot right
behind it, also where the tag is 247; of the other frames, those from tag 248 on begin with a
distance. -/
def stackFrame : ReadM Unit := do
  let tag ← u1
  if tag < 64 then skip 0
  else if tag < 128 ∨ tag = 247 then slotType
  else if tag < 247 then malformed
  else
    skip 2
    if tag ≤ 251 then skip 0
    else if tag ≤ 254 then discard <| times (tag - 251) slotType
    else
      discard <| counted slotType
      discard <| counted slotType

def withIndices (size : Nat) : ReadM Unit := do
  skip size
  skipCounted 2

def moduleContent : ReadM Unit := do
  skip 6
  skipCounted 6
  discard <| counted (withIndices 4)
  discard <| counted (withIndices 4)
  skipCounted 2
  discard <| counted (withIndices 2)

def codeContent : ReadM ReadAttribute := do
  let maxStack ← u2
  let maxLocals ← u2
  let length ← u4
  let code ← take length
  skipCounted 8
  return .code maxStack maxLocals code

def only (check : ReadM Unit) : ReadM ReadAttribute := do
  check
  return .other

def attributeContent (name : Text) (nested : ReadM Unit) (fuel : Nat) : ReadM ReadAttribute :=
  match String.ofList (name.map Char.ofUInt8) with
  | "Code" => codeContent
  | "Exceptions" => return .exceptions (← counted u2)
  | "Signature" => return .signature (← u2)
  | "SourceFile" => return .sourceFile (← u2)
  | "Deprecated" => return .deprecated
  | "Synthetic" | "SourceDebugExtension" => return .other
  | "ConstantValue" | "ModuleMainClass" | "NestHost" => only (skip 2)
  | "EnclosingMethod" => only (skip 4)
  | "StackMapTable" => only (discard <| counted stackFrame)
  | "InnerClasses" => only (skipCounted 8)
  | "LineNumberTable" => only (skipCounted 4)
  | "LocalVariableTable" | "LocalVariableTypeTable" => only (skipCounted 10)
  | "RuntimeVisibleAnnotations" | "RuntimeInvisibleAnnotations" => only (annotationList fuel)
  | "RuntimeVisibleParameterAnnotations" | "RuntimeInvisibleParameterAnnotations" => only do
    let n ← u1
    discard <| times n (annotationList fuel)
  | "RuntimeVisibleTypeAnnotations" | "RuntimeInvisibleTypeAnnotations" =>
    only (discard <| counted (annotationOfType fuel))
  | "AnnotationDefault" => only (elementValue fuel)
  | "BootstrapMethods" => only (discard <| counted (withIndices 2))
  | "MethodParameters" => only do
    let n ← u1
    skip (4 * n)
  | "Module" => only moduleContent
  | "ModulePackages" | "NestMembers" | "PermittedSubclasses" => only (skipCounted 2)
  | "Record" => only (discard <| counted do
    skip 4
    nested)
  | _ => throw (.unknownAttribute name)

def attribute? (p : ReadPool) : Nat → ReadM ReadAttribute
  | 0 => malformed
  | fuel + 1 => do
    let name ← u2
    match ← checked (p.utf8? name) with
    | none => malformed
    | some name =>
      let length ← u4
      within length do
        let left ← remaining
        attributeContent name (discard <| counted (attribute? p fuel)) (left + 1)

def attributes (p : ReadPool) : ReadM (List ReadAttribute) := do
  let left ← remaining
  counted (attribute? p (left + 1))

def member (p : ReadPool) : ReadM ReadMember := do
  let access ← u2
  let name ← u2
  let desc ← u2
  return { access, name, desc, attributes := ← attributes p }

def classFile : ReadM ReadClass := do
  if (← u4) ≠ 0xCAFEBABE then
    malformed
  let minor ← u2
  let major ← u2
  let pool ← pool
  let access ← u2
  let thisIndex ← u2
  let superIndex ← u2
  let interfaces ← counted u2
  let fields ← counted (member pool)
  let methods ← counted (member pool)
  let attributes ← attributes pool
  return { minor, major, pool, access, thisIndex, superIndex, interfaces, fields, methods,
           attributes }

end ReadM

namespace ReadClass

def ofBytes (bytes : Array UInt8) : Except ReadError ReadClass := ReadM.classFile.run' { bytes }

end ReadClass

end ClassAssembler
