import ClassAssembler.Access
import ClassAssembler.Listing.Basic
import ClassAssembler.Number.Convert
import ClassAssembler.Source.Error
import ClassAssembler.Text.Path

/-!
# Class sources

Checking a source turns flag names into flags, constant values into constants of the types of their
fields and listings into events, and collects all errors.
-/

namespace ClassAssembler

inductive InitialValue where
  | value (v : Value)
  | composite (shown : Text)
deriving DecidableEq, Inhabited

namespace InitialValue

def describe : InitialValue → Text
  | value v => v.describe
  | composite shown => shown

end InitialValue

structure FieldSource where
  access : List Text := []
  name : Text := []
  desc : Text := []
  signature : Text := []
  value : InitialValue := .value .nil
deriving Inhabited

structure MethodSource where
  access : List Text := []
  name : Text := []
  desc : Text := []
  signature : Text := []
  exceptions : List Text := []
  code : Text := []
deriving Inhabited

structure ClassSource where
  version : Int := 0
  access : List Text := []
  name : Text := []
  signature : Text := []
  super : Text := []
  interfaces : List Text := []
  source : Text := []
  fields : List FieldSource := []
  methods : List MethodSource := []
deriving Inhabited

structure CheckedField where
  access : Flags
  name : Text
  desc : Text
  signature : Text
  value : Value
deriving Inhabited

structure CheckedMethod where
  access : Flags
  name : Text
  desc : Text
  signature : Text
  exceptions : List Text
  code : Option Listing
deriving Inhabited

structure CheckedClass where
  version : Int
  access : Flags
  name : Text
  signature : Text
  super : Text
  interfaces : List Text
  source : Text
  fields : List CheckedField
  methods : List CheckedMethod
deriving Inhabited

namespace Access

def interface : Flags := 0x0200

def named : List (Text × Flags) :=
  [("public", 0x0001), ("private", 0x0002), ("protected", 0x0004), ("static", static_),
    ("final", 0x0010), ("super", 0x0020), ("synchronized", 0x0020), ("volatile", 0x0040),
    ("bridge", 0x0040), ("varargs", 0x0080), ("transient", 0x0080), ("native", 0x0100),
    ("interface", interface), ("abstract", 0x0400), ("strict", 0x0800), ("synthetic", synthetic),
    ("annotation", 0x2000), ("enum", 0x4000), ("mandated", 0x8000),
    ("deprecated", deprecated_)].map fun (name, f) => (Text.ofString name, f)

/-- The flags that names stand for, or the first name that stands for none. -/
def ofNames : List Text → Flags → Except Text Flags
  | [], f => .ok f
  | name :: names, f =>
    match named.lookup name.toLower with
    | some flag => ofNames names (f ||| flag)
    | none => .error name

end Access

abbrev CheckM := StateM (Array SourceError)

namespace CheckM

def report (e : SourceError) : CheckM Unit := modify (·.push e)

def flags (part : SourcePart) (names : List Text) : CheckM Flags := do
  match Access.ofNames names 0 with
  | .ok f => return f
  | .error name =>
    report (.unknownFlag part name)
    return 0

def version? (major : Int) : Option Int :=
  if major = 0 then some 52
  else if major = 45 then some (3 * 65536 + 45)
  else if 45 < major ∧ major ≤ 52 then some major
  else none

def version (major : Int) : CheckM Int := do
  match version? major with
  | some v => return v
  | none =>
    report (.badVersion major)
    return 0

def wholeNumber? : Value → Option Int
  | .int v => some v
  | .int64 v => some v.toInt
  | .uint64 v => if v.toNat < 0x8000000000000000 then some v.toNat else none
  | _ => none

def fraction? : Value → Option Nat
  | .float64 bits => some bits.toNat
  | v => (wholeNumber? v).map Binary.double.ofInt

def constant (desc : Text) (initial : InitialValue) : Except ValueFault Value :=
  let v : Option Value := match initial with
    | .value v => some v
    | .composite _ => none
  let number := v.bind wholeNumber?
  let fraction := v.bind fraction?
  let shown := initial.describe
  if v = some .nil then .ok .nil
  else if desc.length = 1 ∧ (Text.ofString "ISBCZ").contains (desc.headD 0) then
    match v, number with
    | some (.bool b), _ =>
      if desc = "Z" then .ok (.int32 (if b then 1 else 0))
      else .error (.notConstant shown desc)
    | _, some n =>
      if -0x80000000 ≤ n ∧ n < 0x80000000 then .ok (.int32 (Int32.ofInt n))
      else .error (.notConstant shown desc)
    | _, none => .error (.notConstant shown desc)
  else if desc = "J" then
    match number with
    | some n => .ok (.int64 (Int64.ofInt n))
    | none => .error (.notConstant shown "long")
  else if desc = "F" then
    match fraction with
    | some bits => .ok (.float32 (UInt32.ofNat (Binary.narrow bits)))
    | none => .error (.notConstant shown desc)
  else if desc = "D" then
    match fraction with
    | some bits => .ok (.float64 (UInt64.ofNat bits))
    | none => .error (.notConstant shown desc)
  else if desc = "Ljava/lang/String;" then
    match v with
    | some (.string t) => .ok (.string t)
    | _ => .error (.notString shown)
  else .error (.noConstantOfType desc)

def field (i : Nat) (f : FieldSource) : CheckM CheckedField := do
  if f.name.isEmpty ∨ f.desc.isEmpty then
    report (.fieldIncomplete i)
  let access ← flags (.field f.name) f.access
  let value ← match constant f.desc f.value with
    | .ok v => pure v
    | .error fault =>
      report (.badValue f.name fault)
      pure .nil
  return { access, name := f.name, desc := f.desc, signature := f.signature, value }

def method (i : Nat) (m : MethodSource) : CheckM CheckedMethod := do
  if m.name.isEmpty ∨ m.desc.isEmpty then
    report (.methodIncomplete i)
  let access ← flags (.method m.name m.desc) m.access
  let code ←
    if m.code.isEmpty then pure none
    else
      let (listing, errors) := Listing.read (m.name ++ m.desc) m.code
      modify fun es => es ++ (errors.map SourceError.line).toArray
      pure (some listing)
  return { access, name := m.name, desc := m.desc, signature := m.signature,
           exceptions := m.exceptions, code }

def members {α β : Type} (check : Nat → α → CheckM β) : List α → Nat → CheckM (List β)
  | [], _ => return []
  | a :: as, i => do
    let b ← check i a
    return b :: (← members check as (i + 1))

end CheckM

namespace ClassSource

def object : Text := "java/lang/Object"

def superName (s : ClassSource) : Text :=
  if s.super.isEmpty ∧ s.name ≠ object then object else s.super

def checkParts (s : ClassSource) : CheckM CheckedClass := do
  if s.name.isEmpty then
    CheckM.report .noName
  let version ← CheckM.version s.version
  let access ← CheckM.flags (.header s.name) s.access
  let fields ← CheckM.members CheckM.field s.fields 0
  let methods ← CheckM.members CheckM.method s.methods 0
  return { version, access, name := s.name, signature := s.signature, super := s.superName,
           interfaces := s.interfaces, source := s.source, fields, methods }

def check (s : ClassSource) : Except (List SourceError) CheckedClass :=
  let (c, errors) := s.checkParts.run #[]
  if errors.isEmpty then .ok c else .error errors.toList

def outputPath (s : ClassSource) (dir : Text) : Text :=
  Path.join dir (s.name ++ ".class")

end ClassSource

end ClassAssembler
