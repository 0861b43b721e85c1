import ClassAssembler.Digest
import ClassAssembler.JsonText
import ClassAssembler.Reader.ClassFile
import ClassAssembler.Summary.Disassembly

/-!
# Summaries of class files

A summary tells what a class file holds.  It is shown as JSON or as plain text.
-/

namespace ClassAssembler

structure FieldSummary where
  access : List String
  name : Text
  desc : Text
  signature : Text
deriving Inhabited

structure MethodSummary where
  access : List String
  name : Text
  desc : Text
  signature : Text
  exceptions : List Text
  maxStack : Nat := 0
  maxLocals : Nat := 0
  codeLength : Nat := 0
  code : List Text := []
deriving Inhabited

structure Summary where
  major : Nat
  minor : Nat
  access : List String
  name : Text
  super : Text
  interfaces : List Text
  sourceFile : Text
  signature : Text
  isDeprecated : Bool
  poolCount : Nat
  size : Nat
  digest : Text
  fields : List FieldSummary
  methods : List MethodSummary
deriving Inhabited

inductive SummaryError where
  | malformed
  | unknownAttribute (name : Text)
  | noClassName
  | noSuperName
  | noInterfaceName
deriving DecidableEq, Repr, Inhabited

namespace SummaryError

def message : SummaryError → String
  | malformed | unknownAttribute _ => "failed to parse class file"
  | noClassName => "failed to resolve class name"
  | noSuperName => "failed to resolve super class"
  | noInterfaceName => "failed to resolve interface"

def describe (e : SummaryError) : Text :=
  match e with
  | unknownAttribute name =>
    Text.ofString e.message ++ ": Unknown attributes:" ++ name
  | e => Text.ofString e.message

end SummaryError

namespace Summary

/-! ## Flags -/

def classFlags : List (Nat × String) :=
  [(0x0001, "public"), (0x0010, "final"), (0x0020, "super"), (0x0200, "interface"),
    (0x0400, "abstract"), (0x1000, "synthetic"), (0x2000, "annotation"), (0x4000, "enum")]

def fieldFlags : List (Nat × String) :=
  [(0x0001, "public"), (0x0002, "private"), (0x0004, "protected"), (0x0008, "static"),
    (0x0010, "final"), (0x0040, "volatile"), (0x0080, "transient"), (0x1000, "synthetic"),
    (0x4000, "enum")]

def methodFlags : List (Nat × String) :=
  [(0x0001, "public"), (0x0002, "private"), (0x0004, "protected"), (0x0008, "static"),
    (0x0010, "final"), (0x0020, "synchronized"), (0x0040, "bridge"), (0x0080, "varargs"),
    (0x0100, "native"), (0x0400, "abstract"), (0x0800, "strict"), (0x1000, "synthetic")]

def flagNames (flags : List (Nat × String)) (access : Nat) : List String :=
  (flags.filter fun (mask, _) => access &&& mask != 0).map Prod.snd

/-! ## Attributes -/

def firstOf {α : Type} (take : ReadAttribute → Option α) (as : List ReadAttribute) : Option α :=
  as.findSome? take

def signature? : ReadAttribute → Option Nat
  | .signature i => some i
  | _ => none

def sourceFile? : ReadAttribute → Option Nat
  | .sourceFile i => some i
  | _ => none

def exceptions? : ReadAttribute → Option (List Nat)
  | .exceptions is => some is
  | _ => none

def code? : ReadAttribute → Option (Nat × Nat × Code)
  | .code s l c => some (s, l, c)
  | _ => none

def deprecated? : ReadAttribute → Option Unit
  | .deprecated => some ()
  | _ => none

def textOf (p : ReadPool) (take : ReadAttribute → Option Nat) (as : List ReadAttribute) :
    Checked Text :=
  match firstOf take as with
  | some i => return (← p.utf8? i).getD []
  | none => return []

def classNames (p : ReadPool) : List Nat → Checked (List Text)
  | [] => return []
  | i :: is => do
    let name ← p.className? i
    return name.toList ++ (← classNames p is)

/-! ## Members -/

def field (p : ReadPool) (f : ReadMember) : Checked FieldSummary := do
  let name := (← p.utf8? f.name).getD []
  let desc := (← p.utf8? f.desc).getD []
  let signature ← textOf p signature? f.attributes
  return { access := flagNames fieldFlags f.access, name, desc, signature }

def method (p : ReadPool) (m : ReadMember) : Checked MethodSummary := do
  let name := (← p.utf8? m.name).getD []
  let desc := (← p.utf8? m.desc).getD []
  let exceptions ← classNames p ((firstOf exceptions? m.attributes).getD [])
  let signature ← textOf p signature? m.attributes
  let s : MethodSummary :=
    { access := flagNames methodFlags m.access, name, desc, signature, exceptions }
  match firstOf code? m.attributes with
  | none => return s
  | some (maxStack, maxLocals, code) =>
    return { s with maxStack, maxLocals, codeLength := code.size, code := ← code.disassemble p }

/-! ## The class -/

def interfaceNames (p : ReadPool) : List Nat → Checked (Option (List Text))
  | [] => return some []
  | i :: is => do
    match ← p.className? i with
    | none => return none
    | some name => return (← interfaceNames p is).map (name :: ·)

def ofClass (c : ReadClass) (bytes : Array UInt8) : Checked (Except SummaryError Summary) := do
  let p := c.pool
  match ← p.className? c.thisIndex with
  | none => return .error .noClassName
  | some name =>
    let super ← if c.superIndex = 0 then pure (some []) else p.className? c.superIndex
    match super with
    | none => return .error .noSuperName
    | some super =>
      match ← interfaceNames p c.interfaces with
      | none => return .error .noInterfaceName
      | some interfaces =>
        let sourceFile ← textOf p sourceFile? c.attributes
        let signature ← textOf p signature? c.attributes
        let fields ← c.fields.mapM (field p)
        let methods ← c.methods.mapM (method p)
        return .ok {
          major := c.major, minor := c.minor, access := flagNames classFlags c.access, name, super,
          interfaces, sourceFile, signature,
          isDeprecated := (firstOf deprecated? c.attributes).isSome,
          poolCount := p.size + 1, size := bytes.size, digest := Digest.hexadecimal bytes,
          fields, methods }

def ofBytes (bytes : Array UInt8) : Checked (Except SummaryError Summary) :=
  match ReadClass.ofBytes bytes with
  | .ok c => ofClass c bytes
  | .error .malformed => .ok (.error .malformed)
  | .error (.unknownAttribute name) => .ok (.error (.unknownAttribute name))
  | .error (.fault f) => .error f

/-! ## JSON -/

def optional (key : String) (t : Text) : List (String × JsonValue) :=
  if t.isEmpty then [] else [(key, .string t)]

def strings (ts : List Text) : JsonValue := .list (ts.map .string)

def names (ns : List String) : JsonValue := strings (ns.map Text.ofString)

def optionalList (key : String) (ts : List Text) : List (String × JsonValue) :=
  if ts.isEmpty then [] else [(key, strings ts)]

def fieldJson (f : FieldSummary) : JsonValue :=
  .object ([("accessFlags", names f.access), ("name", .string f.name),
    ("descriptor", .string f.desc)] ++ optional "signature" f.signature)

def methodJson (m : MethodSummary) : JsonValue :=
  .object ([("accessFlags", names m.access), ("name", .string m.name),
    ("descriptor", .string m.desc)] ++ optional "signature" m.signature
    ++ optionalList "exceptions" m.exceptions
    ++ [("maxStack", .number m.maxStack), ("maxLocals", .number m.maxLocals),
      ("codeLength", .number m.codeLength)]
    ++ optionalList "code" m.code)

def toJson (s : Summary) : JsonValue :=
  .object ([("majorVersion", .number s.major), ("minorVersion", .number s.minor),
    ("accessFlags", names s.access), ("name", .string s.name)] ++ optional "super" s.super
    ++ [("interfaces", strings s.interfaces)] ++ optional "sourceFile" s.sourceFile
    ++ optional "signature" s.signature
    ++ (if s.isDeprecated then [("deprecated", .bool true)] else [])
    ++ [("poolCount", .number s.poolCount), ("size", .number s.size),
      ("digest", .string s.digest), ("fields", .list (s.fields.map fieldJson)),
      ("methods", .list (s.methods.map methodJson))])

def jsonText (s : Summary) : Text := s.toJson.toText

/-! ## Plain text -/

def line (parts : List Text) : Text := parts.flatten ++ [10]

def flagText (ns : List String) : Text := Text.join [32] (ns.map Text.ofString)

def commas (ts : List Text) : Text := Text.join ", " ts

def optionalLine (label : String) (t : Text) : List Text :=
  if t.isEmpty then [] else [line [Text.ofString label, t]]

def fieldLines (f : FieldSummary) : List Text :=
  [line ["\n  field ", f.name, [32], f.desc, " [", flagText f.access,
    [93]]]

def methodLines (m : MethodSummary) : List Text :=
  line ["\n  method ", m.name, m.desc, " [", flagText m.access, [93]]
    :: (if m.exceptions.isEmpty then []
        else [line ["    throws ", commas m.exceptions]])
    ++ (if m.code.isEmpty then []
        else
          line ["    stack=", Text.ofNat m.maxStack, " locals=",
            Text.ofNat m.maxLocals, " length=", Text.ofNat m.codeLength]
          :: m.code.map fun l => line ["    ", l])

def lines (s : Summary) : List Text :=
  [line ["class ", s.name, " (version ", Text.ofNat s.major, [46],
      Text.ofNat s.minor, ", ", Text.ofNat s.size, " bytes)"],
    line ["  access:     ", flagText s.access]]
    ++ optionalLine "  super:      " s.super
    ++ (if s.interfaces.isEmpty then []
        else [line ["  interfaces: ", commas s.interfaces]])
    ++ optionalLine "  source:     " s.sourceFile
    ++ [line ["  pool:       ", Text.ofNat s.poolCount],
      line ["  blake2b:    ", s.digest]]
    ++ s.fields.flatMap fieldLines ++ s.methods.flatMap methodLines

def toText (s : Summary) : Text := s.lines.flatten

end Summary

end ClassAssembler
