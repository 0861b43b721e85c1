import ClassAssembler.Listing.Error

/-!
# Errors in class sources

What can be wrong with a class source.  The errors of a source are collected, in the order of the
parts they belong to.
-/

namespace ClassAssembler

inductive SourcePart where
  | header (name : Text)
  | field (name : Text)
  | method (name desc : Text)
deriving DecidableEq, Repr, Inhabited

namespace SourcePart

def describe : SourcePart → Text
  | header name => "class " ++ name
  | field name => "field " ++ name
  | method name desc => "method " ++ name ++ desc

end SourcePart

inductive ValueFault where
  | notConstant (shown type : Text)
  | notString (shown : Text)
  | noConstantOfType (desc : Text)
deriving DecidableEq, Repr, Inhabited

namespace ValueFault

def message : ValueFault → Text
  | notConstant shown type =>
    "field value " ++ shown ++ " is not a valid " ++ type
      ++ " constant"
  | notString shown => "field value " ++ shown ++ " is not a string"
  | noConstantOfType desc =>
    "field of type " ++ desc ++ " cannot have a constant value"

end ValueFault

inductive SourceError where
  | noName
  | badVersion (major : Int)
  | unknownFlag (part : SourcePart) (flag : Text)
  | fieldIncomplete (i : Nat)
  | methodIncomplete (i : Nat)
  | badValue (field : Text) (fault : ValueFault)
  | line (e : LineError)
deriving DecidableEq, Repr, Inhabited

namespace SourceError

def message (e : SourceError) (language : Language) : Text :=
  match e with
  | noName => Message.sourceNoName.say language []
  | badVersion major => "unsupported class version " ++ Text.ofInt major
  | unknownFlag part flag =>
    part.describe ++ ": unknown access flag " ++ flag.quoted
  | fieldIncomplete i =>
    "field #" ++ Text.ofNat i ++ ": name and desc are required"
  | methodIncomplete i =>
    "method #" ++ Text.ofNat i ++ ": name and desc are required"
  | badValue field fault =>
    (SourcePart.field field).describe ++ ": " ++ fault.message
  | line e => e.message language

end SourceError

end ClassAssembler
