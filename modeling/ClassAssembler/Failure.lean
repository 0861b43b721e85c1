import ClassAssembler.Message.Fill

/-!
# Failures

A failure is what the assembler reports when it refuses its input.  Every cause belongs to one
kind, and some come with advice.
-/

namespace ClassAssembler

inductive FailureKind where
  | usage
  | capacity
  | unsupported
  | internal
deriving DecidableEq, Repr, Inhabited

namespace FailureKind

def name : FailureKind → String
  | usage => "usage"
  | capacity => "capacity"
  | unsupported => "unsupported"
  | internal => "internal"

end FailureKind

inductive Cause where
  | badApi
  | badVersion
  | badConstant
  | insnBeforeCode
  | visitAfterEnd
  | duplicateFrame
  | unresolvedLabel
  | maxsTwice
  | badArgument
  | labelTwice
  | badElement
  | poolTooLarge
  | typeTableTooLarge
  | codeTooLarge
  | textTooLong
  | frameTooLarge
  | subroutineInFrames
  | noCommonSuper
  | sizeMismatch
  | wideningStalled
  /-- A cause that is known by its number only. -/
  | other (code : Text)
deriving DecidableEq, Repr, Inhabited

namespace Cause

/-- The causes that have a number of their own, in the order of the numbers. -/
def known : List Cause := [
  badApi, badVersion, badConstant, insnBeforeCode, visitAfterEnd, duplicateFrame,
  unresolvedLabel, maxsTwice, badArgument, labelTwice, badElement, poolTooLarge,
  typeTableTooLarge, codeTooLarge, textTooLong, frameTooLarge, subroutineInFrames,
  noCommonSuper, sizeMismatch, wideningStalled]

def code : Cause → Text
  | badApi => "J0100"
  | badVersion => "J0101"
  | badConstant => "J0102"
  | insnBeforeCode => "J0103"
  | visitAfterEnd => "J0104"
  | duplicateFrame => "J0105"
  | unresolvedLabel => "J0106"
  | maxsTwice => "J0107"
  | badArgument => "J0108"
  | labelTwice => "J0109"
  | badElement => "J0110"
  | poolTooLarge => "J0200"
  | typeTableTooLarge => "J0201"
  | codeTooLarge => "J0202"
  | textTooLong => "J0203"
  | frameTooLarge => "J0204"
  | subroutineInFrames => "J0300"
  | noCommonSuper => "J0301"
  | sizeMismatch => "J0900"
  | wideningStalled => "J0901"
  | other code => code

def ofCode (code : Text) : Cause :=
  (known.find? fun c => c.code = code).getD (.other code)

def isKnown : Cause → Bool
  | other _ => false
  | _ => true

def kind : Cause → FailureKind
  | badApi | badVersion | badConstant | insnBeforeCode | visitAfterEnd | duplicateFrame
  | unresolvedLabel | maxsTwice | badArgument | labelTwice | badElement => .usage
  | poolTooLarge | typeTableTooLarge | codeTooLarge | textTooLong | frameTooLarge => .capacity
  | subroutineInFrames | noCommonSuper => .unsupported
  | sizeMismatch | wideningStalled | other _ => .internal

def message? : Cause → Option Message
  | badApi => some .badApi
  | badVersion => some .badVersion
  | badConstant => some .badConstant
  | insnBeforeCode => some .insnBeforeCode
  | visitAfterEnd => some .visitAfterEnd
  | duplicateFrame => some .duplicateFrame
  | unresolvedLabel => some .unresolvedLabel
  | maxsTwice => some .maxsTwice
  | badArgument => some .badArgument
  | labelTwice => some .labelTwice
  | badElement => some .badElement
  | poolTooLarge => some .poolTooLarge
  | typeTableTooLarge => some .typeTableTooLarge
  | codeTooLarge => some .codeTooLarge
  | textTooLong => some .utf8TooLong
  | frameTooLarge => some .frameTooLarge
  | subroutineInFrames => some .jsrFrames
  | noCommonSuper => some .commonSuper
  | sizeMismatch => some .sizeMismatch
  | wideningStalled => some .widenStalled
  | other _ => none

def advice? : Cause → Option Message
  | badVersion => some .hintVersion
  | insnBeforeCode => some .hintVisitCode
  | codeTooLarge => some .hintSplitMethod
  | subroutineInFrames => some .hintJsrFrames
  | noCommonSuper => some .hintHierarchy
  | _ => none

end Cause

structure Failure where
  cause : Cause
  op : Text
  args : List Value := []
deriving Inhabited

namespace Failure

def detail (f : Failure) (language : Language) : Text :=
  match f.cause.message? with
  | some m => m.say language f.args
  | none => f.cause.code

def advice (f : Failure) (language : Language) : Text :=
  match f.cause.advice? with
  | some m => m.say language []
  | none => []

def describe (f : Failure) (language : Language) : Text :=
  Text.ofString f.cause.kind.name ++ [91] ++ f.cause.code ++ [93]
    ++ (if f.op.isEmpty then [] else 32 :: f.op) ++ Text.ofString ": " ++ f.detail language

end Failure

end ClassAssembler
