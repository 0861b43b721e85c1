import ClassAssembler.Failure

/-!
# Error reports

Errors are shown one to a line, with the file they belong to and with advice where there is some.
-/

namespace ClassAssembler

inductive Style where
  | plain
  | red
  | yellow
  | cyan
  | boldRed
  | boldWhite
deriving DecidableEq, Repr, Inhabited

namespace Style

def ofNumber? (n : Int) : Option Style :=
  if n < 0 then none else [plain, red, yellow, cyan, boldRed, boldWhite][n.toNat]?

def escape : UInt8 := 27

def sequence (s : Style) : Text :=
  escape :: Text.ofString (match s with
    | plain => "[0m"
    | red => "[31m"
    | yellow => "[33m"
    | cyan => "[36m"
    | boldRed => "[1;31m"
    | boldWhite => "[1;37m")

def paint (isColored : Bool) (s : Style) (t : Text) : Text :=
  if isColored then s.sequence ++ t ++ plain.sequence else t

def strip : Text → Text
  | [] => []
  | b :: t =>
    if b = escape then strip ((t.dropWhile (· ≠ 109)).drop 1)
    else b :: strip t
termination_by t => t.length
decreasing_by
  · have := (List.dropWhile_sublist (· ≠ (109 : UInt8)) (l := t)).length_le
    simp only [List.length_cons, List.length_drop]
    omega
  · simp

end Style

inductive Reported where
  | failure (f : Failure)
  | plain (message : Text)
deriving Inhabited

namespace Reported

def fileMark (isColored : Bool) (file : Text) : Text :=
  if file.isEmpty then []
  else Style.boldWhite.paint isColored file ++ ": "

def lines (isColored : Bool) (language : Language) (file : Text) : Reported → Text
  | failure f =>
    let head := Style.boldRed.paint isColored
      ("error[" ++ f.cause.code ++ "]")
    let op := if f.op.isEmpty then [] else f.op ++ Text.ofString ": "
    let advice := f.advice language
    let help :=
      if advice.isEmpty then []
      else
        Text.ofString "\n  = " ++ Style.cyan.paint isColored (Text.ofString "help")
          ++ Text.ofString ": " ++ advice
    head ++ Text.ofString ": " ++ fileMark isColored file ++ op ++ f.detail language ++ help
      ++ [10]
  | plain message =>
    Style.boldRed.paint isColored (Text.ofString "error") ++ Text.ofString ": "
      ++ fileMark isColored file ++ message ++ [10]

end Reported

def report (isColored : Bool) (language : Language) (file : Text) (errors : List Reported) : Text :=
  errors.flatMap (Reported.lines isColored language file)

end ClassAssembler
