import ClassAssembler.Text.Utf8
import ClassAssembler.Text.Printable

/-!
# Quoted texts

A quote and a backslash are escaped, printable characters stand for themselves, and everything else
is written with a letter or a number.
-/

namespace ClassAssembler

namespace Text

def hex (width n : Nat) : Text :=
  let digits := ofString (String.ofList (Nat.toDigits 16 n))
  List.replicate (width - digits.length) 48 ++ digits

def controlLetter? (c : Nat) : Option UInt8 :=
  match c with
  | 7 => some 97
  | 8 => some 98
  | 9 => some 116
  | 10 => some 110
  | 11 => some 118
  | 12 => some 102
  | 13 => some 114
  | _ => none

def escapeCode (quote : Nat) (c : Nat) : Text :=
  if c = quote ∨ c = 92 then 92 :: encode c
  else if isPrintable c then encode c
  else
    match controlLetter? c with
    | some b => [92, b]
    | none =>
      if c < 0x20 ∨ c = 0x7F then ofString "\\x" ++ hex 2 c
      else if c < 0x10000 then ofString "\\u" ++ hex 4 c
      else ofString "\\U" ++ hex 8 c

def escapePiece (quote : Nat) : Piece → Text
  | .scalar c => escapeCode quote c
  | .stray b => ofString "\\x" ++ hex 2 b.toNat

def quoted (t : Text) : Text := [34] ++ t.pieces.flatMap (escapePiece 34) ++ [34]

def quotedCode (c : Int) : Text :=
  let c := if 0 ≤ c ∧ c ≤ 0x10FFFF ∧ ¬(0xD800 ≤ c ∧ c ≤ 0xDFFF) then c.toNat else replacement
  [39] ++ escapeCode 39 c ++ [39]

end Text

end ClassAssembler
