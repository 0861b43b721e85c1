import ClassAssembler.Text.Basic

/-!
# The characters of a text

A byte that starts no well-formed character stands for itself and the reading goes on behind it, so
every text has exactly one reading and no byte is lost.
-/

namespace ClassAssembler

namespace Text

inductive Piece where
  | scalar (code : Nat)
  | stray (byte : UInt8)
deriving DecidableEq, Repr, Inhabited

def replacement : Nat := 0xFFFD

def Piece.code : Piece → Nat
  | .scalar c => c
  | .stray _ => replacement

def isTail (b : UInt8) : Bool := 0x80 ≤ b && b ≤ 0xBF

def secondRange (a : UInt8) : UInt8 × UInt8 :=
  if a = 0xE0 then (0xA0, 0xBF)
  else if a = 0xED then (0x80, 0x9F)
  else if a = 0xF0 then (0x90, 0xBF)
  else if a = 0xF4 then (0x80, 0x8F)
  else (0x80, 0xBF)

def low6 (b : UInt8) : Nat := b.toNat % 64

/-- The character that begins with the byte `a` before the text `t`: its code point and the
number of bytes it takes from `t`. -/
def lead? (a : UInt8) (t : Text) : Option (Nat × Nat) :=
  if a < 0x80 then some (a.toNat, 0)
  else if 0xC2 ≤ a ∧ a ≤ 0xDF then
    match t with
    | b :: _ => if isTail b then some (a.toNat % 32 * 64 + low6 b, 1) else none
    | _ => none
  else if 0xE0 ≤ a ∧ a ≤ 0xEF then
    match t with
    | b :: c :: _ =>
      if (secondRange a).1 ≤ b ∧ b ≤ (secondRange a).2 ∧ isTail c then
        some ((a.toNat % 16 * 64 + low6 b) * 64 + low6 c, 2)
      else none
    | _ => none
  else if 0xF0 ≤ a ∧ a ≤ 0xF4 then
    match t with
    | b :: c :: d :: _ =>
      if (secondRange a).1 ≤ b ∧ b ≤ (secondRange a).2 ∧ isTail c ∧ isTail d then
        some (((a.toNat % 8 * 64 + low6 b) * 64 + low6 c) * 64 + low6 d, 3)
      else none
    | _ => none
  else none

def pieces : Text → List Piece
  | [] => []
  | a :: t =>
    match lead? a t with
    | some (c, n) => .scalar c :: pieces (t.drop n)
    | none => .stray a :: pieces t
termination_by t => t.length
decreasing_by all_goals (simp only [List.length_cons, List.length_drop]; omega)

def codes (t : Text) : List Nat := t.pieces.map Piece.code

def encode (c : Nat) : Text :=
  let c := if c > 0x10FFFF ∨ (0xD800 ≤ c ∧ c ≤ 0xDFFF) then replacement else c
  if c < 0x80 then [UInt8.ofNat c]
  else if c < 0x800 then [UInt8.ofNat (0xC0 + c / 64), UInt8.ofNat (0x80 + c % 64)]
  else if c < 0x10000 then
    [UInt8.ofNat (0xE0 + c / 4096), UInt8.ofNat (0x80 + c / 64 % 64),
      UInt8.ofNat (0x80 + c % 64)]
  else
    [UInt8.ofNat (0xF0 + c / 262144), UInt8.ofNat (0x80 + c / 4096 % 64),
      UInt8.ofNat (0x80 + c / 64 % 64), UInt8.ofNat (0x80 + c % 64)]

def ofCodes (cs : List Nat) : Text := cs.flatMap encode

def displayFrom : Text → String → String
  | [], s => s
  | a :: t, s =>
    match lead? a t with
    | some (c, n) => displayFrom (t.drop n) (s.push (Char.ofNat c))
    | none => displayFrom t (s.push (Char.ofNat replacement))
termination_by t => t.length
decreasing_by all_goals (simp only [List.length_cons, List.length_drop]; omega)

def toDisplay (t : Text) : String := displayFrom t ""

def isWellFormed : Text → Bool
  | [] => true
  | a :: t =>
    match lead? a t with
    | some (_, n) => isWellFormed (t.drop n)
    | none => false
termination_by t => t.length
decreasing_by simp only [List.length_cons, List.length_drop]; omega

end Text

end ClassAssembler
