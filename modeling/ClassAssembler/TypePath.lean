import ClassAssembler.Buffer

/-!
# Type paths

A type path leads from a type to a part of it.  Its text form has one sign per step; a type argument
is its number behind which a semicolon may stand.
-/

namespace ClassAssembler

structure TypeStep where
  kind : UInt8
  argument : UInt8
deriving DecidableEq, Repr, Inhabited

abbrev TypePath := List TypeStep

namespace TypePath

def arrayElement : TypeStep := ⟨0, 0⟩
def innerType : TypeStep := ⟨1, 0⟩
def wildcard : TypeStep := ⟨2, 0⟩
def typeArgument (n : UInt8) : TypeStep := ⟨3, n⟩

def isDigit (b : UInt8) : Bool := 48 ≤ b && b ≤ 57

def largestNumber : Nat := 0x7fffffffffffffff

def number (digits : Text) : Nat :=
  min largestNumber (digits.foldl (fun n b => 10 * n + (b.toNat - 48)) 0)

def steps (t : Text) : TypePath :=
  match t with
  | [] => []
  | b :: r =>
    match Char.ofUInt8 b with
    | '[' => arrayElement :: steps r
    | '.' => innerType :: steps r
    | '*' => wildcard :: steps r
    | _ =>
      if isDigit b then
        let step := typeArgument (UInt8.ofNat (number (b :: r.takeWhile isDigit)))
        have hdrop : (r.dropWhile isDigit).length ≤ r.length :=
          (List.dropWhile_sublist _).length_le
        match h : r.dropWhile isDigit with
        | [] => [step]
        | c :: rest =>
          have : (c :: rest).length ≤ r.length := h ▸ hdrop
          if c = 59 then step :: steps rest else step :: steps (c :: rest)
      else steps r
termination_by t.length
decreasing_by all_goals (simp only [List.length_cons] at *; omega)

def ofText? (t : Text) : Option TypePath := if t.isEmpty then none else some (steps t)

def stepText (s : TypeStep) : Text :=
  match s.kind.toNat with
  | 0 => [91]
  | 1 => [46]
  | 2 => [42]
  | 3 => Text.ofNat s.argument.toNat ++ [59]
  | _ => [95]

def toText (p : TypePath) : Text := p.flatMap stepText

def stepBytes (p : TypePath) : List UInt8 := p.flatMap fun s => [s.kind, s.argument]

def put (p : Option TypePath) (out : Buffer) : Buffer :=
  match p with
  | none => out.putByte 0
  | some p => (out.putByte p.length).putList p.stepBytes

end TypePath

end ClassAssembler
