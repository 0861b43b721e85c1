import ClassAssembler.Text.Basic

/-!
# Paths

Paths with slashes.  A clean path has no empty parts, no `.`, and `..` only in front.
-/

namespace ClassAssembler

namespace Path

def slash : UInt8 := 47
def here : Text := "."
def up : Text := ".."

def isAbsolute (p : Text) : Bool := p.head? == some slash

/-- The parts that remain of a path, last first: a part that leads up takes away the part before
it, and at the root it leads nowhere. -/
def keepParts (isRooted : Bool) : List Text → List Text → List Text
  | [], kept => kept
  | part :: parts, kept =>
    if part.isEmpty ∨ part = here then keepParts isRooted parts kept
    else if part = up then
      match kept with
      | last :: before =>
        if last = up then keepParts isRooted parts (up :: kept)
        else keepParts isRooted parts before
      | [] => keepParts isRooted parts (if isRooted then [] else [up])
    else keepParts isRooted parts (part :: kept)

def clean (p : Text) : Text :=
  let kept := (keepParts (isAbsolute p) (p.split slash) []).reverse
  let joined := Text.join [slash] kept
  if isAbsolute p then slash :: joined
  else if joined.isEmpty then here
  else joined

def join (dir p : Text) : Text :=
  if dir.isEmpty ∧ p.isEmpty then []
  else if dir.isEmpty then clean p
  else if p.isEmpty then clean dir
  else clean (dir ++ slash :: p)

def lastPart (p : Text) : Text := (p.split slash).getLastD []

def extension (p : Text) : Text :=
  let reversed := (lastPart p).reverse
  if reversed.contains 46 then (reversed.takeWhile (· ≠ 46)).reverse.cons 46 else []

def parent (p : Text) : Text :=
  let file := lastPart p
  clean (p.take (p.length - file.length))

end Path

end ClassAssembler
