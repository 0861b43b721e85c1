import ClassAssembler.Text.Utf8

/-!
# Blank characters

The characters with the White_Space property separate fields and are trimmed from the ends of a
text.
-/

namespace ClassAssembler

namespace Text

def isBlank (c : Nat) : Bool :=
  (9 ≤ c && c ≤ 13) || c == 0x20 || c == 0x85 || c == 0xA0 || c == 0x1680
    || (0x2000 ≤ c && c ≤ 0x200A) || c == 0x2028 || c == 0x2029 || c == 0x202F || c == 0x205F
    || c == 0x3000

def characters (t : Text) : List (Nat × Text) :=
  match t with
  | [] => []
  | a :: r =>
    match lead? a r with
    | some (c, n) => (c, a :: r.take n) :: characters (r.drop n)
    | none => (replacement, [a]) :: characters r
termination_by t.length
decreasing_by all_goals (simp only [List.length_cons, List.length_drop]; omega)

def trimStart (t : Text) : Text :=
  ((t.characters.dropWhile fun p => isBlank p.1).map Prod.snd).flatten

def trimEnd (t : Text) : Text :=
  (((t.characters.reverse.dropWhile fun p => isBlank p.1).reverse).map Prod.snd).flatten

def trim (t : Text) : Text := t.trimStart.trimEnd

def collectFields : List (Nat × Text) → Text → List Text
  | [], run => if run.isEmpty then [] else [run]
  | (c, bytes) :: rest, run =>
    if isBlank c then if run.isEmpty then collectFields rest [] else run :: collectFields rest []
    else collectFields rest (run ++ bytes)

def fields (t : Text) : List Text := collectFields t.characters []

end Text

end ClassAssembler
