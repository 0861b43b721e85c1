import ClassAssembler.Text.Blank
import ClassAssembler.Text.Unquoted

/-!
# Words of a line

Words stand between spaces and tabs.  A word that begins with a double quote is a quoted text.  A
line that begins with a comment mark has no words.
-/

namespace ClassAssembler

namespace Listing

def isGap (b : UInt8) : Bool := b == 32 || b == 9 || b == 13

def quoteMark : UInt8 := 34

theorem length_dropWhile_le (p : UInt8 → Bool) (t : Text) : (t.dropWhile p).length ≤ t.length :=
  (List.dropWhile_sublist p).length_le

theorem length_behind_gap {t r : Text} {b : UInt8} (h : t.dropWhile isGap = b :: r) :
    r.length < t.length := by
  have hle := length_dropWhile_le isGap t
  rw [h, List.length_cons] at hle
  exact hle

def words (t : Text) : Except Text (List Text) :=
  match h : t.dropWhile isGap with
  | [] => .ok []
  | b :: r =>
    if b = quoteMark then
      match Text.unquote? r with
      | none => .error (b :: r)
      | some (_, n) =>
        have : (r.drop n).length < t.length :=
          Nat.lt_of_le_of_lt (List.drop_sublist n r).length_le (length_behind_gap h)
        (words (r.drop n)).map ((b :: r.take n) :: ·)
    else
      have : (r.dropWhile (!isGap ·)).length < t.length :=
        Nat.lt_of_le_of_lt (length_dropWhile_le _ r) (length_behind_gap h)
      (words (r.dropWhile (!isGap ·))).map ((b :: r.takeWhile (!isGap ·)) :: ·)
termination_by t.length
decreasing_by all_goals exact this

def isComment : Text → Bool
  | [] => true
  | b :: r => b == 35 || b == 59 || (b == 47 && r.head? == some 47)

def tokens (line : Text) : Except Text (List Text) :=
  let line := line.trim
  if isComment line then .ok [] else words line

end Listing

end ClassAssembler
