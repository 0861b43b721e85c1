import ClassAssembler.Fault

/-!
# Texts

Texts are byte strings.  They usually hold UTF-8, but a cut by byte position or an escape may leave
other bytes, so the bytes are the value and characters are a view of them.
-/

namespace ClassAssembler

abbrev Text := List UInt8

namespace Text

def ofString (s : String) : Text := s.toUTF8.data.toList

instance : Coe String Text := ⟨ofString⟩

def byteAt (t : Text) (i : Int) : Checked UInt8 :=
  if 0 ≤ i then
    match t[i.toNat]? with
    | some b => .ok b
    | none => .error .outOfRange
  else .error .outOfRange

def slice (t : Text) (lo hi : Int) : Checked Text :=
  if 0 ≤ lo ∧ lo ≤ hi ∧ hi ≤ t.length then .ok ((t.drop lo.toNat).take (hi - lo).toNat)
  else .error .outOfRange

def after? (b : UInt8) : Text → Option Text
  | [] => none
  | c :: t => if c = b then some t else after? b t

def cut? (b : UInt8) (t : Text) : Option (Text × Text) :=
  match t.idxOf? b with
  | some i => some (t.take i, t.drop (i + 1))
  | none => none

def startsWith (t start : Text) : Bool := start.isPrefixOf t

def endsWith (t tail : Text) : Bool := tail.isSuffixOf t

def dropTail (t tail : Text) : Text :=
  if t.endsWith tail then t.take (t.length - tail.length) else t

def dropStart (t start : Text) : Text :=
  if t.startsWith start then t.drop start.length else t

def join (sep : Text) : List Text → Text
  | [] => []
  | [t] => t
  | t :: ts => t ++ sep ++ join sep ts

def splitFrom (b : UInt8) : Text → Text → Array Text → Array Text
  | [], piece, done => done.push piece.reverse
  | c :: t, piece, done =>
    if c = b then splitFrom b t [] (done.push piece.reverse) else splitFrom b t (c :: piece) done

def split (b : UInt8) (t : Text) : List Text := (splitFrom b t [] #[]).toList

def ofNat (n : Nat) : Text := ofString (toString n)

def ofInt (n : Int) : Text :=
  match n with
  | .ofNat n => ofNat n
  | .negSucc n => 45 :: ofNat (n + 1)

theorem after?_length {b : UInt8} {t r : Text} (h : after? b t = some r) :
    r.length < t.length := by
  induction t with
  | nil => simp [after?] at h
  | cons c t ih =>
    simp only [after?] at h
    split at h
    · cases h
      simp
    · have := ih h
      simp only [List.length_cons]
      omega

end Text

end ClassAssembler
