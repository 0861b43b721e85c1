import ClassAssembler.Text.Unquoted

/-!
# Quoted texts of TOML

Three quotes open a text of several lines.  Every reader here starts behind the opening quotes and
gives the text and what stands behind the closing ones.
-/

namespace ClassAssembler

namespace Toml

def isPlain (b : UInt8) : Bool := b == 9 || (0x20 ≤ b && b != 0x7F)

def escaped? : Text → Option (Text × Nat)
  | [] => none
  | c :: r =>
    match Char.ofUInt8 c with
    | 'b' => some ([8], 1)
    | 't' => some ([9], 1)
    | 'n' => some ([10], 1)
    | 'f' => some ([12], 1)
    | 'r' => some ([13], 1)
    | 'e' => some ([27], 1)
    | '"' => some ([34], 1)
    | '\\' => some ([92], 1)
    | 'u' => Text.numbered? 4 r
    | 'U' => Text.numbered? 8 r
    | _ => none

def afterBreak? : Text → Option Text
  | 10 :: r => some r
  | 13 :: 10 :: r => some r
  | _ => none

def skipBlanks (t : Text) : Text := t.dropWhile fun b => b == 32 || b == 9

def skipSpace (t : Text) : Text := t.dropWhile fun b => b == 32 || b == 9 || b == 10 || b == 13

def continued? (t : Text) : Option Text :=
  (afterBreak? (skipBlanks t)).map skipSpace

theorem skipSpace_length (t : Text) : (skipSpace t).length ≤ t.length :=
  (List.dropWhile_suffix _).length_le

theorem afterBreak?_length {t r : Text} (h : afterBreak? t = some r) : r.length < t.length := by
  unfold afterBreak? at h
  split at h
  · cases h
    simp
  · cases h
    simp only [List.length_cons]
    omega
  · cases h

theorem continued?_length {t r : Text} (h : continued? t = some r) : r.length < t.length := by
  obtain ⟨s, hs, rfl⟩ := Option.map_eq_some_iff.1 h
  have h₁ := afterBreak?_length hs
  have h₂ := skipSpace_length s
  have h₃ : (skipBlanks t).length ≤ t.length := (List.dropWhile_suffix _).length_le
  omega

def basic? : Text → Text → Option (Text × Text)
  | [], _ => none
  | b :: r, text =>
    if b = 34 then some (text.reverse, r)
    else if b = 92 then
      match escaped? r with
      | some (bytes, n) => basic? (r.drop n) (bytes.reverse ++ text)
      | none => none
    else if isPlain b then basic? r (b :: text)
    else none
termination_by t => t.length
decreasing_by all_goals (simp only [List.length_cons, List.length_drop]; omega)

def literal? : Text → Text → Option (Text × Text)
  | [], _ => none
  | b :: r, text =>
    if b = 39 then some (text.reverse, r)
    else if isPlain b then literal? r (b :: text)
    else none

def quotes (quote : UInt8) (t : Text) : Nat := (t.takeWhile (· == quote)).length

/-- A text between triple quotes, given the reversed text so far.  Up to two quotes may stand
before the closing ones. -/
def multiline? (quote : UInt8) : Text → Text → Option (Text × Text)
  | [], _ => none
  | b :: r, text =>
    if b = quote then
      let n := quotes quote (b :: r)
      if n < 3 then multiline? quote r (b :: text)
      else if n ≤ 5 then
        some ((List.replicate (n - 3) quote ++ text).reverse, (b :: r).drop n)
      else none
    else if b = 92 ∧ quote = 34 then
      match _h : continued? r with
      | some rest => multiline? quote rest text
      | none =>
        match escaped? r with
        | some (bytes, n) => multiline? quote (r.drop n) (bytes.reverse ++ text)
        | none => none
    else if b = 13 then
      if r.head? = some 10 then multiline? quote r (b :: text) else none
    else if b = 10 ∨ isPlain b then multiline? quote r (b :: text)
    else none
termination_by t => t.length
decreasing_by
  all_goals simp only [List.length_cons, List.length_drop]
  all_goals first
    | omega
    | (have hlt := continued?_length (by assumption); omega)

def quoted? (t : Text) : Option (Text × Text) :=
  match t with
  | q :: r =>
    if q = 34 ∨ q = 39 then
      if 3 ≤ quotes q t then
        let body := t.drop 3
        multiline? q ((afterBreak? body).getD body) []
      else if q = 34 then basic? r []
      else literal? r []
    else none
  | [] => none

end Toml

end ClassAssembler
