import ClassAssembler.Yaml.Resolve

/-!
# Writing YAML scalars

A text is written without quotes if it is read back as the same text.  Otherwise it is put between
quotes, and one with line breaks becomes a block.
-/

namespace ClassAssembler

namespace Yaml

structure Forms where
  isPlain : Bool := true
  isSingle : Bool := true
  isBlock : Bool := true
deriving Inhabited

structure Seen where
  afterBlank : Bool := true
  afterSpace : Bool := false
  afterBreak : Bool := false
  indicator : Bool := false
  special : Bool := false
  tab : Bool := false
  breaks : Bool := false
  spaceBreak : Bool := false
  breakSpace : Bool := false
deriving Inhabited

def isBreak (c : Nat) : Bool := c == 10 || c == 13 || c == 0x85 || c == 0x2028 || c == 0x2029

def isPrintable (c : Nat) : Bool :=
  c == 10 || (0x20 ≤ c && c ≤ 0x7E) || (0xA0 ≤ c && c ≤ 0xD7FF) ||
    (0xE000 ≤ c && c ≤ 0xFFFD && c != 0xFEFF)

/-- Whether a character means something to a reader of a plain text in a block, given whether it
is the first one, whether a blank stands before it and whether one follows. -/
def isIndicator (isFirst afterBlank beforeBlank : Bool) (c : Nat) : Bool :=
  let isOneOf (s : String) : Bool := s.toList.any (·.toNat == c)
  if isFirst then
    isOneOf "#,[]\x7b\x7d&*!|>'\"%@`" || (isOneOf "?:-" && beforeBlank)
  else (c == 58 && beforeBlank) || (c == 35 && afterBlank)

def survey (isFirst : Bool) : List Nat → Seen → Seen
  | [], seen => seen
  | c :: cs, seen =>
    let beforeBlank := match cs with
      | [] => true
      | d :: _ => d == 32 || d == 9
    let isSpace := c == 32
    let isBreak := isBreak c
    survey false cs {
      afterBlank := isSpace || c == 9 || isBreak || c == 0
      afterSpace := isSpace
      afterBreak := isBreak
      indicator := seen.indicator || isIndicator isFirst seen.afterBlank beforeBlank c
      special := seen.special || (c != 9 && !isPrintable c)
      tab := seen.tab || c == 9
      breaks := seen.breaks || isBreak
      spaceBreak := seen.spaceBreak || (isBreak && seen.afterSpace)
      breakSpace := seen.breakSpace || (isSpace && seen.afterBreak) }

def forms (t : Text) : Forms :=
  let codes := t.codes
  let seen := survey true codes {}
  let isEdge (c : Option Nat) : Bool := (c.map fun c => c == 32 || isBreak c).getD false
  let looksLikeMark := t.startsWith "---" || t.startsWith "..."
  let isOdd := seen.spaceBreak || seen.tab || seen.special
  { isPlain := !(isEdge codes.head? || isEdge codes.getLast? || seen.breakSpace || isOdd ||
      seen.breaks || seen.indicator || looksLikeMark)
    isSingle := !(seen.breakSpace || isOdd)
    isBlock := !(codes.getLast? == some 32 || seen.spaceBreak || seen.special) }

def oldTruthWords : List String :=
  ["y", "Y", "yes", "Yes", "YES", "on", "On", "ON", "n", "N", "no", "No", "NO", "off", "Off", "OFF"]

/-- Whether older readers take a text for a number in base sixty: groups of digits between
colons, the later ones below sixty. -/
def isBaseSixty (t : Text) : Bool :=
  let body := Literal.withoutSign t
  let whole := body.takeWhile (· != 46)
  let places := body.drop (whole.length + 1)
  let digitOrLow (b : UInt8) : Bool := isDigit b || b == Literal.underscore
  match Text.split 58 whole with
  | first :: group :: groups =>
    (first.head?.map isDigit).getD false && first.all digitOrLow && places.all digitOrLow &&
      (group :: groups).all fun g =>
        match g with
        | [a] => isDigit a
        | [a, b] => 48 ≤ a && a ≤ 53 && isDigit b
        | _ => false
  | _ => false

def readsAsText (t : Text) : Bool :=
  (match resolve t with
    | .string _ => true
    | _ => false) && !isBaseSixty t && !oldTruthWords.any fun w => Text.ofString w == t

def escapeOf (c : Nat) : Text :=
  let letter? : Option Char :=
    match c with
    | 0x00 => some '0'
    | 0x07 => some 'a'
    | 0x08 => some 'b'
    | 0x09 => some 't'
    | 0x0A => some 'n'
    | 0x0B => some 'v'
    | 0x0C => some 'f'
    | 0x0D => some 'r'
    | 0x1B => some 'e'
    | 0x22 => some '"'
    | 0x5C => some '\\'
    | 0x85 => some 'N'
    | 0xA0 => some '_'
    | 0x2028 => some 'L'
    | 0x2029 => some 'P'
    | _ => none
  let upper (t : Text) : Text := t.map fun b => if 97 ≤ b ∧ b ≤ 122 then b - 32 else b
  match letter? with
  | some l => [92, UInt8.ofNat l.toNat]
  | none =>
    if c ≤ 0xFF then [92, 120] ++ upper (Text.hex 2 c)
    else if c ≤ 0xFFFF then [92, 117] ++ upper (Text.hex 4 c)
    else [92, 85] ++ upper (Text.hex 8 c)

def doubleQuoted (t : Text) : Text :=
  let written (c : Nat) : Text :=
    if !isPrintable c ∨ isBreak c ∨ c = 34 ∨ c = 92 then escapeOf c else Text.encode c
  [34] ++ t.codes.flatMap written ++ [34]

def singleQuoted (t : Text) : Text :=
  [39] ++ t.flatMap (fun b => if b = 39 then [39, 39] else [b]) ++ [39]

def literal (indent : Nat) (t : Text) : Text :=
  let lines := t.split 10
  let isEnded := t.getLast? == some 10
  let startsOdd := t.head? == some 32 || t.head? == some 10
  let hint := if startsOdd then Text.ofString "4" else []
  let chomp :=
    if !isEnded then [45]
    else if t.length = 1 ∨ (t.dropLast).getLast? == some 10 then [43]
    else []
  let shown := if isEnded then lines.dropLast else lines
  let lineText (line : Text) : Text :=
    if line.isEmpty then [] else List.replicate indent 32 ++ line
  [124] ++ hint ++ chomp ++ [10] ++ Text.join [10] (shown.map lineText)

def flat (t : Text) : Text :=
  let forms := forms t
  if readsAsText t ∧ !t.contains 10 then
    if forms.isPlain then t
    else if forms.isSingle then singleQuoted t
    else doubleQuoted t
  else doubleQuoted t

def scalar (indent : Nat) (t : Text) : Text :=
  if t.contains 10 ∧ (forms t).isBlock then literal indent t else flat t

def entry (indent : Nat) (key value : Text) : Text :=
  let space := List.replicate indent 32
  let value := scalar (indent + 4) value
  if key.length ≤ 128 then space ++ flat key ++ Text.ofString ": " ++ value ++ [10]
  else
    space ++ Text.ofString "? " ++ flat key ++ [10] ++ space ++ Text.ofString ": " ++ value ++ [10]

def item (indent : Nat) (value : Text) : Text :=
  List.replicate indent 32 ++ Text.ofString "- " ++ scalar (indent + 2) value ++ [10]

/-! ## The order of keys -/

def isLetter (c : Nat) : Bool := (65 ≤ c && c ≤ 90) || (97 ≤ c && c ≤ 122) || 0x80 ≤ c

def isDigitCode (c : Nat) : Bool := 48 ≤ c && c ≤ 57

def leadingNumber (front : Nat) (cs : List Nat) : Nat :=
  (cs.takeWhile isDigitCode).foldl (fun n c => n * 10 + (c - 48)) front

/-- Whether a key comes before another one, given the equal code points before, last first.
Numbers in keys count as numbers, and letters come after other characters. -/
def precedes : List Nat → List Nat → List Nat → Bool
  | _, [], bs => !bs.isEmpty
  | _, _ :: _, [] => false
  | before, a :: as, b :: bs =>
    if a = b then precedes (a :: before) as bs
    else if isLetter a ∧ isLetter b then a < b
    else if isLetter a ∨ isLetter b then
      if (before.head?.map isDigitCode).getD false then isLetter a else isLetter b
    else
      let inNumber := (before.takeWhile isDigitCode).any (· != 48)
      let front := if (a = 48 ∨ b = 48) ∧ inNumber then 1 else 0
      let x := leadingNumber front (a :: as)
      let y := leadingNumber front (b :: bs)
      let i := ((a :: as).takeWhile isDigitCode).length
      let j := ((b :: bs).takeWhile isDigitCode).length
      if x ≠ y then x < y else if i ≠ j then i < j else a < b

def inOrder (entries : List (Text × Text)) : List (Text × Text) :=
  entries.mergeSort fun a b => !precedes [] b.1.codes a.1.codes

end Yaml

end ClassAssembler
