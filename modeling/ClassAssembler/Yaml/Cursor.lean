import ClassAssembler.Text.Unquoted

/-!
# The texts of YAML scalars

The readers here start at a scalar and give its text and the place behind it.
-/

namespace ClassAssembler

namespace Yaml

structure Cursor where
  rest : Text
  line : Nat := 0
  column : Nat := 0
  index : Nat := 0
deriving Inhabited

inductive Breaks where
  | none
  /-- A line break, and so many empty lines behind it. -/
  | folded (more : Nat)
  /-- A line break that a backslash hides, and so many empty lines behind it. -/
  | hidden (more : Nat)
deriving DecidableEq, Inhabited

def isBlank (b : UInt8) : Bool := b == 32 || b == 9

def startsBlank : Text → Bool
  | [] => true
  | b :: _ => isBlank b || b == 10

def startsMark (t : Text) : Bool :=
  ((t.startsWith "---") || (t.startsWith "...")) &&
    startsBlank (t.drop 3)

namespace Cursor

/-- The place behind the next byte.  A column counts characters, so the later bytes of a character
do not move it. -/
def next (c : Cursor) : Cursor :=
  match c.rest with
  | [] => c
  | b :: r =>
    if b = 10 then { rest := r, line := c.line + 1, column := 0, index := c.index + 1 }
    else if Text.isTail b then { c with rest := r }
    else { c with rest := r, column := c.column + 1, index := c.index + 1 }

def skip : Nat → Cursor → Cursor
  | 0, c => c
  | n + 1, c => skip n c.next

def atMark (c : Cursor) : Bool := c.column == 0 && startsMark c.rest

def takeLine : Text → Text → Text × Text
  | [], text => (text, [])
  | b :: r, text => if b = 10 then (text, b :: r) else takeLine r (b :: text)

def endOfLine (c : Cursor) : Cursor :=
  { c with rest := (takeLine c.rest []).2 }

end Cursor

namespace Breaks

def more : Breaks → Breaks
  | none => folded 0
  | folded n => folded (n + 1)
  | hidden n => hidden (n + 1)

/-- The reversed text with what blanks and line breaks stand for: blanks stay, a single line break
is a space, and empty lines are line breaks. -/
def join (text spaces : Text) : Breaks → Text
  | none => spaces ++ text
  | folded 0 => 32 :: text
  | folded n => List.replicate n 10 ++ text
  | hidden n => List.replicate n 10 ++ text

end Breaks

/-- A scalar without quotes: its text, whether its line has ended, and the place behind it.  In
flow collections commas and brackets end it; elsewhere a line that is not indented does. -/
def plain? (inFlow : Bool) (indent : Int) :
    Nat → Cursor → Text → Text → Breaks → Option (Text × Bool × Cursor)
  | 0, _, _, _, _ => none
  | fuel + 1, c, text, spaces, breaks =>
    let done := some (text.reverse, breaks != .none, c)
    match c.rest with
    | [] => done
    | b :: r =>
      if b = 10 then plain? inFlow indent fuel c.next text [] breaks.more
      else if isBlank b then
        if breaks = .none then plain? inFlow indent fuel c.next text (b :: spaces) breaks
        else if b = 9 ∧ c.column < indent then none
        else plain? inFlow indent fuel c.next text spaces breaks
      else
        let isFresh := !spaces.isEmpty || breaks != .none
        if isFresh ∧ !inFlow ∧ c.column < indent then done
        else if c.atMark then done
        else if isFresh ∧ b = 35 then done
        else if b = 58 ∧ startsBlank r then done
        else if inFlow ∧ [44, 63, 91, 93, 0x7B, 0x7D].contains b then done
        else plain? inFlow indent fuel c.next (b :: breaks.join text spaces) [] .none

def escaped? : Text → Option (Text × Nat)
  | [] => none
  | c :: r =>
    match Char.ofUInt8 c with
    | '0' => some ([0], 1)
    | 'a' => some ([7], 1)
    | 'b' => some ([8], 1)
    | 't' => some ([9], 1)
    | '\t' => some ([9], 1)
    | 'n' => some ([10], 1)
    | 'v' => some ([11], 1)
    | 'f' => some ([12], 1)
    | 'r' => some ([13], 1)
    | 'e' => some ([27], 1)
    | ' ' => some ([32], 1)
    | '"' => some ([34], 1)
    | '\'' => some ([39], 1)
    | '/' => some ([47], 1)
    | '\\' => some ([92], 1)
    | 'N' => some (Text.encode 0x85, 1)
    | '_' => some (Text.encode 0xA0, 1)
    | 'L' => some (Text.encode 0x2028, 1)
    | 'P' => some (Text.encode 0x2029, 1)
    | 'x' => Text.numbered? 2 r
    | 'u' => Text.numbered? 4 r
    | 'U' => Text.numbered? 8 r
    | _ => none

def quoted? (quote : UInt8) :
    Nat → Cursor → Text → Text → Breaks → Option (Text × Cursor)
  | 0, _, _, _, _ => none
  | fuel + 1, c, text, spaces, breaks =>
    if c.atMark then none
    else
      match c.rest with
      | [] => none
      | b :: r =>
        if b = 10 then quoted? quote fuel c.next text [] breaks.more
        else if isBlank b then
          if breaks = .none then quoted? quote fuel c.next text (b :: spaces) breaks
          else quoted? quote fuel c.next text spaces breaks
        else
          let text := breaks.join text spaces
          if b = quote then
            if quote = 39 ∧ r.head? = some 39 then
              quoted? quote fuel (c.skip 2) (39 :: text) [] .none
            else some (text.reverse, c.next)
          else if b = 92 ∧ quote = 34 then
            if r.head? = some 10 then quoted? quote fuel (c.skip 2) text [] (.hidden 0)
            else
              match escaped? r with
              | some (bytes, n) =>
                quoted? quote fuel (c.skip (n + 1)) (bytes.reverse ++ text) [] .none
              | none => none
          else quoted? quote fuel c.next (b :: text) [] .none

/-! ## Block scalars -/

/-- What happens to the line breaks at the end of a block scalar. -/
inductive Chomp where
  | strip
  | clip
  | keep
deriving DecidableEq, Inhabited

/-- Skips indentation and empty lines: the number of the lines, the widest indentation and the
place.  The indentation zero stands for one that is not yet known. -/
def emptyLines? (indent : Nat) : Nat → Cursor → Nat → Nat → Option (Nat × Nat × Cursor)
  | 0, _, _, _ => none
  | fuel + 1, c, count, widest =>
    let inside := indent = 0 ∨ c.column < indent
    match c.rest with
    | [] => some (count, max widest c.column, c)
    | b :: _ =>
      if inside ∧ b = 32 then emptyLines? indent fuel c.next count widest
      else if inside ∧ b = 9 then none
      else if b = 10 then emptyLines? indent fuel c.next (count + 1) (max widest c.column)
      else some (count, max widest c.column, c)

/-- The lines of a block scalar: the reversed text without its last line breaks, whether its last
line is complete, how many empty lines follow, and the place behind them. -/
def blockLines? (isLiteral : Bool) (indent : Nat) :
    Nat → Cursor → Text → Bool → Nat → Bool → Option (Text × Bool × Nat × Cursor)
  | 0, _, _, _, _, _ => none
  | fuel + 1, c, text, hasBreak, empty, afterBlank =>
    match c.rest with
    | [] => some (text, hasBreak, empty, c)
    | b :: _ =>
      if c.column ≠ indent then some (text, hasBreak, empty, c)
      else
        let text :=
          if !isLiteral ∧ !afterBlank ∧ !isBlank b ∧ hasBreak then
            if empty = 0 then 32 :: text else text
          else if hasBreak then 10 :: text
          else text
        let (text, rest) := Cursor.takeLine c.rest (List.replicate empty 10 ++ text)
        let ended := { c with rest }
        match emptyLines? indent fuel ended.next 0 0 with
        | none => none
        | some (count, _, after) =>
          blockLines? isLiteral indent fuel after text (!rest.isEmpty) count (isBlank b)

/-- The indicators of a block scalar: the indentation they ask for, zero if none, what happens at
its end, and the place behind them. -/
def blockHeader? (c : Cursor) : Option (Nat × Chomp × Cursor) :=
  let chomp? (b : UInt8) : Option Chomp :=
    if b = 43 then some .keep else if b = 45 then some .strip else none
  let digit? (b : UInt8) : Option Nat :=
    if 48 ≤ b ∧ b ≤ 57 then some (b.toNat - 48) else none
  let (step, chomp, after) : Option Nat × Chomp × Cursor :=
    match c.rest with
    | [] => (none, .clip, c)
    | b :: r =>
      match chomp? b, digit? b with
      | some chomp, _ =>
        match r.head?.bind digit? with
        | some n => (some n, chomp, c.skip 2)
        | none => (none, chomp, c.next)
      | none, some n =>
        match r.head?.bind chomp? with
        | some chomp => (some n, chomp, c.skip 2)
        | none => (some n, .clip, c.next)
      | none, none => (none, .clip, c)
  if step = some 0 then none else some (step.getD 0, chomp, after)

def block? (isLiteral : Bool) (outer : Int) (fuel : Nat) (c : Cursor) : Option (Text × Cursor) := do
  let (step, chomp, c) ← blockHeader? c
  let blank := (c.rest.takeWhile isBlank).length
  let c := c.skip blank
  let c := if c.rest.head? = some 35 then c.endOfLine else c
  if !(c.rest.isEmpty ∨ c.rest.head? = some 10) then none
  else
    let asked := if step = 0 then 0 else if 0 ≤ outer then outer.toNat + step else step
    let (count, widest, c) ← emptyLines? asked fuel c.next 0 0
    let indent := if asked = 0 then max (max widest (outer + 1).toNat) 1 else asked
    let (text, hasBreak, empty, c) ← blockLines? isLiteral indent fuel c [] false count false
    let text := if hasBreak ∧ chomp ≠ .strip then 10 :: text else text
    let text := if chomp = .keep then List.replicate empty 10 ++ text else text
    some (text.reverse, c)

end Yaml

end ClassAssembler
