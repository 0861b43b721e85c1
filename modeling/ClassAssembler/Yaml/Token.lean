import ClassAssembler.Yaml.Cursor

/-!
# The tokens of YAML

Indentation opens and closes blocks, which tokens make explicit.  Whether a scalar or a flow
collection is a key shows only at the colon behind it; until then it is a candidate.
-/

namespace ClassAssembler

namespace Yaml

inductive Token where
  | openList
  | openTable
  | closeBlock
  | openFlowList
  | closeFlowList
  | openFlowTable
  | closeFlowTable
  | item
  | comma
  | key
  | value
  | scalar (text : Text) (isPlain : Bool)
  | documentStart
  | documentEnd
  | broken
deriving DecidableEq, Inhabited

structure Candidate where
  number : Nat
  isRequired : Bool
  start : Cursor
deriving Inhabited

structure Scan where
  cursor : Cursor
  tokens : Array Token := #[]
  indent : Int := -1
  outer : List Int := []
  candidate : Option Candidate := none
  flow : List (Option Candidate) := []
  keyAllowed : Bool := true
deriving Inhabited

abbrev ScanM := OptionT (StateM Scan)

namespace ScanM

def inFlow : ScanM Bool := return !(← get).flow.isEmpty

def moveTo (cursor : Cursor) (t : Token) : ScanM Unit :=
  modify fun s => { s with tokens := s.tokens.push t, cursor }

def take (n : Nat) (t : Token) : ScanM Unit :=
  modify fun s => { s with tokens := s.tokens.push t, cursor := s.cursor.skip n }

def allowKey (b : Bool) : ScanM Unit := modify fun s => { s with keyAllowed := b }

def candidate? : ScanM (Option Candidate) := do
  match (← get).flow with
  | c :: _ => return c
  | [] => return (← get).candidate

def setCandidate (c : Option Candidate) : ScanM Unit :=
  modify fun s =>
    match s.flow with
    | _ :: outer => { s with flow := c :: outer }
    | [] => { s with candidate := c }

def dropCandidate : ScanM Unit := do
  if ((← candidate?).map (·.isRequired)).getD false then failure
  setCandidate none

def saveCandidate : ScanM Unit := do
  let s ← get
  if s.keyAllowed then
    let isRequired := s.flow.isEmpty && s.indent == (s.cursor.column : Int)
    dropCandidate
    setCandidate (some { number := s.tokens.size, isRequired, start := s.cursor })

def openBlock (column : Nat) (number : Nat) (t : Token) : ScanM Unit :=
  modify fun s =>
    if s.flow.isEmpty ∧ s.indent < (column : Int) then
      { s with
        indent := column
        outer := s.indent :: s.outer
        tokens := s.tokens.insertIdxIfInBounds number t }
    else s

def closeBlocks (column : Int) : List Int → ScanM Unit
  | [] => pure ()
  | outer :: rest => do
    if (← get).flow.isEmpty ∧ column < (← get).indent then
      modify fun s =>
        { s with indent := outer, outer := rest, tokens := s.tokens.push .closeBlock }
      closeBlocks column rest

def dedent (column : Int) : ScanM Unit := do closeBlocks column (← get).outer

/-- Moves to the next token: over blanks, comments and line breaks.  Behind a line break outside
flow collections a key may begin. -/
def skipSpace : Nat → ScanM Unit
  | 0 => failure
  | fuel + 1 => do
    let s ← get
    match s.cursor.rest with
    | [] => pure ()
    | b :: _ =>
      if b = 32 ∨ (b = 9 ∧ (!s.flow.isEmpty ∨ !s.keyAllowed)) then
        set { s with cursor := s.cursor.next }
        skipSpace fuel
      else if b = 35 then
        set { s with cursor := s.cursor.endOfLine }
        skipSpace fuel
      else if b = 10 then
        set { s with cursor := s.cursor.next, keyAllowed := s.flow.isEmpty || s.keyAllowed }
        skipSpace fuel
      else pure ()

def mark (t : Token) : ScanM Unit := do
  dedent (-1)
  dropCandidate
  allowKey false
  take 3 t

def openFlow (t : Token) : ScanM Unit := do
  saveCandidate
  modify fun s => { s with flow := none :: s.flow }
  allowKey true
  take 1 t

def closeFlow (t : Token) : ScanM Unit := do
  dropCandidate
  modify fun s => { s with flow := s.flow.drop 1 }
  allowKey false
  take 1 t

def item : ScanM Unit := do
  let s ← get
  if s.flow.isEmpty then
    if !s.keyAllowed then failure
    openBlock s.cursor.column s.tokens.size .openList
  dropCandidate
  allowKey true
  take 1 .item

def longKey : ScanM Unit := do
  let s ← get
  if s.flow.isEmpty then
    if !s.keyAllowed then failure
    openBlock s.cursor.column s.tokens.size .openTable
  dropCandidate
  allowKey s.flow.isEmpty
  take 1 .key

def isNear (c : Candidate) (here : Cursor) : Bool :=
  c.start.line == here.line && here.index ≤ c.start.index + 1024

def value : ScanM Unit := do
  let s ← get
  match (← candidate?) with
  | some c =>
    if isNear c s.cursor then
      modify fun s => { s with tokens := s.tokens.insertIdxIfInBounds c.number .key }
      openBlock c.start.column c.number .openTable
      setCandidate none
      allowKey false
    else
      if c.isRequired then failure
      bare
  | none => bare
  take 1 .value
where
  bare : ScanM Unit := do
    let s ← get
    if s.flow.isEmpty then
      if !s.keyAllowed then failure
      openBlock s.cursor.column s.tokens.size .openTable
    allowKey s.flow.isEmpty

def quoted (fuel : Nat) (quote : UInt8) : ScanM Unit := do
  saveCandidate
  allowKey false
  let s ← get
  match quoted? quote fuel s.cursor.next [] [] .none with
  | some (text, cursor) => moveTo cursor (.scalar text false)
  | none => failure

def block (fuel : Nat) (isLiteral : Bool) : ScanM Unit := do
  dropCandidate
  allowKey true
  let s ← get
  match block? isLiteral s.indent fuel s.cursor.next with
  | some (text, cursor) => moveTo cursor (.scalar text false)
  | none => failure

def plain (fuel : Nat) : ScanM Unit := do
  saveCandidate
  allowKey false
  let s ← get
  match plain? (!s.flow.isEmpty) (s.indent + 1) fuel s.cursor [] [] .none with
  | some (text, hasEnded, cursor) =>
    moveTo cursor (.scalar text true)
    allowKey hasEnded
  | none => failure

def startsPlain (inFlow : Bool) : Text → Bool
  | [] => false
  | b :: r =>
    !(isBlank b || b == 10 || (Text.ofString "-?:,[]\x7b\x7d#&*!|>'\"%@`").contains b) ||
      (b == 45 && !(r.head?.map isBlank).getD false) ||
      (!inFlow && (b == 63 || b == 58) && !startsBlank r)

def next (fuel : Nat) : ScanM Bool := do
  skipSpace fuel
  let c := (← get).cursor
  dedent c.column
  let inFlow ← inFlow
  match c.rest with
  | [] =>
    dedent (-1)
    dropCandidate
    return false
  | b :: r =>
    if c.atMark then mark (if b = 45 then .documentStart else .documentEnd)
    else if c.column = 0 ∧ b = 37 then failure
    else if b = 91 then openFlow .openFlowList
    else if b = 0x7B then openFlow .openFlowTable
    else if b = 93 then closeFlow .closeFlowList
    else if b = 0x7D then closeFlow .closeFlowTable
    else if b = 44 then
      dropCandidate
      allowKey true
      take 1 .comma
    else if b = 45 ∧ startsBlank r then item
    else if b = 63 ∧ (inFlow ∨ startsBlank r) then longKey
    else if b = 58 ∧ (inFlow ∨ startsBlank r) then value
    else if b = 124 ∧ !inFlow then block fuel true
    else if b = 62 ∧ !inFlow then block fuel false
    else if b = 39 ∨ b = 34 then quoted fuel b
    else if startsPlain inFlow c.rest then plain fuel
    else failure
    return true

end ScanM

def tokensFrom (reach : Nat) : Nat → Scan → Array Token
  | 0, s => s.tokens.push .broken
  | fuel + 1, s =>
    match (ScanM.next reach).run s with
    | (some true, s) => tokensFrom reach fuel s
    | (some false, s) => s.tokens
    | (none, s) => s.tokens.push .broken

def tokens (t : Text) : List Token :=
  (tokensFrom (t.length + 2) (t.length + 2) { cursor := { rest := t } }).toList

end Yaml

end ClassAssembler
