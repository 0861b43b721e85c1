import ClassAssembler.Toml.Number
import ClassAssembler.Toml.Quoted
import ClassAssembler.Toml.Tree

/-!
# Reading TOML

A document is a sequence of lines: a key with its value, the header of a table, or nothing but a
comment.  Arrays may stretch over lines, inline tables may not.
-/

namespace ClassAssembler

namespace Toml

def isBare (b : UInt8) : Bool :=
  isDigit b || (65 ≤ b && b ≤ 90) || (97 ≤ b && b ≤ 122) || b == 95 || b == 45

def isWordByte (b : UInt8) : Bool := isBare b || b == 43 || b == 46

def keyPart? (t : Text) : Option (Text × Text) :=
  match t with
  | [] => none
  | b :: r =>
    if b = 34 then basic? r []
    else if b = 39 then literal? r []
    else
      let part := t.takeWhile isBare
      if part.isEmpty then none else some (part, t.drop part.length)

def key? : Nat → Text → Option (List Text × Text)
  | 0, _ => none
  | fuel + 1, t => do
    let (part, rest) ← keyPart? (skipBlanks t)
    match skipBlanks rest with
    | 46 :: r =>
      let (parts, rest) ← key? fuel r
      some (part :: parts, rest)
    | rest => some ([part], rest)

def afterComment? (t : Text) : Option Text :=
  match t with
  | 35 :: _ =>
    let comment := t.takeWhile fun b => b != 10 && b != 13
    if comment.all isPlain then some (t.drop comment.length) else none
  | _ => some t

def endOfLine? (t : Text) : Option Text := do
  let rest ← afterComment? (skipBlanks t)
  if rest.isEmpty then some [] else afterBreak? rest

def skipLines? : Nat → Text → Option Text
  | 0, _ => none
  | fuel + 1, t =>
    let t := skipBlanks t
    if t.head? = some 35 ∨ (afterBreak? t).isSome then (endOfLine? t).bind (skipLines? fuel)
    else some t

mutual

def value? : Nat → Text → Option (Document × Text)
  | 0, _ => none
  | fuel + 1, t =>
    match t with
    | [] => none
    | b :: r =>
      if b = 34 ∨ b = 39 then (quoted? t).map fun (s, rest) => (.ofText s, rest)
      else if b = 91 then items? fuel r []
      else if b = 0x7B then
        match skipBlanks r with
        | 0x7D :: rest => some (.table [], rest)
        | rest => pairs? fuel rest []
      else
        let word := t.takeWhile isWordByte
        (word? word).map fun v => (.scalar word v, t.drop word.length)

def items? : Nat → Text → List Document → Option (Document × Text)
  | 0, _, _ => none
  | fuel + 1, t, items => do
    match ← skipLines? (fuel + 1) t with
    | 93 :: rest => some (.list items.reverse, rest)
    | t =>
      let (item, rest) ← value? fuel t
      match ← skipLines? (fuel + 1) rest with
      | 44 :: rest => items? fuel rest (item :: items)
      | 93 :: rest => some (.list (item :: items).reverse, rest)
      | _ => none

def pairs? : Nat → Text → Entries → Option (Document × Text)
  | 0, _, _ => none
  | fuel + 1, t, entries => do
    let (key, v, rest) ← pair? fuel t
    let entries ← entries.insert? key v
    match skipBlanks rest with
    | 44 :: rest => pairs? fuel rest entries
    | 0x7D :: rest => some (.table (documentEntries entries), rest)
    | _ => none

def pair? : Nat → Text → Option (List Text × Document × Text)
  | 0, _ => none
  | fuel + 1, t => do
    let (key, rest) ← key? (fuel + 1) t
    match rest with
    | 61 :: rest =>
      let (v, rest) ← value? fuel (skipBlanks rest)
      some (key, v, rest)
    | _ => none

end

def header? (t : Text) : Option (List Text × Bool × Text) := do
  match t with
  | 91 :: 91 :: r =>
    let (key, rest) ← key? (r.length + 1) r
    match rest with
    | 93 :: 93 :: rest => some (key, true, rest)
    | _ => none
  | 91 :: r =>
    let (key, rest) ← key? (r.length + 1) r
    match rest with
    | 93 :: rest => some (key, false, rest)
    | _ => none
  | _ => none

def lines? : Nat → List Text → Entries → Text → Option Entries
  | 0, _, _, _ => none
  | fuel + 1, path, root, t =>
    match skipLines? (fuel + 1) t with
    | none => none
    | some [] => some root
    | some (b :: r) =>
      let t := b :: r
      if b = 91 then
        match header? t with
        | none => none
        | some (key, isRepeated, rest) =>
          match (if isRepeated then root.openItem? key else root.openTable? key),
              endOfLine? rest with
          | some root, some rest => lines? fuel key root rest
          | _, _ => none
      else
        match pair? (2 * fuel + 2) t with
        | none => none
        | some (key, v, rest) =>
          match root.insertAt? path key v, endOfLine? rest with
          | some root, some rest => lines? fuel path root rest
          | _, _ => none

end Toml

def Document.ofToml? (t : Text) : Option Content :=
  if t.isWellFormed then
    (Toml.lines? (t.length + 1) [] [] t).map fun root =>
      .document (.table (Toml.documentEntries root))
  else none

end ClassAssembler
