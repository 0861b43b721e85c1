import ClassAssembler.Yaml.Resolve
import ClassAssembler.Yaml.Token

/-!
# Reading YAML

The tokens of the first document of a text are read as a tree.
-/

namespace ClassAssembler

namespace Yaml

def nothing : Document := .scalar [] .null

def tableOf? : List (Document × Document) → Option (List (Text × Document))
  | [] => some []
  | (.scalar raw v, d) :: es =>
    (tableOf? es).map fun rest => if v = .null then rest else (raw, d) :: rest
  | _ :: _ => none

def endsValue (t : Token) : Bool := t == .key || t == .value || t == .closeBlock

mutual

/-- A tree and the tokens behind it.  A list that is the value of a key need not be indented
further than the key. -/
def node? (inBlock listAllowed : Bool) : Nat → List Token → Option (Document × List Token)
  | 0, _ => none
  | fuel + 1, ts =>
    match ts with
    | .item :: _ => if listAllowed then inlineItems? fuel ts [] else none
    | .scalar text isPlain :: rest =>
      some (.scalar text (if isPlain then resolve text else .string text), rest)
    | .openFlowList :: rest => flowItems? fuel rest []
    | .openFlowTable :: rest => flowEntries? fuel rest []
    | .openList :: rest => if inBlock then items? fuel rest [] else none
    | .openTable :: rest => if inBlock then entries? fuel rest [] else none
    | _ => none

def items? : Nat → List Token → List Document → Option (Document × List Token)
  | 0, _, _ => none
  | fuel + 1, ts, items =>
    match ts with
    | .closeBlock :: rest => some (.list items.reverse, rest)
    | .item :: .item :: rest => items? fuel (.item :: rest) (nothing :: items)
    | .item :: .closeBlock :: rest => items? fuel (.closeBlock :: rest) (nothing :: items)
    | .item :: rest =>
      match node? true false fuel rest with
      | some (d, rest) => items? fuel rest (d :: items)
      | none => none
    | _ => none

def inlineItems? : Nat → List Token → List Document → Option (Document × List Token)
  | 0, _, _ => none
  | fuel + 1, ts, items =>
    match ts with
    | .item :: t :: rest =>
      if t = .item ∨ endsValue t then inlineItems? fuel (t :: rest) (nothing :: items)
      else
        match node? true false fuel (t :: rest) with
        | some (d, rest) => inlineItems? fuel rest (d :: items)
        | none => none
    | .item :: [] => none
    | _ => some (.list items.reverse, ts)

def entries? : Nat → List Token → List (Document × Document) → Option (Document × List Token)
  | 0, _, _ => none
  | fuel + 1, ts, entries =>
    match ts with
    | .closeBlock :: rest => (tableOf? entries.reverse).map fun es => (.table es, rest)
    | .key :: rest =>
      match optional? true endsValue fuel rest with
      | none => none
      | some (k, rest) =>
        match valueOf? true endsValue fuel rest with
        | none => none
        | some (v, rest) => entries? fuel rest ((k, v) :: entries)
    | _ => none

def optional? (inBlock : Bool) (isEnd : Token → Bool) :
    Nat → List Token → Option (Document × List Token)
  | 0, _ => none
  | fuel + 1, ts =>
    match ts with
    | [] => none
    | t :: _ => if isEnd t then some (nothing, ts) else node? inBlock inBlock fuel ts

def valueOf? (inBlock : Bool) (isEnd : Token → Bool) :
    Nat → List Token → Option (Document × List Token)
  | 0, _ => none
  | fuel + 1, ts =>
    match ts with
    | .value :: rest => optional? inBlock isEnd fuel rest
    | _ => some (nothing, ts)

def flowItems? : Nat → List Token → List Document → Option (Document × List Token)
  | 0, _, _ => none
  | fuel + 1, ts, items =>
    match ts with
    | .closeFlowList :: rest => some (.list items.reverse, rest)
    | _ =>
      let isEnd (t : Token) : Bool := t == .comma || t == .closeFlowList
      let item : Option (Document × List Token) :=
        match ts with
        | .key :: rest =>
          match optional? false (fun t => t == Token.value || isEnd t) fuel rest with
          | none => none
          | some (k, rest) =>
            match valueOf? false isEnd fuel rest with
            | none => none
            | some (v, rest) => (tableOf? [(k, v)]).map fun es => (Document.table es, rest)
        | _ => node? false false fuel ts
      match item with
      | some (d, .comma :: rest) => flowItems? fuel rest (d :: items)
      | some (d, .closeFlowList :: rest) => some (.list (d :: items).reverse, rest)
      | _ => none

def flowEntries? : Nat → List Token → List (Document × Document) →
    Option (Document × List Token)
  | 0, _, _ => none
  | fuel + 1, ts, entries =>
    match ts with
    | .closeFlowTable :: rest => (tableOf? entries.reverse).map fun es => (.table es, rest)
    | _ =>
      let isEnd (t : Token) : Bool := t == .comma || t == .closeFlowTable
      let entry : Option ((Document × Document) × List Token) :=
        match ts with
        | .key :: rest =>
          match optional? false (fun t => t == Token.value || isEnd t) fuel rest with
          | none => none
          | some (k, rest) => (valueOf? false isEnd fuel rest).map fun (v, rest) => ((k, v), rest)
        | _ => (node? false false fuel ts).map fun (k, rest) => ((k, nothing), rest)
      match entry with
      | some (e, .comma :: rest) => flowEntries? fuel rest (e :: entries)
      | some (e, .closeFlowTable :: rest) =>
        (tableOf? (e :: entries).reverse).map fun es => (.table es, rest)
      | _ => none

end

def isAllowed (c : Nat) : Bool :=
  c == 9 || c == 10 || c == 13 || (0x20 ≤ c && c ≤ 0x7E) || c == 0x85 ||
    (0xA0 ≤ c && c ≤ 0xD7FF) || (0xE000 ≤ c && c ≤ 0xFFFD) || (0x10000 ≤ c && c ≤ 0x10FFFF)

def normalize? : Text → Text → Option Text
  | [], text => some text.reverse
  | a :: t, text =>
    match Text.lead? a t with
    | some (c, n) =>
      if !isAllowed c then none
      else if c = 13 then
        if t.head? = some 10 then normalize? t text else normalize? t (10 :: text)
      else if c = 0x85 then normalize? (t.drop n) (10 :: text)
      else normalize? (t.drop n) ((t.take n).reverse ++ a :: text)
    | none => none
termination_by t => t.length
decreasing_by all_goals (simp only [List.length_cons, List.length_drop]; omega)

end Yaml

def Document.ofYaml? (t : Text) : Option Content := do
  let t ← Yaml.normalize? (t.dropStart (Text.encode 0xFEFF)) []
  let tokens := Yaml.tokens t
  let tokens := tokens.dropWhile (· == .documentEnd)
  match tokens with
  | [] => some .empty
  | first :: rest =>
    let content := if first = .documentStart then rest else tokens
    let isEnd (t : Yaml.Token) : Bool := t == .documentStart || t == .documentEnd
    match content with
    | [] => some (.document Yaml.nothing)
    | t :: _ =>
      let (d, rest) ←
        if isEnd t then some (Yaml.nothing, content)
        else Yaml.node? true true (4 * tokens.length + 4) content
      if rest.head? = some .broken then none else some (.document d)

end ClassAssembler
