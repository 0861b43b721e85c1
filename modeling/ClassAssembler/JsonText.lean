import ClassAssembler.Text.Quoted

/-!
# JSON texts

Values are written with an indent of two blanks for each level; an empty list stands on one line.
-/

namespace ClassAssembler

inductive JsonValue where
  | string (t : Text)
  | number (n : Int)
  | bool (b : Bool)
  | list (items : List JsonValue)
  | object (entries : List (String × JsonValue))
deriving Inhabited

namespace JsonValue

def escapeCode (c : Nat) : Text :=
  match c with
  | 34 => [92, 34]
  | 92 => [92, 92]
  | 9 => [92, 116]
  | 10 => [92, 110]
  | 13 => [92, 114]
  | _ =>
    if c < 0x20 ∨ c = 60 ∨ c = 62 ∨ c = 38 ∨ c = 0x2028 ∨ c = 0x2029 then
      "\\u" ++ Text.hex 4 c
    else Text.encode c

def escapePiece : Text.Piece → Text
  | .scalar c => escapeCode c
  | .stray _ => "\\ufffd"

def quote (t : Text) : Text := [34] ++ t.pieces.flatMap escapePiece ++ [34]

def newLine (level : Nat) : Text := 10 :: List.replicate (2 * level) 32

abbrev Output := Array UInt8

def put (out : Output) (t : Text) : Output := t.foldl Array.push out

mutual

def write (level : Nat) (out : Output) : JsonValue → Output
  | string t => put out (quote t)
  | number n => put out (Text.ofInt n)
  | bool b => put out (Text.ofString (if b then "true" else "false"))
  | list [] => put out [91, 93]
  | list (v :: vs) =>
    let out := write (level + 1) (put (out.push 91) (newLine (level + 1))) v
    put (writeItems (level + 1) out vs) (newLine level ++ [93])
  | object [] => put out [0x7B, 0x7D]
  | object ((k, v) :: es) =>
    let out := put (out.push 0x7B) (newLine (level + 1) ++ quote (Text.ofString k) ++ [58, 32])
    let out := write (level + 1) out v
    put (writeEntries (level + 1) out es) (newLine level ++ [0x7D])

def writeItems (level : Nat) (out : Output) : List JsonValue → Output
  | [] => out
  | v :: vs => writeItems level (write level (put (out.push 44) (newLine level)) v) vs

def writeEntries (level : Nat) (out : Output) : List (String × JsonValue) → Output
  | [] => out
  | (k, v) :: es =>
    let out := put (out.push 44) (newLine level ++ quote (Text.ofString k) ++ [58, 32])
    writeEntries level (write level out v) es

end

def toText (v : JsonValue) : Text := (write 0 #[] v).toList

end JsonValue

end ClassAssembler
