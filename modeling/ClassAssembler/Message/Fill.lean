import ClassAssembler.Message.Catalog
import ClassAssembler.Text.Lowercase

/-!
# Filling messages

A place `%d` takes a whole number, `%s` a text, `%q` a text in quotes, `%T` the name of the type of
any value and `%v` any value.  What does not fit is shown in the text.
-/

namespace ClassAssembler

namespace Value

def misplaced (verb : UInt8) (v : Value) : Text :=
  match v with
  | nil => "%!" ++ [verb] ++ "(<nil>)"
  | v =>
    "%!" ++ [verb] ++ "(" ++ Text.ofString v.typeName
      ++ "=" ++ v.describe ++ ")"

def fillScalar (verb : UInt8) (v : Value) : Text :=
  match Char.ofUInt8 verb, v with
  | 'v', v => v.describe
  | 's', string t => t
  | 'q', string t => t.quoted
  | 's', type t => t.desc
  | 'q', type t => t.desc.quoted
  | 's', handle h => h.describe
  | 'q', handle h => h.describe.quoted
  | 't', bool b => (bool b).describe
  | 'd', v =>
    match v.toInt? with
    | some n => Text.ofInt n
    | none => misplaced verb v
  | 'q', v =>
    match v.toInt? with
    | some n => Text.quotedCode n
    | none => misplaced verb v
  | _, v => misplaced verb v

def fillPlace (verb : UInt8) (v : Value) : Text :=
  match Char.ofUInt8 verb, v with
  | 'T', v => Text.ofString v.typeName
  | 's', bytes bs => bs
  | 'q', bytes bs => Text.quoted bs
  | _, type t =>
    if verb = 100 then
      [0x7B] ++ Text.ofNat t.sort.code ++ [32] ++ misplaced verb (string t.desc)
        ++ [0x7D]
    else fillScalar verb v
  | _, v =>
    match v.members? with
    | some vs => [91] ++ Text.join [32] (vs.map (fillScalar verb)) ++ [93]
    | none => fillScalar verb v

end Value

namespace Message

def surplus : List Value → Text
  | [] => []
  | args =>
    let each (v : Value) : Text :=
      match v with
      | .nil => "<nil>"
      | v => Text.ofString v.typeName ++ [61] ++ v.describe
    Text.ofString "%!(EXTRA " ++ Text.join (Text.ofString ", ") (args.map each) ++ [41]

def fillText : Text → List Value → Text
  | [], args => surplus args
  | b :: rest, args =>
    if b = 37 then
      match rest, args with
      | [], args => "%!(NOVERB)" ++ surplus args
      | 37 :: rest, args => 37 :: fillText rest args
      | verb :: rest, [] => "%!" ++ [verb] ++ "(MISSING)" ++ fillText rest []
      | verb :: rest, v :: args => v.fillPlace verb ++ fillText rest args
    else b :: fillText rest args

def fill (t : Text) (args : List Value) : Text :=
  if args.isEmpty then t else fillText t args

def say (m : Message) (language : Language) (args : List Value) : Text :=
  fill (Text.ofString (m.wording language)) args

def inLanguage (language : Option Language) (id : Text) (args : List Value) : Text :=
  match ofId? id with
  | some m => m.say (language.getD .english) args
  | none => id

end Message

namespace Language

def ofSetting (t : Text) : Language :=
  let t := t.toLower
  if t.startsWith "zh" ∨ t = "chinese" then chinese else english

end Language

end ClassAssembler
