import ClassAssembler.Message.Fill
import ClassAssembler.Text.Path
import ClassAssembler.Toml.Basic
import ClassAssembler.Yaml.Basic

/-!
# Data formats

TOML wants the very type of a field and does not mind the case of a key; YAML takes any scalar for
a text, and a null leaves a field as it is.
-/

namespace ClassAssembler

inductive DocumentFormat where
  | toml
  | yaml
deriving DecidableEq, Repr, Inhabited

namespace DocumentFormat

def name : DocumentFormat → String
  | toml => "toml"
  | yaml => "yaml"

def ofName? (t : Text) : Option DocumentFormat :=
  [toml, yaml].find? fun f => Text.ofString f.name = t

def ofPath? (path : Text) : Option DocumentFormat :=
  let extension := (Path.extension path).toLower
  if extension = ".toml" then some toml
  else if extension = ".yaml" ∨ extension = ".yml" then some yaml
  else none

def unknownMessage (language : Language) (name : Text) : Text :=
  Message.sourceFormat.say language [.string name]

def read? (f : DocumentFormat) (t : Text) : Option Document.Content :=
  let content := match f with
    | toml => Document.ofToml? t
    | yaml => Document.ofYaml? t
  content.filter fun c =>
    match c with
    | .empty => true
    | .document d => d.hasDistinctKeys

/-! ## Fields -/

def names (f : DocumentFormat) (key field : Text) : Bool :=
  match f with
  | toml => key.toLower == field
  | yaml => key == field

def text? (f : DocumentFormat) (d : Document) (old : Text) : Option Text :=
  match f, d with
  | toml, .scalar _ (.string t) => some t
  | toml, _ => none
  | yaml, .scalar _ .null => some old
  | yaml, .scalar raw _ => some raw
  | yaml, _ => none

/-- The whole number that is left of a number without its fraction; beyond sixty-four bits it is
the least one. -/
def truncate? (bits : Nat) : Option Int :=
  let least : Int := -0x8000000000000000
  match Binary.double.decode bits with
  | .finite isNegative units scale =>
    let size : Nat :=
      if 0 ≤ scale then units * Nat.pow 2 scale.toNat else units / Nat.pow 2 (-scale).toNat
    let n : Int := if isNegative then -(size : Int) else size
    if 0x8000000000000000 < n then none
    else if n < least ∨ n = 0x8000000000000000 then some least
    else some n
  | .infinite isNegative => if isNegative then some least else none
  | .nan => none

def integer? (f : DocumentFormat) (d : Document) (old : Int) : Option Int :=
  match f, d with
  | _, .scalar _ (.integer n) => if n < 0x8000000000000000 then some n else none
  | yaml, .scalar _ .null => some old
  | yaml, .scalar _ (.float bits) => truncate? bits
  | _, _ => none

def truth? (t : Text) : Option Bool :=
  if ["y", "Y", "yes", "on"].any fun w => Text.ofString w = t then some true
  else if ["n", "N", "no", "off"].any fun w => Text.ofString w = t then some false
  else none

def bool? (f : DocumentFormat) (d : Document) (old : Bool) : Option Bool :=
  match f, d with
  | _, .scalar _ (.bool b) => some b
  | yaml, .scalar _ .null => some old
  | yaml, .scalar _ (.string t) => truth? t
  | _, _ => none

def items? {α : Type} (f : DocumentFormat) (item? : Document → Option α) (d : Document) :
    Option (List α) :=
  match f, d with
  | toml, .list ds => ds.mapM item?
  | yaml, .list ds => (ds.filter fun d => !isNull d).mapM item?
  | yaml, .scalar _ .null => some []
  | _, _ => none
where
  isNull : Document → Bool
    | .scalar _ .null => true
    | _ => false

def texts? (f : DocumentFormat) (d : Document) : Option (List Text) :=
  f.items? (fun d => f.text? d []) d

def textTable? (f : DocumentFormat) (d : Document) : Option (List (Text × Text)) :=
  match f, d with
  | _, .table entries => entries.mapM fun (k, d) => (f.text? d []).map fun t => (k, t)
  | yaml, .scalar _ .null => some []
  | _, _ => none

structure Key (α : Type) where
  name : String
  set? : Document → α → Option α

def entries? {α : Type} (f : DocumentFormat) (isStrict : Bool) (fields : List (Key α)) :
    List (Text × Document) → α → Option α
  | [], record => some record
  | (key, d) :: es, record =>
    match fields.find? fun field => f.names key (Text.ofString field.name) with
    | some field => (field.set? d record).bind (entries? f isStrict fields es)
    | none => if isStrict then none else entries? f isStrict fields es record

def record? {α : Type} (f : DocumentFormat) (isStrict : Bool) (fields : List (Key α))
    (d : Document) (record : α) : Option α :=
  match f, d with
  | _, .table entries => f.entries? isStrict fields entries record
  | yaml, .scalar _ .null => some record
  | _, _ => none

end DocumentFormat

end ClassAssembler
