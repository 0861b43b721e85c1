import ClassAssembler.Message.Fill

/-!
# Options of a command

Options stand in front of the other arguments, with one dash or two.  A switch is on or off; any
other option has a value, behind an equals sign or in the next argument.
-/

namespace ClassAssembler

namespace CommandLine

structure OptionSpec where
  name : String
  isSwitch : Bool := false
  about : Message

inductive OptionFault where
  | badForm (argument : Text)
  | unknown (name : Text)
  | noValue (name : Text)
  | badSwitch (value name : Text)
  | help
deriving DecidableEq, Inhabited

structure Arguments where
  options : List (Text × Text) := []
  rest : List Text := []
deriving DecidableEq, Inhabited

namespace OptionFault

def message? : OptionFault → Option Text
  | badForm argument => some ("bad flag syntax: " ++ argument)
  | unknown name => some ("flag provided but not defined: -" ++ name)
  | noValue name => some ("flag needs an argument: -" ++ name)
  | badSwitch value name =>
    some ("invalid boolean value " ++ value.quoted ++ " for -" ++ name
      ++ ": parse error")
  | help => none

end OptionFault

namespace Arguments

def value (a : Arguments) (name : String) : Text := (a.options.lookup (Text.ofString name)).getD []

def isOn (a : Arguments) (name : String) : Bool := a.value name == "true"

end Arguments

def switchValue? (t : Text) : Option Text :=
  if ["1", "t", "T", "TRUE", "true", "True"].any fun w => Text.ofString w = t then
    some "true"
  else if ["0", "f", "F", "FALSE", "false", "False"].any fun w => Text.ofString w = t then
    some "false"
  else none

def optionBody (argument : Text) : Text :=
  argument.drop (if argument[1]? = some 45 then 2 else 1)

def optionParts (body : Text) : Text × Option Text :=
  let name := body.take 1 ++ (body.drop 1).takeWhile (· != 61)
  if name.length < body.length then (name, some (body.drop (name.length + 1))) else (name, none)

def parseOptions (specs : List OptionSpec) :
    List Text → List (Text × Text) → Except OptionFault Arguments
  | [], options => .ok { options }
  | argument :: rest, options =>
    let body := optionBody argument
    if argument.length < 2 ∨ argument.head? ≠ some 45 then
      .ok { options, rest := argument :: rest }
    else if argument = "--" then .ok { options, rest }
    else if body.isEmpty ∨ body.head? = some 45 ∨ body.head? = some 61 then .error (.badForm argument)
    else
      let (name, value) := optionParts body
      match specs.find? fun s => Text.ofString s.name = name with
      | none =>
        if name = "help" ∨ name = "h" then .error .help
        else .error (.unknown name)
      | some spec =>
        if spec.isSwitch then
          let given := value.getD "true"
          match switchValue? given with
          | some v => parseOptions specs rest ((name, v) :: options)
          | none => .error (.badSwitch given name)
        else
          match value with
          | some v => parseOptions specs rest ((name, v) :: options)
          | none =>
            match rest with
            | v :: others => parseOptions specs others ((name, v) :: options)
            | [] => .error (.noValue name)

def listOptions (language : Language) (specs : List OptionSpec) : Text :=
  specs.flatMap fun s =>
    Text.ofString "  -" ++ Text.ofString s.name
      ++ (if s.isSwitch then [] else Text.ofString " string")
      ++ Text.ofString "\n    \t" ++ s.about.say language [] ++ [10]

/-! ## Options in front of every command -/

structure GlobalOptions where
  language : Text := []
  config : Text := []
deriving DecidableEq, Inhabited

def takeGlobals : List Text → GlobalOptions → GlobalOptions × List Text
  | [], g => (g, [])
  | argument :: rest, g =>
    let body := argument.dropWhile (· == 45)
    let name := body.takeWhile (· != 61)
    let isLanguage := name = "lang"
    let keep := fun (g, others) => (g, argument :: others)
    let set (v : Text) : GlobalOptions :=
      if isLanguage then { g with language := v } else { g with config := v }
    if argument.head? ≠ some 45 ∨ !(isLanguage ∨ name = "config") then
      keep (takeGlobals rest g)
    else if name.length < body.length then
      takeGlobals rest (set (body.drop (name.length + 1)))
    else
      match rest with
      | [] => (g, [argument])
      | v :: rest => takeGlobals rest (set v)

end CommandLine

end ClassAssembler
