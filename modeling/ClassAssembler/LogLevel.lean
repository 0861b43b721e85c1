import ClassAssembler.Text.Lowercase
import ClassAssembler.Text.Quoted

/-!
# Log levels

The levels of severity that log messages have, and the names they are chosen by.
-/

namespace ClassAssembler

inductive LogLevel where
  | debug
  | info
  | warn
  | error
  | dpanic
  | panic
  | fatal
deriving DecidableEq, Repr, Inhabited

namespace LogLevel

def all : List LogLevel := [debug, info, warn, error, dpanic, panic, fatal]

def name : LogLevel → String
  | debug => "debug"
  | info => "info"
  | warn => "warn"
  | error => "error"
  | dpanic => "dpanic"
  | panic => "panic"
  | fatal => "fatal"

def ofName? (t : Text) : Option LogLevel :=
  if t.isEmpty then some warn else all.find? fun l => Text.ofString l.name = t.toLower

def unknownMessage (t : Text) : Text :=
  "invalid log level " ++ t.quoted ++ ": unrecognized level: "
    ++ Text.quoted t.toLower

end LogLevel

end ClassAssembler
