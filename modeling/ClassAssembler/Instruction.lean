import ClassAssembler.Value

/-!
# Instructions and code events

The body of a method is a sequence of events.  Targets of jumps are of any type, so that the same
instructions serve with labels while a method is written and with offsets when its code is read.
-/

namespace ClassAssembler

inductive Instruction (Target : Type) where
  | plain (op : Int)
  | push (op operand : Int)
  | var (op slot : Int)
  | type (op : Int) (name : Text)
  | field (op : Int) (owner name desc : Text)
  | invoke (op : Int) (owner name desc : Text) (ofInterface : Bool)
  | dynamic (name desc : Text) (bootstrap : Handle) (args : List Value)
  | jump (op : Int) (target : Target)
  | constant (v : Value)
  | increment (slot amount : Int)
  | tableSwitch (low high : Int) (fallback : Target) (targets : List Target)
  | lookupSwitch (fallback : Target) (keys : List Int) (targets : List Target)
  | multiArray (desc : Text) (dims : Int)
deriving DecidableEq, Inhabited

namespace Instruction

def targets {T : Type} : Instruction T → List T
  | jump _ t => [t]
  | tableSwitch _ _ d ts => d :: ts
  | lookupSwitch d _ ts => d :: ts
  | _ => []

def mapTargets {T U : Type} (f : T → U) : Instruction T → Instruction U
  | plain op => plain op
  | push op n => push op n
  | var op v => var op v
  | type op n => type op n
  | field op o n d => field op o n d
  | invoke op o n d i => invoke op o n d i
  | dynamic n d b as => dynamic n d b as
  | jump op t => jump op (f t)
  | constant v => constant v
  | increment v n => increment v n
  | tableSwitch lo hi d ts => tableSwitch lo hi (f d) (ts.map f)
  | lookupSwitch d ks ts => lookupSwitch (f d) ks (ts.map f)
  | multiArray d n => multiArray d n

end Instruction

inductive FrameItem (Target : Type) where
  | number (n : Int)
  | name (t : Text)
  | created (at_ : Target)
  | invalid
deriving DecidableEq, Inhabited

namespace FrameItem

def mapTarget {T U : Type} (f : T → U) : FrameItem T → FrameItem U
  | number n => number n
  | name t => name t
  | created l => created (f l)
  | invalid => invalid

end FrameItem

structure FrameEvent (Target : Type) where
  kind : Int
  localCount : Int
  locals : List (FrameItem Target)
  stackCount : Int
  stack : List (FrameItem Target)
deriving Inhabited

namespace FrameEvent

def expanded : Int := -1
def full : Int := 0
def append : Int := 1
def chop : Int := 2
def same : Int := 3
def same1 : Int := 4

def inserted : Int := 256

end FrameEvent

inductive CodeEvent (Target : Type) where
  | instruction (i : Instruction Target)
  | label (l : Target)
  | frame (f : FrameEvent Target)
  | tryCatch (start stop handler : Target) (caught : Text)
  | localVariable (name desc signature : Text) (start stop : Target) (slot : Int)
  | line (number : Int) (start : Target)
  | maxs (stack locals : Int)
deriving Inhabited

namespace CodeEvent

def targets {T : Type} : CodeEvent T → List T
  | instruction i => i.targets
  | label l => [l]
  | frame f => (f.locals ++ f.stack).filterMap fun
    | .created l => some l
    | _ => none
  | tryCatch s e h _ => [s, e, h]
  | localVariable _ _ _ s e _ => [s, e]
  | line _ s => [s]
  | maxs _ _ => []

def mapTargets {T U : Type} (f : T → U) : CodeEvent T → CodeEvent U
  | instruction i => instruction (i.mapTargets f)
  | label l => label (f l)
  | frame e =>
    frame
      { kind := e.kind
        localCount := e.localCount
        locals := e.locals.map (·.mapTarget f)
        stackCount := e.stackCount
        stack := e.stack.map (·.mapTarget f) }
  | tryCatch s e h t => tryCatch (f s) (f e) (f h) t
  | localVariable n d sig s e i => localVariable n d sig (f s) (f e) i
  | line n l => line n (f l)
  | maxs s l => maxs s l

end CodeEvent

end ClassAssembler
