import Std.Data.HashMap
import Std.Data.HashSet
import ClassAssembler.Text.Basic

/-!
# Class hierarchies

A hierarchy answers which class two classes have in common, or says that it cannot.  On top of a
table of superclasses, classes that are only being defined may be announced one by one.
-/

namespace ClassAssembler

def objectName : Text := "java/lang/Object"

structure ClassTable where
  supers : Std.HashMap Text Text := {}
  interfaces : Std.HashSet Text := {}
deriving Inhabited

namespace ClassTable

def addClass (h : ClassTable) (name super : Text) : ClassTable :=
  { h with supers := h.supers.insert name super }

def addInterface (h : ClassTable) (name : Text) : ClassTable :=
  { supers := h.supers.insert name objectName, interfaces := h.interfaces.insert name }

/-- The classes from a class up to the top, in at most `fuel` steps; none if a superclass on the
way is unknown. -/
def chain? (h : ClassTable) : Nat → Text → Option (List Text)
  | 0, _ => none
  | fuel + 1, t =>
    if t.isEmpty then some []
    else if t = objectName then some [t]
    else
      match h.supers[t]? with
      | none => none
      | some next => (h.chain? fuel next).map (t :: ·)

/-- The first class at or above a class that is among the given ones, in at most `fuel` steps. -/
def climb? (h : ClassTable) (among : List Text) : Nat → Text → Option Text
  | 0, _ => none
  | fuel + 1, t =>
    if t.isEmpty then none
    else if among.contains t then some t
    else
      match h.supers[t]? with
      | none => none
      | some next => h.climb? among fuel next

def depth (h : ClassTable) : Nat := h.supers.size + 2

def common? (h : ClassTable) (a b : Text) : Option Text :=
  if h.interfaces.contains a ∨ h.interfaces.contains b then some objectName
  else
    match h.chain? h.depth a with
    | none => none
    | some above => h.climb? above h.depth b

end ClassTable

structure DefinedClass where
  name : Text
  super : Text
  isInterface : Bool
deriving DecidableEq, Repr, Inhabited

inductive Hierarchy where
  | unknown
  | table (classes : ClassTable)
  | defining (base : Hierarchy) (defined : DefinedClass)
deriving Inhabited

namespace Hierarchy

def isKnown : Hierarchy → Bool
  | unknown => false
  | _ => true

def otherOf? (name a b : Text) : Option Text :=
  if name = a then some b else if name = b then some a else none

def common? : Hierarchy → Text → Text → Option Text
  | unknown, _, _ => none
  | table classes, a, b => classes.common? a b
  | defining base d, a, b =>
    match base.common? a b with
    | some c => some c
    | none =>
      match otherOf? d.name a b with
      | none => none
      | some other =>
        if other = d.name then some other
        else if d.isInterface then some objectName
        else if other = d.super then some other
        else base.common? d.super other

def depth : Hierarchy → Nat
  | unknown => 2
  | table classes => classes.depth
  | defining base _ => base.depth + 1

end Hierarchy

end ClassAssembler
