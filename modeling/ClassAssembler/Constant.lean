import ClassAssembler.Text.Basic

/-!
# Constants

Two entries of a pool are the same constant exactly when they are equal here; floating-point
constants are their bits.
-/

namespace ClassAssembler

inductive Constant where
  | utf8 (text : Text)
  | integer (v : Int32)
  | float (bits : UInt32)
  | long (v : Int64)
  | double (bits : UInt64)
  | classRef (name : Text)
  | string (text : Text)
  | fieldRef (owner name desc : Text)
  | methodRef (owner name desc : Text)
  | interfaceMethodRef (owner name desc : Text)
  | nameAndType (name desc : Text)
  | methodHandle (kind : Nat) (owner name desc : Text) (ofInterface : Bool)
  | methodType (desc : Text)
  | invokeDynamic (name desc : Text) (bootstrap : Nat)
deriving DecidableEq, Hashable, Repr, Inhabited

namespace Constant

def tag : Constant → Nat
  | utf8 _ => 1
  | integer _ => 3
  | float _ => 4
  | long _ => 5
  | double _ => 6
  | classRef _ => 7
  | string _ => 8
  | fieldRef .. => 9
  | methodRef .. => 10
  | interfaceMethodRef .. => 11
  | nameAndType .. => 12
  | methodHandle .. => 15
  | methodType _ => 16
  | invokeDynamic .. => 18

def width : Constant → Nat
  | long _ | double _ => 2
  | _ => 1

def isWide (c : Constant) : Bool := c.width == 2

def first : Constant → Text
  | utf8 t | classRef t | string t | methodType t => t
  | fieldRef o _ _ | methodRef o _ _ | interfaceMethodRef o _ _ | methodHandle _ o _ _ _ => o
  | nameAndType n _ | invokeDynamic n _ _ => n
  | _ => []

def second : Constant → Text
  | fieldRef _ n _ | methodRef _ n _ | interfaceMethodRef _ n _ | methodHandle _ _ n _ _ => n
  | nameAndType _ d | invokeDynamic _ d _ => d
  | _ => []

def third : Constant → Text
  | fieldRef _ _ d | methodRef _ _ d | interfaceMethodRef _ _ d | methodHandle _ _ _ d _ => d
  | _ => []

end Constant

end ClassAssembler
