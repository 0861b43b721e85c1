import ClassAssembler.Reader.Basic

/-!
# Constant pools of class files

The entries refer to each other by index.  An index may point anywhere, so looking up a name can
find nothing.
-/

namespace ClassAssembler

inductive PoolEntry where
  | utf8 (t : Text)
  | integer (v : Int)
  | float (bits : Nat)
  | long (v : Int)
  | classRef (name : Nat)
  | string (text : Nat)
  | member (owner nameAndType : Nat)
  | nameAndType (name desc : Nat)
  | invokeDynamic (bootstrap nameAndType : Nat)
  | other
deriving DecidableEq, Repr, Inhabited

structure ReadPool where
  slots : Array (Option PoolEntry) := #[]
deriving Inhabited

namespace ReadPool

def size (p : ReadPool) : Nat := p.slots.size

def entry? (p : ReadPool) (i : Nat) : Option PoolEntry :=
  if i = 0 then none else (p.slots[i - 1]?).join

def utf8? (p : ReadPool) (i : Nat) : Checked (Option Text) :=
  if i = p.size + 1 then .error .outOfRange
  else
    match p.entry? i with
    | some (.utf8 t) => .ok (some t)
    | _ => .ok none

def className? (p : ReadPool) (i : Nat) : Checked (Option Text) :=
  match p.entry? i with
  | some (.classRef name) => p.utf8? name
  | _ => .ok none

end ReadPool

namespace ReadM

def poolEntry : ReadM (PoolEntry × Bool) := do
  match ← u1 with
  | 1 =>
    let n ← u2
    return (.utf8 (← take n).toList, false)
  | 3 => return (.integer (Int.bmod (← u4) 0x100000000), false)
  | 4 => return (.float (← u4), false)
  | 5 =>
    let high ← u4
    let low ← u4
    return (.long (Int.bmod (high * 0x100000000 + low) 0x10000000000000000), true)
  | 6 =>
    skip 8
    return (.other, true)
  | 7 => return (.classRef (← u2), false)
  | 8 => return (.string (← u2), false)
  | 9 | 10 | 11 =>
    let owner ← u2
    return (.member owner (← u2), false)
  | 12 =>
    let name ← u2
    return (.nameAndType name (← u2), false)
  | 15 =>
    skip 3
    return (.other, false)
  | 16 | 19 | 20 =>
    skip 2
    return (.other, false)
  | 17 =>
    skip 4
    return (.other, false)
  | 18 =>
    let bootstrap ← u2
    return (.invokeDynamic bootstrap (← u2), false)
  | _ => malformed

def poolSlots : Nat → Array (Option PoolEntry) → ReadM (Array (Option PoolEntry))
  | 0, slots => return slots
  | 1, slots => do
    let (e, _) ← poolEntry
    return slots.push (some e)
  | n + 2, slots => do
    let (e, isWide) ← poolEntry
    if isWide then poolSlots n ((slots.push (some e)).push none)
    else poolSlots (n + 1) (slots.push (some e))

def pool : ReadM ReadPool := do
  let count ← u2
  return { slots := ← poolSlots (count - 1) #[] }

end ReadM

end ClassAssembler
