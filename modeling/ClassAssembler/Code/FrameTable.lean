import ClassAssembler.Code.Decode

/-!
# Reading stack maps

The frames in the bytes of a stack map, each with all its local variables and its stack.
-/

namespace ClassAssembler

structure TableFrame where
  offset : Int
  locals : List (FrameItem Int)
  stack : List (FrameItem Int)
deriving Inhabited

namespace TableFrame

abbrev Reading := StateT (List UInt8) (Except Fault)

def byte : Reading Nat := do
  match ← get with
  | b :: rest =>
    set rest
    return b.toNat
  | [] => throw .outOfRange

def short : Reading Nat := do
  let high ← byte
  let low ← byte
  return high * 256 + low

def item (pool : Pool) : Reading (FrameItem Int) := do
  let tag ← byte
  match tag with
  | 7 => return .name (← pool.fetch (← short)).first
  | 8 => return .created (← short)
  | _ => return .number tag

def items (pool : Pool) : Nat → Reading (List (FrameItem Int))
  | 0 => return []
  | n + 1 => do
    let i ← item pool
    return i :: (← items pool n)

def countedItems (pool : Pool) : Reading (List (FrameItem Int)) := do
  items pool (← short)

def full (pool : Pool) : Reading TableFrame := do
  let offset ← short
  let locals ← countedItems pool
  let stack ← countedItems pool
  return { offset, locals, stack }

def difference (pool : Pool) (before : List (FrameItem Int)) : Reading TableFrame := do
  let tag ← byte
  if tag < 64 then return { offset := tag, locals := before, stack := [] }
  else if tag < 128 then
    return { offset := (tag : Int) - 64, locals := before, stack := ← items pool 1 }
  else if tag < 247 ∨ tag = 255 then full pool
  else
    let offset ← short
    if tag = 247 then return { offset, locals := before, stack := ← items pool 1 }
    else if tag < 251 then
      let n := 251 - tag
      if before.length < n then throw .outOfRange
      return { offset, locals := before.take (before.length - n), stack := [] }
    else
      return { offset, locals := before ++ (← items pool (tag - 251)), stack := [] }

def readFull (pool : Pool) : Nat → Reading (List TableFrame)
  | 0 => return []
  | n + 1 => do
    let f ← full pool
    return f :: (← readFull pool n)

def readDifferences (pool : Pool) :
    Nat → List (FrameItem Int) → Int → Reading (List TableFrame)
  | 0, _, _ => return []
  | n + 1, before, offset => do
    let f ← difference pool before
    let offset := offset + f.offset + 1
    return { f with offset } :: (← readDifferences pool n f.locals offset)

end TableFrame

end ClassAssembler
