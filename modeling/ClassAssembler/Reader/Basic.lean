import ClassAssembler.Text.Basic

/-!
# Reading bytes

Reading beyond the limit of a cursor is an error of the bytes, which is kept apart from a fault of
the reading itself.
-/

namespace ClassAssembler

inductive ReadError where
  | malformed
  | unknownAttribute (name : Text)
  | fault (f : Fault)
deriving DecidableEq, Repr, Inhabited

structure Cursor where
  bytes : Array UInt8
  position : Nat := 0
  limit : Nat := bytes.size
deriving Inhabited

abbrev ReadM := StateT Cursor (Except ReadError)

namespace ReadM

def malformed {α : Type} : ReadM α := throw .malformed

def checked {α : Type} : Checked α → ReadM α
  | .ok a => return a
  | .error f => throw (.fault f)

def u1 : ReadM Nat := do
  let c ← get
  if c.position < c.limit then
    set { c with position := c.position + 1 }
    return (c.bytes.getD c.position 0).toNat
  else malformed

def u2 : ReadM Nat := do
  let high ← u1
  return high * 256 + (← u1)

def u4 : ReadM Nat := do
  let high ← u2
  return high * 65536 + (← u2)

def take (n : Nat) : ReadM (Array UInt8) := do
  let c ← get
  if c.position + n ≤ c.limit then
    set { c with position := c.position + n }
    return c.bytes.extract c.position (c.position + n)
  else malformed

def skip (n : Nat) : ReadM Unit := do
  let c ← get
  if c.position + n ≤ c.limit then set { c with position := c.position + n } else malformed

def timesFrom {α : Type} (r : ReadM α) : Nat → Array α → ReadM (Array α)
  | 0, done => return done
  | n + 1, done => do
    let a ← r
    timesFrom r n (done.push a)

def times {α : Type} (n : Nat) (r : ReadM α) : ReadM (List α) :=
  return (← timesFrom r n #[]).toList

def counted {α : Type} (r : ReadM α) : ReadM (List α) := do
  let n ← u2
  times n r

def skipCounted (size : Nat) : ReadM Unit := do
  let n ← u2
  skip (n * size)

def within {α : Type} (length : Nat) (r : ReadM α) : ReadM α := do
  let c ← get
  let stop := c.position + length
  if stop ≤ c.limit then
    set { c with limit := stop }
    let a ← r
    set { c with position := stop }
    return a
  else malformed

def remaining : ReadM Nat := do
  let c ← get
  return c.limit - c.position

end ReadM

end ClassAssembler
