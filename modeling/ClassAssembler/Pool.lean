import ClassAssembler.Buffer
import ClassAssembler.Failure
import ClassAssembler.SymbolTable

/-!
# Constant pools

A pool gives every constant one index and never moves it; a new one is written behind the constants
it refers to.  Indices start at one, and a long or a double takes two.  The pool also keeps the first
failure met while a class is assembled, because everything that writes a class works on it.
-/

namespace ClassAssembler

namespace Buffer

def failure? (b : Buffer) : Option Failure :=
  b.tooLong.map fun n => ⟨.textTooLong, "PutUTF8", [.int n]⟩

end Buffer

structure Pool where
  entries : Array (Option Constant) := #[none]
  symbolTable : SymbolTable := {}
  bytes : Buffer := {}
  bootstrapBytes : Buffer := {}
  bootstrapCount : Nat := 0
  failure : Option Failure := none
deriving Inhabited

abbrev PoolM := StateT Pool (Except Fault)

namespace Pool

/-- The largest number of indices, the empty index zero included. -/
def maxCount : Nat := 0xFFFF

def count (p : Pool) : Nat := p.entries.size

def at? (p : Pool) (i : Nat) : Option Constant := (p.entries[i]?).join

def index? (p : Pool) (c : Constant) : Option Nat := p.symbolTable.get? c.key

/-- The bytes of the bootstrap methods from a position on. -/
def bootstrapFrom (p : Pool) (start : Nat) : List UInt8 :=
  (p.bootstrapBytes.bytes.extract start).toList

/-- The number of a bootstrap method whose bytes are those from a position on. -/
def sameBootstrap? (p : Pool) (start : Nat) : Option Nat :=
  let new := p.bootstrapFrom start
  let hash := (TableKey.ofBootstrap new start).hash
  p.symbolTable.find? hash fun k => k.kind == TableKey.bootstrap && k.hash == hash &&
    (p.bootstrapBytes.bytes.extract k.number.toNat (k.number.toNat + new.length)).toList == new

def recordFailure (p : Pool) (f : Failure) : Pool :=
  match p.failure with
  | some _ => p
  | none => { p with failure := some f }

end Pool

namespace PoolM

def fail (cause : Cause) (op : String) (args : List Value := []) : PoolM Unit :=
  modify fun p => p.recordFailure ⟨cause, Text.ofString op, args⟩

def hasFailed : PoolM Bool := return (← get).failure.isSome

def register (c : Constant) : PoolM Nat := do
  let i := (← get).entries.size
  modify fun p =>
    let entries := if c.isWide then (p.entries.push (some c)).push none else p.entries.push (some c)
    { p with entries, symbolTable := p.symbolTable.put c.key i entries.size }
  if (← get).entries.size > Pool.maxCount then
    fail .poolTooLarge "ConstantPool"
  return i

def index? (c : Constant) : PoolM (Option Nat) := return (← get).index? c

@[inline] def intern (c : Constant) (write : PoolM Unit) : PoolM Nat := do
  match ← index? c with
  | some i => return i
  | none =>
    write
    register c

@[inline] def emit (f : Buffer → Buffer) : PoolM Unit :=
  modify fun p => { p with bytes := f p.bytes }

def utf8 (t : Text) : PoolM Nat :=
  intern (.utf8 t) (emit fun b => (b.putByte 1).putText t)

def classRef (name : Text) : PoolM Nat :=
  intern (.classRef name) do
    let i ← utf8 name
    emit fun b => b.putTagged 7 i

def string (t : Text) : PoolM Nat :=
  intern (.string t) do
    let i ← utf8 t
    emit fun b => b.putTagged 8 i

def methodType (desc : Text) : PoolM Nat :=
  intern (.methodType desc) do
    let i ← utf8 desc
    emit fun b => b.putTagged 16 i

def nameAndType (name desc : Text) : PoolM Nat :=
  intern (.nameAndType name desc) do
    let n ← utf8 name
    let d ← utf8 desc
    emit fun b => (b.putTagged 12 n).putShort d

def emitMember (tag : Nat) (owner name desc : Text) : PoolM Unit := do
  let c ← classRef owner
  let nt ← nameAndType name desc
  emit fun b => (b.putTagged tag c).putShort nt

def fieldRef (owner name desc : Text) : PoolM Nat :=
  intern (.fieldRef owner name desc) (emitMember 9 owner name desc)

def methodConstant (owner name desc : Text) (ofInterface : Bool) : Constant :=
  if ofInterface then .interfaceMethodRef owner name desc else .methodRef owner name desc

def methodRef (owner name desc : Text) (ofInterface : Bool) : PoolM Nat :=
  let c := methodConstant owner name desc ofInterface
  intern c (emitMember c.tag owner name desc)

def integer (v : Int32) : PoolM Nat :=
  intern (.integer v) (emit fun b => (b.putByte 3).putInt v.toInt)

def float (bits : UInt32) : PoolM Nat :=
  intern (.float bits) (emit fun b => (b.putByte 4).putInt bits.toNat)

def long (v : Int64) : PoolM Nat :=
  intern (.long v) (emit fun b => (b.putByte 5).putLong v.toInt)

def double (bits : UInt64) : PoolM Nat :=
  intern (.double bits) (emit fun b => (b.putByte 6).putLong bits.toNat)

/-- The handle that is registered for a handle: a kind out of range is a failure and counts as a
static call. -/
def admitHandle (h : Handle) : PoolM Handle := do
  if h.kind < Handle.getField ∨ Handle.invokeInterface < h.kind then
    fail .badArgument "NewHandle" [.string "handle tag"]
    return { h with kind := Handle.invokeStatic }
  else return h

def handleConstant (h : Handle) : Constant :=
  .methodHandle h.kind.toNat h.owner h.name h.desc h.ofInterface

def handleEntry (h : Handle) : PoolM (Nat × Constant) := do
  let h ← admitHandle h
  let c := handleConstant h
  let i ← intern c do
    let ref ←
      if h.kind ≤ Handle.putStatic then fieldRef h.owner h.name h.desc
      else methodRef h.owner h.name h.desc h.ofInterface
    emit fun b => (b.putPair 15 h.kind).putShort ref
  return (i, c)

def methodHandle (h : Handle) : PoolM Nat := return (← handleEntry h).1

def valueEntry (v : Value) : PoolM (Option (Nat × Constant)) := do
  let whole (n : Int) : PoolM (Option (Nat × Constant)) := do
    let n := Int32.ofInt n
    return some (← integer n, .integer n)
  match v with
  | .int32 v => whole v.toInt
  | .int v => whole v
  | .int8 v => whole v.toInt
  | .int16 v => whole v.toInt
  | .char v => whole v.toNat
  | .bool v => whole (if v then 1 else 0)
  | .float32 bits => return some (← float bits, .float bits)
  | .int64 v => return some (← long v, .long v)
  | .float64 bits => return some (← double bits, .double bits)
  | .string t => return some (← string t, .string t)
  | .type t =>
    match t.sort with
    | .object =>
      let name ← t.internalName
      return some (← classRef name, .classRef name)
    | .method => return some (← methodType t.desc, .methodType t.desc)
    | _ => return some (← classRef t.desc, .classRef t.desc)
  | .handle h => return some (← handleEntry h)
  | v =>
    fail .badConstant "NewConst" [v]
    return none

def value (v : Value) : PoolM Nat := do
  match ← valueEntry v with
  | some (i, _) => return i
  | none => return 0

def values : List Value → PoolM (List Nat)
  | [] => return []
  | v :: vs => do
    let i ← value v
    return i :: (← values vs)

/-- Appends the words of a bootstrap method and takes them back if there is one with these bytes. -/
def bootstrap (method : Handle) (args : List Value) : PoolM Nat := do
  let m ← methodHandle method
  let is ← values args
  let words := (m :: is.length :: is).map UInt16.ofNat
  let old := (← get).bootstrapBytes
  modify fun p => { p with bootstrapBytes := words.foldl (fun b w => b.putShort w.toNat) old }
  match (← get).sameBootstrap? old.size with
  | some n =>
    modify fun p => { p with bootstrapBytes := old }
    return n
  | none =>
    let n := (← get).bootstrapCount
    modify fun p =>
      { p with
        bootstrapCount := n + 1
        symbolTable := p.symbolTable.put (.ofBootstrap (p.bootstrapFrom old.size) old.size) n p.entries.size }
    return n

def dynamicEntry (name desc : Text) (method : Handle) (args : List Value) :
    PoolM (Nat × Constant) := do
  let n ← bootstrap method args
  let c := Constant.invokeDynamic name desc n
  let i ← intern c do
    let nt ← nameAndType name desc
    emit fun b => (b.putTagged 18 n).putShort nt
  return (i, c)

end PoolM

end ClassAssembler
