import ClassAssembler.Session
import ClassAssembler.TypePath

/-!
# Annotations

An annotation is written while its elements arrive; nested annotations and arrays go to the same
bytes.  The count of a list of elements is filled in when the list is ended.
-/

namespace ClassAssembler

abbrev AnnotationId := Nat

structure ElementList where
  body : Nat
  isNamed : Bool
  size : Nat := 0
  countAt : Option Nat := none
deriving DecidableEq, Repr, Inhabited

structure AnnotationStore where
  bodies : Array Buffer := #[]
  lists : Array ElementList := #[]
deriving Inhabited

abbrev AnnotationM := StateT AnnotationStore SessionM

namespace AnnotationStore

def listAt (s : AnnotationStore) (id : AnnotationId) : ElementList := (s.lists[id]?).getD default

def bytesOf (s : AnnotationStore) (id : AnnotationId) : Buffer :=
  let l := s.listAt id
  let b := (s.bodies[l.body]?).getD {}
  match l.countAt with
  | some i => b.setShort i l.size
  | none => b

end AnnotationStore

namespace AnnotationM

def newList (l : ElementList) : AnnotationM AnnotationId := do
  let id := (← get).lists.size
  modify fun s => { s with lists := s.lists.push l }
  return id

def newBody (b : Buffer) : AnnotationM Nat := do
  let body := (← get).bodies.size
  modify fun s => { s with bodies := s.bodies.push b }
  return body

@[inline] def emit (body : Nat) (f : Buffer → Buffer) : AnnotationM Unit :=
  modify fun s => { s with bodies := s.bodies.modify body f }

def annotationBehind (b : Buffer) (desc : Text) : AnnotationM AnnotationId := do
  let i ← PoolM.utf8 desc
  let b := (b.putShort i).putShort 0
  let body ← newBody b
  newList { body, isNamed := true, countAt := some (b.size - 2) }

def newTop (desc : Text) : AnnotationM AnnotationId := annotationBehind {} desc

/-- Appends the target of an annotation on a type: the kind in the highest byte of the reference
decides what follows it. -/
def putTarget (ref : Int) (b : Buffer) : Buffer :=
  let word := ref % 0x100000000
  let kind := word / 0x1000000
  if kind = 0x00 ∨ kind = 0x01 ∨ kind = 0x16 then b.putShort (word / 0x10000)
  else if 0x13 ≤ kind ∧ kind ≤ 0x15 then b.putByte kind
  else if 0x47 ≤ kind ∧ kind ≤ 0x4B then b.putInt ref
  else b.putTagged kind (word % 0x1000000 / 0x100)

def newOnType (ref : Int) (path : Option TypePath) (desc : Text) : AnnotationM AnnotationId :=
  annotationBehind (TypePath.put path (putTarget ref {})) desc

def newValue : AnnotationM AnnotationId := do
  newList { body := ← newBody {}, isNamed := false }

def openElement (id : AnnotationId) (name : Text) : AnnotationM Nat := do
  let l := (← get).listAt id
  modify fun s => { s with lists := s.lists.modify id fun l => { l with size := l.size + 1 } }
  if l.isNamed then
    let n ← PoolM.utf8 name
    emit l.body fun b => b.putShort n
  return l.body

def scalar? (v : Value) : Option (Char × PoolM Nat) :=
  let whole (n : Int) : PoolM Nat := PoolM.integer (Int32.ofInt n)
  match v with
  | .string t => some ('s', PoolM.utf8 t)
  | .int8 n => some ('B', whole n.toInt)
  | .bool b => some ('Z', whole (if b then 1 else 0))
  | .char n => some ('C', whole n.toNat)
  | .int16 n => some ('S', whole n.toInt)
  | .int32 n => some ('I', whole n.toInt)
  | .int n => some ('I', whole n)
  | .int64 n => some ('J', PoolM.long n)
  | .float32 bits => some ('F', PoolM.float bits)
  | .float64 bits => some ('D', PoolM.double bits)
  | .type t => some ('c', PoolM.utf8 t.desc)
  | _ => none

def arrayElements? : Value → Option (List Value)
  | .bytes vs => some (vs.map fun v => .int8 v.toInt8)
  | .int8s vs => some (vs.map .int8)
  | .bools vs => some (vs.map .bool)
  | .int16s vs => some (vs.map .int16)
  | .chars vs => some (vs.map .char)
  | .int32s vs => some (vs.map .int32)
  | .int64s vs => some (vs.map .int64)
  | .float32s vs => some (vs.map .float32)
  | .float64s vs => some (vs.map .float64)
  | _ => none

def putScalar (body : Nat) (v : Value) : AnnotationM Unit := do
  let (tag, index) ←
    match scalar? v with
    | some (tag, index) => do
      let i ← index
      pure (tag, i)
    | none =>
      PoolM.fail .badElement "AnnotationVisitor.Visit" [v]
      let i ← PoolM.integer 0
      pure ('I', i)
  emit body fun b => b.putTagged tag.toNat index

def putScalars (body : Nat) : List Value → AnnotationM Unit
  | [] => return
  | v :: vs => do
    putScalar body v
    putScalars body vs

def element (id : AnnotationId) (name : Text) (v : Value) : AnnotationM Unit := do
  let body ← openElement id name
  match arrayElements? v with
  | some vs =>
    emit body fun b => b.putTagged JavaType.bracket.toNat vs.length
    putScalars body vs
  | none => putScalar body v

def enumConstant (id : AnnotationId) (name desc value : Text) : AnnotationM Unit := do
  let body ← openElement id name
  let d ← PoolM.utf8 desc
  let v ← PoolM.utf8 value
  emit body fun b => (b.putTagged 'e'.toNat d).putShort v

def listBehind (body : Nat) (isNamed : Bool) : AnnotationM AnnotationId := do
  let size := ((← get).bodies[body]?.map Buffer.size).getD 0
  newList { body, isNamed, countAt := some (size - 2) }

def nested (id : AnnotationId) (name desc : Text) : AnnotationM AnnotationId := do
  let body ← openElement id name
  let d ← PoolM.utf8 desc
  emit body fun b => (b.putTagged '@'.toNat d).putShort 0
  listBehind body true

def array (id : AnnotationId) (name : Text) : AnnotationM AnnotationId := do
  let body ← openElement id name
  emit body fun b => b.putTagged JavaType.bracket.toNat 0
  listBehind body false

def finish (id : AnnotationId) : AnnotationM Unit := do
  let l := (← get).listAt id
  if let some i := l.countAt then
    emit l.body fun b => b.setShort i l.size

end AnnotationM

end ClassAssembler
