import Std.Data.HashSet
import ClassAssembler.Method.Widen

/-!
# Classes under construction

A class collects its header, fields, methods, annotations and tables.  Each part takes events until
it is ended; a later event is a failure, and after a failure no event has an effect.
-/

namespace ClassAssembler

structure Field where
  access : Flags
  nameIndex : Nat
  descIndex : Nat
  signature : Text
  /-- The index of its constant value, zero if it has none. -/
  valueIndex : Nat := 0
  annotations : AnnotationLists := {}
  attributes : Array RawAttribute := #[]
  isEnded : Bool := false
deriving Inhabited

abbrev FieldId := Nat

abbrev MethodId := Nat

structure ClassBody where
  compute : Compute := .nothing
  access : Flags := 0
  thisIndex : Nat := 0
  signatureIndex : Nat := 0
  superIndex : Nat := 0
  interfaces : List Nat := []
  sourceIndex : Nat := 0
  sourceDebug : Option (List UInt8) := none
  outerIndex : Nat := 0
  outerMethodIndex : Nat := 0
  annotations : AnnotationLists := {}
  attributes : Array RawAttribute := #[]
  inner : Option Buffer := none
  innerCount : Nat := 0
  innerNames : Std.HashSet Text := {}
  fields : Array Field := #[]
  /-- All methods, and the places of those that are written, in order.  A method that is written
  again keeps its place, and what replaces it gets a new one. -/
  methods : Array Method := #[]
  written : Array MethodId := #[]
  store : AnnotationStore := {}
  isEnded : Bool := false
deriving Inhabited

abbrev ClassM := StateT ClassBody SessionM

inductive Element where
  | body
  | field (f : FieldId)
  | method (m : MethodId)
deriving DecidableEq, Repr, Inhabited

namespace ClassM

def isOpen (op : String) (isEnded : Bool) : PoolM Bool := do
  if ← PoolM.hasFailed then return false
  else if isEnded then
    PoolM.fail .visitAfterEnd op [.string (Text.ofString op)]
    return false
  else return true

def isLive (op : String) : ClassM Bool := do
  let ended := (← get).isEnded
  isOpen op ended

def field (f : FieldId) : ClassM Field := do
  match (← get).fields[f]? with
  | some field => return field
  | none => throw .missing

def modifyField (f : FieldId) (change : Field → Field) : ClassM Unit :=
  modify fun c => { c with fields := c.fields.modify f change }

@[inline] def onMethod {α : Type} (m : MethodId) (act : MethodM α) : ClassM α := do
  match (← get).methods[m]? with
  | none => throw .missing
  | some method =>
    -- the stored method is put aside, so that its arrays have one owner
    modify fun c => { c with methods := c.methods.setIfInBounds m default }
    let (a, changed) ← act.run method
    modify fun c => { c with methods := c.methods.setIfInBounds m changed }
    return a

@[inline] def onAnnotations {α : Type} (act : AnnotationM α) : ClassM α := do
  let store ← modifyGet fun c => (c.store, { c with store := {} })
  let (a, changed) ← act.run store
  modify fun c => { c with store := changed }
  return a

/-! ## The header and the tables of the class -/

def isSupported (major : Int) : Bool := 45 ≤ major && major ≤ 52

/-- The header of the class: major version in the low sixteen bits of `version` and minor version
in the next sixteen, flags and names. -/
def header (version access : Int) (name signature super : Text) (interfaces : List Text) :
    ClassM Unit := do
  if ← isLive "Visit" then
    let major := version % 65536
    if !isSupported major then
      PoolM.fail .badVersion "Visit" [.int major, .int (version / 65536 % 65536)]
    else
      modifyThe Session fun s => { s with version, thisName := name }
      let thisIndex ← PoolM.classRef name
      modify fun c => { c with access := .ofInt access, thisIndex }
      unless signature.isEmpty do
        let signatureIndex ← PoolM.utf8 signature
        modify fun c => { c with signatureIndex }
      unless super.isEmpty do
        let superIndex ← PoolM.classRef super
        modify fun c => { c with superIndex }
      let interfaces ← MethodM.classRefs interfaces
      modify fun c => { c with interfaces }

def source (file debug : Text) : ClassM Unit := do
  if ← isLive "VisitSource" then
    unless file.isEmpty do
      let sourceIndex ← PoolM.utf8 file
      modify fun c => { c with sourceIndex }
    unless debug.isEmpty do
      modify fun c => { c with sourceDebug := some debug.modifiedUtf8 }

def outerClass (owner name desc : Text) : ClassM Unit := do
  if ← isLive "VisitOuterClass" then
    let outerIndex ← PoolM.classRef owner
    modify fun c => { c with outerIndex }
    unless name.isEmpty ∨ desc.isEmpty do
      let outerMethodIndex ← PoolM.nameAndType name desc
      modify fun c => { c with outerMethodIndex }

def innerClass (name outer inner : Text) (access : Int) : ClassM Unit := do
  if ← isLive "VisitInnerClass" then
    modify fun c => { c with inner := some (c.inner.getD {}) }
    let n ← PoolM.classRef name
    unless (← get).innerNames.contains name do
      let o ← if outer.isEmpty then pure 0 else PoolM.classRef outer
      let i ← if inner.isEmpty then pure 0 else PoolM.utf8 inner
      modify fun c =>
        { c with
          innerNames := c.innerNames.insert name
          innerCount := c.innerCount + 1
          inner := c.inner.map fun b => (((b.putShort n).putShort o).putShort i).putShort access }

def newField (access : Int) (name desc signature : Text) (value : Value) :
    ClassM (Option FieldId) := do
  if ← isLive "VisitField" then
    let nameIndex ← PoolM.utf8 name
    let descIndex ← PoolM.utf8 desc
    unless signature.isEmpty do
      discard <| PoolM.utf8 signature
    let valueIndex ← if value = .nil then pure 0 else PoolM.value value
    let id := (← get).fields.size
    let f : Field := { access := .ofInt access, nameIndex, descIndex, signature, valueIndex }
    modify fun c => { c with fields := c.fields.push f }
    return some id
  else return none

def newMethod (access : Int) (name desc signature : Text) (exceptions : List Text) :
    ClassM (Option MethodId) := do
  if ← isLive "VisitMethod" then
    let compute := (← get).compute
    let m ← Method.create compute access name desc signature exceptions
    let id := (← get).methods.size
    modify fun c => { c with methods := c.methods.push m, written := c.written.push id }
    return some id
  else return none

/-! ## Parts of elements -/

def isElementLive (op : String) : Element → ClassM Bool
  | .body => isLive op
  | .field f => do
    let field ← field f
    isOpen op field.isEnded
  | .method m => onMethod m (MethodM.isLive op)

def modifyAnnotations (change : AnnotationLists → AnnotationLists) : Element → ClassM Unit
  | .body => modify fun c => { c with annotations := change c.annotations }
  | .field f => modifyField f fun f => { f with annotations := change f.annotations }
  | .method m => onMethod m <| modify fun m => { m with annotations := change m.annotations }

def newAnnotationOn (e : Element) (desc : Text) (isVisible : Bool) :
    ClassM (Option AnnotationId) := do
  if ← isElementLive "VisitAnnotation" e then
    let id ← onAnnotations (AnnotationM.newTop desc)
    modifyAnnotations (fun l =>
      if isVisible then { l with visible := l.visible.push id }
      else { l with invisible := l.invisible.push id }) e
    return some id
  else return none

def newTypeAnnotationOn (e : Element) (ref : Int) (path : Option TypePath) (desc : Text)
    (isVisible : Bool) : ClassM (Option AnnotationId) := do
  if ← isElementLive "VisitTypeAnnotation" e then
    let id ← onAnnotations (AnnotationM.newOnType ref path desc)
    modifyAnnotations (fun l =>
      if isVisible then { l with visibleTypes := l.visibleTypes.push id }
      else { l with invisibleTypes := l.invisibleTypes.push id }) e
    return some id
  else return none

def newDefaultOf (m : MethodId) : ClassM (Option AnnotationId) := do
  if ← isElementLive "VisitAnnotationDefault" (.method m) then
    let id ← onAnnotations AnnotationM.newValue
    onMethod m <| modify fun m => { m with defaultValue := some id }
    return some id
  else return none

def hiddenMark : Text := "Ljava/lang/Synthetic;"

def addToParameter (count i : Nat) (id : AnnotationId) (lists : Option (Array (Array Nat))) :
    Option (Array (Array Nat)) :=
  some ((lists.getD (Array.replicate count #[])).modify i (·.push id))

def newParameterAnnotation (m : MethodId) (i : Int) (desc : Text) (isVisible : Bool) :
    ClassM (Option AnnotationId) := do
  let op := "VisitParameterAnnotation"
  if ← isElementLive op (.method m) then
    let methodDesc ← onMethod m (return (← get).desc)
    let count := (← JavaType.argumentTypes methodDesc).length
    if i < 0 ∨ count ≤ i then
      PoolM.fail .badArgument op [.string "parameter index"]
      return none
    else if desc = hiddenMark then
      onMethod m <| modify fun m =>
        { m with hiddenParameters := max m.hiddenParameters (i.toNat + 1) }
      return some (← onAnnotations AnnotationM.newValue)
    else
      let id ← onAnnotations (AnnotationM.newTop desc)
      onMethod m <| modify fun m =>
        if isVisible then
          { m with visibleParameters := addToParameter count i.toNat id m.visibleParameters }
        else
          { m with invisibleParameters := addToParameter count i.toNat id m.invisibleParameters }
      return some id
  else return none

def addAttribute (e : Element) (a : RawAttribute) (ofCode : Bool) : ClassM Unit := do
  match e with
  | .method m => onMethod m (MethodM.addAttribute a ofCode)
  | .field f =>
    if ← isElementLive "VisitAttribute" e then
      modifyField f fun f => { f with attributes := f.attributes.push a }
  | .body =>
    if ← isLive "VisitAttribute" then
      modify fun c => { c with attributes := c.attributes.push a }

def finish (e : Element) : ClassM Unit := do
  match e with
  | .method m => onMethod m MethodM.finish
  | .field f =>
    if ← isElementLive "VisitEnd" e then
      modifyField f fun f => { f with isEnded := true }
  | .body =>
    if ← isLive "VisitEnd" then
      modify fun c => { c with isEnded := true }

end ClassM

end ClassAssembler
