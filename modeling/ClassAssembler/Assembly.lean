import ClassAssembler.Sizing

/-!
# Assembling a class

Methods with pending jumps are written again first.  Then the class is sized, which completes the
pool, and every part of it becomes a part of the class file.
-/

namespace ClassAssembler

namespace Attribute

@[inline] def make (wanted : Bool) (name : String) (length : Int) (content : PoolM Buffer) :
    PoolM (List Attribute) := do
  if wanted then
    let nameIndex ← PoolM.utf8 (Text.ofString name)
    let content ← content
    return [{ nameIndex, length, content }]
  else return []

def ofIndex (name : String) (i : Nat) : PoolM (List Attribute) :=
  make (i != 0) name 2 (return Buffer.putShort {} i)

def marker (name : String) (wanted : Bool) : PoolM (List Attribute) :=
  make wanted name 0 (return {})

def ofSignature (t : Text) : PoolM (List Attribute) :=
  make (!t.isEmpty) "Signature" 2 do
    let i ← PoolM.utf8 t
    return Buffer.putShort {} i

def ofRaw : List RawAttribute → PoolM (List Attribute)
  | [] => return []
  | a :: as => do
    let nameIndex ← PoolM.utf8 a.name
    let rest ← ofRaw as
    let content := Buffer.putList {} a.content
    return { nameIndex, length := a.content.length, content } :: rest

def ofAnnotations (store : AnnotationStore) (name : String) (ids : Array AnnotationId) :
    PoolM (List Attribute) :=
  make (!ids.isEmpty) name (2 + store.sizeAll ids)
    (return ids.foldl (fun b id => b.append (store.bytesOf id)) (Buffer.putShort {} ids.size))

def ofAnnotationLists (store : AnnotationStore) (l : AnnotationLists) : PoolM (List Attribute) := do
  let visible ← ofAnnotations store "RuntimeVisibleAnnotations" l.visible
  let invisible ← ofAnnotations store "RuntimeInvisibleAnnotations" l.invisible
  let visibleTypes ← ofAnnotations store "RuntimeVisibleTypeAnnotations" l.visibleTypes
  let invisibleTypes ← ofAnnotations store "RuntimeInvisibleTypeAnnotations" l.invisibleTypes
  return visible ++ invisible ++ visibleTypes ++ invisibleTypes

/-- The annotations of the parameters of a method.  More parameters may be hidden than there are
lists. -/
def ofParameters (store : AnnotationStore) (name : String) (hidden : Nat)
    (lists : Option (Array (Array AnnotationId))) : PoolM (List Attribute) :=
  match lists with
  | none => return []
  | some lists =>
    let shown := lists.toList.drop hidden
    let putList (b : Buffer) (ids : Array AnnotationId) : Buffer :=
      ids.foldl (fun b id => b.append (store.bytesOf id)) (b.putShort ids.size)
    make true name (parametersSize store hidden lists)
      (return shown.foldl putList (Buffer.putByte {} (lists.size - hidden)))

end Attribute

namespace Field

def attributeCount (f : Field) (major : Int) : Nat :=
  Attribute.count ([f.valueIndex != 0, Access.wantsSyntheticAttribute f.access major,
    f.access.has Access.deprecated_, !f.signature.isEmpty] ++ f.annotations.wanted)
    f.attributes.size

def toMember (f : Field) (major : Int) (store : AnnotationStore) : PoolM Member := do
  let value ← Attribute.ofIndex "ConstantValue" f.valueIndex
  let synthetic ← Attribute.marker "Synthetic" (Access.wantsSyntheticAttribute f.access major)
  let deprecated ← Attribute.marker "Deprecated" (f.access.has Access.deprecated_)
  let signature ← Attribute.ofSignature f.signature
  let annotations ← Attribute.ofAnnotationLists store f.annotations
  let raw ← Attribute.ofRaw f.attributes.toList
  return {
    access := Access.written f.access
    nameIndex := f.nameIndex
    descIndex := f.descIndex
    count := f.attributeCount major
    attributes := value ++ synthetic ++ deprecated ++ signature ++ annotations ++ raw }

end Field

namespace Method

def localTable (name : String) (rows : Array LocalRow) : PoolM (List Attribute) :=
  let putRow (b : Buffer) (r : LocalRow) : Buffer :=
    ((((b.putShort r.start).putShort r.length).putShort r.name).putShort r.desc).putShort r.slot
  Attribute.make (!rows.isEmpty) name (2 + 10 * rows.size)
    (return rows.foldl putRow (Buffer.putShort {} rows.size))

def lineTable (rows : Array LineRow) : PoolM (List Attribute) :=
  let putRow (b : Buffer) (r : LineRow) : Buffer := (b.putShort r.offset).putShort r.line
  Attribute.make (!rows.isEmpty) "LineNumberTable" (2 + 4 * rows.size)
    (return rows.foldl putRow (Buffer.putShort {} rows.size))

def stackMapTable (m : Method) (major : Int) : PoolM (List Attribute) :=
  match m.stackMap with
  | none => return []
  | some b =>
    Attribute.make true (stackMapName major) (2 + b.size)
      (return (Buffer.putShort {} m.frameCount).append b)

def putHandlers (m : Method) (position : LabelId → Nat) (b : Buffer) : Buffer :=
  m.handlers.foldl (fun b h =>
    (((b.putShort (position h.start)).putShort (position h.stop)).putShort
      (position h.handler)).putShort h.caughtIndex) (b.putShort m.handlers.size)

/-- The length of the code with its tables; a table has eight bytes besides its rows. -/
def codeLength (m : Method) : Nat :=
  12 + m.code.size + 8 * m.handlers.size
    + (if m.localRows.isEmpty then 0 else 8 + 10 * m.localRows.size)
    + (if m.localTypeRows.isEmpty then 0 else 8 + 10 * m.localTypeRows.size)
    + (if m.lineRows.isEmpty then 0 else 8 + 4 * m.lineRows.size)
    + (m.stackMap.map fun b => 8 + b.size).getD 0
    + m.codeAttributes.toList.foldr (fun a n => a.content.length + 6 + n) 0

def tableCount (m : Method) : Nat :=
  Attribute.count [!m.localRows.isEmpty, !m.localTypeRows.isEmpty, !m.lineRows.isEmpty,
    m.stackMap.isSome] m.codeAttributes.size

def codeAttribute (m : Method) (major : Int) (position : LabelId → Nat) :
    PoolM (List Attribute) :=
  Attribute.make (m.code.size != 0) "Code" m.codeLength do
    let variableTable ← localTable "LocalVariableTable" m.localRows
    let variableTypes ← localTable "LocalVariableTypeTable" m.localTypeRows
    let lines ← lineTable m.lineRows
    let frames ← m.stackMapTable major
    let raw ← Attribute.ofRaw m.codeAttributes.toList
    let b := (((Buffer.putShort {} m.maxStack).putShort m.maxLocals).putInt m.code.size).append
      m.code
    return Attribute.putAll (m.putHandlers position b) m.tableCount
      (variableTable ++ variableTypes ++ lines ++ frames ++ raw)

def exceptionTable (is : List Nat) : PoolM (List Attribute) :=
  let putIndex (b : Buffer) (i : Nat) : Buffer := b.putShort i
  Attribute.make (!is.isEmpty) "Exceptions" (2 * is.length + 2)
    (return is.foldl putIndex (Buffer.putShort {} is.length))

def parameterTable (m : Method) : PoolM (List Attribute) :=
  match m.parameters with
  | none => return []
  | some b =>
    Attribute.make true "MethodParameters" (b.size + 1)
      (return (Buffer.putByte {} m.parameterCount).append b)

def defaultAttribute (m : Method) (store : AnnotationStore) : PoolM (List Attribute) :=
  match m.defaultValue with
  | none => return []
  | some id => Attribute.make true "AnnotationDefault" (store.sizeOf id) (return store.bytesOf id)

def attributeCount (m : Method) (major : Int) : Nat :=
  Attribute.count ([m.code.size != 0, !m.exceptions.isEmpty,
    Access.wantsSyntheticAttribute m.access major, m.access.has Access.deprecated_,
    !m.signature.isEmpty, m.parameters.isSome, m.defaultValue.isSome] ++ m.annotations.wanted
      ++ [m.visibleParameters.isSome, m.invisibleParameters.isSome]) m.attributes.size

def toMember (m : Method) (major : Int) (position : LabelId → Nat) (store : AnnotationStore) :
    PoolM Member := do
  let code ← m.codeAttribute major position
  let exceptions ← exceptionTable m.exceptions
  let synthetic ← Attribute.marker "Synthetic" (Access.wantsSyntheticAttribute m.access major)
  let deprecated ← Attribute.marker "Deprecated" (m.access.has Access.deprecated_)
  let signature ← Attribute.ofSignature m.signature
  let parameters ← m.parameterTable
  let default ← m.defaultAttribute store
  let annotations ← Attribute.ofAnnotationLists store m.annotations
  let visible ← Attribute.ofParameters store "RuntimeVisibleParameterAnnotations"
    m.hiddenParameters m.visibleParameters
  let invisible ← Attribute.ofParameters store "RuntimeInvisibleParameterAnnotations"
    m.hiddenParameters m.invisibleParameters
  let raw ← Attribute.ofRaw m.attributes.toList
  return {
    access := Access.written m.access
    nameIndex := m.nameIndex
    descIndex := m.descIndex
    count := m.attributeCount major
    attributes := code ++ exceptions ++ synthetic ++ deprecated ++ signature ++ parameters
      ++ default ++ annotations ++ visible ++ invisible ++ raw }

end Method

namespace ClassBody

/-- The number of the attributes of a class whose bootstrap methods are in a pool. -/
def attributeCount (c : ClassBody) (p : Pool) (major : Int) : Nat :=
  Attribute.count ([p.bootstrapCount != 0, c.signatureIndex != 0, c.sourceIndex != 0,
    c.sourceDebug.isSome, c.outerIndex != 0, c.access.has Access.deprecated_,
    Access.wantsSyntheticAttribute c.access major, c.inner.isSome] ++ c.annotations.wanted)
    c.attributes.size

def ownAttributes (c : ClassBody) (major : Int) : PoolM (List Attribute) := do
  let bootstrapCount := (← get).bootstrapCount
  let bootstrapBytes := (← get).bootstrapBytes
  let bootstraps ← Attribute.make (bootstrapCount != 0) "BootstrapMethods" (bootstrapBytes.size + 2)
    (return (Buffer.putShort {} bootstrapCount).append bootstrapBytes)
  let signature ← Attribute.ofIndex "Signature" c.signatureIndex
  let source ← Attribute.ofIndex "SourceFile" c.sourceIndex
  let debug ← Attribute.make c.sourceDebug.isSome "SourceDebugExtension"
    (c.sourceDebug.getD []).length
    (return Buffer.putList {} (c.sourceDebug.getD []))
  let outer ← Attribute.make (c.outerIndex != 0) "EnclosingMethod" 4
    (return (Buffer.putShort {} c.outerIndex).putShort c.outerMethodIndex)
  let deprecated ← Attribute.marker "Deprecated" (c.access.has Access.deprecated_)
  let synthetic ← Attribute.marker "Synthetic" (Access.wantsSyntheticAttribute c.access major)
  let inner ← Attribute.make c.inner.isSome "InnerClasses" ((c.inner.getD {}).size + 2)
    (return (Buffer.putShort {} c.innerCount).append (c.inner.getD {}))
  let annotations ← Attribute.ofAnnotationLists c.store c.annotations
  let raw ← Attribute.ofRaw c.attributes.toList
  return bootstraps ++ signature ++ source ++ debug ++ outer ++ deprecated ++ synthetic ++ inner
    ++ annotations ++ raw

def fieldMembers (c : ClassBody) (major : Int) : List Field → PoolM (List Member)
  | [] => return []
  | f :: fs => do
    let m ← f.toMember major c.store
    return m :: (← c.fieldMembers major fs)

def methodMembers (c : ClassBody) (s : Session) : List MethodId → PoolM (List Member)
  | [] => return []
  | id :: ids => do
    let position (l : LabelId) : Nat := (s.labels[l]?.map (·.position)).getD 0
    let m ← ((c.methods[id]?).getD default).toMember s.major position c.store
    return m :: (← c.methodMembers s ids)

def toClassFile (c : ClassBody) (s : Session) : PoolM ClassFile := do
  let pool ← get
  let fields ← c.fieldMembers s.major c.fields.toList
  let methods ← c.methodMembers s c.written.toList
  let attributes ← c.ownAttributes s.major
  return {
    version := s.version
    poolCount := pool.count
    poolBytes := pool.bytes
    access := Access.written c.access
    thisIndex := c.thisIndex
    superIndex := c.superIndex
    interfaces := c.interfaces
    attributeCount := c.attributeCount pool s.major
    fields, methods, attributes }

end ClassBody

namespace ClassM

def maxPasses : Nat := 8

/-- Writes the methods with pending jumps again, from some place on.  The result tells whether
there were any. -/
def widenFrom (pass : Nat) : List Nat → Bool → ClassM Bool
  | [], pending => return pending
  | i :: is, pending => do
    let id := ((← get).written[i]?).getD 0
    let m ← onMethod id get
    if !m.hasPending then widenFrom pass is pending
    else if maxPasses < pass then
      PoolM.fail .wideningStalled "ToByteArray" [.string m.name, .string m.desc, .int maxPasses]
      return false
    else
      let wider ← m.widened
      modify fun c =>
        { c with
          methods := c.methods.push wider
          written := c.written.setIfInBounds i c.methods.size }
      widenFrom pass is true

def widenAll : Nat → Nat → ClassM Unit
  | 0, _ => return
  | fuel + 1, pass => do
    unless ← PoolM.hasFailed do
      let count := (← get).written.size
      if ← widenFrom pass (List.range count) false then
        widenAll fuel (pass + 1)

def widen : ClassM Unit := widenAll (maxPasses + 2) 1

def checkTexts : PoolM Unit := do
  if let some f := (← get).bytes.failure? then
    modify fun p => p.recordFailure f

def failure? : PoolM (Option Failure) := return (← get).failure

def writeOut (body : ClassBody) (session : Session) (size : Int) :
    ClassM (Except Failure Buffer) := do
  let file ← body.toClassFile session
  let out := file.write size
  checkTexts
  if let some f ← failure? then return .error f
  if out.size ≠ size then
    PoolM.fail .sizeMismatch "ToByteArray" [.int size, .int out.size]
  match ← failure? with
  | some f => return .error f
  | none => return .ok out

def toBytes : ClassM (Except Failure Buffer) := do
  if let some f ← failure? then return .error f
  widen
  if let some f ← failure? then return .error f
  let body ← get
  let session ← getThe Session
  let size ← body.measure session
  checkTexts
  if let some f ← failure? then return .error f
  writeOut body session size

end ClassM

end ClassAssembler
