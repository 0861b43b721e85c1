import ClassAssembler.ClassBody
import ClassAssembler.ClassFile

/-!
# Sizing a class

The number of bytes is worked out before anything is written.  The names of the attributes get
their indices on the way, so the pool is complete when the class file is written.
-/

namespace ClassAssembler

namespace AnnotationStore

def sizeOf (s : AnnotationStore) (id : AnnotationId) : Nat :=
  ((s.bodies[(s.listAt id).body]?).map Buffer.size).getD 0

def sizeAll (s : AnnotationStore) (ids : Array AnnotationId) : Nat :=
  ids.foldl (fun n id => n + s.sizeOf id) 0

end AnnotationStore

namespace Attribute

def total : List (PoolM Int) → PoolM Int
  | [] => return 0
  | x :: xs => return (← x) + (← total xs)

/-- The size of the attribute with a name, if it is wanted.  Its name gets an index before the size
of its content is worked out. -/
@[inline] def measure (wanted : Bool) (name : String) (content : PoolM Int) : PoolM Int := do
  if wanted then
    discard <| PoolM.utf8 (Text.ofString name)
    return 6 + (← content)
  else return 0

def measureRaw (a : RawAttribute) : PoolM Int := do
  discard <| PoolM.utf8 a.name
  return 6 + a.content.length

def measureAnnotations (store : AnnotationStore) (name : String) (ids : Array AnnotationId) :
    PoolM Int :=
  measure (!ids.isEmpty) name (return 2 + store.sizeAll ids)

def measureAnnotationLists (store : AnnotationStore) (l : AnnotationLists) : PoolM Int :=
  total [
    measureAnnotations store "RuntimeVisibleAnnotations" l.visible,
    measureAnnotations store "RuntimeInvisibleAnnotations" l.invisible,
    measureAnnotations store "RuntimeVisibleTypeAnnotations" l.visibleTypes,
    measureAnnotations store "RuntimeInvisibleTypeAnnotations" l.invisibleTypes]

/-- The size of the annotations of the parameters of a method.  More parameters may be hidden than
there are lists. -/
def parametersSize (store : AnnotationStore) (hidden : Nat) (lists : Array (Array AnnotationId)) :
    Int :=
  1 + 2 * ((lists.size : Int) - hidden)
    + (lists.toList.drop hidden).foldl (fun n ids => n + store.sizeAll ids) 0

def measureParameters (store : AnnotationStore) (name : String) (hidden : Nat)
    (lists : Option (Array (Array AnnotationId))) : PoolM Int :=
  match lists with
  | none => return 0
  | some lists =>
    measure true name (return parametersSize store hidden lists)

end Attribute

namespace Field

/-- The sizes of the attributes of a field.  The text of its signature has had its index since the
field was made. -/
def partSizes (f : Field) (major : Int) (store : AnnotationStore) : List (PoolM Int) := [
  Attribute.measure (f.valueIndex != 0) "ConstantValue" (return 2),
  Attribute.measure (Access.wantsSyntheticAttribute f.access major) "Synthetic" (return 0),
  Attribute.measure (f.access.has Access.deprecated_) "Deprecated" (return 0),
  Attribute.measure (!f.signature.isEmpty) "Signature" (return 2),
  Attribute.measureAnnotationLists store f.annotations,
  Attribute.total (f.attributes.toList.map Attribute.measureRaw)]

def measure (f : Field) (major : Int) (store : AnnotationStore) : PoolM Int :=
  return 8 + (← Attribute.total (f.partSizes major store))

end Field

namespace Method

def limit : Nat := 65535

def checkLimits (m : Method) : PoolM Unit := do
  let op := "ToByteArray"
  if limit < m.code.size then
    PoolM.fail .codeTooLarge op [.string m.name, .string m.desc, .int m.code.size]
  if limit < m.maxStack then
    PoolM.fail .frameTooLarge op
      [.string m.name, .string m.desc, .string "max_stack", .int m.maxStack]
  if limit < m.maxLocals then
    PoolM.fail .frameTooLarge op
      [.string m.name, .string m.desc, .string "max_locals", .int m.maxLocals]

def stackMapName (major : Int) : String := if 50 ≤ major then "StackMapTable" else "StackMap"

def tableSizes (m : Method) (major : Int) : List (PoolM Int) := [
  Attribute.measure (!m.localRows.isEmpty) "LocalVariableTable" (return 2 + 10 * m.localRows.size),
  Attribute.measure (!m.localTypeRows.isEmpty) "LocalVariableTypeTable"
    (return 2 + 10 * m.localTypeRows.size),
  Attribute.measure (!m.lineRows.isEmpty) "LineNumberTable" (return 2 + 4 * m.lineRows.size),
  Attribute.measure m.stackMap.isSome (stackMapName major) (return 2 + (m.stackMap.getD {}).size),
  Attribute.total (m.codeAttributes.toList.map Attribute.measureRaw)]

def measureCode (m : Method) (major : Int) : PoolM Int := do
  if m.code.size = 0 then return 0
  else
    m.checkLimits
    Attribute.measure true "Code"
      (return 12 + m.code.size + 8 * m.handlers.size + (← Attribute.total (m.tableSizes major)))

def partSizes (m : Method) (major : Int) (store : AnnotationStore) : List (PoolM Int) := [
  m.measureCode major,
  Attribute.measure (!m.exceptions.isEmpty) "Exceptions" (return 2 + 2 * m.exceptions.length),
  Attribute.measure (Access.wantsSyntheticAttribute m.access major) "Synthetic" (return 0),
  Attribute.measure (m.access.has Access.deprecated_) "Deprecated" (return 0),
  Attribute.measure (!m.signature.isEmpty) "Signature" do
    discard <| PoolM.utf8 m.signature
    return 2,
  Attribute.measure m.parameters.isSome "MethodParameters"
    (return 1 + (m.parameters.getD {}).size),
  Attribute.measure m.defaultValue.isSome "AnnotationDefault"
    (return (m.defaultValue.map store.sizeOf).getD 0),
  Attribute.measureAnnotationLists store m.annotations,
  Attribute.measureParameters store "RuntimeVisibleParameterAnnotations"
    m.hiddenParameters m.visibleParameters,
  Attribute.measureParameters store "RuntimeInvisibleParameterAnnotations"
    m.hiddenParameters m.invisibleParameters,
  Attribute.total (m.attributes.toList.map Attribute.measureRaw)]

def measure (m : Method) (major : Int) (store : AnnotationStore) : PoolM Int :=
  return 8 + (← Attribute.total (m.partSizes major store))

end Method

namespace ClassBody

def partSizes (c : ClassBody) (p : Pool) (major : Int) : List (PoolM Int) := [
  Attribute.measure (p.bootstrapCount != 0) "BootstrapMethods" (return 2 + p.bootstrapBytes.size),
  Attribute.measure (c.signatureIndex != 0) "Signature" (return 2),
  Attribute.measure (c.sourceIndex != 0) "SourceFile" (return 2),
  Attribute.measure c.sourceDebug.isSome "SourceDebugExtension"
    (return (c.sourceDebug.getD []).length),
  Attribute.measure (c.outerIndex != 0) "EnclosingMethod" (return 4),
  Attribute.measure (c.access.has Access.deprecated_) "Deprecated" (return 0),
  Attribute.measure (Access.wantsSyntheticAttribute c.access major) "Synthetic" (return 0),
  Attribute.measure c.inner.isSome "InnerClasses" (return 2 + (c.inner.getD {}).size),
  Attribute.measureAnnotationLists c.store c.annotations,
  Attribute.total (c.attributes.toList.map Attribute.measureRaw)]

def measure (c : ClassBody) (s : Session) : PoolM Int := do
  let fields ← Attribute.total (c.fields.toList.map fun f => f.measure s.major c.store)
  let methods ← Attribute.total (c.written.toList.map fun id =>
    ((c.methods[id]?).getD default).measure s.major c.store)
  let own ← Attribute.total (c.partSizes (← get) s.major)
  return 24 + 2 * c.interfaces.length + fields + methods + own + (← get).bytes.size

end ClassBody

end ClassAssembler
