import ClassAssembler.Assembly
import ClassAssembler.Proofs.ClassFormat
import ClassAssembler.Proofs.Steady

/-!
# The parts of a class file

What stands in the class file for a field, a method and a class: their attributes with names and
contents, in order.  `Field.parts`, `Method.parts` and `ClassBody.parts` list them from what was
recorded; `Part.Stands` says that an attribute of a class file is the one with a name and a content,
where the names are looked up in the constant pool of the file.  `Yields` is what the functions that
make attributes have in common: they enter texts into the pool and give the attributes of a list of
parts.
-/

namespace ClassAssembler

open Buffer Format Attribute List Access

variable {p q : Pool}

/-! ## Parts -/

inductive Content where
  | bytes (bs : List UInt8)
  | text (t : Text)
  | code (m : Method) (major : Int) (position : LabelId → Nat)

/-- An attribute by its name and what it holds. -/
structure Part where
  name : Text
  content : Content

namespace Part

def when (wanted : Bool) (name : String) (content : Content) : List Part :=
  if wanted then [⟨Text.ofString name, content⟩] else []

def ofRaw (as : List RawAttribute) : List Part := as.map fun a => ⟨a.name, .bytes a.content⟩

def annotationBytes (store : AnnotationStore) (ids : Array AnnotationId) : List UInt8 :=
  bytes16 ids.size ++ ids.toList.flatMap fun id => (store.bytesOf id).toList

def ofAnnotations (store : AnnotationStore) (name : String) (ids : Array AnnotationId) :
    List Part :=
  when (!ids.isEmpty) name (.bytes (annotationBytes store ids))

def ofAnnotationLists (store : AnnotationStore) (l : AnnotationLists) : List Part :=
  List.flatten [
    ofAnnotations store "RuntimeVisibleAnnotations" l.visible,
    ofAnnotations store "RuntimeInvisibleAnnotations" l.invisible,
    ofAnnotations store "RuntimeVisibleTypeAnnotations" l.visibleTypes,
    ofAnnotations store "RuntimeInvisibleTypeAnnotations" l.invisibleTypes]

/-- The annotations of the parameters of a method, without the hidden ones in front. -/
def ofParameters (store : AnnotationStore) (name : String) (hidden : Nat)
    (lists : Option (Array (Array AnnotationId))) : List Part :=
  match lists with
  | none => []
  | some lists =>
    let shown := lists.toList.drop hidden
    when true name (.bytes (low8 shown.length :: shown.flatMap (annotationBytes store)))

end Part

namespace Field

def parts (f : Field) (major : Int) (store : AnnotationStore) : List Part :=
  List.flatten [
    Part.when (f.valueIndex != 0) "ConstantValue" (.bytes (bytes16 f.valueIndex)),
    Part.when (wantsSyntheticAttribute f.access major) "Synthetic" (.bytes []),
    Part.when (f.access.has deprecated_) "Deprecated" (.bytes []),
    Part.when (!f.signature.isEmpty) "Signature" (.text f.signature),
    Part.ofAnnotationLists store f.annotations,
    Part.ofRaw f.attributes.toList]

end Field

namespace LocalRow

def bytes (r : LocalRow) : List UInt8 :=
  bytes16 r.start ++ bytes16 r.length ++ bytes16 r.name ++ bytes16 r.desc ++ bytes16 r.slot

end LocalRow

namespace Method

def tables (m : Method) (major : Int) : List Part :=
  List.flatten [
    Part.when (!m.localRows.isEmpty) "LocalVariableTable"
        (.bytes (bytes16 m.localRows.size ++ m.localRows.toList.flatMap LocalRow.bytes)),
    Part.when (!m.localTypeRows.isEmpty) "LocalVariableTypeTable"
        (.bytes (bytes16 m.localTypeRows.size ++ m.localTypeRows.toList.flatMap LocalRow.bytes)),
    Part.when (!m.lineRows.isEmpty) "LineNumberTable"
        (.bytes (bytes16 m.lineRows.size
          ++ m.lineRows.toList.flatMap fun r => bytes16 r.offset ++ bytes16 r.line)),
    Part.when m.stackMap.isSome (if 50 ≤ major then "StackMapTable" else "StackMap")
        (.bytes (bytes16 m.frameCount ++ (m.stackMap.getD {}).toList)),
    Part.ofRaw m.codeAttributes.toList]

def parts (m : Method) (major : Int) (position : LabelId → Nat) (store : AnnotationStore) :
    List Part :=
  List.flatten [
    Part.when (m.code.size != 0) "Code" (.code m major position),
    Part.when (!m.exceptions.isEmpty) "Exceptions"
        (.bytes (bytes16 m.exceptions.length ++ m.exceptions.flatMap fun i : Nat => bytes16 i)),
    Part.when (wantsSyntheticAttribute m.access major) "Synthetic" (.bytes []),
    Part.when (m.access.has deprecated_) "Deprecated" (.bytes []),
    Part.when (!m.signature.isEmpty) "Signature" (.text m.signature),
    Part.when m.parameters.isSome "MethodParameters"
        (.bytes (low8 m.parameterCount :: (m.parameters.getD {}).toList)),
    Part.when m.defaultValue.isSome "AnnotationDefault"
        (.bytes (store.bytesOf (m.defaultValue.getD 0)).toList),
    Part.ofAnnotationLists store m.annotations,
    Part.ofParameters store "RuntimeVisibleParameterAnnotations" m.hiddenParameters
        m.visibleParameters,
    Part.ofParameters store "RuntimeInvisibleParameterAnnotations" m.hiddenParameters
        m.invisibleParameters,
    Part.ofRaw m.attributes.toList]

end Method

namespace ClassBody

/-- The attributes of a class whose bootstrap methods are in a pool. -/
def parts (c : ClassBody) (p : Pool) (major : Int) : List Part :=
  List.flatten [
    Part.when (p.bootstrapCount != 0) "BootstrapMethods"
        (.bytes (bytes16 p.bootstrapCount ++ p.bootstrapBytes.toList)),
    Part.when (c.signatureIndex != 0) "Signature" (.bytes (bytes16 c.signatureIndex)),
    Part.when (c.sourceIndex != 0) "SourceFile" (.bytes (bytes16 c.sourceIndex)),
    Part.when c.sourceDebug.isSome "SourceDebugExtension" (.bytes (c.sourceDebug.getD [])),
    Part.when (c.outerIndex != 0) "EnclosingMethod"
        (.bytes (bytes16 c.outerIndex ++ bytes16 c.outerMethodIndex)),
    Part.when (c.access.has deprecated_) "Deprecated" (.bytes []),
    Part.when (wantsSyntheticAttribute c.access major) "Synthetic" (.bytes []),
    Part.when c.inner.isSome "InnerClasses"
        (.bytes (bytes16 c.innerCount ++ (c.inner.getD {}).toList)),
    Part.ofAnnotationLists c.store c.annotations,
    Part.ofRaw c.attributes.toList]

end ClassBody

/-! ## Attributes of a class file -/

/-- A row of an exception table is the one that was recorded. -/
structure Handler.Stands (t : Table) (position : LabelId → Nat) (h : Handler) (r : HandlerInfo) :
    Prop where
  start : r.start = position h.start % 65536
  stop : r.stop = position h.stop % 65536
  handler : r.handler = position h.handler % 65536
  caught : h.caught = [] ∧ r.caught = 0 ∨ t.Means r.caught (.classRef h.caught)

def Part.Plain (t : Table) (part : Part) (a : AttributeInfo) : Prop :=
  t.Means a.name (.utf8 part.name) ∧ part.content = .bytes a.content

/-- What the attribute with the code of a method holds. -/
structure Method.CodeStands (t : Table) (m : Method) (major : Int) (position : LabelId → Nat)
    (c : CodeInfo) : Prop where
  maxStack : (c.maxStack : Int) = m.maxStack % 65536
  maxLocals : (c.maxLocals : Int) = m.maxLocals % 65536
  code : c.code = m.code.toList
  handlers : Forall₂ (Handler.Stands t position) m.handlers.toList c.handlers
  attributes : Forall₂ (Part.Plain t) (m.tables major) c.attributes

def Content.Stands (t : Table) : Content → List UInt8 → Prop
  | .bytes bs, content => content = bs
  | .text x, content => ∃ i : Nat, content = bytes16 i ∧ t.Means i (.utf8 x)
  | .code m major position, content =>
    ∃ c, codeInfo.run content = some (c, []) ∧ m.CodeStands t major position c

/-- An attribute of a class file with a constant pool is the one that was recorded. -/
def Part.Stands (t : Table) (part : Part) (a : AttributeInfo) : Prop :=
  t.Means a.name (.utf8 part.name) ∧ part.content.Stands t a.content

/-! ## Attributes that are made -/

namespace Handler

def bytes (position : LabelId → Nat) (h : Handler) : List UInt8 :=
  bytes16 (position h.start) ++ (bytes16 (position h.stop) ++ (bytes16 (position h.handler) ++
    bytes16 h.caughtIndex))

end Handler

namespace Method

def codeBytes (m : Method) (position : LabelId → Nat) (as : List Attribute) : List UInt8 :=
  bytes16 m.maxStack ++ (bytes16 m.maxLocals ++ (bytes32 m.code.size ++ (m.code.toList ++
    ((bytes16 m.handlers.size ++ m.handlers.toList.flatMap (Handler.bytes position)) ++
      (bytes16 as.length ++ as.flatMap bytes)))))

end Method

/-- An attribute with a name and some bytes, the name looked up in a pool. -/
def Part.PlainIn (p : Pool) (part : Part) (a : Attribute) : Prop :=
  p.at? a.nameIndex = some (.utf8 part.name) ∧ part.content = .bytes a.content.toList ∧
    a.length = a.content.size

def Content.Made (p : Pool) : Content → Buffer → Prop
  | .bytes bs, b => b.toList = bs
  | .text x, b => ∃ i : Nat, b.toList = bytes16 i ∧ p.at? i = some (.utf8 x)
  | .code m major position, b =>
    m.code.size ≤ Method.limit ∧ ∃ as, b.toList = m.codeBytes position as ∧
      Forall₂ (Part.PlainIn p) (m.tables major) as

/-- An attribute has the name and the content of a part, and says how long its content is. -/
def Part.Made (p : Pool) (part : Part) (a : Attribute) : Prop :=
  p.at? a.nameIndex = some (.utf8 part.name) ∧ part.content.Made p a.content ∧
    a.length = a.content.size

theorem Part.Made.mono (h : p.Extends q) {part : Part} {a : Attribute} (hm : part.Made p a) :
    part.Made q a := by
  obtain ⟨hname, hcontent, hlength⟩ := hm
  refine ⟨h.at? hname, ?_, hlength⟩
  cases hc : part.content with
  | bytes bs =>
    rw [hc] at hcontent
    exact hcontent
  | text x =>
    rw [hc] at hcontent
    obtain ⟨i, hb, hi⟩ := hcontent
    exact ⟨i, hb, h.at? hi⟩
  | code m major position =>
    rw [hc] at hcontent
    obtain ⟨hsize, as, hb, has⟩ := hcontent
    exact ⟨hsize, as, hb, has.imp fun _ _ ha => ⟨h.at? ha.1, ha.2⟩⟩

/-- A member has flags, a name, a descriptor and attributes, and says how many these are. -/
structure Member.Made (p : Pool) (access : Flags) (name desc : Nat) (parts : List Part)
    (member : Member) : Prop where
  access : member.access = written access
  name : member.nameIndex = name
  desc : member.descIndex = desc
  count : member.count = member.attributes.length
  attributes : Forall₂ (Part.Made p) parts member.attributes

theorem Member.Made.mono (h : p.Extends q) {access : Flags} {name desc : Nat} {parts : List Part}
    {member : Member} (hm : member.Made p access name desc parts) :
    member.Made q access name desc parts :=
  ⟨hm.access, hm.name, hm.desc, hm.count, hm.attributes.imp fun _ _ ha => ha.mono h⟩

@[simp] theorem Buffer.length_bytes16 (v : Int) : (bytes16 v).length = 2 := rfl

@[simp] theorem Buffer.length_bytes32 (v : Int) : (bytes32 v).length = 4 := rfl

theorem Buffer.length_indices (is : List Nat) :
    (is.flatMap fun i : Nat => bytes16 i).length = 2 * is.length := by
  simp [length_flatMap, Nat.mul_comm]

/-! ## Lengths and counts -/

namespace Attribute

theorem length_bytes (a : Attribute) : a.bytes.length = 6 + a.content.size := by
  simp [bytes]
  omega

theorem count_eq (wanted : List Bool) (raw : Nat) :
    count wanted raw = (wanted.map Bool.toNat).sum + raw := by
  induction wanted generalizing raw with
  | nil => simp [count]
  | cons w wanted ih =>
    rw [count, foldl_cons, ← count, ih, map_cons, sum_cons]
    cases w
    · simp
    · simp [Nat.add_comm, Nat.add_left_comm]

end Attribute

namespace AnnotationStore

theorem size_bytesOf (s : AnnotationStore) (id : AnnotationId) :
    (s.bytesOf id).size = s.sizeOf id := by
  have hset (b : Buffer) (i : Nat) (v : Int) : (b.setShort i v).size = b.size := by
    simp [setShort, Buffer.size]
  have hbody (o : Option Buffer) : (o.getD {}).size = (o.map Buffer.size).getD 0 := by
    cases o <;> rfl
  unfold bytesOf sizeOf
  dsimp only
  split
  · rw [hset, hbody]
  · exact hbody _

theorem sizeAll_eq (s : AnnotationStore) (ids : Array AnnotationId) :
    s.sizeAll ids = (ids.toList.flatMap fun id => (s.bytesOf id).toList).length := by
  have hfold (is : List AnnotationId) (n : Nat) : is.foldl (fun n id => n + s.sizeOf id) n =
      n + (is.flatMap fun id => (s.bytesOf id).toList).length := by
    induction is generalizing n with
    | nil => rfl
    | cons id is ih =>
      rw [foldl_cons, ih, flatMap_cons, length_append, length_toList, size_bytesOf]
      omega
  rw [sizeAll, ← Array.foldl_toList, hfold, Nat.zero_add]

theorem length_annotationBytes (s : AnnotationStore) (ids : Array AnnotationId) :
    (Part.annotationBytes s ids).length = 2 + s.sizeAll ids := by
  rw [Part.annotationBytes, length_append, length_bytes16, sizeAll_eq]

end AnnotationStore

theorem Attribute.parametersSize_eq (store : AnnotationStore) {hidden : Nat}
    {lists : Array (Array AnnotationId)} (h : hidden ≤ lists.size) :
    parametersSize store hidden lists =
      1 + ((lists.toList.drop hidden).flatMap (Part.annotationBytes store)).length := by
  have hfold (ls : List (Array AnnotationId)) (n : Nat) :
      2 * ls.length + ls.foldl (fun n ids => n + store.sizeAll ids) n =
        n + (ls.flatMap (Part.annotationBytes store)).length := by
    induction ls generalizing n with
    | nil => simp
    | cons ids ls ih =>
      have hids := store.length_annotationBytes ids
      have hrest := ih (n + store.sizeAll ids)
      rw [foldl_cons, flatMap_cons, length_append, length_cons]
      omega
  have hlists := hfold (lists.toList.drop hidden) 0
  rw [length_drop, Array.length_toList] at hlists
  unfold parametersSize
  omega

namespace Part

def plainLength (part : Part) : Nat :=
  match part.content with
  | .bytes bs => bs.length
  | _ => 0

theorem length_when (wanted : Bool) (name : String) (content : Content) :
    (when wanted name content).length = wanted.toNat := by
  cases wanted <;> rfl

theorem length_ofRaw (as : List RawAttribute) : (ofRaw as).length = as.length := length_map _

theorem length_ofAnnotationLists (store : AnnotationStore) (l : AnnotationLists) :
    (ofAnnotationLists store l).length = (l.wanted.map Bool.toNat).sum := by
  simp [ofAnnotationLists, ofAnnotations, length_when, AnnotationLists.wanted]

theorem length_ofParameters (store : AnnotationStore) (name : String) (hidden : Nat)
    (lists : Option (Array (Array AnnotationId))) :
    (ofParameters store name hidden lists).length = lists.isSome.toNat := by
  cases lists <;> rfl

theorem sum_when (wanted : Bool) (name : String) (bs : List UInt8) :
    ((when wanted name (.bytes bs)).map fun part => 6 + part.plainLength).sum =
      if wanted then 6 + bs.length else 0 := by
  cases wanted <;> simp [when, plainLength]

theorem sum_ofRaw (as : List RawAttribute) :
    ((ofRaw as).map fun part => 6 + part.plainLength).sum =
      (as.map fun a => a.content.length + 6).sum := by
  simp [ofRaw, plainLength, Function.comp_def, Nat.add_comm]

end Part

def Content.length : Content → Nat
  | bytes bs => bs.length
  | text _ => 2
  | code m major _ => 12 + m.code.size + 8 * m.handlers.size
    + ((m.tables major).map fun part => 6 + part.plainLength).sum

theorem Field.length_parts (f : Field) (major : Int) (store : AnnotationStore) :
    (f.parts major store).length = f.attributeCount major := by
  simp [parts, attributeCount, count_eq, Part.length_when, Part.length_ofAnnotationLists,
    Part.length_ofRaw, Nat.add_assoc]

theorem ClassBody.length_parts (c : ClassBody) (p : Pool) (major : Int) :
    (c.parts p major).length = c.attributeCount p major := by
  simp [parts, attributeCount, count_eq, Part.length_when, Part.length_ofAnnotationLists,
    Part.length_ofRaw, Nat.add_assoc]

namespace Method

theorem length_tables (m : Method) (major : Int) : (m.tables major).length = m.tableCount := by
  simp [tables, tableCount, count_eq, Part.length_when, Part.length_ofRaw, Nat.add_assoc]

theorem length_parts (m : Method) (major : Int) (position : LabelId → Nat)
    (store : AnnotationStore) :
    (m.parts major position store).length = m.attributeCount major := by
  simp [parts, attributeCount, count_eq, Part.length_when, Part.length_ofAnnotationLists,
    Part.length_ofParameters, Part.length_ofRaw, Nat.add_assoc]

theorem length_localRows (rows : Array LocalRow) :
    (rows.toList.flatMap LocalRow.bytes).length = 10 * rows.size := by
  simp [length_flatMap, LocalRow.bytes, Nat.mul_comm]

theorem length_lineRows (rows : Array LineRow) :
    (rows.toList.flatMap fun r => bytes16 r.offset ++ bytes16 r.line).length = 4 * rows.size := by
  simp [length_flatMap, Nat.mul_comm]

theorem length_handlers (m : Method) (position : LabelId → Nat) :
    (m.handlers.toList.flatMap (Handler.bytes position)).length = 8 * m.handlers.size := by
  simp [length_flatMap, Handler.bytes, Nat.mul_comm]

/-- The length that is written in front of the code is that of the code and its tables. -/
theorem codeLength_eq (m : Method) (major : Int) (position : LabelId → Nat) :
    m.codeLength = (Content.code m major position).length := by
  have hrows (empty : Bool) (n : Nat) :
      (if (!empty) = true then 6 + (2 + n) else 0) = if empty = true then 0 else 8 + n := by
    cases empty
    · simp
      omega
    · rfl
  have hmap : (if m.stackMap.isSome = true then 6 + (2 + (m.stackMap.getD {}).size) else 0) =
      (m.stackMap.map fun b => 8 + b.size).getD 0 := by
    cases m.stackMap
    · rfl
    · simp
      omega
  have hraw : m.codeAttributes.toList.foldr (fun a n => a.content.length + 6 + n) 0 =
      (m.codeAttributes.toList.map fun a => a.content.length + 6).sum := by
    rw [sum_eq_foldr, foldr_map]
  simp only [codeLength, hraw, Content.length, tables, flatten_cons, flatten_nil, append_nil,
    map_append, sum_append, Part.sum_when, Part.sum_ofRaw, length_append, length_bytes16,
    length_localRows,
    length_lineRows, length_toList, hrows, hmap]
  omega

/-- The parameters that a method hides are among those that it has lists of annotations for. -/
structure HidesWithin (m : Method) : Prop where
  visible : ∀ ls ∈ m.visibleParameters, m.hiddenParameters ≤ ls.size
  invisible : ∀ ls ∈ m.invisibleParameters, m.hiddenParameters ≤ ls.size

end Method

theorem length_plainIn {p : Pool} {parts : List Part} {as : List Attribute}
    (h : Forall₂ (Part.PlainIn p) parts as) :
    (as.flatMap Attribute.bytes).length = (parts.map fun part => 6 + part.plainLength).sum := by
  induction h with
  | nil => rfl
  | @cons part a parts as ha _ ih =>
    have hlength : part.plainLength = a.content.size := by
      rw [Part.plainLength, ha.2.1]
      rfl
    rw [flatMap_cons, length_append, ih, Attribute.length_bytes, map_cons,
      sum_cons, hlength]

theorem Content.Made.length {p : Pool} {c : Content} {b : Buffer} (h : c.Made p b) :
    b.size = c.length := by
  rw [← length_toList]
  cases c with
  | bytes bs => exact congrArg List.length h
  | text x =>
    obtain ⟨i, hb, -⟩ := h
    rw [hb]
    rfl
  | code m major position =>
    obtain ⟨-, as, hb, has⟩ := h
    simp only [hb, Method.codeBytes, length_append, m.length_handlers, length_plainIn has,
      Content.length, bytes16, bytes32, length_cons, length_nil, length_toList]
    omega

/-- Work on a pool that takes no bootstrap method. -/
structure Pool.Adds (p q : Pool) : Prop where
  grows : p.Grows q
  count : q.bootstrapCount = p.bootstrapCount
  bootstraps : q.bootstrapBytes = p.bootstrapBytes

instance : Steps Pool.Adds where
  refl p := ⟨Steps.refl p, rfl, rfl⟩
  trans h h' := ⟨Steps.trans h.grows h'.grows, h'.count.trans h.count,
    h'.bootstraps.trans h.bootstraps⟩

/-- A pool has grown, but not by bootstrap methods. -/
structure Pool.Enters (p q : Pool) (counted : Prop := True) : Prop where
  wf : q.Wf { counted }
  extend : p.Extends q
  count : q.bootstrapCount = p.bootstrapCount
  bootstraps : q.bootstrapBytes = p.bootstrapBytes

section

variable {counted : Prop}

variable {p : Pool}

theorem Pool.Enters.refl (hp : p.Wf { counted }) : p.Enters p counted :=
  ⟨hp, .refl p, rfl, rfl⟩

theorem Pool.Enters.trans {q r : Pool} (h : p.Enters q counted) (h' : q.Enters r counted) :
    p.Enters r counted :=
  ⟨h'.wf, h.extend.trans h'.extend, h'.count.trans h.count, h'.bootstraps.trans h.bootstraps⟩

theorem Pool.Adds.enters {q : Pool} (h : p.Adds q) (hp : p.Wf { counted }) : p.Enters q counted :=
  ⟨(h.grows hp).1, (h.grows hp).2, h.count, h.bootstraps⟩

end

theorem Pool.adds_recordFailure (p : Pool) (f : Failure) [f.cause.Early] :
    p.Adds (p.recordFailure f) := by
  refine ⟨⟨onward_recordFailure p f, fun hp => ⟨hp.recordFailure f, extends_recordFailure p f⟩⟩,
    ?_, ?_⟩ <;>
  · unfold recordFailure
    split <;> rfl

instance PoolM.adds_fail (cause : Cause) [cause.Early] (op : String) (args : List Value) :
    Keeps Pool.Adds (PoolM.fail cause op args) := by
  refine ⟨fun p a q h => ?_⟩
  obtain rfl := PoolM.ends_fail.1 h
  exact Pool.adds_recordFailure p ⟨cause, Text.ofString op, args⟩

instance PoolM.adds_utf8 (t : Text) : Keeps Pool.Adds (PoolM.utf8 t) := by
  refine ⟨fun p i q e => ?_⟩
  have hgrows : p.Grows q := e.keeps
  have hsame : q.bootstrapCount = p.bootstrapCount ∧ q.bootstrapBytes = p.bootstrapBytes := by
    simp only [PoolM.utf8, PoolM.intern, PoolM.index?, ends_bind, ends_pool_get, ends_pure] at e
    obtain ⟨_, _, ⟨_, _, ⟨rfl, rfl⟩, rfl, rfl⟩, e⟩ := e
    split at e
    · obtain ⟨-, rfl⟩ := e.pure
      exact ⟨rfl, rfl⟩
    · obtain ⟨_, _, hemit, e⟩ := e.bind
      obtain rfl := PoolM.ends_emit.1 hemit
      obtain ⟨-, ⟨rfl, -⟩ | rfl⟩ := PoolM.ends_register e
      · exact ⟨rfl, rfl⟩
      · unfold Pool.recordFailure
        split <;> exact ⟨rfl, rfl⟩
  exact ⟨hgrows, hsame.1, hsame.2⟩

theorem PoolM.enters_utf8 {t : Text} {i : Nat} {counted : Prop} (hp : p.Wf { counted })
    (e : Ends (PoolM.utf8 t) p i q) : p.Enters q counted ∧ q.at? i = some (.utf8 t) := by
  have hadds : p.Adds q := e.keeps
  exact ⟨hadds.enters hp, (PoolM.interns_utf8 t p i q hp e).2⟩

def Yields (x : PoolM (List Attribute)) (parts : List Part) : Prop :=
  ∀ (counted : Prop) p as q, p.Wf { counted } → Ends x p as q →
    p.Enters q counted ∧ (q.failure = none → Forall₂ (Part.Made q) parts as)

theorem yields_nil : Yields (pure []) [] := by
  intro _ p as q hp e
  obtain ⟨rfl, rfl⟩ := e.pure
  exact ⟨.refl hp, fun _ => .nil⟩

/-- The attributes of several computations, one behind another. -/
def Attribute.gather : List (PoolM (List Attribute)) → PoolM (List Attribute)
  | [] => return []
  | x :: xs => do
    let as ← x
    let bs ← gather xs
    return as ++ bs

theorem yields_gather {xs : List (PoolM (List Attribute))} {parts : List (List Part)}
    (h : Forall₂ Yields xs parts) : Yields (gather xs) parts.flatten := by
  induction h with
  | nil => exact yields_nil
  | cons hx _ ih =>
    intro _ p as q hp e
    obtain ⟨as₁, p₁, e₁, e⟩ := e.bind
    obtain ⟨as₂, p₂, e₂, e⟩ := e.bind
    obtain ⟨rfl, rfl⟩ := e.pure
    obtain ⟨h₁, hmade₁⟩ := hx _ p as₁ p₁ hp e₁
    obtain ⟨h₂, hmade₂⟩ := ih _ p₁ as₂ p₂ h₁.wf e₂
    refine ⟨h₁.trans h₂, fun hq => rel_append ?_ (hmade₂ hq)⟩
    exact (hmade₁ (h₂.extend.no_failure hq)).imp fun _ _ h => h.mono h₂.extend

theorem yields_make {wanted : Bool} {name : String} {n : Int} {x : PoolM Buffer} {content : Content}
    (hx : ∀ {counted : Prop}, wanted = true → ∀ p b q, p.Wf { counted } → Ends x p b q →
      p.Enters q counted ∧ (q.failure = none → content.Made q b ∧ n = b.size)) :
    Yields (make wanted name n x) (Part.when wanted name content) := by
  intro _ p as q hp e
  unfold make at e
  cases wanted with
  | false => exact yields_nil _ p as q hp e
  | true =>
    obtain ⟨i, p₁, e₁, e⟩ := e.bind
    obtain ⟨b, p₂, e₂, e⟩ := e.bind
    obtain ⟨rfl, rfl⟩ := e.pure
    obtain ⟨h₁, hat⟩ := PoolM.enters_utf8 hp e₁
    obtain ⟨h₂, hmade⟩ := hx rfl p₁ b p₂ h₁.wf e₂
    exact ⟨h₁.trans h₂, fun hq => .cons ⟨h₂.extend.at? hat, hmade hq⟩ .nil⟩

theorem yields_bytes {wanted : Bool} {name : String} {n : Int} {b : Buffer} {bs : List UInt8}
    (h : wanted = true → b.toList = bs ∧ n = bs.length) :
    Yields (make wanted name n (pure b)) (Part.when wanted name (.bytes bs)) := by
  refine yields_make fun hw p b' q hp e => ?_
  obtain ⟨rfl, rfl⟩ := e.pure
  obtain ⟨hb, hn⟩ := h hw
  exact ⟨.refl hp, fun _ => ⟨hb, by rw [hn, ← hb, length_toList]⟩⟩

/-! ## The attributes of each kind -/

theorem yields_ofIndex (name : String) (i : Nat) :
    Yields (ofIndex name i) (Part.when (i != 0) name (.bytes (bytes16 i))) :=
  yields_bytes fun _ => ⟨by simp [bytes16], rfl⟩

theorem yields_marker (name : String) (wanted : Bool) :
    Yields (marker name wanted) (Part.when wanted name (.bytes [])) :=
  yields_bytes fun _ => ⟨rfl, rfl⟩

theorem yields_ofSignature (t : Text) :
    Yields (ofSignature t) (Part.when (!t.isEmpty) "Signature" (.text t)) := by
  refine yields_make fun _ p b q hp e => ?_
  obtain ⟨i, p₁, e₁, e⟩ := e.bind
  obtain ⟨rfl, rfl⟩ := e.pure
  obtain ⟨h, hat⟩ := PoolM.enters_utf8 hp e₁
  exact ⟨h, fun _ => ⟨⟨i, by simp [bytes16], hat⟩, rfl⟩⟩

theorem yields_ofRaw (as : List RawAttribute) : Yields (ofRaw as) (Part.ofRaw as) := by
  induction as with
  | nil => exact yields_nil
  | cons a as ih =>
    intro _ p bs q hp e
    obtain ⟨i, p₁, e₁, e⟩ := e.bind
    obtain ⟨rest, p₂, e₂, e⟩ := e.bind
    obtain ⟨rfl, rfl⟩ := e.pure
    obtain ⟨h₁, hat⟩ := PoolM.enters_utf8 hp e₁
    obtain ⟨h₂, hmade⟩ := ih _ p₁ rest p₂ h₁.wf e₂
    have hbytes : (Buffer.putList {} a.content).toList = a.content :=
      (toList_putList {} a.content).trans (nil_append _)
    refine ⟨h₁.trans h₂, fun hq => .cons ⟨h₂.extend.at? hat, hbytes, ?_⟩ (hmade hq)⟩
    rw [← length_toList, hbytes]

theorem toList_annotations (store : AnnotationStore) (ids : Array AnnotationId) (b : Buffer) :
    (ids.foldl (fun b id => b.append (store.bytesOf id)) (b.putShort ids.size)).toList =
      b.toList ++ Part.annotationBytes store ids := by
  rw [← Array.foldl_toList, toList_foldl (fun b id => toList_append b (store.bytesOf id)),
    toList_putShort', append_assoc, Part.annotationBytes]

theorem yields_ofAnnotations (store : AnnotationStore) (name : String) (ids : Array AnnotationId) :
    Yields (ofAnnotations store name ids) (Part.ofAnnotations store name ids) := by
  refine yields_bytes fun _ => ⟨toList_annotations store ids {}, ?_⟩
  rw [store.length_annotationBytes]
  push_cast
  rfl

theorem Attribute.ofAnnotationLists_eq (store : AnnotationStore) (l : AnnotationLists) :
    ofAnnotationLists store l = gather [
      ofAnnotations store "RuntimeVisibleAnnotations" l.visible,
      ofAnnotations store "RuntimeInvisibleAnnotations" l.invisible,
      ofAnnotations store "RuntimeVisibleTypeAnnotations" l.visibleTypes,
      ofAnnotations store "RuntimeInvisibleTypeAnnotations" l.invisibleTypes] := by
  simp only [ofAnnotationLists, gather, bind_assoc, pure_bind, append_assoc, append_nil]

theorem yields_ofAnnotationLists (store : AnnotationStore) (l : AnnotationLists) :
    Yields (ofAnnotationLists store l) (Part.ofAnnotationLists store l) := by
  rw [ofAnnotationLists_eq]
  exact yields_gather <| .cons (yields_ofAnnotations _ _ _) <| .cons (yields_ofAnnotations _ _ _) <|
    .cons (yields_ofAnnotations _ _ _) <| .cons (yields_ofAnnotations _ _ _) .nil

theorem yields_ofParameters (store : AnnotationStore) (name : String) {hidden : Nat}
    {lists : Option (Array (Array AnnotationId))} (h : ∀ ls ∈ lists, hidden ≤ ls.size) :
    Yields (ofParameters store name hidden lists)
      (Part.ofParameters store name hidden lists) := by
  cases lists with
  | none => exact yields_nil
  | some ls =>
    have hshown : ((ls.size : Int) - hidden) = (ls.toList.drop hidden).length := by
      rw [length_drop, Array.length_toList, Int.ofNat_sub (h ls rfl)]
    refine yields_bytes fun _ => ⟨?_, ?_⟩
    · rw [toList_foldl fun b ids => toList_annotations store ids b, toList_putByte, hshown]
      rfl
    · rw [parametersSize_eq store (h ls rfl), length_cons]
      push_cast
      omega

namespace Method

variable {m : Method}

theorem toList_localRows (rows : Array LocalRow) :
    (rows.foldl (fun b r => ((((b.putShort r.start).putShort r.length).putShort r.name).putShort
      r.desc).putShort r.slot) (Buffer.putShort {} rows.size)).toList =
        bytes16 rows.size ++ rows.toList.flatMap LocalRow.bytes := by
  have hrow (b : Buffer) (r : LocalRow) : (((((b.putShort r.start).putShort r.length).putShort
      r.name).putShort r.desc).putShort r.slot).toList = b.toList ++ r.bytes := by
    simp only [toList_putShort', LocalRow.bytes, append_assoc]
  rw [← Array.foldl_toList, toList_foldl hrow, toList_putShort']
  rfl

theorem toList_lineRows (rows : Array LineRow) :
    (rows.foldl (fun b r => (b.putShort r.offset).putShort r.line)
      (Buffer.putShort {} rows.size)).toList =
        bytes16 rows.size ++ rows.toList.flatMap fun r => bytes16 r.offset ++ bytes16 r.line := by
  have hrow (b : Buffer) (r : LineRow) : ((b.putShort r.offset).putShort r.line).toList =
      b.toList ++ (bytes16 r.offset ++ bytes16 r.line) := by
    simp only [toList_putShort', append_assoc]
  rw [← Array.foldl_toList, toList_foldl hrow, toList_putShort']
  rfl

theorem toList_exceptions (is : List Nat) :
    (is.foldl (fun b (i : Nat) => b.putShort i) (Buffer.putShort {} is.length)).toList =
      bytes16 is.length ++ is.flatMap fun i : Nat => bytes16 i := by
  rw [toList_foldl fun b (i : Nat) => toList_putShort' b i, toList_putShort']
  rfl

theorem yields_localTable (name : String) (rows : Array LocalRow) :
    Yields (localTable name rows) (Part.when (!rows.isEmpty) name
      (.bytes (bytes16 rows.size ++ rows.toList.flatMap LocalRow.bytes))) := by
  rw [localTable]
  refine yields_bytes fun _ => ⟨toList_localRows rows, ?_⟩
  rw [length_append, length_localRows]
  push_cast
  rfl

theorem yields_lineTable (rows : Array LineRow) :
    Yields (lineTable rows) (Part.when (!rows.isEmpty) "LineNumberTable"
      (.bytes (bytes16 rows.size
        ++ rows.toList.flatMap fun r => bytes16 r.offset ++ bytes16 r.line))) := by
  rw [lineTable]
  refine yields_bytes fun _ => ⟨toList_lineRows rows, ?_⟩
  rw [length_append, length_lineRows]
  push_cast
  rfl

theorem yields_stackMapTable (m : Method) (major : Int) :
    Yields (m.stackMapTable major)
      (Part.when m.stackMap.isSome (if 50 ≤ major then "StackMapTable" else "StackMap")
        (.bytes (bytes16 m.frameCount ++ (m.stackMap.getD {}).toList))) := by
  unfold stackMapTable
  cases m.stackMap with
  | none => exact yields_nil
  | some b =>
    refine yields_bytes fun _ => ⟨by rw [toList_append, toList_putShort']; rfl, ?_⟩
    rw [length_append]
    push_cast
    rfl

theorem yields_exceptionTable (is : List Nat) :
    Yields (exceptionTable is) (Part.when (!is.isEmpty) "Exceptions"
      (.bytes (bytes16 is.length ++ is.flatMap fun i : Nat => bytes16 i))) := by
  refine yields_bytes fun _ => ⟨toList_exceptions is, ?_⟩
  rw [length_append, length_indices]
  push_cast
  exact Int.add_comm _ _

theorem yields_parameterTable (m : Method) :
    Yields m.parameterTable (Part.when m.parameters.isSome "MethodParameters"
      (.bytes (low8 m.parameterCount :: (m.parameters.getD {}).toList))) := by
  unfold parameterTable
  cases m.parameters with
  | none => exact yields_nil
  | some b => exact yields_bytes fun _ => ⟨by rw [toList_append, toList_putByte]; rfl, rfl⟩

theorem yields_defaultAttribute (m : Method) (store : AnnotationStore) :
    Yields (m.defaultAttribute store) (Part.when m.defaultValue.isSome "AnnotationDefault"
      (.bytes (store.bytesOf (m.defaultValue.getD 0)).toList)) := by
  unfold defaultAttribute
  cases m.defaultValue with
  | none => exact yields_nil
  | some id =>
    refine yields_bytes fun _ => ⟨rfl, ?_⟩
    rw [length_toList, store.size_bytesOf]
    rfl

/-! ## The code of a method -/

theorem plain_tables {p : Pool} {major : Int} {as : List Attribute}
    (h : Forall₂ (Part.Made p) (m.tables major) as) :
    Forall₂ (Part.PlainIn p) (m.tables major) as := by
  have hplain : ∀ part ∈ m.tables major, ∃ bs, part.content = .bytes bs := by
    intro part hpart
    simp only [tables, Part.when, Part.ofRaw, mem_flatten, mem_cons, not_mem_nil,
      or_false] at hpart
    obtain ⟨parts, rfl | rfl | rfl | rfl | rfl, hpart⟩ := hpart
    case inr.inr.inr.inr =>
      obtain ⟨a, -, rfl⟩ := mem_map.1 hpart
      exact ⟨_, rfl⟩
    all_goals
      split at hpart
      · obtain rfl := mem_singleton.1 hpart
        exact ⟨_, rfl⟩
      · cases hpart
  refine forall₂_mem h fun part hpart a hmade => ?_
  obtain ⟨bs, hbs⟩ := hplain part hpart
  obtain ⟨hname, hcontent, hlength⟩ := hmade
  rw [hbs] at hcontent
  exact ⟨hname, by rw [hbs, show a.content.toList = bs from hcontent], hlength⟩

theorem toList_putHandlers (m : Method) (position : LabelId → Nat) (b : Buffer) :
    (m.putHandlers position b).toList = b.toList ++
      (bytes16 m.handlers.size ++ m.handlers.toList.flatMap (Handler.bytes position)) := by
  have hrow (b : Buffer) (h : Handler) : ((((b.putShort (position h.start)).putShort
      (position h.stop)).putShort (position h.handler)).putShort h.caughtIndex).toList =
        b.toList ++ Handler.bytes position h := by
    simp only [toList_putShort', Handler.bytes, append_assoc]
  rw [putHandlers, ← Array.foldl_toList, toList_foldl hrow, toList_putShort', append_assoc]

def tableMakers (m : Method) (major : Int) : List (PoolM (List Attribute)) := [
  localTable "LocalVariableTable" m.localRows,
  localTable "LocalVariableTypeTable" m.localTypeRows,
  lineTable m.lineRows,
  m.stackMapTable major,
  ofRaw m.codeAttributes.toList]

theorem yields_tables (m : Method) (major : Int) :
    Yields (gather (m.tableMakers major)) (m.tables major) :=
  yields_gather <| .cons (yields_localTable _ _) <| .cons (yields_localTable _ _) <|
    .cons (yields_lineTable _) <| .cons (yields_stackMapTable _ _) <| .cons (yields_ofRaw _) .nil

def codeContent (m : Method) (major : Int) (position : LabelId → Nat) : PoolM Buffer := do
  let tables ← gather (m.tableMakers major)
  let b := (((Buffer.putShort {} m.maxStack).putShort m.maxLocals).putInt m.code.size).append
    m.code
  return putAll (m.putHandlers position b) m.tableCount tables

theorem codeAttribute_eq (m : Method) (major : Int) (position : LabelId → Nat) :
    m.codeAttribute major position =
      make (m.code.size != 0) "Code" m.codeLength (m.codeContent major position) := by
  simp only [codeAttribute, codeContent, tableMakers, gather, bind_assoc, pure_bind,
    append_assoc, append_nil]

theorem yields_codeAttribute (hlimit : m.code.size ≤ limit) (major : Int)
    (position : LabelId → Nat) : Yields (m.codeAttribute major position)
      (Part.when (m.code.size != 0) "Code" (.code m major position)) := by
  rw [codeAttribute_eq]
  refine yields_make fun _ p b q hp e => ?_
  obtain ⟨as, q, htables, e⟩ := e.bind
  obtain ⟨rfl, rfl⟩ := e.pure
  obtain ⟨henters, hmade⟩ := m.yields_tables major _ p as _ hp htables
  refine ⟨henters, fun hq => ?_⟩
  have hcount : m.tableCount = as.length := by
    rw [← m.length_tables major, (hmade hq).length_eq]
  have hcode : (Content.code m major position).Made q (putAll (m.putHandlers position
      ((((Buffer.putShort {} m.maxStack).putShort m.maxLocals).putInt m.code.size).append m.code))
        m.tableCount as) := by
    refine ⟨hlimit, as, ?_, plain_tables (hmade hq)⟩
    simp only [toList_putAll, toList_putHandlers, toList_append, toList_putInt,
      toList_putShort', codeBytes, toList_empty, nil_append, append_assoc, hcount]
  exact ⟨hcode, by rw [hcode.length, ← codeLength_eq]⟩

def partMakers (m : Method) (major : Int) (position : LabelId → Nat) (store : AnnotationStore) :
    List (PoolM (List Attribute)) := [
  m.codeAttribute major position,
  exceptionTable m.exceptions,
  marker "Synthetic" (wantsSyntheticAttribute m.access major),
  marker "Deprecated" (m.access.has deprecated_),
  ofSignature m.signature,
  m.parameterTable,
  m.defaultAttribute store,
  ofAnnotationLists store m.annotations,
  ofParameters store "RuntimeVisibleParameterAnnotations" m.hiddenParameters
    m.visibleParameters,
  ofParameters store "RuntimeInvisibleParameterAnnotations" m.hiddenParameters
    m.invisibleParameters,
  ofRaw m.attributes.toList]

theorem yields_parts (hlimit : m.code.size ≤ limit) (h : m.HidesWithin) (major : Int)
    (position : LabelId → Nat) (store : AnnotationStore) :
    Yields (gather (m.partMakers major position store)) (m.parts major position store) :=
  yields_gather <| .cons (yields_codeAttribute hlimit _ _) <| .cons (yields_exceptionTable _) <|
    .cons (yields_marker _ _) <| .cons (yields_marker _ _) <| .cons (yields_ofSignature _) <|
    .cons (yields_parameterTable _) <| .cons (yields_defaultAttribute _ _) <|
    .cons (yields_ofAnnotationLists _ _) <| .cons (yields_ofParameters _ _ h.visible) <|
    .cons (yields_ofParameters _ _ h.invisible) <| .cons (yields_ofRaw _) .nil

theorem toMember_eq (m : Method) (major : Int) (position : LabelId → Nat)
    (store : AnnotationStore) :
    m.toMember major position store = do
      let attributes ← gather (m.partMakers major position store)
      return { access := written m.access, nameIndex := m.nameIndex
               descIndex := m.descIndex, count := m.attributeCount major, attributes } := by
  simp only [toMember, partMakers, gather, bind_assoc, pure_bind, append_assoc,
    append_nil]

theorem ends_toMember {major : Int} {position : LabelId → Nat} {store : AnnotationStore}
    {p q : Pool} {member : Member} (hlimit : m.code.size ≤ limit) (h : m.HidesWithin)
    {counted : Prop} (hp : p.Wf { counted })
    (e : Ends (m.toMember major position store) p member q) :
    p.Enters q counted ∧ (q.failure = none → member.Made q m.access m.nameIndex m.descIndex
      (m.parts major position store)) := by
  rw [toMember_eq] at e
  obtain ⟨as, _, e₁, e⟩ := e.bind
  obtain ⟨rfl, rfl⟩ := e.pure
  obtain ⟨henters, hmade⟩ := yields_parts hlimit h major position store _ p as _ hp e₁
  refine ⟨henters, fun hq => ⟨rfl, rfl, rfl, ?_, hmade hq⟩⟩
  rw [← m.length_parts major position store, (hmade hq).length_eq]

end Method

namespace Field

def partMakers (f : Field) (major : Int) (store : AnnotationStore) :
    List (PoolM (List Attribute)) := [
  ofIndex "ConstantValue" f.valueIndex,
  marker "Synthetic" (wantsSyntheticAttribute f.access major),
  marker "Deprecated" (f.access.has deprecated_),
  ofSignature f.signature,
  ofAnnotationLists store f.annotations,
  ofRaw f.attributes.toList]

theorem yields_parts (f : Field) (major : Int) (store : AnnotationStore) :
    Yields (gather (f.partMakers major store)) (f.parts major store) :=
  yields_gather <| .cons (yields_ofIndex _ _) <| .cons (yields_marker _ _) <|
    .cons (yields_marker _ _) <| .cons (yields_ofSignature _) <|
    .cons (yields_ofAnnotationLists _ _) <| .cons (yields_ofRaw _) .nil

theorem toMember_eq (f : Field) (major : Int) (store : AnnotationStore) :
    f.toMember major store = do
      let attributes ← gather (f.partMakers major store)
      return { access := written f.access, nameIndex := f.nameIndex
               descIndex := f.descIndex, count := f.attributeCount major, attributes } := by
  simp only [toMember, partMakers, gather, bind_assoc, pure_bind, append_assoc,
    append_nil]

theorem ends_toMember {f : Field} {major : Int} {store : AnnotationStore} {p q : Pool}
    {member : Member} {counted : Prop} (hp : p.Wf { counted })
    (e : Ends (f.toMember major store) p member q) :
    p.Enters q counted ∧ (q.failure = none →
      member.Made q f.access f.nameIndex f.descIndex (f.parts major store)) := by
  rw [toMember_eq] at e
  obtain ⟨as, _, e₁, e⟩ := e.bind
  obtain ⟨rfl, rfl⟩ := e.pure
  obtain ⟨henters, hmade⟩ := f.yields_parts major store _ p as _ hp e₁
  refine ⟨henters, fun hq => ⟨rfl, rfl, rfl, ?_, hmade hq⟩⟩
  rw [← f.length_parts major store, (hmade hq).length_eq]

end Field

namespace ClassBody

variable {c : ClassBody} {major : Int} {p q : Pool} {counted : Prop}

/-- The computations of the attributes of a class whose bootstrap methods are in a pool. -/
def partMakers (c : ClassBody) (p : Pool) (major : Int) : List (PoolM (List Attribute)) := [
  make (p.bootstrapCount != 0) "BootstrapMethods" (p.bootstrapBytes.size + 2)
    (return (Buffer.putShort {} p.bootstrapCount).append p.bootstrapBytes),
  ofIndex "Signature" c.signatureIndex,
  ofIndex "SourceFile" c.sourceIndex,
  make c.sourceDebug.isSome "SourceDebugExtension" (c.sourceDebug.getD []).length
    (return Buffer.putList {} (c.sourceDebug.getD [])),
  make (c.outerIndex != 0) "EnclosingMethod" 4
    (return (Buffer.putShort {} c.outerIndex).putShort c.outerMethodIndex),
  marker "Deprecated" (c.access.has deprecated_),
  marker "Synthetic" (wantsSyntheticAttribute c.access major),
  make c.inner.isSome "InnerClasses" ((c.inner.getD {}).size + 2)
    (return (Buffer.putShort {} c.innerCount).append (c.inner.getD {})),
  ofAnnotationLists c.store c.annotations,
  ofRaw c.attributes.toList]

theorem yields_parts (c : ClassBody) (p : Pool) (major : Int) :
    Yields (gather (c.partMakers p major)) (c.parts p major) := by
  have hcounted (n : Nat) (b : Buffer) : (b.size + 2 : Int) = (bytes16 n ++ b.toList).length := by
    rw [length_append, length_toList]
    push_cast
    exact Int.add_comm _ _
  refine yields_gather <| .cons (yields_bytes fun _ => ⟨?_, hcounted _ _⟩) <|
    .cons (yields_ofIndex _ _) <| .cons (yields_ofIndex _ _) <|
    .cons (yields_bytes fun _ => ⟨?_, rfl⟩) <|
    .cons (yields_bytes fun _ => ⟨?_, rfl⟩) <| .cons (yields_marker _ _) <|
    .cons (yields_marker _ _) <|
    .cons (yields_bytes fun _ => ⟨?_, hcounted _ _⟩) <| .cons (yields_ofAnnotationLists _ _) <|
    .cons (yields_ofRaw _) .nil
  all_goals simp only [toList_append, toList_putShort', toList_putList, toList_empty,
    nil_append]

theorem ends_ownAttributes_iff {as : List Attribute} :
    Ends (c.ownAttributes major) p as q ↔
      Ends (gather (c.partMakers p major)) p as q := by
  simp only [ownAttributes, ends_bind, ends_pool_get, partMakers, gather, bind_assoc,
    pure_bind, append_assoc, append_nil]
  constructor
  · rintro ⟨_, _, ⟨rfl, rfl⟩, _, _, ⟨rfl, rfl⟩, e⟩
    exact e
  · exact fun e => ⟨_, _, ⟨rfl, rfl⟩, _, _, ⟨rfl, rfl⟩, e⟩

theorem ends_ownAttributes {as : List Attribute} (hp : p.Wf { counted })
    (e : Ends (c.ownAttributes major) p as q) :
    p.Enters q counted ∧ (q.failure = none → Forall₂ (Part.Made q) (c.parts p major) as) :=
  c.yields_parts p major _ p as q hp (ends_ownAttributes_iff.1 e)

def methodOf (c : ClassBody) (id : MethodId) : Method := (c.methods[id]?).getD default

def positionIn (s : Session) (l : LabelId) : Nat := (s.labels[l]?.map (·.position)).getD 0

theorem ends_fieldMembers {fs : List Field} {ms : List Member} (hp : p.Wf { counted })
    (e : Ends (c.fieldMembers major fs) p ms q) :
    p.Enters q counted ∧ (q.failure = none → Forall₂ (fun f member =>
      member.Made q f.access f.nameIndex f.descIndex (f.parts major c.store)) fs ms) := by
  induction fs generalizing p ms with
  | nil =>
    obtain ⟨rfl, rfl⟩ := e.pure
    exact ⟨.refl hp, fun _ => .nil⟩
  | cons f fs ih =>
    obtain ⟨m, p₁, e₁, e⟩ := e.bind
    obtain ⟨ms', p₂, e₂, e⟩ := e.bind
    obtain ⟨rfl, rfl⟩ := e.pure
    obtain ⟨h₁, hmade⟩ := Field.ends_toMember hp e₁
    obtain ⟨h₂, hrest⟩ := ih h₁.wf e₂
    exact ⟨h₁.trans h₂, fun hq =>
      .cons ((hmade (h₂.extend.no_failure hq)).mono h₂.extend) (hrest hq)⟩

theorem ends_methodMembers {s : Session} {ids : List MethodId} {ms : List Member}
    (hlimit : ∀ id ∈ ids, (c.methodOf id).code.size ≤ Method.limit)
    (hhides : ∀ id ∈ ids, (c.methodOf id).HidesWithin) (hp : p.Wf { counted })
    (e : Ends (c.methodMembers s ids) p ms q) :
    p.Enters q counted ∧ (q.failure = none → Forall₂ (fun id member =>
      member.Made q (c.methodOf id).access (c.methodOf id).nameIndex (c.methodOf id).descIndex
        ((c.methodOf id).parts s.major (positionIn s) c.store)) ids ms) := by
  induction ids generalizing p ms with
  | nil =>
    obtain ⟨rfl, rfl⟩ := e.pure
    exact ⟨.refl hp, fun _ => .nil⟩
  | cons id ids ih =>
    obtain ⟨m, p₁, e₁, e⟩ := e.bind
    obtain ⟨ms', p₂, e₂, e⟩ := e.bind
    obtain ⟨rfl, rfl⟩ := e.pure
    obtain ⟨h₁, hmade⟩ :=
      Method.ends_toMember (hlimit id mem_cons_self) (hhides id mem_cons_self) hp e₁
    obtain ⟨h₂, hrest⟩ := ih (fun id hid => hlimit id (mem_cons_of_mem _ hid))
      (fun id hid => hhides id (mem_cons_of_mem _ hid)) h₁.wf e₂
    exact ⟨h₁.trans h₂, fun hq =>
      .cons ((hmade (h₂.extend.no_failure hq)).mono h₂.extend) (hrest hq)⟩

structure MadeInto (c : ClassBody) (s : Session) (q : Pool) (file : ClassFile) : Prop where
  version : file.version = s.version
  poolCount : file.poolCount = q.count
  poolBytes : file.poolBytes = q.bytes
  access : file.access = Access.written c.access
  thisIndex : file.thisIndex = c.thisIndex
  superIndex : file.superIndex = c.superIndex
  interfaces : file.interfaces = c.interfaces
  fields : Forall₂ (fun f member =>
    member.Made q f.access f.nameIndex f.descIndex (f.parts s.major c.store))
      c.fields.toList file.fields
  methods : Forall₂ (fun id member =>
    member.Made q (c.methodOf id).access (c.methodOf id).nameIndex (c.methodOf id).descIndex
      ((c.methodOf id).parts s.major (positionIn s) c.store)) c.written.toList file.methods
  attributeCount : file.attributeCount = file.attributes.length
  attributes : Forall₂ (Part.Made q) (c.parts q s.major) file.attributes

theorem Enters.parts_eq (h : p.Enters q counted) (c : ClassBody) (major : Int) :
    c.parts q major = c.parts p major := by
  simp only [parts, h.count, h.bootstraps]

theorem madeInto_toClassFile {s : Session} {file : ClassFile}
    (hlimit : ∀ id ∈ c.written, (c.methodOf id).code.size ≤ Method.limit)
    (hhides : ∀ id ∈ c.written, (c.methodOf id).HidesWithin) (hwf : q.Wf { counted })
    (hq : q.failure = none) (e : Ends (c.toClassFile s) q file q) : c.MadeInto s q file := by
  obtain ⟨_, _, h, e⟩ := e.bind
  obtain ⟨rfl, rfl⟩ := ends_pool_get.1 h
  obtain ⟨fields, p₁, e₁, e⟩ := e.bind
  obtain ⟨methods, p₂, e₂, e⟩ := e.bind
  obtain ⟨attributes, p₃, e₃, e⟩ := e.bind
  obtain ⟨rfl, rfl⟩ := e.pure
  obtain ⟨h₁, hfields⟩ := ends_fieldMembers hwf e₁
  obtain ⟨h₂, hmethods⟩ :=
    ends_methodMembers (fun id hid => hlimit id (Array.mem_toList_iff.1 hid))
      (fun id hid => hhides id (Array.mem_toList_iff.1 hid)) h₁.wf e₂
  obtain ⟨h₃, hown⟩ := ends_ownAttributes h₂.wf e₃
  have h₂₃ := h₂.trans h₃
  have hattributes := hown hq
  rw [← Enters.parts_eq h₃] at hattributes
  refine ⟨rfl, rfl, rfl, rfl, rfl, rfl, rfl, ?_, ?_, ?_, hattributes⟩
  · exact (hfields (h₂₃.extend.no_failure hq)).imp fun _ _ hm => hm.mono h₂₃.extend
  · exact (hmethods (h₃.extend.no_failure hq)).imp fun _ _ hm => hm.mono h₃.extend
  · rw [← c.length_parts _ s.major, hattributes.length_eq]

end ClassBody

end ClassAssembler
